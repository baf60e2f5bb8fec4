import IPv4Media.Library.CyclicStore
import IPv4Media.Library.Octets

/-! struct ring_buffer of client.h with ring_buffer_init (client.c), the locked
part of ring_buffer_write (recv_thr.c) behind its wait loop, and the locked part of
ring_buffer_read (writer_thr.c) behind its wait loop. A memcpy that leaves data[]
has no result. The waits themselves are steps of the threads. -/
namespace IPv4Media.ClientRing
open Octets CyclicStore

def ringBufferSize : Nat := 2 * 1024 * 1024

structure RingBuffer where
  data : Nat → UInt8
  head : Nat
  tail : Nat
  count : Nat

def ringBufferInit : RingBuffer := ⟨fun _ => 0,0,0,0⟩

def memcpyTo (data : Nat → UInt8) (start : Nat) (src : Bytes) : Option (Nat → UInt8) :=
  if start + src.length ≤ ringBufferSize then some (place data start src) else none

def memcpyFrom (data : Nat → UInt8) (start n : Nat) : Option Bytes :=
  if start + n ≤ ringBufferSize then some (segment data start n) else none

-- The condition of the wait loop of ring_buffer_write.
def mustWait (rb : RingBuffer) (len : Nat) : Bool := decide (rb.count + len > ringBufferSize)

def ringBufferWrite (rb : RingBuffer) (src : Bytes) : Option RingBuffer :=
  let len := src.length
  let available := ringBufferSize - rb.tail
  if len ≤ available then do
    let data ← memcpyTo rb.data rb.tail src
    some { rb with data, tail := (rb.tail + len) % ringBufferSize, count := rb.count + len }
  else do
    let first ← memcpyTo rb.data rb.tail (src.take available)
    let data ← memcpyTo first 0 (src.drop available)
    some { rb with data, tail := len - available, count := rb.count + len }

def ringBufferRead (rb : RingBuffer) (maxLen : Nat) : Option (Bytes × RingBuffer) :=
  let len := if rb.count < maxLen then rb.count else maxLen
  let available := ringBufferSize - rb.head
  if len ≤ available then do
    let out ← memcpyFrom rb.data rb.head len
    some (out,{ rb with head := (rb.head + len) % ringBufferSize, count := rb.count - len })
  else do
    let first ← memcpyFrom rb.data rb.head available
    let rest ← memcpyFrom rb.data 0 (len - available)
    some (first ++ rest,{ rb with head := len - available, count := rb.count - len })

structure Valid (rb : RingBuffer) : Prop where
  head : rb.head < ringBufferSize
  count : rb.count ≤ ringBufferSize
  tail : rb.tail = (rb.head + rb.count) % ringBufferSize

/- What the ring is for: a queue of octets, read from head for count cells. -/
def queue (rb : RingBuffer) : Bytes := window ringBufferSize rb.data rb.head rb.count

theorem sizePositive : 0 < ringBufferSize := by decide

theorem tailInside {rb} (valid : Valid rb) : rb.tail < ringBufferSize := by
  rw [valid.tail]
  exact Nat.mod_lt _ sizePositive

theorem initValid : Valid ringBufferInit := ⟨by decide,by decide,by decide⟩

@[simp] theorem initQueue : queue ringBufferInit = [] := rfl

@[simp] theorem queueLength (rb : RingBuffer) : (queue rb).length = rb.count := windowLength _ _ _ _

theorem memcpyToInside {data start} {src : Bytes} (inside : start + src.length ≤ ringBufferSize) :
    memcpyTo data start src = some (place data start src) := if_pos inside

theorem memcpyFromInside {data start n} (inside : start + n ≤ ringBufferSize) :
    memcpyFrom data start n = some (segment data start n) := if_pos inside

/- One specification for both cases of the write: no memcpy leaves data[], the
indices stay related and exactly src is appended. -/
theorem writeAppends {rb} (valid : Valid rb) {src : Bytes}
    (room : rb.count + src.length ≤ ringBufferSize) :
    ∃ next, ringBufferWrite rb src = some next ∧ Valid next ∧ queue next = queue rb ++ src := by
  have inside := tailInside valid
  have where_ := valid.tail
  unfold ringBufferWrite
  by_cases straight : src.length ≤ ringBufferSize - rb.tail
  · simp only [if_pos straight,memcpyToInside (by omega : rb.tail + src.length ≤ ringBufferSize),
      Option.bind_eq_bind,Option.bind_some]
    refine ⟨_,rfl,⟨valid.head,room,?_⟩,?_⟩
    · simp only [where_,Nat.mod_add_mod,Nat.add_assoc]
    · simp only [queue,where_]
      exact appendStraight rb.data valid.head room (by rw [← where_]; omega)
  · have first : rb.tail + (src.take (ringBufferSize - rb.tail)).length ≤ ringBufferSize := by
      simp only [List.length_take]
      omega
    have second : 0 + (src.drop (ringBufferSize - rb.tail)).length ≤ ringBufferSize := by
      simp only [List.length_drop]
      omega
    simp only [if_neg straight,memcpyToInside first,memcpyToInside second,Option.bind_eq_bind,
      Option.bind_some]
    refine ⟨_,rfl,⟨valid.head,room,?_⟩,?_⟩
    · have past : rb.head + (rb.count + src.length) =
          (rb.head + rb.count) + src.length := by omega
      have wrapped : rb.tail + src.length = (src.length - (ringBufferSize - rb.tail)) + ringBufferSize := by
        omega
      simp only
      rw [past,← Nat.mod_add_mod,← where_,wrapped,Nat.add_mod_right,Nat.mod_eq_of_lt (by omega)]
    · simp only [queue,where_]
      exact appendWrapped rb.data valid.head room (by rw [← where_]; omega)

-- The explicit minimum of ring_buffer_read is the one take and drop make.
theorem clamped (bs : Bytes) (maxLen : Nat) :
    bs.take maxLen = bs.take (if bs.length < maxLen then bs.length else maxLen) ∧
    bs.drop maxLen = bs.drop (if bs.length < maxLen then bs.length else maxLen) := by
  split
  · rename_i short
    rw [List.take_of_length_le (by omega),List.take_length,List.drop_eq_nil_of_le (by omega),List.drop_length]
    exact ⟨rfl,rfl⟩
  · exact ⟨rfl,rfl⟩

theorem readTakes {rb} (valid : Valid rb) (maxLen : Nat) :
    ∃ next, ringBufferRead rb maxLen = some ((queue rb).take maxLen,next) ∧ Valid next ∧
      queue next = (queue rb).drop maxLen := by
  have inside := valid.head
  have bounded := valid.count
  obtain ⟨len,hlen⟩ : ∃ len, len = if rb.count < maxLen then rb.count else maxLen := ⟨_,rfl⟩
  have within : len ≤ rb.count := by split at hlen <;> omega
  obtain ⟨taken,dropped⟩ := clamped (queue rb) maxLen
  rw [queueLength,← hlen] at taken dropped
  rw [taken,dropped]
  unfold ringBufferRead
  simp only [← hlen]
  by_cases straight : len ≤ ringBufferSize - rb.head
  · have split := takeStraight rb.data within (by omega : rb.head + len ≤ ringBufferSize)
    have size : (segment rb.data rb.head len).length = len := segmentLength _ _ _
    simp only [if_pos straight,memcpyFromInside (by omega : rb.head + len ≤ ringBufferSize),
      Option.bind_eq_bind,Option.bind_some,queue,split,List.take_left' size,List.drop_left' size]
    refine ⟨_,rfl,⟨Nat.mod_lt _ sizePositive,by simp only; omega,?_⟩,rfl⟩
    simp only [valid.tail,Nat.mod_add_mod]
    congr 1
    omega
  · have split := takeWrapped rb.data (by omega : rb.head ≤ ringBufferSize) within bounded
      (by omega : ringBufferSize - rb.head ≤ len)
    have size : (segment rb.data rb.head (ringBufferSize - rb.head) ++
        segment rb.data 0 (len - (ringBufferSize - rb.head))).length = len := by
      simp only [List.length_append,segmentLength]
      omega
    simp only [if_neg straight,memcpyFromInside (by omega : rb.head + (ringBufferSize - rb.head) ≤ ringBufferSize),
      memcpyFromInside (by omega : 0 + (len - (ringBufferSize - rb.head)) ≤ ringBufferSize),
      Option.bind_eq_bind,Option.bind_some,queue,split,List.take_left' size,List.drop_left' size]
    refine ⟨_,rfl,⟨by simp only; omega,by simp only; omega,?_⟩,rfl⟩
    have around : rb.head + rb.count =
        (len - (ringBufferSize - rb.head) + (rb.count - len)) + ringBufferSize := by omega
    simp only [valid.tail]
    rw [around,Nat.add_mod_right]

end IPv4Media.ClientRing
