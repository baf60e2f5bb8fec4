import IPv4Media.RingCalls

/-! ring_buffer_write (recv_thr.c) and ring_buffer_read (writer_thr.c) statement by statement.
In RingCalls all that happens between two waits is one step; here each octet of each memcpy
and each access to the indices is one, and the other thread and stats_thread move between. -/
namespace IPv4Media.RingStatements
open Octets CyclicStore ClientRing QueueCalls RingCalls Execution

inductive Side
  | producer
  | consumer
  deriving DecidableEq, Repr

/- Where ring_buffer_write is, named by the statement that comes next. A thread in
pthread_cond_timedwait is asleep; woken or expired, it stands before the mutex. -/
inductive Write
  | idle
  | lock (src : Bytes)
  | test (src : Bytes)
  | asleep (src : Bytes)
  | woken (src : Bytes)
  | expired (src : Bytes)
  | late (src : Bytes)
  | available (src : Bytes)
  | copy (src : Bytes) (available i : Nat)
  | wrap (src : Bytes) (available i : Nat)
  | tail (src : Bytes) (available : Nat)
  | load (src : Bytes)
  | store (src : Bytes) (count : Nat)
  | signal (src : Bytes)
  | unlock (src : Bytes)
  deriving DecidableEq, Repr

inductive Read
  | idle
  | lock (maxLen : Nat)
  | test (maxLen : Nat)
  | asleep (maxLen : Nat)
  | woken (maxLen : Nat)
  | len (maxLen : Nat)
  | available (maxLen len : Nat)
  | copy (maxLen len available : Nat) (out : Bytes)
  | wrap (maxLen len available : Nat) (out : Bytes)
  | head (maxLen len available : Nat) (out : Bytes)
  | load (maxLen len : Nat) (out : Bytes)
  | store (maxLen len count : Nat) (out : Bytes)
  | signal (maxLen : Nat) (out : Bytes)
  | unlock (maxLen : Nat) (out : Bytes)
  deriving DecidableEq, Repr

structure Ring where
  rb : RingBuffer
  mutex : Option Side
  write : Write
  read : Read
  done : List (Done UInt8)

inductive Event
  | beginPut (src : Bytes)
  | put
  | wakePut
  | expire
  | beginTake (maxLen : Nat)
  | take
  | wakeTake
  deriving DecidableEq, Repr

def start : Ring := ⟨ringBufferInit,none,.idle,.idle,[]⟩

def signalNotEmpty : Read → Read
  | .asleep maxLen => .woken maxLen
  | pc => pc

def signalNotFull : Write → Write
  | .asleep src => .woken src
  | pc => pc

/- An octet goes to data[i], or comes from there; behind data[] nothing is defined. -/
def setOctet (data : Nat → UInt8) (i : Nat) (b : UInt8) : Option (Nat → UInt8) :=
  if i < ringBufferSize then some (Function.update data i b) else none

def getOctet (data : Nat → UInt8) (i : Nat) : Option UInt8 := if i < ringBufferSize then some (data i) else none

def lockAs (s : Ring) (side : Side) : Option Ring := if s.mutex = none then some { s with mutex := some side } else none

def statementOfWrite (s : Ring) : Write → Option Ring
  | .idle => none
  | .lock src => (lockAs s .producer).map fun u => { u with write := .test src }
  | .test src =>
    if mustWait s.rb src.length then some { s with mutex := none, write := .asleep src }
    else some { s with write := .available src }
  | .asleep _ => none
  | .woken src => (lockAs s .producer).map fun u => { u with write := .test src }
  | .expired src => (lockAs s .producer).map fun u => { u with write := .late src }
  | .late src => some { s with mutex := none, write := .idle, done := s.done ++ [.put src (-1)] }
  | .available src => some { s with write := .copy src (ringBufferSize - s.rb.tail) 0 }
  | .copy src available i =>
    if i < available then
      match src[i]? with
      | some b => do
        let data ← setOctet s.rb.data (s.rb.tail + i) b
        some { s with rb := { s.rb with data }, write := .copy src available (i+1) }
      | none => some { s with write := .tail src available }
    else if src.length ≤ available then some { s with write := .tail src available }
    else some { s with write := .wrap src available 0 }
  | .wrap src available i =>
    match src[available + i]? with
    | some b => do
      let data ← setOctet s.rb.data i b
      some { s with rb := { s.rb with data }, write := .wrap src available (i+1) }
    | none => some { s with write := .tail src available }
  | .tail src available =>
    let tail := if src.length ≤ available then (s.rb.tail + src.length) % ringBufferSize else src.length - available
    some { s with rb := { s.rb with tail }, write := .load src }
  | .load src => some { s with write := .store src s.rb.count }
  | .store src count => some { s with rb := { s.rb with count := count + src.length }, write := .signal src }
  | .signal src => some { s with write := .unlock src, read := signalNotEmpty s.read }
  | .unlock src => some { s with mutex := none, write := .idle, done := s.done ++ [.put src 0] }

def statementOfRead (s : Ring) : Read → Option Ring
  | .idle => none
  | .lock maxLen => (lockAs s .consumer).map fun u => { u with read := .test maxLen }
  | .test maxLen =>
    if s.rb.count = 0 then some { s with mutex := none, read := .asleep maxLen } else some { s with read := .len maxLen }
  | .asleep _ => none
  | .woken maxLen => (lockAs s .consumer).map fun u => { u with read := .test maxLen }
  | .len maxLen => some { s with read := .available maxLen (if s.rb.count < maxLen then s.rb.count else maxLen) }
  | .available maxLen len => some { s with read := .copy maxLen len (ringBufferSize - s.rb.head) [] }
  | .copy maxLen len available out =>
    if out.length < len ∧ out.length < available then do
      let b ← getOctet s.rb.data (s.rb.head + out.length)
      some { s with read := .copy maxLen len available (out ++ [b]) }
    else if len ≤ available then some { s with read := .head maxLen len available out }
    else some { s with read := .wrap maxLen len available out }
  | .wrap maxLen len available out =>
    if out.length < len then do
      let b ← getOctet s.rb.data (out.length - available)
      some { s with read := .wrap maxLen len available (out ++ [b]) }
    else some { s with read := .head maxLen len available out }
  | .head maxLen len available out =>
    let head := if len ≤ available then (s.rb.head + len) % ringBufferSize else len - available
    some { s with rb := { s.rb with head }, read := .load maxLen len out }
  | .load maxLen len out => some { s with read := .store maxLen len s.rb.count out }
  | .store maxLen len count out =>
    some { s with rb := { s.rb with count := count - len }, read := .signal maxLen out }
  | .signal maxLen out => some { s with read := .unlock maxLen out, write := signalNotFull s.write }
  | .unlock maxLen out => some { s with mutex := none, read := .idle, done := s.done ++ [.take maxLen out] }

def next (s : Ring) : Event → Option Ring
  | .beginPut src => if s.write = .idle ∧ src.length ≤ ringBufferSize then some { s with write := .lock src } else none
  | .put => statementOfWrite s s.write
  | .wakePut => match s.write with
    | .asleep src => some { s with write := .woken src }
    | _ => none
  | .expire => match s.write with
    | .asleep src => some { s with write := .expired src }
    | _ => none
  | .beginTake maxLen => if s.read = .idle then some { s with read := .lock maxLen } else none
  | .take => statementOfRead s s.read
  | .wakeTake => match s.read with
    | .asleep maxLen => some { s with read := .woken maxLen }
    | _ => none

/- What a statement is for the level of whole sections: each section happens where it
signals, or where it begins to wait or gives up. -/
def deed (s : Ring) : Event → Option (QueueCalls.Event UInt8)
  | .beginPut src => some (.beginPut src)
  | .put => match s.write with
    | .test src => if mustWait s.rb src.length then some .sleepPut else none
    | .signal _ => some .put
    | .late _ => some .giveUp
    | _ => none
  | .wakePut => some .wakePut
  | .expire => some .expire
  | .beginTake maxLen => some (.beginTake maxLen)
  | .take => match s.read with
    | .test _ => if s.rb.count = 0 then some .sleepTake else none
    | .signal _ _ => some .take
    | _ => none
  | .wakeTake => some .wakeTake

def written (old : RingBuffer) (src : Bytes) : RingBuffer :=
  let available := ringBufferSize - old.tail
  if src.length ≤ available then
    ⟨place old.data old.tail src,old.head,(old.tail + src.length) % ringBufferSize,old.count + src.length⟩
  else
    ⟨place (place old.data old.tail (src.take available)) 0 (src.drop available),old.head,src.length - available,
      old.count + src.length⟩

def clamp (old : RingBuffer) (maxLen : Nat) : Nat := if old.count < maxLen then old.count else maxLen

def taken (old : RingBuffer) (len : Nat) : Bytes × RingBuffer :=
  let available := ringBufferSize - old.head
  if len ≤ available then
    (segment old.data old.head len,
      { old with head := (old.head + len) % ringBufferSize, count := old.count - len })
  else
    (segment old.data old.head available ++ segment old.data 0 (len - available),
      { old with head := len - available, count := old.count - len })

theorem writtenMade {old : RingBuffer} {src : Bytes} (valid : Valid old) (room : mustWait old src.length = false) :
    ringBufferWrite old src = some (written old src) := by
  have inside := tailInside valid
  have fits := of_decide_eq_false room
  unfold ringBufferWrite written
  by_cases straight : src.length ≤ ringBufferSize - old.tail
  · simp only [if_pos straight,memcpyToInside (by omega : old.tail + src.length ≤ ringBufferSize),
      Option.bind_eq_bind,Option.bind_some]
  · have first : old.tail + (src.take (ringBufferSize - old.tail)).length ≤ ringBufferSize := by
      rw [List.length_take]
      omega
    have second : 0 + (src.drop (ringBufferSize - old.tail)).length ≤ ringBufferSize := by
      rw [List.length_drop]
      omega
    simp only [if_neg straight,memcpyToInside first,memcpyToInside second,Option.bind_eq_bind,Option.bind_some]

theorem takenMade {old : RingBuffer} {maxLen : Nat} (valid : Valid old) :
    ringBufferRead old maxLen = some (taken old (clamp old maxLen)) := by
  have inside := valid.head
  have bounded := valid.count
  have within : clamp old maxLen ≤ old.count := by
    unfold clamp
    split <;> omega
  have same : (if old.count < maxLen then old.count else maxLen) = clamp old maxLen := rfl
  simp only [ringBufferRead,same,taken]
  by_cases straight : clamp old maxLen ≤ ringBufferSize - old.head
  · simp only [if_pos straight,memcpyFromInside (by omega : old.head + clamp old maxLen ≤ ringBufferSize),
      Option.bind_eq_bind,Option.bind_some]
  · simp only [if_neg straight,memcpyFromInside (by omega : old.head + (ringBufferSize - old.head) ≤ ringBufferSize),
      memcpyFromInside (by omega : 0 + (clamp old maxLen - (ringBufferSize - old.head)) ≤ ringBufferSize),
      Option.bind_eq_bind,Option.bind_some]

def Writing (old rb : RingBuffer) : Write → Prop
  | .available src => mustWait old src.length = false ∧ rb = old
  | .copy src available i => mustWait old src.length = false ∧ available = ringBufferSize - old.tail ∧ i ≤ src.length ∧
    i ≤ available ∧ rb = { old with data := place old.data old.tail (src.take i) }
  | .wrap src available i => mustWait old src.length = false ∧ available = ringBufferSize - old.tail ∧
    available < src.length ∧ available + i ≤ src.length ∧
    rb = { old with data := place (place old.data old.tail (src.take available)) 0 ((src.drop available).take i) }
  | .tail src available => mustWait old src.length = false ∧ available = ringBufferSize - old.tail ∧
    rb = { old with data := (written old src).data }
  | .load src => mustWait old src.length = false ∧ rb = { written old src with count := old.count }
  | .store src count => mustWait old src.length = false ∧ count = old.count ∧
    rb = { written old src with count := old.count }
  | .signal src => mustWait old src.length = false ∧ rb = written old src
  | _ => rb = old

def Reading (old rb : RingBuffer) : Read → Prop
  | .len _ => old.count ≠ 0 ∧ rb = old
  | .available maxLen len => old.count ≠ 0 ∧ len = clamp old maxLen ∧ rb = old
  | .copy maxLen len available out => old.count ≠ 0 ∧ len = clamp old maxLen ∧ available = ringBufferSize - old.head ∧
    out.length ≤ len ∧ out.length ≤ available ∧ out = segment old.data old.head out.length ∧ rb = old
  | .wrap maxLen len available out => old.count ≠ 0 ∧ len = clamp old maxLen ∧ available = ringBufferSize - old.head ∧
    available < len ∧ available ≤ out.length ∧ out.length ≤ len ∧
    out = segment old.data old.head available ++ segment old.data 0 (out.length - available) ∧ rb = old
  | .head maxLen len available out => old.count ≠ 0 ∧ len = clamp old maxLen ∧ available = ringBufferSize - old.head ∧
    out = (taken old len).1 ∧ rb = old
  | .load maxLen len out => old.count ≠ 0 ∧ len = clamp old maxLen ∧ out = (taken old len).1 ∧
    rb = { (taken old len).2 with count := old.count }
  | .store maxLen len count out => old.count ≠ 0 ∧ len = clamp old maxLen ∧ count = old.count ∧
    out = (taken old len).1 ∧ rb = { (taken old len).2 with count := old.count }
  | .signal maxLen out => old.count ≠ 0 ∧ (out,rb) = taken old (clamp old maxLen)
  | _ => rb = old

/- Where the call is for the level of whole sections, whether it has the mutex, and what it
has done there and will return here only after the unlock. -/
def writeAs : Write → Producer UInt8
  | .idle => .idle
  | .asleep src => .wait src
  | .expired src => .expired src
  | .late src => .expired src
  | .unlock _ => .idle
  | .lock src => .test src
  | .test src => .test src
  | .woken src => .test src
  | .available src => .test src
  | .copy src _ _ => .test src
  | .wrap src _ _ => .test src
  | .tail src _ => .test src
  | .load src => .test src
  | .store src _ => .test src
  | .signal src => .test src

def readAs : Read → Consumer
  | .idle => .idle
  | .asleep maxLen => .wait maxLen
  | .unlock _ _ => .idle
  | .lock maxLen => .test maxLen
  | .test maxLen => .test maxLen
  | .woken maxLen => .test maxLen
  | .len maxLen => .test maxLen
  | .available maxLen _ => .test maxLen
  | .copy maxLen _ _ _ => .test maxLen
  | .wrap maxLen _ _ _ => .test maxLen
  | .head maxLen _ _ _ => .test maxLen
  | .load maxLen _ _ => .test maxLen
  | .store maxLen _ _ _ => .test maxLen
  | .signal maxLen _ => .test maxLen

def writeHolds : Write → Bool
  | .idle => false
  | .lock _ => false
  | .asleep _ => false
  | .woken _ => false
  | .expired _ => false
  | _ => true

def readHolds : Read → Bool
  | .idle => false
  | .lock _ => false
  | .asleep _ => false
  | .woken _ => false
  | _ => true

def writeOwes : Write → List (Done UInt8)
  | .unlock src => [.put src 0]
  | _ => []

def readOwes : Read → List (Done UInt8)
  | .unlock maxLen out => [.take maxLen out]
  | _ => []

structure Related (s : Ring) (a : Calls RingBuffer UInt8) : Prop where
  valid : Valid a.store
  producer : a.producer = writeAs s.write
  consumer : a.consumer = readAs s.read
  done : a.done = s.done ++ (writeOwes s.write ++ readOwes s.read)
  writes : s.mutex = some .producer ↔ writeHolds s.write = true
  reads : s.mutex = some .consumer ↔ readHolds s.read = true
  free : s.mutex = none → s.rb = a.store
  writing : s.mutex = some .producer → Writing a.store s.rb s.write
  reading : s.mutex = some .consumer → Reading a.store s.rb s.read

theorem oneSide {s : Ring} {a : Calls RingBuffer UInt8} (related : Related s a) (mine : s.mutex = some .producer) :
    readHolds s.read = false := by
  cases theirs : readHolds s.read with
  | false => rfl
  | true =>
    rw [related.reads.mpr theirs] at mine
    contradiction

theorem otherSide {s : Ring} {a : Calls RingBuffer UInt8} (related : Related s a) (mine : s.mutex = some .consumer) :
    writeHolds s.write = false := by
  cases theirs : writeHolds s.write with
  | false => rfl
  | true =>
    rw [related.writes.mpr theirs] at mine
    contradiction

theorem readOwesNone {pc : Read} (outside : readHolds pc = false) : readOwes pc = [] := by
  cases pc <;> first | rfl | contradiction

theorem writeOwesNone {pc : Write} (outside : writeHolds pc = false) : writeOwes pc = [] := by
  cases pc <;> first | rfl | contradiction

theorem writeInside {s : Ring} {a : Calls RingBuffer UInt8} {rb : RingBuffer} {pc : Write} (related : Related s a)
    (mine : s.mutex = some .producer) (same : writeAs pc = writeAs s.write) (holds : writeHolds pc = true)
    (owes : writeOwes pc = writeOwes s.write) (writing : Writing a.store rb pc) :
    Related { s with rb, write := pc } a := by
  refine ⟨related.valid,related.producer.trans same.symm,related.consumer,?_,?_,related.reads,?_,fun _ => writing,?_⟩
  · simp only [owes]
    exact related.done
  · simp only [holds,iff_true]
    exact mine
  · simp [mine]
  · simp [mine]

theorem readInside {s : Ring} {a : Calls RingBuffer UInt8} {rb : RingBuffer} {pc : Read} (related : Related s a)
    (mine : s.mutex = some .consumer) (same : readAs pc = readAs s.read) (holds : readHolds pc = true)
    (owes : readOwes pc = readOwes s.read) (reading : Reading a.store rb pc) :
    Related { s with rb, read := pc } a := by
  refine ⟨related.valid,related.producer,related.consumer.trans same.symm,?_,related.writes,?_,?_,?_,fun _ => reading⟩
  · simp only [owes]
    exact related.done
  · simp only [holds,iff_true]
    exact mine
  · simp [mine]
  · simp [mine]

theorem writeOutside {s : Ring} {a b : Calls RingBuffer UInt8} {pc : Write} (related : Related s a)
    (before : writeHolds s.write = false) (after : writeHolds pc = false) (store : b.store = a.store)
    (producer : b.producer = writeAs pc) (consumer : b.consumer = a.consumer) (done : b.done = a.done) :
    Related { s with write := pc } b := by
  have away : s.mutex ≠ some .producer := by
    intro mine
    rw [related.writes.mp mine] at before
    contradiction
  refine ⟨by rw [store]; exact related.valid,producer,consumer.trans related.consumer,?_,?_,related.reads,?_,?_,?_⟩
  · rw [done,related.done,writeOwesNone before]
    simp only [writeOwesNone after]
  · simp [away,after]
  · rw [store]
    exact related.free
  · exact fun mine => absurd mine away
  · rw [store]
    exact related.reading

theorem readOutside {s : Ring} {a b : Calls RingBuffer UInt8} {pc : Read} (related : Related s a)
    (before : readHolds s.read = false) (after : readHolds pc = false) (store : b.store = a.store)
    (producer : b.producer = a.producer) (consumer : b.consumer = readAs pc) (done : b.done = a.done) :
    Related { s with read := pc } b := by
  have away : s.mutex ≠ some .consumer := by
    intro mine
    rw [related.reads.mp mine] at before
    contradiction
  refine ⟨by rw [store]; exact related.valid,producer.trans related.producer,consumer,?_,related.writes,?_,?_,?_,?_⟩
  · rw [done,related.done,readOwesNone before]
    simp only [readOwesNone after]
  · simp [away,after]
  · rw [store]
    exact related.free
  · rw [store]
    exact related.writing
  · exact fun mine => absurd mine away

theorem writeLocks {s u : Ring} {a : Calls RingBuffer UInt8} {pc : Write} (related : Related s a)
    (locked : (lockAs s .producer).map (fun u => { u with write := pc }) = some u)
    (before : writeHolds s.write = false) (same : writeAs pc = writeAs s.write) (holds : writeHolds pc = true)
    (owes : writeOwes pc = []) (writing : ∀ rb, Writing rb rb pc) : Related u a := by
  unfold lockAs at locked
  split at locked <;> try contradiction
  rename_i free
  cases Option.some.inj locked
  refine ⟨related.valid,related.producer.trans same.symm,related.consumer,?_,by simp [holds],?_,?_,?_,?_⟩
  · rw [related.done,writeOwesNone before,owes]
  · have outside : readHolds s.read = false := by
      cases theirs : readHolds s.read with
      | false => rfl
      | true =>
        rw [related.reads.mpr theirs] at free
        contradiction
    simp [outside]
  · simp
  · intro _
    simp only [related.free free]
    exact writing a.store
  · simp

theorem readLocks {s u : Ring} {a : Calls RingBuffer UInt8} {pc : Read} (related : Related s a)
    (locked : (lockAs s .consumer).map (fun u => { u with read := pc }) = some u)
    (before : readHolds s.read = false) (same : readAs pc = readAs s.read) (holds : readHolds pc = true)
    (owes : readOwes pc = []) (reading : ∀ rb, Reading rb rb pc) : Related u a := by
  unfold lockAs at locked
  split at locked <;> try contradiction
  rename_i free
  cases Option.some.inj locked
  refine ⟨related.valid,related.producer,related.consumer.trans same.symm,?_,?_,by simp [holds],?_,?_,?_⟩
  · rw [related.done,readOwesNone before,owes]
  · have outside : writeHolds s.write = false := by
      cases theirs : writeHolds s.write with
      | false => rfl
      | true =>
        rw [related.writes.mpr theirs] at free
        contradiction
    simp [outside]
  · simp
  · simp
  · intro _
    simp only [related.free free]
    exact reading a.store

theorem writeUnlocks {s : Ring} {a b : Calls RingBuffer UInt8} {pc : Write} {done : List (Done UInt8)}
    (related : Related s a) (mine : s.mutex = some .producer) (still : s.rb = a.store) (after : writeHolds pc = false)
    (store : b.store = a.store) (producer : b.producer = writeAs pc) (consumer : b.consumer = a.consumer)
    (returned : b.done = done) : Related { s with mutex := none, write := pc, done } b := by
  have outside := oneSide related mine
  refine ⟨by rw [store]; exact related.valid,producer,consumer.trans related.consumer,?_,by simp [after],by simp [outside],
    ?_,by simp,by simp⟩
  · simp only [returned,writeOwesNone after,readOwesNone outside,List.append_nil]
  · rw [store]
    exact fun _ => still

theorem readUnlocks {s : Ring} {a b : Calls RingBuffer UInt8} {pc : Read} {done : List (Done UInt8)}
    (related : Related s a) (mine : s.mutex = some .consumer) (still : s.rb = a.store) (after : readHolds pc = false)
    (store : b.store = a.store) (producer : b.producer = a.producer) (consumer : b.consumer = readAs pc)
    (returned : b.done = done) : Related { s with mutex := none, read := pc, done } b := by
  have outside := otherSide related mine
  refine ⟨by rw [store]; exact related.valid,producer.trans related.producer,consumer,?_,by simp [outside],by simp [after],
    ?_,by simp,by simp⟩
  · simp only [returned,writeOwesNone outside,readOwesNone after,List.append_nil]
  · rw [store]
    exact fun _ => still

theorem copyStatement {s : Ring} {old : RingBuffer} {src : Bytes} {available i : Nat} {b : UInt8} (valid : Valid old)
    (writing : Writing old s.rb (.copy src available i)) (more : i < available) (found : src[i]? = some b) :
    ∃ data, setOctet s.rb.data (s.rb.tail + i) b = some data ∧
      Writing old { s.rb with data } (.copy src available (i+1)) := by
  obtain ⟨room,size,_,_,now⟩ := writing
  obtain ⟨below,rfl⟩ := List.getElem?_eq_some_iff.mp found
  have inside := tailInside valid
  refine ⟨_,if_pos (by rw [now]; simp only; omega),room,size,below,more,?_⟩
  rw [now]
  simp only [placeNext old.data old.tail src below]

theorem wrapStatement {s : Ring} {old : RingBuffer} {src : Bytes} {available i : Nat} {b : UInt8}
    (valid : Valid old) (writing : Writing old s.rb (.wrap src available i)) (found : src[available + i]? = some b) :
    ∃ data, setOctet s.rb.data i b = some data ∧ Writing old { s.rb with data } (.wrap src available (i+1)) := by
  obtain ⟨room,size,around,_,now⟩ := writing
  obtain ⟨below,rfl⟩ := List.getElem?_eq_some_iff.mp found
  have inside := tailInside valid
  have fits := of_decide_eq_false room
  have left : i < (src.drop available).length := by
    rw [List.length_drop]
    omega
  refine ⟨_,if_pos (by omega),room,size,around,by omega,?_⟩
  have next := placeNext (place old.data old.tail (src.take available)) 0 (src.drop available) left
  rw [Nat.zero_add,List.getElem_drop] at next
  rw [now]
  simp only [next]

theorem copiedAll {old rb : RingBuffer} {src : Bytes} {available i : Nat} (writing : Writing old rb (.copy src available i))
    (last : i = src.length) : Writing old rb (.tail src available) := by
  obtain ⟨room,size,_,within,now⟩ := writing
  refine ⟨room,size,?_⟩
  have straight : src.length ≤ ringBufferSize - old.tail := by omega
  rw [now,last,List.take_length,written]
  simp only [if_pos straight]

theorem copiedFirst {old rb : RingBuffer} {src : Bytes} {available i : Nat}
    (writing : Writing old rb (.copy src available i)) (last : i = available) (more : available < src.length) :
    Writing old rb (.wrap src available 0) := by
  obtain ⟨room,size,_,_,now⟩ := writing
  refine ⟨room,size,more,by omega,?_⟩
  rw [now,last,List.take_zero,placeNil]

theorem wrappedAll {old rb : RingBuffer} {src : Bytes} {available i : Nat} (writing : Writing old rb (.wrap src available i))
    (last : available + i = src.length) : Writing old rb (.tail src available) := by
  obtain ⟨room,size,around,_,now⟩ := writing
  refine ⟨room,size,?_⟩
  have bent : ¬ src.length ≤ ringBufferSize - old.tail := by omega
  have whole : (src.drop available).take i = src.drop available := by
    rw [List.take_of_length_le (by rw [List.length_drop]; omega)]
  rw [now,whole,written]
  simp only [if_neg bent,size]

theorem tailStatement {old rb : RingBuffer} {src : Bytes} {available : Nat} (writing : Writing old rb (.tail src available)) :
    Writing old { rb with tail :=
      if src.length ≤ available then (rb.tail + src.length) % ringBufferSize else src.length - available } (.load src) := by
  obtain ⟨room,size,now⟩ := writing
  refine ⟨room,?_⟩
  rw [now,size]
  by_cases straight : src.length ≤ ringBufferSize - old.tail
  · simp only [written,if_pos straight]
  · simp only [written,if_neg straight]

theorem countStatement {old rb : RingBuffer} {src : Bytes} {count : Nat} (writing : Writing old rb (.store src count)) :
    Writing old { rb with count := count + src.length } (.signal src) := by
  obtain ⟨room,same,now⟩ := writing
  refine ⟨room,?_⟩
  rw [now,same]
  by_cases straight : src.length ≤ ringBufferSize - old.tail
  · simp only [written,if_pos straight]
  · simp only [written,if_neg straight]

theorem signalWaiting {pc : Read} (outside : readHolds pc = false) :
    signalConsumer (readAs pc) = readAs (signalNotEmpty pc) ∧ readHolds (signalNotEmpty pc) = false := by
  cases pc <;> first | exact ⟨rfl,rfl⟩ | contradiction

theorem signalWaiter {pc : Write} (outside : writeHolds pc = false) :
    signalProducer (writeAs pc) = writeAs (signalNotFull pc) ∧ writeHolds (signalNotFull pc) = false := by
  cases pc <;> first | exact ⟨rfl,rfl⟩ | contradiction

/- The signal is where a write happens for the level of whole sections. -/
theorem putFollowed {s : Ring} {a : Calls RingBuffer UInt8} {src : Bytes} (related : Related s a)
    (stands : s.write = .signal src) :
    ∃ b, ringNext a .put = some b ∧ Related { s with write := .unlock src, read := signalNotEmpty s.read } b := by
  have mine : s.mutex = some .producer := related.writes.mpr (by rw [stands]; rfl)
  have writing := related.writing mine
  rw [stands] at writing
  obtain ⟨room,now⟩ := writing
  have outside := oneSide related mine
  obtain ⟨same,still⟩ := signalWaiting outside
  have pc : a.producer = .test src := by rw [related.producer,stands]; rfl
  have made : ringBufferWrite a.store src = some s.rb := by rw [writtenMade related.valid room,now]
  obtain ⟨kept,again,valid,_⟩ := writeAppends related.valid (Nat.not_lt.mp (of_decide_eq_false room))
  cases Option.some.inj (made.symm.trans again)
  have followed : ringNext a .put =
      some ⟨s.rb,.idle,signalConsumer a.consumer,a.done ++ [Done.put src 0]⟩ := by
    simp [ringNext,QueueCalls.next,pc,ringStore,room,made]
  refine ⟨_,followed,valid,rfl,?_,?_,by simp [mine,writeHolds],by simp [mine,still],by simp [mine],fun _ => rfl,
    by simp [mine]⟩
  · simp only [related.consumer,same]
  · simp only [related.done,stands,readOwesNone outside,readOwesNone still,writeOwes,List.append_nil]

theorem writeFollowed {s u : Ring} {a : Calls RingBuffer UInt8} (related : Related s a)
    (step : statementOfWrite s s.write = some u) :
    ∃ b, exec ringNext a (deed s .put).toList = some b ∧ Related u b := by
  have mine : writeHolds s.write = true → s.mutex = some .producer := related.writes.mpr
  have writing := fun holds => related.writing (mine holds)
  have pc := related.producer
  have owed := related.done
  have inside := @writeInside s a
  cases stands : s.write with
  | idle => simp [stands,statementOfWrite] at step
  | asleep src => simp [stands,statementOfWrite] at step
  | lock src =>
    rw [stands] at step
    refine ⟨a,deedSilent (by simp [deed,stands]),?_⟩
    exact writeLocks related step (by rw [stands]; rfl) (by rw [stands]; rfl) rfl rfl fun _ => rfl
  | woken src =>
    rw [stands] at step
    refine ⟨a,deedSilent (by simp [deed,stands]),?_⟩
    exact writeLocks related step (by rw [stands]; rfl) (by rw [stands]; rfl) rfl rfl fun _ => rfl
  | expired src =>
    rw [stands] at step
    refine ⟨a,deedSilent (by simp [deed,stands]),?_⟩
    exact writeLocks related step (by rw [stands]; rfl) (by rw [stands]; rfl) rfl rfl fun _ => rfl
  | test src =>
    rw [stands] at step mine writing pc owed
    have still : s.rb = a.store := writing rfl
    have nothing := readOwesNone (oneSide related (mine rfl))
    simp only [statementOfWrite] at step
    split at step <;> rename_i full <;> cases Option.some.inj step
    · have followed : ringNext a .sleepPut = some { a with producer := .wait src } := by
        simp [ringNext,QueueCalls.next,pc,writeAs,ringStore,← still,full]
      have seen : deed s .put = some .sleepPut := by simp [deed,stands,full]
      exact ⟨_,deedFollowed seen followed,
        writeUnlocks related (mine rfl) still rfl rfl rfl rfl (by rw [owed,nothing]; simp [writeOwes])⟩
    · refine ⟨a,deedSilent (by simp [deed,stands,full]),?_⟩
      exact inside related (mine rfl) (by rw [stands]; rfl) rfl (by rw [stands]; rfl)
        ⟨by rw [← still]; exact Bool.eq_false_iff.mpr full,still⟩
  | late src =>
    rw [stands] at step mine writing pc owed
    have still : s.rb = a.store := writing rfl
    have nothing := readOwesNone (oneSide related (mine rfl))
    cases Option.some.inj step
    have followed : ringNext a .giveUp = some { a with producer := .idle, done := a.done ++ [.put src (-1)] } := by
      simp [ringNext,QueueCalls.next,pc,writeAs]
    have seen : deed s .put = some .giveUp := by simp [deed,stands]
    exact ⟨_,deedFollowed seen followed,
      writeUnlocks related (mine rfl) still rfl rfl rfl rfl (by rw [owed,nothing]; simp [writeOwes])⟩
  | available src =>
    rw [stands] at step mine writing
    obtain ⟨room,still⟩ := writing rfl
    cases Option.some.inj step
    refine ⟨a,deedSilent (by simp [deed,stands]),
      inside related (mine rfl) (by rw [stands]; rfl) rfl (by rw [stands]; rfl) ?_⟩
    exact ⟨room,by rw [still],Nat.zero_le _,Nat.zero_le _,by simp [still]⟩
  | copy src available i =>
    rw [stands] at step mine writing
    have soFar := writing rfl
    have below := soFar.2.2.1
    have within := soFar.2.2.2.1
    refine ⟨a,deedSilent (by simp [deed,stands]),?_⟩
    simp only [statementOfWrite] at step
    split at step
    · rename_i more
      split at step
      · rename_i b found
        obtain ⟨data,set,then_⟩ := copyStatement related.valid soFar more found
        rw [set] at step
        cases Option.some.inj step
        exact inside related (mine rfl) (by rw [stands]; rfl) rfl (by rw [stands]; rfl) then_
      · rename_i ended
        cases Option.some.inj step
        have last : i = src.length := Nat.le_antisymm below (List.getElem?_eq_none_iff.mp ended)
        exact inside related (mine rfl) (by rw [stands]; rfl) rfl (by rw [stands]; rfl) (copiedAll soFar last)
    · rename_i reached
      have last : i = available := by omega
      split at step <;> rename_i straight <;> cases Option.some.inj step
      · exact inside related (mine rfl) (by rw [stands]; rfl) rfl (by rw [stands]; rfl) (copiedAll soFar (by omega))
      · exact inside related (mine rfl) (by rw [stands]; rfl) rfl (by rw [stands]; rfl)
          (copiedFirst soFar last (by omega))
  | wrap src available i =>
    rw [stands] at step mine writing
    have soFar := writing rfl
    have below := soFar.2.2.2.1
    refine ⟨a,deedSilent (by simp [deed,stands]),?_⟩
    simp only [statementOfWrite] at step
    split at step
    · rename_i b found
      obtain ⟨data,set,then_⟩ := wrapStatement related.valid soFar found
      rw [set] at step
      cases Option.some.inj step
      exact inside related (mine rfl) (by rw [stands]; rfl) rfl (by rw [stands]; rfl) then_
    · rename_i ended
      cases Option.some.inj step
      have last : available + i = src.length := Nat.le_antisymm below (List.getElem?_eq_none_iff.mp ended)
      exact inside related (mine rfl) (by rw [stands]; rfl) rfl (by rw [stands]; rfl) (wrappedAll soFar last)
  | tail src available =>
    rw [stands] at step mine writing
    cases Option.some.inj step
    exact ⟨a,deedSilent (by simp [deed,stands]),inside related (mine rfl) (by rw [stands]; rfl) rfl (by rw [stands]; rfl)
      (tailStatement (writing rfl))⟩
  | load src =>
    rw [stands] at step mine writing
    obtain ⟨room,now⟩ := writing rfl
    cases Option.some.inj step
    exact ⟨a,deedSilent (by simp [deed,stands]),inside related (mine rfl) (by rw [stands]; rfl) rfl (by rw [stands]; rfl)
      ⟨room,by rw [now],now⟩⟩
  | store src count =>
    rw [stands] at step mine writing
    cases Option.some.inj step
    exact ⟨a,deedSilent (by simp [deed,stands]),inside related (mine rfl) (by rw [stands]; rfl) rfl (by rw [stands]; rfl)
      (countStatement (writing rfl))⟩
  | signal src =>
    rw [stands] at step
    cases Option.some.inj step
    obtain ⟨b,followed,last⟩ := putFollowed related stands
    exact ⟨b,deedFollowed (by simp [deed,stands]) followed,last⟩
  | unlock src =>
    rw [stands] at step mine writing owed
    have nothing := readOwesNone (oneSide related (mine rfl))
    cases Option.some.inj step
    refine ⟨a,deedSilent (by simp [deed,stands]),writeUnlocks related (mine rfl) (writing rfl) rfl rfl ?_ rfl ?_⟩
    · rw [pc,stands]
      rfl
    · rw [owed,nothing]
      simp [writeOwes]

theorem clampWithin {old : RingBuffer} (maxLen : Nat) : clamp old maxLen ≤ old.count := by
  unfold clamp
  split <;> omega

theorem readCopyStatement {s : Ring} {old : RingBuffer} {maxLen len available : Nat} {out : Bytes} (valid : Valid old)
    (reading : Reading old s.rb (.copy maxLen len available out)) (more : out.length < len ∧ out.length < available) :
    ∃ b, getOctet s.rb.data (s.rb.head + out.length) = some b ∧
      Reading old s.rb (.copy maxLen len available (out ++ [b])) := by
  obtain ⟨filled,length,size,_,_,soFar,now⟩ := reading
  have inside := valid.head
  refine ⟨_,if_pos (by rw [now]; omega),filled,length,size,?_,?_,?_,now⟩
  · simp only [List.length_append,List.length_singleton]
    omega
  · simp only [List.length_append,List.length_singleton]
    omega
  · rw [List.length_append,List.length_singleton,← segmentNext,← soFar,now]

theorem readWrapStatement {s : Ring} {old : RingBuffer} {maxLen len available : Nat} {out : Bytes} (valid : Valid old)
    (reading : Reading old s.rb (.wrap maxLen len available out)) (more : out.length < len) :
    ∃ b, getOctet s.rb.data (out.length - available) = some b ∧
      Reading old s.rb (.wrap maxLen len available (out ++ [b])) := by
  obtain ⟨filled,length,size,around,past,_,soFar,now⟩ := reading
  have inside := valid.count
  have within := @clampWithin old maxLen
  refine ⟨_,if_pos (by omega),filled,length,size,around,?_,?_,?_,now⟩
  · simp only [List.length_append,List.length_singleton]
    omega
  · simp only [List.length_append,List.length_singleton]
    omega
  · have further : out.length + 1 - available = (out.length - available) + 1 := by omega
    have next := segmentNext old.data 0 (out.length - available)
    rw [Nat.zero_add] at next
    rw [List.length_append,List.length_singleton,further,← next,← List.append_assoc,← soFar,now]

theorem readCopied {old rb : RingBuffer} {maxLen len available : Nat} {out : Bytes}
    (reading : Reading old rb (.copy maxLen len available out)) (last : out.length = len) :
    Reading old rb (.head maxLen len available out) := by
  obtain ⟨filled,length,size,_,_,soFar,now⟩ := reading
  refine ⟨filled,length,size,?_,now⟩
  have straight : len ≤ ringBufferSize - old.head := by omega
  simp only [taken,if_pos straight]
  rw [soFar,last]

theorem readFirst {old rb : RingBuffer} {maxLen len available : Nat} {out : Bytes}
    (reading : Reading old rb (.copy maxLen len available out)) (last : out.length = available)
    (more : available < len) : Reading old rb (.wrap maxLen len available out) := by
  obtain ⟨filled,length,size,_,_,soFar,now⟩ := reading
  refine ⟨filled,length,size,more,by omega,by omega,?_,now⟩
  rw [last,Nat.sub_self,CyclicStore.segment,List.append_nil,← last]
  exact soFar

theorem readWrapped {old rb : RingBuffer} {maxLen len available : Nat} {out : Bytes}
    (reading : Reading old rb (.wrap maxLen len available out)) (last : out.length = len) :
    Reading old rb (.head maxLen len available out) := by
  obtain ⟨filled,length,size,around,_,_,soFar,now⟩ := reading
  refine ⟨filled,length,size,?_,now⟩
  have bent : ¬ len ≤ ringBufferSize - old.head := by omega
  simp only [taken,if_neg bent]
  rw [soFar,last,size]

theorem headStatement {old rb : RingBuffer} {maxLen len available : Nat} {out : Bytes}
    (reading : Reading old rb (.head maxLen len available out)) :
    Reading old { rb with head := if len ≤ available then (rb.head + len) % ringBufferSize else len - available }
      (.load maxLen len out) := by
  obtain ⟨filled,length,size,soFar,now⟩ := reading
  refine ⟨filled,length,soFar,?_⟩
  rw [now,size]
  by_cases straight : len ≤ ringBufferSize - old.head
  · simp only [taken,if_pos straight]
  · simp only [taken,if_neg straight]

theorem readCountStatement {old rb : RingBuffer} {maxLen len count : Nat} {out : Bytes}
    (reading : Reading old rb (.store maxLen len count out)) :
    Reading old { rb with count := count - len } (.signal maxLen out) := by
  obtain ⟨filled,length,same,soFar,now⟩ := reading
  refine ⟨filled,?_⟩
  rw [now,same,soFar,length]
  by_cases straight : clamp old maxLen ≤ ringBufferSize - old.head
  · simp only [taken,if_pos straight]
  · simp only [taken,if_neg straight]

theorem takeFollowed {s : Ring} {a : Calls RingBuffer UInt8} {maxLen : Nat} {out : Bytes} (related : Related s a)
    (stands : s.read = .signal maxLen out) :
    ∃ b, ringNext a .take = some b ∧ Related { s with read := .unlock maxLen out, write := signalNotFull s.write } b := by
  have mine : s.mutex = some .consumer := related.reads.mpr (by rw [stands]; rfl)
  have reading := related.reading mine
  rw [stands] at reading
  obtain ⟨filled,now⟩ := reading
  have outside := otherSide related mine
  obtain ⟨same,still⟩ := signalWaiter outside
  have pc : a.consumer = .test maxLen := by rw [related.consumer,stands]; rfl
  have made : ringBufferRead a.store maxLen = some (out,s.rb) := by rw [takenMade related.valid,now]
  obtain ⟨kept,again,valid,_⟩ := readTakes related.valid maxLen
  obtain ⟨_,rfl⟩ := Prod.mk.inj (Option.some.inj (made.symm.trans again))
  have followed : ringNext a .take =
      some ⟨s.rb,signalProducer a.producer,.idle,a.done ++ [Done.take maxLen out]⟩ := by
    simp [ringNext,QueueCalls.next,pc,ringStore,filled,made]
  refine ⟨_,followed,valid,?_,rfl,?_,by simp [mine,still],by simp [mine,readHolds],by simp [mine],by simp [mine],
    fun _ => rfl⟩
  · simp only [related.producer,same]
  · simp only [related.done,stands,writeOwesNone outside,writeOwesNone still,readOwes,List.append_nil,List.nil_append]

theorem readFollowed {s u : Ring} {a : Calls RingBuffer UInt8} (related : Related s a)
    (step : statementOfRead s s.read = some u) :
    ∃ b, exec ringNext a (deed s .take).toList = some b ∧ Related u b := by
  have mine : readHolds s.read = true → s.mutex = some .consumer := related.reads.mpr
  have reading := fun holds => related.reading (mine holds)
  have pc := related.consumer
  have owed := related.done
  have inside := @readInside s a
  cases stands : s.read with
  | idle => simp [stands,statementOfRead] at step
  | asleep maxLen => simp [stands,statementOfRead] at step
  | lock maxLen =>
    rw [stands] at step
    refine ⟨a,deedSilent (by simp [deed,stands]),?_⟩
    exact readLocks related step (by rw [stands]; rfl) (by rw [stands]; rfl) rfl rfl fun _ => rfl
  | woken maxLen =>
    rw [stands] at step
    refine ⟨a,deedSilent (by simp [deed,stands]),?_⟩
    exact readLocks related step (by rw [stands]; rfl) (by rw [stands]; rfl) rfl rfl fun _ => rfl
  | test maxLen =>
    rw [stands] at step mine reading pc owed
    have still : s.rb = a.store := reading rfl
    have nothing := writeOwesNone (otherSide related (mine rfl))
    simp only [statementOfRead] at step
    split at step <;> rename_i empty <;> cases Option.some.inj step
    · have followed : ringNext a .sleepTake = some { a with consumer := .wait maxLen } := by
        simp [ringNext,QueueCalls.next,pc,readAs,ringStore,← still,empty]
      have seen : deed s .take = some .sleepTake := by simp [deed,stands,empty]
      exact ⟨_,deedFollowed seen followed,
        readUnlocks related (mine rfl) still rfl rfl rfl rfl (by rw [owed,nothing]; simp [readOwes])⟩
    · refine ⟨a,deedSilent (by simp [deed,stands,empty]),?_⟩
      exact inside related (mine rfl) (by rw [stands]; rfl) rfl (by rw [stands]; rfl) ⟨by rw [← still]; exact empty,still⟩
  | len maxLen =>
    rw [stands] at step mine reading
    obtain ⟨filled,still⟩ := reading rfl
    cases Option.some.inj step
    exact ⟨a,deedSilent (by simp [deed,stands]),inside related (mine rfl) (by rw [stands]; rfl) rfl (by rw [stands]; rfl)
      ⟨filled,by rw [still]; rfl,still⟩⟩
  | available maxLen len =>
    rw [stands] at step mine reading
    obtain ⟨filled,length,still⟩ := reading rfl
    cases Option.some.inj step
    refine ⟨a,deedSilent (by simp [deed,stands]),
      inside related (mine rfl) (by rw [stands]; rfl) rfl (by rw [stands]; rfl) ?_⟩
    exact ⟨filled,length,by rw [still],Nat.zero_le _,Nat.zero_le _,rfl,still⟩
  | copy maxLen len available out =>
    rw [stands] at step mine reading
    have soFar := reading rfl
    have below := soFar.2.2.2.1
    have within := soFar.2.2.2.2.1
    refine ⟨a,deedSilent (by simp [deed,stands]),?_⟩
    simp only [statementOfRead] at step
    split at step
    · rename_i more
      obtain ⟨b,got,then_⟩ := readCopyStatement related.valid soFar more
      rw [got] at step
      cases Option.some.inj step
      exact inside related (mine rfl) (by rw [stands]; rfl) rfl (by rw [stands]; rfl) then_
    · split at step <;> rename_i straight <;> cases Option.some.inj step
      · exact inside related (mine rfl) (by rw [stands]; rfl) rfl (by rw [stands]; rfl) (readCopied soFar (by omega))
      · exact inside related (mine rfl) (by rw [stands]; rfl) rfl (by rw [stands]; rfl)
          (readFirst soFar (by omega) (by omega))
  | wrap maxLen len available out =>
    rw [stands] at step mine reading
    have soFar := reading rfl
    have below := soFar.2.2.2.2.2.1
    refine ⟨a,deedSilent (by simp [deed,stands]),?_⟩
    simp only [statementOfRead] at step
    split at step
    · rename_i more
      obtain ⟨b,got,then_⟩ := readWrapStatement related.valid soFar more
      rw [got] at step
      cases Option.some.inj step
      exact inside related (mine rfl) (by rw [stands]; rfl) rfl (by rw [stands]; rfl) then_
    · cases Option.some.inj step
      exact inside related (mine rfl) (by rw [stands]; rfl) rfl (by rw [stands]; rfl) (readWrapped soFar (by omega))
  | head maxLen len available out =>
    rw [stands] at step mine reading
    cases Option.some.inj step
    exact ⟨a,deedSilent (by simp [deed,stands]),inside related (mine rfl) (by rw [stands]; rfl) rfl (by rw [stands]; rfl)
      (headStatement (reading rfl))⟩
  | load maxLen len out =>
    rw [stands] at step mine reading
    obtain ⟨filled,length,soFar,now⟩ := reading rfl
    cases Option.some.inj step
    exact ⟨a,deedSilent (by simp [deed,stands]),inside related (mine rfl) (by rw [stands]; rfl) rfl (by rw [stands]; rfl)
      ⟨filled,length,by rw [now],soFar,now⟩⟩
  | store maxLen len count out =>
    rw [stands] at step mine reading
    cases Option.some.inj step
    exact ⟨a,deedSilent (by simp [deed,stands]),inside related (mine rfl) (by rw [stands]; rfl) rfl (by rw [stands]; rfl)
      (readCountStatement (reading rfl))⟩
  | signal maxLen out =>
    rw [stands] at step
    cases Option.some.inj step
    obtain ⟨b,followed,last⟩ := takeFollowed related stands
    exact ⟨b,deedFollowed (by simp [deed,stands]) followed,last⟩
  | unlock maxLen out =>
    rw [stands] at step mine reading owed
    have nothing := writeOwesNone (otherSide related (mine rfl))
    cases Option.some.inj step
    refine ⟨a,deedSilent (by simp [deed,stands]),readUnlocks related (mine rfl) (reading rfl) rfl rfl rfl ?_ ?_⟩
    · rw [pc,stands]
      rfl
    · rw [owed,nothing]
      simp [readOwes]

theorem nextFollowed {s u : Ring} {a : Calls RingBuffer UInt8} {e : Event} (related : Related s a)
    (step : next s e = some u) : ∃ b, exec ringNext a (deed s e).toList = some b ∧ Related u b := by
  have producer := related.producer
  have consumer := related.consumer
  cases e with
  | put => exact writeFollowed related step
  | take => exact readFollowed related step
  | beginPut src =>
    simp only [next] at step
    split at step <;> try contradiction
    rename_i guard
    obtain ⟨stands,small⟩ := guard
    rw [stands] at producer
    cases Option.some.inj step
    have followed : ringNext a (.beginPut src) = some { a with producer := .test src } := by
      simp [ringNext,QueueCalls.next,producer,writeAs,small]
    exact ⟨_,deedFollowed rfl followed,writeOutside related (by rw [stands]; rfl) rfl rfl rfl rfl rfl⟩
  | wakePut =>
    simp only [next] at step
    split at step <;> try contradiction
    rename_i src stands
    rw [stands] at producer
    cases Option.some.inj step
    have followed : ringNext a .wakePut = some { a with producer := .test src } := by
      simp [ringNext,QueueCalls.next,producer,writeAs]
    exact ⟨_,deedFollowed rfl followed,writeOutside related (by rw [stands]; rfl) rfl rfl rfl rfl rfl⟩
  | expire =>
    simp only [next] at step
    split at step <;> try contradiction
    rename_i src stands
    rw [stands] at producer
    cases Option.some.inj step
    have followed : ringNext a .expire = some { a with producer := .expired src } := by
      simp [ringNext,QueueCalls.next,producer,writeAs]
    exact ⟨_,deedFollowed rfl followed,writeOutside related (by rw [stands]; rfl) rfl rfl rfl rfl rfl⟩
  | beginTake maxLen =>
    simp only [next] at step
    split at step <;> try contradiction
    rename_i stands
    rw [stands] at consumer
    cases Option.some.inj step
    have followed : ringNext a (.beginTake maxLen) = some { a with consumer := .test maxLen } := by
      simp [ringNext,QueueCalls.next,consumer,readAs]
    exact ⟨_,deedFollowed rfl followed,readOutside related (by rw [stands]; rfl) rfl rfl rfl rfl rfl⟩
  | wakeTake =>
    simp only [next] at step
    split at step <;> try contradiction
    rename_i maxLen stands
    rw [stands] at consumer
    cases Option.some.inj step
    have followed : ringNext a .wakeTake = some { a with consumer := .test maxLen } := by
      simp [ringNext,QueueCalls.next,consumer,readAs]
    exact ⟨_,deedFollowed rfl followed,readOutside related (by rw [stands]; rfl) rfl rfl rfl rfl rfl⟩

theorem relatedStart : Related start ringStart :=
  ⟨initValid,rfl,rfl,rfl,by decide,by decide,fun _ => rfl,fun mine => by contradiction,fun mine => by contradiction⟩

theorem writeGoesOn {s : Ring} {a : Calls RingBuffer UInt8} (related : Related s a) (mine : s.mutex = some .producer) :
    ∃ u, next s .put = some u := by
  have holds := related.writes.mp mine
  have writing := related.writing mine
  simp only [next]
  generalize s.write = pc at holds writing
  cases pc with
  | idle => contradiction
  | lock src => contradiction
  | asleep src => contradiction
  | woken src => contradiction
  | expired src => contradiction
  | test src => by_cases full : mustWait s.rb src.length <;> simp [statementOfWrite,full]
  | copy src available i =>
    by_cases more : i < available
    · cases found : src[i]? with
      | none => exact ⟨_,by rw [statementOfWrite,if_pos more,found]⟩
      | some b =>
        obtain ⟨data,set,_⟩ := copyStatement related.valid writing more found
        exact ⟨_,by rw [statementOfWrite,if_pos more,found]; simp only [set]; rfl⟩
    · by_cases straight : src.length ≤ available <;> simp [statementOfWrite,more,straight]
  | wrap src available i =>
    cases found : src[available + i]? with
    | none => exact ⟨_,by rw [statementOfWrite,found]⟩
    | some b =>
      obtain ⟨data,set,_⟩ := wrapStatement related.valid writing found
      exact ⟨_,by rw [statementOfWrite,found]; simp only [set]; rfl⟩
  | _ => exact ⟨_,rfl⟩

theorem readGoesOn {s : Ring} {a : Calls RingBuffer UInt8} (related : Related s a) (mine : s.mutex = some .consumer) :
    ∃ u, next s .take = some u := by
  have holds := related.reads.mp mine
  have reading := related.reading mine
  simp only [next]
  generalize s.read = pc at holds reading
  cases pc with
  | idle => contradiction
  | lock maxLen => contradiction
  | asleep maxLen => contradiction
  | woken maxLen => contradiction
  | test maxLen => by_cases empty : s.rb.count = 0 <;> simp [statementOfRead,empty]
  | copy maxLen len available out =>
    by_cases more : out.length < len ∧ out.length < available
    · obtain ⟨b,got,_⟩ := readCopyStatement related.valid reading more
      exact ⟨_,by rw [statementOfRead,if_pos more,got]; rfl⟩
    · by_cases straight : len ≤ available
      · exact ⟨_,by rw [statementOfRead,if_neg more,if_pos straight]⟩
      · exact ⟨_,by rw [statementOfRead,if_neg more,if_neg straight]⟩
  | wrap maxLen len available out =>
    by_cases more : out.length < len
    · obtain ⟨b,got,_⟩ := readWrapStatement related.valid reading more
      exact ⟨_,by rw [statementOfRead,if_pos more,got]; rfl⟩
    · exact ⟨_,by rw [statementOfRead,if_neg more]⟩
  | _ => exact ⟨_,rfl⟩

theorem countInside {s : Ring} {a : Calls RingBuffer UInt8} (related : Related s a) : s.rb.count ≤ ringBufferSize := by
  have bounded := related.valid.count
  have added : ∀ src : Bytes, mustWait a.store src.length = false → (written a.store src).count ≤ ringBufferSize := by
    intro src room
    have fits := of_decide_eq_false room
    simp only [written]
    split <;> simp only <;> omega
  have left : ∀ len, (taken a.store len).2.count ≤ ringBufferSize := by
    intro len
    simp only [taken]
    split <;> simp only <;> omega
  cases owner : s.mutex with
  | none =>
    rw [related.free owner]
    exact bounded
  | some side =>
    cases side with
    | producer =>
      have writing := related.writing owner
      generalize s.write = pc at writing
      cases pc with
      | available src => rw [writing.2]; exact bounded
      | copy src available i => rw [writing.2.2.2.2]; exact bounded
      | wrap src available i => rw [writing.2.2.2.2]; exact bounded
      | tail src available => rw [writing.2.2]; exact bounded
      | load src => rw [writing.2]; exact bounded
      | store src count => rw [writing.2.2]; exact bounded
      | signal src => rw [writing.2]; exact added src writing.1
      | _ => rw [show s.rb = a.store from writing]; exact bounded
    | consumer =>
      have reading := related.reading owner
      generalize s.read = pc at reading
      cases pc with
      | len maxLen => rw [reading.2]; exact bounded
      | available maxLen len => rw [reading.2.2]; exact bounded
      | copy maxLen len available out => rw [reading.2.2.2.2.2.2]; exact bounded
      | wrap maxLen len available out => rw [reading.2.2.2.2.2.2.2]; exact bounded
      | head maxLen len available out => rw [reading.2.2.2.2]; exact bounded
      | load maxLen len out => rw [reading.2.2.2]; exact bounded
      | store maxLen len count out => rw [reading.2.2.2.2]; exact bounded
      | signal maxLen out =>
        have now := congrArg Prod.snd reading.2
        simp only at now
        rw [now]
        exact left _
      | _ => rw [show s.rb = a.store from reading]; exact bounded

/- Statement by statement the two calls are what they are section by section, and so a
bounded queue of octets. -/
theorem ringStatements {events : List Event} {s : Ring} (run : exec next start events = some s) :
    ∃ a, exec ringNext ringStart (deeds next deed start events) = some a ∧
      exec queueNext (QueueCalls.idle []) (deeds next deed start events) = some (a.map queue) ∧
      a.done = s.done ++ (writeOwes s.write ++ readOwes s.read) ∧
      (s.mutex = none → s.rb = a.store) ∧
      (s.mutex = some .producer → ∃ u, next s .put = some u) ∧
      (s.mutex = some .consumer → ∃ u, next s .take = some u) ∧
      s.rb.count ≤ ringBufferSize := by
  obtain ⟨a,followed,related⟩ := refines (fun _ _ _ _ kept step => nextFollowed kept step) relatedStart run
  refine ⟨a,followed,?_,related.done,related.free,writeGoesOn related,readGoesOn related,countInside related⟩
  obtain ⟨same,_⟩ := @refinesRun _ _ _ ringStore _ Valid queue ringBufferSize ringRefines ringStart initValid
    (deeds next deed start events)
  exact same.symm.trans (by rw [followed]; rfl)

def twoOctets : List Event :=
  [Event.beginTake 4,Event.take,Event.take,Event.beginPut [7,8]] ++ List.replicate 11 Event.put ++
    List.replicate 12 Event.take

theorem twoPassed : ∃ s q, exec next start twoOctets = some s ∧ s.write = .idle ∧ s.read = .idle ∧
    exec queueNext (QueueCalls.idle []) [.beginTake 4,.sleepTake,.beginPut [7,8],.put,.take] = some q ∧
    q.done = s.done := by
  have seen : (exec next start twoOctets).map (fun s => (s.write,s.read)) = some (.idle,.idle) := by decide +kernel
  have done : deeds next deed start twoOctets = [.beginTake 4,.sleepTake,.beginPut [7,8],.put,.take] := by rfl
  obtain ⟨s,run,same⟩ := Option.map_eq_some_iff.mp seen
  obtain ⟨wrote,read⟩ := Prod.mk.inj same
  obtain ⟨a,_,queued,owed,_⟩ := ringStatements run
  rw [done] at queued
  rw [wrote,read] at owed
  exact ⟨s,a.map queue,run,wrote,read,queued,by simpa [writeOwes,readOwes,Calls.map] using owed⟩

end IPv4Media.RingStatements
