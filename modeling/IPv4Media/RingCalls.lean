import IPv4Media.Library.QueueCalls
import IPv4Media.ClientRing

/-! ring_buffer_write (recv_thr.c) and ring_buffer_read (writer_thr.c) with their wait
loops, for any data and any max_len. The wait of a write has a deadline: pthread_cond_timedwait
that expires takes the mutex again in a later step, and the return code alone makes the
write give up. -/
namespace IPv4Media.RingCalls
open Octets ClientRing QueueCalls Execution

def ringStore : Store RingBuffer UInt8 where
  full := mustWait
  empty rb := decide (rb.count = 0)
  put := ringBufferWrite
  take := ringBufferRead

abbrev ringNext := next ringStore ringBufferSize
def ringStart : Calls RingBuffer UInt8 := idle ringBufferInit

abbrev queueNext := next (bounded UInt8 ringBufferSize) ringBufferSize

structure Indices (rb : RingBuffer) : Prop where
  head : rb.head < ringBufferSize
  tail : rb.tail < ringBufferSize
  count : rb.count ≤ ringBufferSize
  related : rb.tail = (rb.head + rb.count) % ringBufferSize

theorem ringRefines : Refines ringStore (bounded UInt8 ringBufferSize) Valid queue where
  full rb n _ := by
    simp only [ringStore,mustWait,bounded,queueLength]
  empty rb _ := by
    have size := queueLength rb
    cases items : queue rb <;> simp [ringStore,bounded,items] at size ⊢ <;> omega
  put rb src valid room := by
    have fits : rb.count + src.length ≤ ringBufferSize := Nat.not_lt.mp (of_decide_eq_false room)
    obtain ⟨next,written,kept,appended⟩ := writeAppends valid fits
    exact ⟨next,written,kept,by simp only [bounded,queueLength,if_pos fits,appended]⟩
  take rb maxLen valid := by
    obtain ⟨next,read,kept,dropped⟩ := readTakes valid maxLen
    exact ⟨_,next,read,kept,by simp only [bounded,dropped]⟩

theorem validIndices {rb : RingBuffer} (valid : Valid rb) : Indices rb :=
  ⟨valid.head,tailInside valid,valid.count,valid.tail⟩

/- The calls run as on a bounded queue of octets: step for step, with the same results, and
no memcpy that leaves data[] ends a run early. -/
theorem ringBufferRefines (events : List (Event UInt8)) :
    (exec ringNext ringStart events).map (Calls.map queue) = exec queueNext (idle []) events ∧
    ∀ s, exec ringNext ringStart events = some s → Indices s.store ∧
      (∀ src : Bytes, s.store.count + src.length ≤ ringBufferSize → ∃ t, ringBufferWrite s.store src = some t ∧
        queue t = queue s.store ++ src) ∧
      (∀ maxLen, ∃ t, ringBufferRead s.store maxLen = some ((queue s.store).take maxLen,t) ∧
        queue t = (queue s.store).drop maxLen) := by
  obtain ⟨same,kept⟩ := @refinesRun _ _ _ ringStore _ Valid queue ringBufferSize ringRefines ringStart initValid events
  refine ⟨same,fun s run => ⟨validIndices (kept s run),fun src room => ?_,fun maxLen => ?_⟩⟩
  · obtain ⟨t,written,_,appended⟩ := writeAppends (kept s run) room
    exact ⟨t,written,appended⟩
  · obtain ⟨t,read,_,dropped⟩ := readTakes (kept s run) maxLen
    exact ⟨t,read,dropped⟩

def DropsOnlyFull (s : Calls RingBuffer UInt8) : Prop :=
  ∀ src, s.producer = .expired src → s.store.count + src.length > ringBufferSize

def FreesLate (s : Calls RingBuffer UInt8) (e : Event UInt8) : Prop :=
  e = .take ∧ ∃ src maxLen, s.producer = .expired src ∧ s.consumer = .test maxLen ∧
    s.store.count - min s.store.count maxLen + src.length ≤ ringBufferSize

theorem dropsDecided {s : Calls RingBuffer UInt8} : DropsOnlyFull s ↔ Decided ringStore s :=
  forall_congr' fun _ => imp_congr_right fun _ => decide_eq_true_iff.symm

theorem freesTakes {s t : Calls RingBuffer UInt8} {e : Event UInt8} (valid : Valid s.store)
    (step : ringNext s e = some t) : FreesLate s e ↔ TakesLate ringStore s e t := by
  cases stepSound step with
  | take maxLen out store pc filled taken =>
    obtain ⟨u,read,_,dropped⟩ := readTakes valid maxLen
    obtain ⟨rfl,rfl⟩ := Prod.mk.inj (Option.some.inj (read.symm.trans taken))
    have count : u.count = s.store.count - min s.store.count maxLen := by
      have size := congrArg List.length dropped
      rw [queueLength,List.length_drop,queueLength] at size
      omega
    constructor
    · rintro ⟨_,src,other,expired,test,room⟩
      cases pc.symm.trans test
      exact ⟨rfl,src,expired,decide_eq_false (by simp only [count]; omega)⟩
    · rintro ⟨_,src,expired,room⟩
      have fits := of_decide_eq_false room
      simp only [count] at fits
      exact ⟨rfl,src,maxLen,expired,pc,by omega⟩
  | _ => exact iff_of_false (fun frees => nomatch frees.1) (fun takes => nomatch takes.1)

theorem droppedOnlyFull {events s} (run : exec ringNext ringStart events = some s) :
    Along ringNext (fun _ _ t => DropsOnlyFull t) ringStart events ↔
      Along ringNext (fun s e _ => ¬ FreesLate s e) ringStart events := by
  refine alongIff (I := fun s => Valid s.store ∧ Waits ringStore s) ⟨initValid,waitsIdle _ _⟩ ?_ ?_ run
  · rintro s e t ⟨valid,waits⟩ step
    rw [dropsDecided,decidedIff waits (stepSound step),freesTakes valid step]
  · rintro s e t ⟨valid,waits⟩ onTime step
    have early : ¬ TakesLate ringStore s e t := fun takes => onTime ((freesTakes valid step).mpr takes)
    exact ⟨refinesKeep ringRefines valid step,waitsStep waits early (stepSound step)⟩

def inTime {σ : Type} (s : Calls σ UInt8) (e : Event UInt8) : Bool :=
  match e, s.producer with
  | .take, .expired _ => false
  | _, _ => true

theorem inTimeSound (s : Calls RingBuffer UInt8) (e : Event UInt8) (_ : Calls RingBuffer UInt8)
    (now : inTime s e = true) : ¬ FreesLate s e := by
  rintro ⟨rfl,src,_,expired,_⟩
  simp [inTime,expired] at now

/- On a full ring the wait of a write expires, a read comes to stand before the mutex, and
the write gives up before it. -/
def gaveUp (whole : Bytes) : List (Event UInt8) :=
  [.beginPut whole,.put,.beginPut [7],.sleepPut,.expire,.beginTake 1,.giveUp,.take]

theorem gaveUpQueue {whole : Bytes} {cap : Nat} (size : whole.length = cap) (most : 1 ≤ cap) :
    exec (next (bounded UInt8 cap) cap) (idle []) (gaveUp whole) =
        some ⟨whole.drop 1,.idle,.idle,[.put whole 0,.put [7] (-1),.take 1 (whole.take 1)]⟩ ∧
      check (next (bounded UInt8 cap) cap) inTime (idle []) (gaveUp whole) = true := by
  have filled : whole ≠ [] := List.length_pos_iff.mp (by rw [size]; exact most)
  simp [gaveUp,check,inTime,next,bounded,idle,signalProducer,signalConsumer,size,filled,most]

theorem gaveUpFull : ∃ whole s, exec ringNext ringStart (gaveUp whole) = some s ∧ whole.length = ringBufferSize ∧
    s.done = [.put whole 0,.put [7] (-1),.take 1 (whole.take 1)] ∧
    Along ringNext (fun _ _ t => DropsOnlyFull t) ringStart (gaveUp whole) := by
  have size : (List.replicate ringBufferSize (0 : UInt8)).length = ringBufferSize := List.length_replicate
  obtain ⟨ran,checked⟩ := gaveUpQueue size sizePositive
  obtain ⟨same,_⟩ := @refinesRun _ _ _ ringStore _ Valid queue ringBufferSize ringRefines ringStart initValid
    (gaveUp (List.replicate ringBufferSize 0))
  obtain ⟨s,run,there⟩ := Option.map_eq_some_iff.mp (same.trans ran)
  have early : check ringNext inTime ringStart (gaveUp (List.replicate ringBufferSize 0)) = true := by
    refine (@checkMap _ _ ringNext _ queueNext (Calls.map queue) (fun s => Valid s.store) inTime inTime
      (fun _ _ _ valid step => refinesKeep ringRefines valid step) (fun _ e valid => refinesStep ringRefines e valid)
      ?_ ringStart initValid _).trans checked
    intro s e
    cases e <;> rfl
  refine ⟨_,s,run,size,congrArg Calls.done there,?_⟩
  exact (droppedOnlyFull run).mpr (alongChecked inTimeSound early)

/- The ring is full, the wait of a write of one octet expires, and a read of one octet has
the mutex first. -/
def lateRead (whole : Bytes) : List (Event UInt8) :=
  [.beginPut whole,.put,.beginPut [7],.sleepPut,.expire,.beginTake 1,.take]

theorem lateReadQueue {whole : Bytes} {cap : Nat} (size : whole.length = cap) (most : 1 ≤ cap) :
    exec (next (bounded UInt8 cap) cap) (idle []) (lateRead whole) =
      some ⟨whole.drop 1,.expired [7],.idle,[.put whole 0,.take 1 (whole.take 1)]⟩ := by
  have filled : whole ≠ [] := List.length_pos_iff.mp (by rw [size]; exact most)
  simp [lateRead,next,bounded,idle,signalProducer,signalConsumer,size,filled,most]

theorem fittingDropped : ∃ whole s u, exec ringNext ringStart (lateRead whole) = some s ∧
    ringNext s .giveUp = some u ∧ u.done = s.done ++ [.put [7] (-1)] ∧
    s.store.count + [(7 : UInt8)].length ≤ ringBufferSize := by
  have size : (List.replicate ringBufferSize (0 : UInt8)).length = ringBufferSize := List.length_replicate
  obtain ⟨same,_⟩ := @refinesRun _ _ _ ringStore _ Valid queue ringBufferSize ringRefines ringStart initValid
    (lateRead (List.replicate ringBufferSize 0))
  obtain ⟨s,run,there⟩ := Option.map_eq_some_iff.mp (same.trans (lateReadQueue size sizePositive))
  have expired : s.producer = .expired [7] := congrArg Calls.producer there
  have items : queue s.store = (List.replicate ringBufferSize 0).drop 1 := congrArg Calls.store there
  refine ⟨_,s,_,run,by rw [ringNext,next,expired],rfl,?_⟩
  have count := congrArg List.length items
  rw [queueLength,List.length_drop,size] at count
  have positive := sizePositive
  simp only [List.length_singleton]
  omega

end IPv4Media.RingCalls
