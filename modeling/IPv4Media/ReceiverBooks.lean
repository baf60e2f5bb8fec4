import IPv4Media.ClientStream

/-! The books of receiver_thread over any traffic (recv_thr.c): the counters of struct
shared_data and the sequence tracker as functions of the datagrams that pass the four
checks and of what ring_buffer_write returned for them. Nothing else that arrives enters. -/
namespace IPv4Media.ReceiverBooks
open Octets Proto Socket Receiver ClientRing ClientThreads ClientTrace ClientStream Execution

def writes (se : Session) (trace : List Event) : List (Datagram × Int) := (offers se trace).zip (returns trace)

-- ring_buffer_write has returned -1 but packets_dropped is not yet raised.
def undropped : ReceiverPc → Nat
  | .ringReturned _ ret => if ret = 0 then 0 else 1
  | _ => 0

def failures (trace : List Event) : Nat := (returns trace).countP fun ret => ret ≠ 0

def Dropped (trace : List Event) (s : Client) : Prop := s.packetsDropped + undropped s.receiver = failures trace

theorem failuresSnoc (trace : List Event) (e : Event) :
    failures (trace ++ [e]) = failures trace + (if returned e = some (-1) then 1 else 0) := by
  rw [failures,returnsSnoc,List.countP_append,← failures]
  cases e <;> rfl

theorem signalNotFullUndropped (pc : ReceiverPc) : undropped (signalNotFull pc) = undropped pc := by
  cases pc <;> rfl

theorem droppedStep {se trace s e t} (dropped : Dropped trace s) (step : next se s e = some t) :
    Dropped (trace ++ [e]) t := by
  unfold Dropped at dropped ⊢
  rw [failuresSnoc,← dropped]
  rcases stepCases step with receiver | writer | stats
  · cases receiver with
    | start pc => simp [pc,undropped,returned]
    | startFailed pc => simp [pc,undropped,returned]
    | loop pc => cases s.stopFlag <;> simp [pc,undropped,returned]
    | recvError eintr pc => cases eintr <;> simp [pc,undropped,returned]
    | accountDropped len ret pc failed => simp [pc,undropped,returned,failed]
    | recvChosen d pc passed => simp [pc,undropped,returned]
    | recvIgnored d pc failed => simp [pc,undropped,returned]
    | copy len rb pc room written => simp [pc,undropped,returned]
    | sleep len pc full => simp [pc,undropped,returned]
    | wake len pc => simp [pc,undropped,returned]
    | expire len pc => simp [pc,undropped,returned]
    | timeout len pc => simp [pc,undropped,returned]
    | accountReceived len pc => simp [pc,undropped,returned]
  · cases writer with
    | read bytes rb pc filled taken => simp [signalNotFullUndropped,returned]
    | retry r pc again => simp [returned]
    | _ => simp [returned]
  · cases stats <;> simp [returned]

theorem droppedInitial (heap : Bytes) : Dropped [] (initial heap) := rfl

theorem droppedRun {se heap trace s} (run : exec (next se) (initial heap) trace = some s) : Dropped trace s :=
  history (I := Dropped) (droppedInitial heap) (fun _ _ _ _ dropped step => droppedStep dropped step) run

theorem undroppedBetween {s : Client} (between : BetweenDatagrams s) : undropped s.receiver = 0 := by
  cases pc : s.receiver <;> simp [BetweenDatagrams,pc] at between <;> rfl

theorem pairedBetween {se trace s} (booked : Booked se trace s) (between : BetweenDatagrams s) :
    (offers se trace).length = (returns trace).length := by
  cases booked.matched with
  | idle none paired => exact paired
  | busy d before pending offered passed paired data =>
    cases pc : s.receiver <;> simp [BetweenDatagrams,pc,pendingLen] at between pending

theorem failuresWrites {se trace} (paired : (offers se trace).length = (returns trace).length) :
    (writes se trace).countP (fun w => w.2 ≠ 0) = failures trace := by
  have second : (writes se trace).map Prod.snd = returns trace := List.map_snd_zip (by omega)
  rw [failures,← second,List.countP_map]
  rfl

theorem keptOctets (pairs : List (Datagram × Int)) : (pairs.filterMap kept).flatten.length =
    ((pairs.filter fun w => w.2 = 0).map fun w => w.1.bytes.length - 5).sum := by
  induction pairs with
  | nil => rfl
  | cons w pairs ih =>
    by_cases zero : w.2 = 0
    · have size : (payload w.1).length = w.1.bytes.length - 5 := List.length_drop
      simp [kept,zero,size,ih]
    · simp [kept,zero,ih]

def offered (s : Client) : Option Bytes :=
  match s.receiver with
  | .ringTest len => some (readData s.msgChannel (dataLen len))
  | _ => none

def ringOffers (se : Session) : Client → List Event → List Bytes
  | _, [] => []
  | s, e :: trace => match next se s e with
    | none => []
    | some t => match e with
      | .recvfrom _ => (offered t).toList ++ ringOffers se t trace
      | _ => ringOffers se t trace

theorem offersCons (se : Session) (e : Event) (trace : List Event) :
    offers se (e :: trace) = (arrival e).toList.filter (chosen se) ++ offers se trace := by
  cases h : arrival e <;> simp [offers,arrivals,h,List.filter_cons]
  split <;> rfl

theorem offeredArrival {se s t r} (step : next se s (.recvfrom r) = some t) :
    (offered t).toList = ((arrival (.recvfrom r)).toList.filter (chosen se)).map payload := by
  rcases stepCases step with receiver | writer | stats
  · cases receiver with
    | recvError eintr pc => cases eintr <;> rfl
    | recvChosen d pc passed => simp [offered,arrival,passed,readDataDelivered _ passed]
    | recvIgnored d pc failed => simp [offered,arrival,failed]
  · cases writer
  · cases stats

theorem ringOffersPayloads {se} {s t : Client} {trace : List Event} (run : exec (next se) s trace = some t) :
    ringOffers se s trace = (offers se trace).map payload := by
  induction trace generalizing s with
  | nil => rfl
  | cons e trace ih =>
    obtain ⟨middle,step,rest⟩ := Option.bind_eq_some_iff.mp run
    have later := ih rest
    rw [ringOffers,step,offersCons,List.map_append]
    cases e with
    | recvfrom r => rw [← offeredArrival step,← later]
    | _ => exact later

def result : Event → Option RecvResult
  | .recvfrom r => some r
  | _ => none

def results (trace : List Event) : List RecvResult := trace.filterMap result

def unrejected (se : Session) : RecvResult → Bool
  | .error _ => true
  | .datagram d => chosen se d

def datagram : RecvResult → Option Datagram
  | .error _ => none
  | .datagram d => some d

theorem offersResults (se : Session) (trace : List Event) :
    offers se trace = ((results trace).filter (unrejected se)).filterMap datagram := by
  induction trace with
  | nil => rfl
  | cons e trace ih =>
    rw [offersCons,ih]
    cases e with
    | recvfrom r =>
      cases r with
      | error eintr => rfl
      | datagram d => cases passed : chosen se d <;> simp [results,result,arrival,datagram,unrejected,passed]
    | _ => rfl

structure Books where
  packetsReceived : Nat
  packetsDropped : Nat
  bytesReceived : Nat
  tracker : SeqTracker
  deriving DecidableEq, Repr

def booksOf (s : Client) : Books := ⟨s.packetsReceived,s.packetsDropped,s.bytesReceived,s.tracker⟩

def booksFrom (se : Session) (trace : List Event) : Books where
  packetsReceived := (offers se trace).length
  packetsDropped := (writes se trace).countP fun w => w.2 ≠ 0
  bytesReceived := (((writes se trace).filter fun w => w.2 = 0).map fun w => w.1.bytes.length - 5).sum
  tracker := ((offers se trace).map (seqOf se)).foldl track SeqTracker.initial

theorem booksKept {se heap trace s} (run : exec (next se) (initial heap) trace = some s)
    (between : BetweenDatagrams s) : booksOf s = booksFrom se trace := by
  have booked := bookedRun run
  have received := (streamRun run).received
  have dropped := droppedRun run
  rw [unaccountedBetween between,accepted,keptOctets] at received
  rw [Dropped,undroppedBetween between,← failuresWrites (pairedBetween booked between)] at dropped
  simp only [booksOf,booksFrom,booked.count,booked.tracker,Books.mk.injEq]
  exact ⟨trivial,dropped,received,trivial⟩

/- s_0, .., s_n are first :: rest; writes pairs the datagrams that pass with the outcome of
their ring writes. The last part compares with any run whose results differ in rejected
datagrams alone. -/
theorem receiverBookkeeping {se heap trace s} (run : exec (next se) (initial heap) trace = some s)
    (between : BetweenDatagrams s) :
    s.packetsReceived = (offers se trace).length ∧
    s.packetsDropped = (writes se trace).countP (fun w => w.2 ≠ 0) ∧
    s.bytesReceived = (((writes se trace).filter fun w => w.2 = 0).map fun w => w.1.bytes.length - 5).sum ∧
    (∀ first rest, (offers se trace).map (seqOf se) = first :: rest →
      s.packetsReceived = rest.length + 1 ∧ s.tracker.expectedSeq = rest.getLastD first + 1 ∧
      s.tracker.packetLossCount.toUInt32 = rest.getLastD first - first - UInt32.ofNat rest.length) ∧
    ∀ otherHeap other t, exec (next se) (initial otherHeap) other = some t → BetweenDatagrams t →
      (results other).filter (unrejected se) = (results trace).filter (unrejected se) → returns other = returns trace →
      booksOf t = booksOf s ∧ ringOffers se (initial otherHeap) other = ringOffers se (initial heap) trace := by
  have books := booksKept run between
  refine ⟨congrArg Books.packetsReceived books,congrArg Books.packetsDropped books,
    congrArg Books.bytesReceived books,?_,?_⟩
  · intro first rest passed
    have tracker := congrArg Books.tracker books
    have count := congrArg List.length passed
    simp only [booksOf,booksFrom,passed] at tracker
    obtain ⟨expected,_,loss⟩ := trackRun first rest
    rw [List.length_map,List.length_cons] at count
    refine ⟨(congrArg Books.packetsReceived books).trans count,?_,?_⟩
    · rw [tracker,expected]
    · rw [tracker,loss]
  · intro otherHeap other t otherRun otherBetween same outcomes
    have passed : offers se other = offers se trace := by rw [offersResults,offersResults,same]
    refine ⟨?_,by rw [ringOffersPayloads otherRun,ringOffersPayloads run,passed]⟩
    rw [books,booksKept otherRun otherBetween]
    simp only [booksFrom,writes,passed,outcomes]

/- A datagram from a wrong port between two of the channel, the second behind a gap over
the wrap of the numbers. -/
def gapTrace : List Event :=
  [.receiverStart true,.receiverLoop,.recvfrom (.datagram ⟨⟨1,1989⟩,[255,255,255,255,3,10,20,30],by decide⟩),
   .ringWriteCopy,.account,.receiverLoop,.recvfrom (.datagram ⟨⟨1,53⟩,[7,7,7,7,3,1],by decide⟩),.receiverLoop,
   .recvfrom (.error true),.receiverLoop,.recvfrom (.datagram ⟨⟨1,1989⟩,[2,0,0,0,3,40],by decide⟩),
   .ringWriteCopy,.account]

theorem gapBooked : ∃ s, exec (next sampleSession) (initial [9]) gapTrace = some s ∧ s.packetsReceived = 2 ∧
    s.packetsDropped = 0 ∧ s.bytesReceived = 4 ∧ s.tracker.expectedSeq = 3 ∧
    s.tracker.packetLossCount.toUInt32 = 2 := by
  have ran : (exec (next sampleSession) (initial [9]) gapTrace).map Client.receiver = some .loopTest := by
    decide +kernel
  obtain ⟨s,run,pc⟩ := Option.map_eq_some_iff.mp ran
  have between : BetweenDatagrams s := by
    rw [BetweenDatagrams,pc]
    exact True.intro
  obtain ⟨received,dropped,bytes,numbers,_⟩ := receiverBookkeeping run between
  obtain ⟨_,expected,loss⟩ := numbers 4294967295 [2] (by decide +kernel)
  exact ⟨s,run,received,dropped,bytes,expected,loss⟩

end IPv4Media.ReceiverBooks
