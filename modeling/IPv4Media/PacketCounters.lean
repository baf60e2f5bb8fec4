import IPv4Media.ReceiverBooks

/-! packets_written beside packets_received and packets_dropped (client.h, writer_thr.c). The
writer counts what ring_buffer_read gave it at once, up to 64 KiB whatever the packets. -/
namespace IPv4Media.PacketCounters
open Octets Proto Socket Receiver ClientRing ClientThreads ClientTrace ClientStream ReceiverBooks Execution

def batches (trace : List Event) : Nat := trace.count .ringReadCopy
def acceptedWrites (trace : List Event) : Nat := trace.count .ringWriteCopy

def BetweenReads (s : Client) : Prop :=
  match s.writer with
  | .pipeTest | .pipeWrite => False
  | _ => True

structure Quiescent (s : Client) : Prop where
  empty : s.rb.count = 0
  receiver : BetweenDatagrams s
  writer : BetweenReads s

def Balanced (s : Client) : Prop := (s.packetsWritten : Int) = s.packetsReceived - s.packetsDropped

def WritesAlone (s : Client) (e : Event) (_ : Client) : Prop := e = .ringWriteCopy → s.rb.count = 0

-- The writer has a batch that packets_written does not count yet.
def uncounted : WriterPc → Nat
  | .pipeTest | .pipeWrite => 1
  | _ => 0

def Counted (trace : List Event) (s : Client) : Prop := s.packetsWritten + uncounted s.writer = batches trace

theorem batchesSnoc (trace : List Event) (e : Event) :
    batches (trace ++ [e]) = batches trace + if e = .ringReadCopy then 1 else 0 := by
  simp [batches,List.count_append,List.count_singleton]

theorem writesSnoc (trace : List Event) (e : Event) :
    acceptedWrites (trace ++ [e]) = acceptedWrites trace + if e = .ringWriteCopy then 1 else 0 := by
  simp [acceptedWrites,List.count_append,List.count_singleton]

theorem signalUncounted (pc : WriterPc) : uncounted (signalNotEmpty pc) = uncounted pc := by cases pc <;> rfl

theorem readCount {rb rb' : RingBuffer} {bytes : Bytes} {maxLen : Nat} (valid : Valid rb)
    (taken : ringBufferRead rb maxLen = some (bytes,rb')) :
    bytes.length = min maxLen rb.count ∧ rb'.count = rb.count - maxLen := by
  obtain ⟨next,read,_,dropped⟩ := readTakes valid maxLen
  obtain ⟨rfl,rfl⟩ := Prod.mk.inj (Option.some.inj (taken.symm.trans read))
  have left := congrArg List.length dropped
  rw [queueLength,List.length_drop,queueLength] at left
  exact ⟨by rw [List.length_take,queueLength],left⟩

theorem writeCount {rb rb' : RingBuffer} {src : Bytes} (valid : Valid rb)
    (room : rb.count + src.length ≤ ringBufferSize) (written : ringBufferWrite rb src = some rb') :
    rb'.count = rb.count + src.length := by
  obtain ⟨next,stored,_,appended⟩ := writeAppends valid room
  cases Option.some.inj (written.symm.trans stored)
  have size := congrArg List.length appended
  rwa [queueLength,List.length_append,queueLength] at size

theorem countedStep {se trace s e t} (counted : Counted trace s) (valid : Valid s.rb) (step : next se s e = some t) :
    Counted (trace ++ [e]) t := by
  unfold Counted at counted ⊢
  rw [batchesSnoc,← counted]
  rcases stepCases step with receiver | writer | stats
  · cases receiver with
    | copy len rb pc room written => simp [signalUncounted]
    | _ => simp
  · cases writer with
    | read bytes rb pc filled taken =>
      have some_ : 0 < bytes.length := by
        have size := (readCount valid taken).1
        have most : 0 < writerBufferSize := by decide
        omega
      simp [pc,uncounted,some_]
    | loop pc => cases s.stopFlag <;> simp [pc,uncounted]
    | poll pc => simp
    | ready pc go => simp [pc,uncounted]
    | sleep pc empty => simp [pc,uncounted]
    | wake pc => simp [pc,uncounted]
    | more pc unwritten go => simp [pc,uncounted]
    | finished pc done => simp [pc,uncounted]
    | write n pc partly => simp [pc,uncounted]
    | retry r pc again => simp [pc,uncounted]
    | fatal pc => simp [pc,uncounted]
  · cases stats <;> simp

theorem countedRun {se heap trace s} (run : exec (next se) (initial heap) trace = some s) : Counted trace s := by
  refine (history (I := fun trace s => exec (next se) (initial heap) trace = some s ∧ Counted trace s)
    ⟨rfl,rfl⟩ ?_ run).2
  rintro trace s e t ⟨before,counted⟩ step
  exact ⟨execSnoc.mpr ⟨s,before,step⟩,countedStep counted (streamRun before).ring step⟩

theorem returnsAccepted (trace : List Event) : (returns trace).countP (fun ret => ret = 0) = acceptedWrites trace := by
  induction trace using List.reverseRecOn with
  | nil => rfl
  | append_singleton trace e ih =>
    rw [returnsSnoc,List.countP_append,ih,writesSnoc]
    cases e <;> simp [returned]

theorem receivedAccepted {se heap trace s} (run : exec (next se) (initial heap) trace = some s)
    (between : BetweenDatagrams s) : s.packetsReceived = s.packetsDropped + acceptedWrites trace := by
  have booked := bookedRun run
  have dropped := droppedRun run
  have split_ := List.length_eq_countP_add_countP (fun ret : Int => decide (ret ≠ 0)) (l := returns trace)
  have kept : (returns trace).countP (fun ret : Int => decide ¬ decide (ret ≠ 0) = true) = acceptedWrites trace := by
    rw [← returnsAccepted]
    exact List.countP_congr fun ret _ => by simp
  rw [Dropped,undroppedBetween between,failures] at dropped
  rw [booked.count,pairedBetween booked between,split_,kept]
  omega

/- While each write finds the ring empty, what is in the ring is one packet that the next
read takes whole. -/
structure OneByOne (trace : List Event) (s : Client) : Prop where
  small : s.rb.count ≤ writerBufferSize
  ahead : acceptedWrites trace = batches trace + if s.rb.count = 0 then 0 else 1

theorem payloadSize {se d} (passed : chosen se d = true) :
    1 ≤ (payload d).length ∧ (payload d).length ≤ writerBufferSize := by
  have long := (chosenSource passed).2.1
  have short := d.fits
  have room : msgChannelMax ≤ writerBufferSize := by decide
  have offset : channelDataOffset + 1 = sizeofMsgChannel := by decide
  rw [payload,List.length_drop]
  omega

theorem oneByOneStep {se trace s e t} (one : OneByOne trace s) (booked : Booked se trace s) (valid : Valid s.rb)
    (alone : WritesAlone s e t) (step : next se s e = some t) : OneByOne (trace ++ [e]) t := by
  obtain ⟨small,ahead⟩ := one
  have still : t.rb.count = s.rb.count → e ≠ .ringWriteCopy → e ≠ .ringReadCopy → OneByOne (trace ++ [e]) t := by
    intro same write read
    refine ⟨by omega,?_⟩
    rw [writesSnoc,batchesSnoc,if_neg write,if_neg read,same,ahead]
    omega
  rcases stepCases step with receiver | writer | stats
  · cases receiver with
    | copy len rb pc room written =>
      have empty := alone rfl
      cases booked.matched with
      | idle none paired =>
        rw [pc] at none
        contradiction
      | busy d before pending offered passed paired data =>
        rw [pc] at pending
        obtain rfl : len = d.bytes.length := Option.some.inj pending
        obtain ⟨least,most⟩ := payloadSize passed
        have fits : s.rb.count + (payload d).length ≤ ringBufferSize := by
          have short := of_decide_eq_false room
          rw [dataLenPayload] at short
          omega
        rw [data] at written
        have count := writeCount valid fits written
        refine ⟨by simp only; omega,?_⟩
        rw [writesSnoc,batchesSnoc,if_pos rfl,if_neg (by simp),ahead,if_pos empty,if_neg (by simp only; omega)]
    | recvChosen d pc passed => exact still rfl (by simp) (by simp)
    | _ => exact still rfl (by simp) (by simp)
  · cases writer with
    | read bytes rb pc filled taken =>
      have left := (readCount valid taken).2
      have none_ : rb.count = 0 := by omega
      refine ⟨by simp only; omega,?_⟩
      rw [writesSnoc,batchesSnoc,if_pos rfl,if_neg (by simp),ahead,if_neg filled,if_pos none_]
    | _ => exact still rfl (by simp) (by simp)
  · cases stats <;> exact still rfl (by simp) (by simp)

theorem oneByOneRun {se heap trace s} (run : exec (next se) (initial heap) trace = some s)
    (alone : Along (next se) WritesAlone (initial heap) trace) : OneByOne trace s := by
  refine (history (I := fun trace s => exec (next se) (initial heap) trace = some s ∧
    (Along (next se) WritesAlone (initial heap) trace → OneByOne trace s))
    ⟨rfl,fun _ => ⟨Nat.zero_le _,rfl⟩⟩ ?_ run).2 alone
  rintro trace s e t ⟨before,one⟩ step
  refine ⟨execSnoc.mpr ⟨s,before,step⟩,fun along => ?_⟩
  obtain ⟨earlier,now⟩ := (alongSnoc before step).mp along
  exact oneByOneStep (one earlier) (bookedRun before) (streamRun before).ring now step

theorem balancedBatches {se heap trace s} (run : exec (next se) (initial heap) trace = some s)
    (receiver : BetweenDatagrams s) (writer : BetweenReads s) :
    Balanced s ↔ batches trace = acceptedWrites trace := by
  have received := receivedAccepted run receiver
  have counted := countedRun run
  have none_ : uncounted s.writer = 0 := by
    cases pc : s.writer <;> simp [BetweenReads,pc] at writer <;> rfl
  rw [Counted,none_] at counted
  unfold Balanced
  omega

theorem packetCounters {se heap trace s} (run : exec (next se) (initial heap) trace = some s) (quiet : Quiescent s) :
    (Along (next se) WritesAlone (initial heap) trace → Balanced s) ∧
    (Balanced s ↔ batches trace = acceptedWrites trace) := by
  have exactly := balancedBatches run quiet.receiver quiet.writer
  refine ⟨fun alone => exactly.mpr ?_,exactly⟩
  have ahead := (oneByOneRun run alone).ahead
  rw [if_pos quiet.empty] at ahead
  exact ahead.symm

def aloneNow (s : Client) (e : Event) : Bool := e != .ringWriteCopy || s.rb.count == 0

theorem aloneSound (s : Client) (e : Event) (t : Client) (now : aloneNow s e = true) : WritesAlone s e t := by
  rintro rfl
  simpa [aloneNow] using now

def pacedTrace : List Event :=
  [.receiverStart true,.receiverLoop,.recvfrom (.datagram ⟨⟨1,1989⟩,[1,0,0,0,3,11],by decide⟩),.ringWriteCopy,.account,
   .writerPoll,.writerLoop,.ringReadCopy,.pipeLoop,.pipeWrite (.wrote 1),.pipeLoop,
   .receiverLoop,.recvfrom (.datagram ⟨⟨1,1989⟩,[2,0,0,0,3,12],by decide⟩),.ringWriteCopy,.account,
   .writerLoop,.ringReadCopy,.pipeLoop,.pipeWrite .eagain,.pipeLoop,.pipeWrite (.wrote 1),.pipeLoop]

/- Both packets are in the ring when the writer comes. -/
def pairedTrace : List Event :=
  [.receiverStart true,.receiverLoop,.recvfrom (.datagram ⟨⟨1,1989⟩,[1,0,0,0,3,11],by decide⟩),.ringWriteCopy,.account,
   .receiverLoop,.recvfrom (.datagram ⟨⟨1,1989⟩,[2,0,0,0,3,12],by decide⟩),.ringWriteCopy,.account,
   .writerPoll,.writerLoop,.ringReadCopy,.pipeLoop,.pipeWrite (.wrote 2),.pipeLoop]

def resting (s : Client) : Nat × ReceiverPc × WriterPc := (s.rb.count,s.receiver,s.writer)

theorem restingQuiescent {s : Client} (rests : resting s = (0,.loopTest,.loopTest)) : Quiescent s := by
  obtain ⟨empty,same⟩ := Prod.mk.inj rests
  obtain ⟨receiver,writer⟩ := Prod.mk.inj same
  exact ⟨empty,by rw [BetweenDatagrams,receiver]; exact True.intro,by rw [BetweenReads,writer]; exact True.intro⟩

theorem pacedBalanced : ∃ s, exec (next sampleSession) (initial []) pacedTrace = some s ∧ Quiescent s ∧ Balanced s := by
  have seen : (exec (next sampleSession) (initial []) pacedTrace).map resting = some (0,.loopTest,.loopTest) := by
    decide +kernel
  have alone : check (next sampleSession) aloneNow (initial []) pacedTrace = true := by decide +kernel
  obtain ⟨s,run,rests⟩ := Option.map_eq_some_iff.mp seen
  have quiet := restingQuiescent rests
  exact ⟨s,run,quiet,(packetCounters run quiet).1 (alongChecked aloneSound alone)⟩

theorem pairedUnbalanced : ∃ s, exec (next sampleSession) (initial []) pairedTrace = some s ∧ Quiescent s ∧
    s.packetsReceived = 2 ∧ s.packetsDropped = 0 ∧ s.packetsWritten = 1 ∧ ¬ Balanced s := by
  have seen : (exec (next sampleSession) (initial []) pairedTrace).map
      (fun s => (resting s,s.packetsReceived,s.packetsDropped,s.packetsWritten)) =
      some ((0,.loopTest,.loopTest),2,0,1) := by decide +kernel
  obtain ⟨s,run,same⟩ := Option.map_eq_some_iff.mp seen
  obtain ⟨rests,same⟩ := Prod.mk.inj same
  obtain ⟨received,same⟩ := Prod.mk.inj same
  obtain ⟨dropped,written⟩ := Prod.mk.inj same
  refine ⟨s,run,restingQuiescent rests,received,dropped,written,fun balanced => ?_⟩
  rw [Balanced,received,dropped,written] at balanced
  contradiction

end IPv4Media.PacketCounters
