import IPv4Media.ReceiverBooks
import IPv4Media.RingCalls

/-! The threads of the client (client.c) as the two callers of the ring: what receiver_thread
does to the ring are calls of ring_buffer_write with payloads, what writer_thread does are
calls of ring_buffer_read with its buffer size, and every wait of theirs is one of those calls. -/
namespace IPv4Media.ClientCalls
open Octets Proto Socket Receiver ClientRing ClientThreads ClientTrace ReceiverBooks RingCalls Execution
open QueueCalls (Calls Producer Consumer Done signalProducer signalConsumer)

def producer (buf : Bytes) : ReceiverPc → Producer UInt8
  | .ringTest len => .test (readData buf (dataLen len))
  | .ringWait len => .wait (readData buf (dataLen len))
  | .ringExpired len => .expired (readData buf (dataLen len))
  | _ => .idle

def consumer : WriterPc → Consumer
  | .ringTest => .test writerBufferSize
  | .ringWait => .wait writerBufferSize
  | _ => .idle

def calls (s : Client) (done : List (Done UInt8)) : Calls RingBuffer UInt8 where
  store := s.rb
  producer := producer s.msgChannel s.receiver
  consumer := consumer s.writer
  done := done

def written : Done UInt8 → Option (Bytes × Int)
  | .put src ret => some (src,ret)
  | .take _ _ => none

def offeredWrites (se : Session) (trace : List Event) : List (Bytes × Int) :=
  (writes se trace).map fun w => (payload w.1,w.2)

theorem producerSignal (buf : Bytes) (pc : ReceiverPc) :
    producer buf (signalNotFull pc) = signalProducer (producer buf pc) := by cases pc <;> rfl

theorem consumerSignal (pc : WriterPc) : consumer (signalNotEmpty pc) = signalConsumer (consumer pc) := by
  cases pc <;> rfl

theorem offeredOther {se trace e} (noOffer : ∀ d, arrival e = some d → chosen se d = false)
    (noReturn : returned e = none) : offeredWrites se (trace ++ [e]) = offeredWrites se trace := by
  rw [offeredWrites,writes,offersOther noOffer,returnsOther noReturn]
  rfl

structure Offering (se : Session) (trace : List Event) (s : Client) (len : Nat) (src : Bytes) : Prop where
  data : readData s.msgChannel (dataLen len) = src
  size : src.length = dataLen len
  ends : ∀ e ret, arrival e = none → returned e = some ret →
    offeredWrites se (trace ++ [e]) = offeredWrites se trace ++ [(src,ret)]

theorem pendingOffering {se trace s len} (booked : Booked se trace s) (pending : pendingLen s.receiver = some len) :
    ∃ src, Offering se trace s len src := by
  cases booked.matched with
  | idle none paired =>
    rw [none] at pending
    contradiction
  | busy d before busy offered passed paired data =>
    obtain rfl : d.bytes.length = len := Option.some.inj (busy.symm.trans pending)
    refine ⟨payload d,data,(dataLenPayload d).symm,fun e ret noOffer ends => ?_⟩
    have same : offers se (trace ++ [e]) = before ++ [d] := by rw [offersOther (by simp [noOffer]),offered]
    rw [offeredWrites,offeredWrites,writes,writes,same,returnsSnoc,ends,Option.toList_some,List.zip_append paired,
      offered,zipShort paired,List.map_append]
    rfl

structure Called (se : Session) (trace : List Event) (s : Client) (e : Event) (t : Client)
    (events : List (QueueCalls.Event UInt8)) (result : List (Done UInt8)) : Prop where
  moves : ∀ done, exec ringNext (calls s done) events = some (calls t (done ++ result))
  booked : offeredWrites se (trace ++ [e]) = offeredWrites se trace ++ result.filterMap written

theorem calledStill {se trace s e t} (ring : t.rb = s.rb)
    (receiver : producer t.msgChannel t.receiver = producer s.msgChannel s.receiver)
    (writer : consumer t.writer = consumer s.writer)
    (noOffer : ∀ d, arrival e = some d → chosen se d = false) (noReturn : returned e = none) :
    Called se trace s e t [] [] where
  moves done := by rw [execNil,calls,calls,ring,receiver,writer,List.append_nil]
  booked := by rw [offeredOther noOffer noReturn,List.filterMap_nil,List.append_nil]

theorem calledMove {se trace s e t} (c : QueueCalls.Event UInt8)
    (move : ∀ done, ringNext (calls s done) c = some (calls t done))
    (noOffer : ∀ d, arrival e = some d → chosen se d = false) (noReturn : returned e = none) :
    Called se trace s e t [c] [] where
  moves done := by rw [execCons,move,List.append_nil]; rfl
  booked := by rw [offeredOther noOffer noReturn,List.filterMap_nil,List.append_nil]

theorem payloadFits (d : Datagram) : (payload d).length ≤ ringBufferSize := by
  have room : msgChannelMax ≤ ringBufferSize := by decide
  have fits := d.fits
  rw [payload,List.length_drop]
  omega

theorem calledReceiver {se trace s e t} (booked : Booked se trace s) (step : ReceiverStep se s e t) :
    ∃ events result, Called se trace s e t events result := by
  cases step with
  | start pc => exact ⟨[],[],calledStill rfl (by rw [pc]; rfl) rfl (by simp [arrival]) rfl⟩
  | startFailed pc => exact ⟨[],[],calledStill rfl (by rw [pc]; rfl) rfl (by simp [arrival]) rfl⟩
  | loop pc =>
    refine ⟨[],[],calledStill rfl ?_ rfl (by simp [arrival]) rfl⟩
    cases s.stopFlag <;> rw [pc] <;> rfl
  | recvError eintr pc =>
    refine ⟨[],[],calledStill rfl ?_ rfl (by simp [arrival]) rfl⟩
    cases eintr <;> rw [pc] <;> rfl
  | recvIgnored d pc failed =>
    refine ⟨[],[],calledStill rfl (by rw [pc]; rfl) rfl (fun other same => ?_) rfl⟩
    cases Option.some.inj same
    exact failed
  | recvChosen d pc passed =>
    cases booked.matched with
    | busy other before busy _ _ _ _ =>
      rw [pc] at busy
      cases busy
    | idle none paired =>
      refine ⟨[.beginPut (payload d)],[],fun done => ?_,?_⟩
      · simp [ringNext,QueueCalls.next,calls,pc,producer,payloadFits,readDataDelivered _ passed]
      · rw [offeredWrites,writes,offersChosen passed,returnsOther rfl,zipShort paired,List.filterMap_nil,
          List.append_nil]
        rfl
  | copy len rb pc room stored =>
    obtain ⟨src,data,size,ends⟩ := pendingOffering booked (by rw [pc]; rfl)
    refine ⟨[.put],[.put src 0],fun done => ?_,ends _ 0 rfl rfl⟩
    rw [data] at stored
    simp [ringNext,QueueCalls.next,ringStore,calls,pc,producer,data,size,room,stored,consumerSignal]
  | sleep len pc full =>
    obtain ⟨src,data,size,_⟩ := pendingOffering booked (by rw [pc]; rfl)
    refine ⟨[.sleepPut],[],calledMove _ (fun done => ?_) (by simp [arrival]) rfl⟩
    simp [ringNext,QueueCalls.next,ringStore,calls,pc,producer,data,size,full]
  | wake len pc =>
    refine ⟨[.wakePut],[],calledMove _ (fun done => ?_) (by simp [arrival]) rfl⟩
    simp [ringNext,QueueCalls.next,calls,pc,producer]
  | expire len pc =>
    refine ⟨[.expire],[],calledMove _ (fun done => ?_) (by simp [arrival]) rfl⟩
    simp [ringNext,QueueCalls.next,calls,pc,producer]
  | timeout len pc =>
    obtain ⟨src,data,_,ends⟩ := pendingOffering booked (by rw [pc]; rfl)
    refine ⟨[.giveUp],[.put src (-1)],fun done => ?_,ends _ (-1) rfl rfl⟩
    simp [ringNext,QueueCalls.next,calls,pc,producer,data]
  | accountReceived len pc => exact ⟨[],[],calledStill rfl (by rw [pc]; rfl) rfl (by simp [arrival]) rfl⟩
  | accountDropped len ret pc failed =>
    exact ⟨[],[],calledStill rfl (by rw [pc]; rfl) rfl (by simp [arrival]) rfl⟩

theorem calledWriter {se trace s e t} (step : WriterStep s e t) :
    ∃ events result, Called se trace s e t events result := by
  cases step with
  | loop pc =>
    cases stop : s.stopFlag with
    | true => exact ⟨[],[],calledStill rfl rfl (by rw [pc]; rfl) (by simp [arrival]) rfl⟩
    | false =>
      refine ⟨[.beginTake writerBufferSize],[],calledMove _ (fun done => ?_) (by simp [arrival]) rfl⟩
      simp [ringNext,QueueCalls.next,calls,pc,consumer]
  | read bytes rb pc filled taken =>
    refine ⟨[.take],[.take writerBufferSize bytes],fun done => ?_,?_⟩
    · have test : consumer s.writer = .test writerBufferSize := by rw [pc]; rfl
      have idle : consumer (if 0 < bytes.length then .pipeTest else .loopTest) = .idle := by split <;> rfl
      simp [ringNext,QueueCalls.next,ringStore,calls,test,filled,taken,producerSignal,idle]
    · rw [offeredOther (by simp [arrival]) rfl]
      exact (List.append_nil _).symm
  | sleep pc empty =>
    refine ⟨[.sleepTake],[],calledMove _ (fun done => ?_) (by simp [arrival]) rfl⟩
    simp [ringNext,QueueCalls.next,ringStore,calls,pc,consumer,empty]
  | wake pc =>
    refine ⟨[.wakeTake],[],calledMove _ (fun done => ?_) (by simp [arrival]) rfl⟩
    simp [ringNext,QueueCalls.next,calls,pc,consumer]
  | poll pc => exact ⟨[],[],calledStill rfl rfl rfl (by simp [arrival]) rfl⟩
  | ready pc go => exact ⟨[],[],calledStill rfl rfl (by rw [pc]; rfl) (by simp [arrival]) rfl⟩
  | more pc unwritten go => exact ⟨[],[],calledStill rfl rfl (by rw [pc]; rfl) (by simp [arrival]) rfl⟩
  | finished pc done => exact ⟨[],[],calledStill rfl rfl (by rw [pc]; rfl) (by simp [arrival]) rfl⟩
  | write n pc partly => exact ⟨[],[],calledStill rfl rfl (by rw [pc]; rfl) (by simp [arrival]) rfl⟩
  | fatal pc => exact ⟨[],[],calledStill rfl rfl (by rw [pc]; rfl) (by simp [arrival]) rfl⟩
  | retry r pc again =>
    rcases again with rfl | rfl <;> exact ⟨[],[],calledStill rfl rfl (by rw [pc]; rfl) (by simp [arrival]) rfl⟩

theorem calledStep {se trace s e t} (booked : Booked se trace s) (step : next se s e = some t) :
    ∃ events result, Called se trace s e t events result := by
  rcases stepCases step with receiver | writer | stats
  · exact calledReceiver booked receiver
  · exact calledWriter writer
  · cases stats <;> exact ⟨[],[],calledStill rfl rfl rfl (by simp [arrival]) rfl⟩

/- Every run of the client is, in what it does to the ring, a run of these calls, and their
writes with their results are those of the receiver's books. -/
theorem clientCalls {se heap trace s} (run : exec (next se) (initial heap) trace = some s) :
    ∃ events done, exec ringNext ringStart events = some (calls s done) ∧
      done.filterMap written = offeredWrites se trace := by
  suffices both : Booked se trace s ∧ ∃ events done, exec ringNext ringStart events = some (calls s done) ∧
      done.filterMap written = offeredWrites se trace from both.2
  refine history (I := fun trace s => Booked se trace s ∧ ∃ events done,
    exec ringNext ringStart events = some (calls s done) ∧ done.filterMap written = offeredWrites se trace)
    ⟨bookedInitial se heap,[],[],rfl,rfl⟩ ?_ run
  rintro trace s e t ⟨booked,events,done,ran,kept⟩ step
  obtain ⟨more,result,called⟩ := calledStep booked step
  refine ⟨bookedStep booked step,events ++ more,done ++ result,?_,?_⟩
  · rw [execAppend,ran]
    exact called.moves done
  · rw [List.filterMap_append,kept,called.booked]

theorem clientIndices {se heap trace s} (run : exec (next se) (initial heap) trace = some s) : Indices s.rb := by
  obtain ⟨events,done,ran,_⟩ := clientCalls run
  have valid := (@QueueCalls.refinesRun _ _ _ ringStore _ Valid queue ringBufferSize ringRefines ringStart initValid
    events).2 _ ran
  exact validIndices valid

end IPv4Media.ClientCalls
