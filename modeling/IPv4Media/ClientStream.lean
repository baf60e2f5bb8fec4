import IPv4Media.ClientTrace

/-! The client as one byte stream from the socket to the pipe. The payloads that
ring_buffer_write accepted are, in order, what the pipe got, what the writer still
holds in its local buffer, and what waits in the ring. -/
namespace IPv4Media.ClientStream
open Octets Proto Socket Receiver ClientRing ClientThreads ClientTrace Execution

/- buffer[pos..bytes_read) -/
def unwritten (s : Client) : Bytes := s.buffer.drop s.pos

-- ring_buffer_write has returned 0 but bytes_received is not yet raised.
def unaccounted : ReceiverPc → Nat
  | .ringReturned len ret => if ret = 0 then dataLen len else 0
  | _ => 0

def BetweenDatagrams (s : Client) : Prop :=
  match s.receiver with
  | .start | .loopTest | .recvfrom | .left => True
  | _ => False

structure Stream (se : Session) (trace : List Event) (s : Client) : Prop where
  ring : Valid s.rb
  flow : s.writer ≠ .left → s.pipe ++ unwritten s ++ queue s.rb = (accepted se trace).flatten
  drained : s.writer ≠ .left → s.writer ≠ .pipeTest → s.writer ≠ .pipeWrite → s.stopFlag = false →
    unwritten s = []
  stopped : s.stopFlag = true → s.writer = .loopTest ∨ s.writer = .left
  written : s.bytesWritten = s.pipe.length
  received : s.bytesReceived + unaccounted s.receiver = (accepted se trace).flatten.length

theorem streamInitial (se : Session) (heap : Bytes) : Stream se [] (initial heap) :=
  ⟨initValid,fun _ => rfl,fun _ _ _ _ => rfl,by simp [initial],rfl,rfl⟩

theorem signalNotEmptyLeft (pc : WriterPc) : signalNotEmpty pc = .left ↔ pc = .left := by
  cases pc <;> simp [signalNotEmpty]

theorem signalNotEmptyKeeps {pc : WriterPc} :
    (signalNotEmpty pc = .pipeTest ↔ pc = .pipeTest) ∧ (signalNotEmpty pc = .pipeWrite ↔ pc = .pipeWrite) ∧
    (pc = .loopTest → signalNotEmpty pc = .loopTest) := by
  cases pc <;> simp [signalNotEmpty]

theorem signalNotFullUnaccounted (pc : ReceiverPc) : unaccounted (signalNotFull pc) = unaccounted pc := by
  cases pc <;> rfl

theorem streamAside {se trace e} {s t : Client} (stream : Stream se trace s)
    (same : accepted se (trace ++ [e]) = accepted se trace) (rb : t.rb = s.rb) (pipe : t.pipe = s.pipe)
    (buffer : t.buffer = s.buffer ∧ t.pos = s.pos) (writer : t.writer = s.writer)
    (flag : t.stopFlag = s.stopFlag) (count : t.bytesWritten = s.bytesWritten)
    (books : t.bytesReceived + unaccounted t.receiver = s.bytesReceived + unaccounted s.receiver) :
    Stream se (trace ++ [e]) t := by
  have rest : unwritten t = unwritten s := by rw [unwritten,unwritten,buffer.1,buffer.2]
  constructor
  · rw [rb]; exact stream.ring
  · rw [writer,pipe,rest,rb,same]; exact stream.flow
  · rw [writer,flag,rest]; exact stream.drained
  · rw [writer,flag]; exact stream.stopped
  · rw [count,pipe]; exact stream.written
  · rw [books,same]; exact stream.received

theorem streamCopy {se trace s len rb} (booked : Booked se trace s) (stream : Stream se trace s)
    (pc : s.receiver = .ringTest len) (room : mustWait s.rb (dataLen len) = false)
    (copied : ringBufferWrite s.rb (readData s.msgChannel (dataLen len)) = some rb) :
    Stream se (trace ++ [.ringWriteCopy])
      { s with rb, receiver := .ringReturned len 0, writer := signalNotEmpty s.writer } := by
  cases booked.matched with
  | idle none _ =>
    rw [pc] at none
    contradiction
  | busy d before pending offered passed paired data =>
    have length : len = d.bytes.length := by
      rw [pc] at pending
      exact Option.some.inj pending
    subst length
    rw [data] at copied
    have fits : s.rb.count + (payload d).length ≤ ringBufferSize := by
      have short := of_decide_eq_false room
      rw [dataLenPayload] at short
      omega
    obtain ⟨next,step,valid,appended⟩ := writeAppends stream.ring fits
    have same : next = rb := Option.some.inj (step.symm.trans copied)
    subst same
    have grown : accepted se (trace ++ [.ringWriteCopy]) = accepted se trace ++ [payload d] :=
      @acceptedReturn se trace _ 0 d before offered paired rfl rfl
    have keeps := @signalNotEmptyKeeps s.writer
    constructor
    · exact valid
    · intro running
      have flow := stream.flow (fun left => running ((signalNotEmptyLeft _).mpr left))
      simp only [unwritten] at flow ⊢
      rw [grown,appended,List.flatten_append,← flow]
      simp only [List.flatten_singleton,List.append_assoc]
    · intro running notTest notWrite go
      exact stream.drained (fun left => running ((signalNotEmptyLeft _).mpr left))
        (fun h => notTest (keeps.1.mpr h)) (fun h => notWrite (keeps.2.1.mpr h)) go
    · intro flag
      rcases stream.stopped flag with h | h
      · exact .inl (keeps.2.2 h)
      · exact .inr ((signalNotEmptyLeft _).mpr h)
    · exact stream.written
    · have received := stream.received
      rw [pc] at received
      simp only [unaccounted,if_true] at received ⊢
      rw [grown,List.flatten_append,List.length_append,← received,dataLenPayload]
      simp

theorem streamReceiver {se trace s e t} (booked : Booked se trace s) (stream : Stream se trace s)
    (step : ReceiverStep se s e t) : Stream se (trace ++ [e]) t := by
  have aside := @streamAside se trace e s t stream
  cases step with
  | recvChosen d pc passed =>
    have idle : (offers se trace).length = (returns trace).length := by
      cases booked.matched with
      | idle _ paired => exact paired
      | busy _ _ pending _ _ _ _ =>
        rw [pc] at pending
        contradiction
    exact aside (acceptedOffer idle passed) rfl rfl ⟨rfl,rfl⟩ rfl rfl rfl (by rw [pc]; rfl)
  | recvIgnored d pc failed =>
    refine aside (acceptedOther ?_ rfl) rfl rfl ⟨rfl,rfl⟩ rfl rfl rfl (by rw [pc]; rfl)
    intro other same
    cases Option.some.inj same
    exact failed
  | copy len rb pc room copied => exact streamCopy booked stream pc room copied
  | timeout len pc =>
    refine aside ?_ rfl rfl ⟨rfl,rfl⟩ rfl rfl rfl (by rw [pc]; rfl)
    cases booked.matched with
    | idle none _ =>
      rw [pc] at none
      contradiction
    | busy d before _ offered _ paired _ =>
      rw [@acceptedReturn se trace .ringWriteTimeout (-1) d before offered paired rfl rfl]
      exact List.append_nil _
  | accountReceived len pc =>
    refine aside (acceptedOther (by simp [arrival]) rfl) rfl rfl ⟨rfl,rfl⟩ rfl rfl rfl ?_
    rw [pc]
    rfl
  | accountDropped len ret pc failed =>
    refine aside (acceptedOther (by simp [arrival]) rfl) rfl rfl ⟨rfl,rfl⟩ rfl rfl rfl ?_
    rw [pc]
    simp [unaccounted,failed]
  | loop pc =>
    refine aside (acceptedOther (by simp [arrival]) rfl) rfl rfl ⟨rfl,rfl⟩ rfl rfl rfl ?_
    cases s.stopFlag <;> rw [pc] <;> rfl
  | recvError eintr pc =>
    refine aside (acceptedOther (by simp [arrival]) rfl) rfl rfl ⟨rfl,rfl⟩ rfl rfl rfl ?_
    cases eintr <;> rw [pc] <;> rfl
  | _ pc =>
    refine aside (acceptedOther (by simp [arrival]) rfl) rfl rfl ⟨rfl,rfl⟩ rfl rfl rfl ?_
    simp [*,unaccounted]

theorem writerSilent {s e t} (se : Session) (trace : List Event) (step : WriterStep s e t) :
    accepted se (trace ++ [e]) = accepted se trace := by
  cases step <;> exact acceptedOther (by simp [arrival]) rfl

theorem writerRunning {s e t} (step : WriterStep s e t) : s.writer ≠ .left := by
  cases step <;> simp [*]

theorem stopFree {se trace s pc} (stream : Stream se trace s) (at_ : s.writer = pc)
    (outside : pc ≠ .loopTest ∧ pc ≠ .left) : s.stopFlag = false := by
  cases flag : s.stopFlag with
  | false => rfl
  | true =>
    rcases stream.stopped flag with h | h
    · exact absurd (at_.symm.trans h) outside.1
    · exact absurd (at_.symm.trans h) outside.2

theorem drainedBefore {se trace s pc} (stream : Stream se trace s) (at_ : s.writer = pc)
    (outside : pc ≠ .left ∧ pc ≠ .pipeTest ∧ pc ≠ .pipeWrite) (go : s.stopFlag = false) : unwritten s = [] := by
  subst at_
  exact stream.drained outside.1 outside.2.1 outside.2.2 go

theorem streamWriterAside {se trace e} {s t : Client} (stream : Stream se trace s) (step : WriterStep s e t)
    (rb : t.rb = s.rb) (pipe : t.pipe = s.pipe) (buffer : t.buffer = s.buffer ∧ t.pos = s.pos)
    (receiver : t.receiver = s.receiver) (counts : t.bytesWritten = s.bytesWritten ∧ t.bytesReceived = s.bytesReceived)
    (drained : t.writer ≠ .left → t.writer ≠ .pipeTest → t.writer ≠ .pipeWrite → t.stopFlag = false →
      unwritten s = [])
    (stopped : t.stopFlag = true → t.writer = .loopTest ∨ t.writer = .left) :
    Stream se (trace ++ [e]) t := by
  have same := writerSilent se trace step
  have rest : unwritten t = unwritten s := by rw [unwritten,unwritten,buffer.1,buffer.2]
  constructor
  · rw [rb]; exact stream.ring
  · intro _
    rw [pipe,rest,rb,same]
    exact stream.flow (writerRunning step)
  · rw [rest]; exact drained
  · exact stopped
  · rw [counts.1,pipe]; exact stream.written
  · rw [counts.2,receiver,same]; exact stream.received

theorem streamRead {se trace s bytes rb} (stream : Stream se trace s) (pc : s.writer = .ringTest)
    (taken : ringBufferRead s.rb writerBufferSize = some (bytes,rb)) :
    Stream se (trace ++ [.ringReadCopy]) { s with
      rb
      buffer := bytes
      pos := 0
      writer := if 0 < bytes.length then .pipeTest else .loopTest
      receiver := signalNotFull s.receiver } := by
  have same : accepted se (trace ++ [.ringReadCopy]) = accepted se trace :=
    acceptedOther (by simp [arrival]) rfl
  have go := stopFree stream pc (by simp)
  have empty := drainedBefore stream pc (by simp) go
  obtain ⟨next,step,valid,rest⟩ := readTakes stream.ring writerBufferSize
  obtain ⟨rfl,rfl⟩ := Prod.mk.inj (Option.some.inj (taken.symm.trans step))
  have flow := stream.flow (by rw [pc]; simp)
  rw [empty,List.append_nil] at flow
  constructor
  · exact valid
  · intro _
    simp only [unwritten,List.drop_zero]
    rw [same,rest,List.append_assoc,List.take_append_drop,flow]
  · intro running notTest _ _
    simp only [unwritten,List.drop_zero]
    by_contra some
    exact notTest (if_pos (List.length_pos_iff.mpr some))
  · intro flag
    simp [go] at flag
  · exact stream.written
  · simp only [signalNotFullUnaccounted]
    rw [same]
    exact stream.received

theorem streamWriter {se trace s e t} (stream : Stream se trace s) (step : WriterStep s e t) :
    Stream se (trace ++ [e]) t := by
  have aside := streamWriterAside stream step
  have same := writerSilent se trace step
  cases step with
  | poll pc => exact aside rfl rfl ⟨rfl,rfl⟩ rfl ⟨rfl,rfl⟩ stream.drained stream.stopped
  | ready pc go =>
    exact aside rfl rfl ⟨rfl,rfl⟩ rfl ⟨rfl,rfl⟩ (fun _ _ _ go => drainedBefore stream pc (by simp) go)
      (fun _ => .inl rfl)
  | loop pc =>
    refine aside rfl rfl ⟨rfl,rfl⟩ rfl ⟨rfl,rfl⟩ (fun _ _ _ go => drainedBefore stream pc (by simp) go) ?_
    intro flag
    exact .inr (if_pos flag)
  | read bytes rb pc filled taken => exact streamRead stream pc taken
  | sleep pc empty =>
    have free := stopFree stream pc (by simp)
    exact aside rfl rfl ⟨rfl,rfl⟩ rfl ⟨rfl,rfl⟩ (fun _ _ _ go => drainedBefore stream pc (by simp) go)
      (fun flag => by simp [free] at flag)
  | wake pc =>
    have free := stopFree stream pc (by simp)
    exact aside rfl rfl ⟨rfl,rfl⟩ rfl ⟨rfl,rfl⟩ (fun _ _ _ go => drainedBefore stream pc (by simp) go)
      (fun flag => by simp [free] at flag)
  | more pc some go =>
    exact aside rfl rfl ⟨rfl,rfl⟩ rfl ⟨rfl,rfl⟩ (fun _ _ notWrite _ => absurd rfl notWrite)
      (fun flag => by simp [go] at flag)
  | finished pc done =>
    refine aside rfl rfl ⟨rfl,rfl⟩ rfl ⟨rfl,rfl⟩ ?_ (fun _ => .inl rfl)
    intro _ _ _ go
    have past : s.buffer.length ≤ s.pos := by
      by_contra short
      exact done ⟨by omega,go⟩
    exact List.drop_eq_nil_of_le past
  | write n pc partly =>
    have free := stopFree stream pc (by simp)
    have flow := stream.flow (by rw [pc]; simp)
    have split := List.take_append_drop n (s.buffer.drop s.pos)
    rw [List.drop_drop] at split
    constructor
    · exact stream.ring
    · intro _
      simp only [unwritten] at flow ⊢
      rw [same,← flow,List.append_assoc s.pipe,split]
    · intro _ notTest
      exact absurd rfl notTest
    · intro flag
      simp [free] at flag
    · simp only [List.length_append,List.length_take,List.length_drop,stream.written]
      omega
    · rw [same]
      exact stream.received
  | retry r pc again =>
    have free := stopFree stream pc (by simp)
    exact aside rfl rfl ⟨rfl,rfl⟩ rfl ⟨rfl,rfl⟩ (fun _ notTest => absurd rfl notTest)
      (fun flag => by simp [free] at flag)
  | fatal pc =>
    exact aside rfl rfl ⟨rfl,rfl⟩ rfl ⟨rfl,rfl⟩ (fun _ _ _ flag => by simp at flag) (fun _ => .inl rfl)

theorem streamRun {se heap trace s} (run : exec (next se) (initial heap) trace = some s) :
    Stream se trace s := by
  refine (history (I := fun trace s => Booked se trace s ∧ Stream se trace s)
    ⟨bookedInitial se heap,streamInitial se heap⟩ ?_ run).2
  rintro trace s e t ⟨booked,stream⟩ step
  rcases stepCases step with receiver | writer | stats
  · exact ⟨bookedReceiver booked receiver,streamReceiver booked stream receiver⟩
  · exact ⟨bookedWriter booked writer,streamWriter stream writer⟩
  · refine ⟨bookedStats booked stats,?_⟩
    cases stats <;>
      exact streamAside stream (acceptedOther (by simp [arrival]) rfl) rfl rfl ⟨rfl,rfl⟩ rfl rfl rfl rfl

theorem unaccountedBetween {s : Client} (between : BetweenDatagrams s) : unaccounted s.receiver = 0 := by
  cases pc : s.receiver <;> simp [BetweenDatagrams,pc] at between <;> rfl

theorem clientStreamIntegrity {se heap trace s} (run : exec (next se) (initial heap) trace = some s)
    (running : s.writer ≠ .left) :
    s.pipe ++ unwritten s ++ queue s.rb = (accepted se trace).flatten ∧
    s.bytesWritten = s.pipe.length ∧
    (BetweenDatagrams s → s.bytesReceived = (accepted se trace).flatten.length) := by
  have stream := streamRun run
  refine ⟨stream.flow running,stream.written,?_⟩
  intro between
  have received := stream.received
  rw [unaccountedBetween between] at received
  exact received

def sampleSession : Session := ⟨.little,3,⟨1,1989⟩⟩

def sampleTrace : List Event :=
  [.receiverStart true,.receiverLoop,.recvfrom (.datagram ⟨⟨1,1989⟩,[0,0,0,0,3,10,20],by decide⟩),
   .writerPoll,.writerLoop,.ringReadSleep,.ringWriteCopy,.account,.ringReadCopy,.pipeLoop,
   .pipeWrite (.wrote 1)]

theorem sampleStream : ∃ s, exec (next sampleSession) (initial []) sampleTrace = some s ∧
    s.pipe ++ unwritten s ++ queue s.rb = (accepted sampleSession sampleTrace).flatten ∧
    s.bytesWritten = s.pipe.length ∧
    (BetweenDatagrams s → s.bytesReceived = (accepted sampleSession sampleTrace).flatten.length) :=
  ⟨_,rfl,@clientStreamIntegrity _ [] _ _ rfl (by decide)⟩

/- The two critical sections are always defined: in a reachable state the receiver
at its loop condition can copy or sleep, and so can the writer. -/
theorem ringStepsDefined {se heap trace s} (run : exec (next se) (initial heap) trace = some s) :
    (∀ len, s.receiver = .ringTest len →
      (receiverNext se s .ringWriteCopy).isSome ∨ (receiverNext se s .ringWriteSleep).isSome) ∧
    (s.writer = .ringTest → (writerNext s .ringReadCopy).isSome ∨ (writerNext s .ringReadSleep).isSome) := by
  have valid := (streamRun run).ring
  constructor
  · intro len pc
    cases full : mustWait s.rb (dataLen len) with
    | true => exact .inr (by simp [receiverNext,pc,full])
    | false =>
      have fits : s.rb.count + (readData s.msgChannel (dataLen len)).length ≤ ringBufferSize := by
        have short := of_decide_eq_false full
        simp only [readData,List.length_take]
        omega
      obtain ⟨rb,step,_⟩ := writeAppends valid fits
      exact .inl (by simp [receiverNext,pc,full,step])
  · intro pc
    by_cases empty : s.rb.count = 0
    · exact .inr (by simp [writerNext,pc,empty])
    · obtain ⟨rb,step,_⟩ := readTakes valid writerBufferSize
      exact .inl (by simp [writerNext,pc,empty,step])

end IPv4Media.ClientStream
