import IPv4Media.ClientStream

/-! How the client's three threads end. stop_flag is the only thing that ends the
writer's and the stats thread's loops, and only a failed write sets it. The receiver
also leaves on a failed recvfrom or without memory, and then tells nobody. What is asked
is whether the threads can still end when from here on no call fails. -/
namespace IPv4Media.Shutdown
open Octets Proto Socket Receiver ClientRing ClientThreads ClientTrace ClientStream Execution

structure Terminated (s : Client) : Prop where
  receiver : s.receiver = .left
  writer : s.writer = .left
  stats : s.stats = .left

/- The writer sleeps on not_empty, and nobody is left who could signal it. -/
def Abandoned (s : Client) : Prop := s.writer = .ringWait ∧ s.receiver = .left

structure Exits (s : Client) : Prop where
  flagged : s.writer = .left → s.stopFlag = true
  writing : s.writer = .pipeWrite → s.pos < s.buffer.length
  asleep : s.writer = .ringWait → s.rb.count = 0
  ready : s.receiverReady = false → (s.receiver = .start ∨ s.receiver = .left) ∧ s.rb.count = 0

theorem exitsInitial (heap : Bytes) : Exits (initial heap) :=
  ⟨by simp [initial],by simp [initial],by simp [initial],fun _ => ⟨.inl rfl,rfl⟩⟩

theorem signalledPc (pc : WriterPc) : signalNotEmpty pc ≠ .ringWait := by
  cases pc <;> simp [signalNotEmpty]

theorem exitsReceiver {se s e t} (exits : Exits s) (step : ReceiverStep se s e t) : Exits t := by
  have same := @signalNotEmptyKeeps s.writer
  cases step with
  | start pc => exact ⟨exits.flagged,exits.writing,exits.asleep,fun off => by simp at off⟩
  | startFailed pc =>
    exact ⟨exits.flagged,exits.writing,exits.asleep,fun off => ⟨.inr rfl,(exits.ready off).2⟩⟩
  | copy len rb pc room written =>
    refine ⟨fun left => exits.flagged ((signalNotEmptyLeft _).mp left),
      fun writing => exits.writing (same.2.1.mp writing),fun asleep => absurd asleep (signalledPc _),?_⟩
    intro off
    obtain ⟨here,_⟩ := exits.ready off
    rw [pc] at here
    simp at here
  | recvError eintr pc =>
    refine ⟨exits.flagged,exits.writing,exits.asleep,?_⟩
    intro off
    obtain ⟨here,_⟩ := exits.ready off
    rw [pc] at here
    simp at here
  | _ pc =>
    refine ⟨exits.flagged,exits.writing,exits.asleep,?_⟩
    intro off
    obtain ⟨here,_⟩ := exits.ready off
    simp [*] at here

theorem exitsWriter {s e t} (exits : Exits s) (step : WriterStep s e t) : Exits t := by
  have ready := exits.ready
  cases step with
  | poll pc => exact exits
  | ready pc go => exact ⟨by simp,by simp,by simp,ready⟩
  | loop pc =>
    cases flag : s.stopFlag with
    | true => exact ⟨fun _ => rfl,by simp,by simp,ready⟩
    | false => exact ⟨by simp,by simp,by simp,ready⟩
  | read bytes rb pc filled taken =>
    refine ⟨?_,?_,?_,fun off => absurd (ready off).2 filled⟩
    · simp only
      split <;> simp
    · simp only
      split <;> simp
    · simp only
      split <;> simp
  | sleep pc empty => exact ⟨by simp,by simp,fun _ => empty,ready⟩
  | wake pc => exact ⟨by simp,by simp,by simp,ready⟩
  | more pc some_ go => exact ⟨by simp,fun _ => some_,by simp,ready⟩
  | finished pc done => exact ⟨by simp,by simp,by simp,ready⟩
  | write n pc partly => exact ⟨by simp,by simp,by simp,ready⟩
  | retry r pc again => exact ⟨by simp,by simp,by simp,ready⟩
  | fatal pc => exact ⟨by simp,by simp,by simp,ready⟩

def Reachable (se : Session) (heap : Bytes) (s : Client) : Prop := ∃ trace, exec (next se) (initial heap) trace = some s

theorem reachableStep {se heap s e t} (reach : Reachable se heap s) (step : next se s e = some t) :
    Reachable se heap t := by
  obtain ⟨trace,run⟩ := reach
  exact ⟨trace ++ [e],execSnoc.mpr ⟨s,run,step⟩⟩

theorem exitsReachable {se heap s} (reach : Reachable se heap s) : Exits s := by
  obtain ⟨trace,run⟩ := reach
  refine invariant (exitsInitial heap) ?_ run
  intro s e t exits step
  rcases stepCases step with receiver | writer | stats
  · exact exitsReceiver exits receiver
  · exact exitsWriter exits writer
  · cases stats <;> exact ⟨exits.flagged,exits.writing,exits.asleep,exits.ready⟩

theorem streamReachable {se heap s} (reach : Reachable se heap s) : ∃ trace, Stream se trace s := by
  obtain ⟨trace,run⟩ := reach
  exact ⟨trace,streamRun run⟩

/- A continuation that is given datagrams and clock ticks: no malloc in it fails, no recvfrom
but for a signal, and no write for good. -/
def granted : Event → Bool
  | .receiverStart allocated => allocated
  | .recvfrom (.error eintr) => eintr
  | .pipeWrite .fatal => false
  | _ => true

def grantedNext (se : Session) (s : Client) (e : Event) : Option Client :=
  if granted e = true then next se s e else none

theorem grantedStep {se s e t} (given : granted e = true) (step : next se s e = some t) :
    grantedNext se s e = some t := by
  rw [grantedNext,if_pos given,step]

theorem grantedSound {se s e t} (step : grantedNext se s e = some t) : granted e = true ∧ next se s e = some t := by
  unfold grantedNext at step
  split at step <;> try contradiction
  exact ⟨by assumption,step⟩

structure Stopping (se : Session) (heap : Bytes) (s : Client) : Prop where
  reach : Reachable se heap s
  stop : s.stopFlag = true

theorem stoppingGoes {se heap s e t} {goal : Client → Prop} (stopping : Stopping se heap s)
    (given : granted e = true) (step : next se s e = some t) (stop : t.stopFlag = true)
    (rest : Stopping se heap t → CanReach (grantedNext se) goal t) : CanReach (grantedNext se) goal s :=
  reachStep (grantedStep given step) (rest ⟨reachableStep stopping.reach step,stop⟩)

theorem receiverLeaves {se heap s} (stopping : Stopping se heap s) (pc : s.receiver = .loopTest) :
    CanReach (grantedNext se) (fun t => Stopping se heap t ∧ t.receiver = .left) s := by
  have step : next se s .receiverLoop = some { s with receiver := .left } := by
    simp [next,receiverNext,pc,stopping.stop]
  exact stoppingGoes stopping rfl step stopping.stop fun later => reachNow ⟨later,rfl⟩

theorem accountLeaves {se heap s len ret} (stopping : Stopping se heap s) (pc : s.receiver = .ringReturned len ret) :
    CanReach (grantedNext se) (fun t => Stopping se heap t ∧ t.receiver = .left) s := by
  by_cases zero : ret = 0
  · have step : next se s .account =
        some { s with bytesReceived := s.bytesReceived + dataLen len, receiver := .loopTest } := by
      simp [next,receiverNext,pc,zero]
    exact stoppingGoes stopping rfl step stopping.stop fun later => receiverLeaves later rfl
  · have step : next se s .account =
        some { s with packetsDropped := s.packetsDropped + 1, receiver := .loopTest } := by
      simp [next,receiverNext,pc,zero]
    exact stoppingGoes stopping rfl step stopping.stop fun later => receiverLeaves later rfl

theorem expiredLeaves {se heap s len} (stopping : Stopping se heap s) (pc : s.receiver = .ringExpired len) :
    CanReach (grantedNext se) (fun t => Stopping se heap t ∧ t.receiver = .left) s := by
  have step : next se s .ringWriteTimeout = some { s with receiver := .ringReturned len (-1) } := by
    simp [next,receiverNext,pc]
  exact stoppingGoes stopping rfl step stopping.stop fun later => accountLeaves later rfl

/- The wait on not_full is a timed one. -/
theorem waitLeaves {se heap s len} (stopping : Stopping se heap s) (pc : s.receiver = .ringWait len) :
    CanReach (grantedNext se) (fun t => Stopping se heap t ∧ t.receiver = .left) s := by
  have step : next se s .ringWriteExpire = some { s with receiver := .ringExpired len } := by
    simp [next,receiverNext,pc]
  exact stoppingGoes stopping rfl step stopping.stop fun later => expiredLeaves later rfl

theorem ringLeaves {se heap s len} (stopping : Stopping se heap s) (pc : s.receiver = .ringTest len) :
    CanReach (grantedNext se) (fun t => Stopping se heap t ∧ t.receiver = .left) s := by
  obtain ⟨trace,run⟩ := stopping.reach
  rcases (ringStepsDefined run).1 len pc with copied | slept
  · obtain ⟨t,copy⟩ := Option.isSome_iff_exists.mp copied
    have step : next se s .ringWriteCopy = some t := by rw [next,copy]; rfl
    cases receiverSound copy with
    | copy other rb at_ room written =>
      exact stoppingGoes stopping rfl step stopping.stop fun later => accountLeaves later rfl
  · obtain ⟨t,sleep⟩ := Option.isSome_iff_exists.mp slept
    have step : next se s .ringWriteSleep = some t := by rw [next,sleep]; rfl
    cases receiverSound sleep with
    | sleep other at_ full =>
      exact stoppingGoes stopping rfl step stopping.stop fun later => waitLeaves later rfl

def emptyDatagram : Datagram := ⟨⟨0,0⟩,[],by decide⟩

theorem recvfromLeaves {se heap s} (stopping : Stopping se heap s) (pc : s.receiver = .recvfrom) :
    CanReach (grantedNext se) (fun t => Stopping se heap t ∧ t.receiver = .left) s := by
  have step : next se s (.recvfrom (.datagram emptyDatagram)) = some (received se s (.datagram emptyDatagram)) := by
    simp [next,receiverNext,pc]
  have short : chosen se emptyDatagram = false := by
    simp [chosen,emptyDatagram,sizeofMsgChannel]
  have reach := reachableStep stopping.reach step
  have taken := @receivedStep se s emptyDatagram pc
  generalize received se s (.datagram emptyDatagram) = t at step reach taken
  cases taken with
  | recvChosen d at_ passed =>
    rw [short] at passed
    contradiction
  | recvIgnored d at_ failed => exact reachStep (grantedStep rfl step) (receiverLeaves ⟨reach,stopping.stop⟩ rfl)

theorem receiverEnds {se heap s} (stopping : Stopping se heap s) :
    CanReach (grantedNext se) (fun t => Stopping se heap t ∧ t.receiver = .left) s := by
  cases pc : s.receiver with
  | start =>
    have step : next se s (.receiverStart true) = some { s with receiverReady := true, receiver := .loopTest } := by
      simp [next,receiverNext,pc]
    exact stoppingGoes stopping rfl step stopping.stop fun later => receiverLeaves later rfl
  | loopTest => exact receiverLeaves stopping pc
  | recvfrom => exact recvfromLeaves stopping pc
  | ringTest len => exact ringLeaves stopping pc
  | ringWait len => exact waitLeaves stopping pc
  | ringExpired len => exact expiredLeaves stopping pc
  | ringReturned len ret => exact accountLeaves stopping pc
  | left => exact reachNow ⟨stopping,pc⟩

theorem writerEnds {se heap s} (stopping : Stopping se heap s) (receiver : s.receiver = .left) :
    CanReach (grantedNext se) (fun t => Stopping se heap t ∧ t.receiver = .left ∧ t.writer = .left) s := by
  obtain ⟨trace,stream⟩ := streamReachable stopping.reach
  rcases stream.stopped stopping.stop with loop | left
  · have step : next se s .writerLoop = some { s with writer := .left } := by
      simp [next,receiverNext,writerNext,loop,stopping.stop]
    exact stoppingGoes stopping rfl step stopping.stop fun later => reachNow ⟨later,receiver,rfl⟩
  · exact reachNow ⟨stopping,receiver,left⟩

theorem statsLeaves {se heap s} (stopping : Stopping se heap s) (receiver : s.receiver = .left)
    (writer : s.writer = .left) (pc : s.stats = .loopTest) : CanReach (grantedNext se) Terminated s := by
  have step : next se s .statsLoop = some { s with stats := .left } := by
    simp [next,receiverNext,writerNext,statsNext,pc,stopping.stop]
  exact stoppingGoes stopping rfl step stopping.stop fun _ => reachNow ⟨receiver,writer,rfl⟩

theorem statsEnds {se heap s} (stopping : Stopping se heap s) (receiver : s.receiver = .left)
    (writer : s.writer = .left) : CanReach (grantedNext se) Terminated s := by
  cases pc : s.stats with
  | loopTest => exact statsLeaves stopping receiver writer pc
  | sleeping =>
    have step : next se s .statsWake = some { s with stats := .loopTest } := by
      simp [next,receiverNext,writerNext,statsNext,pc]
    exact stoppingGoes stopping rfl step stopping.stop fun later => statsLeaves later receiver writer rfl
  | left => exact reachNow ⟨receiver,writer,pc⟩

theorem stoppingEnds {se heap s} (stopping : Stopping se heap s) : CanReach (grantedNext se) Terminated s :=
  reachThen (receiverEnds stopping) fun _ first =>
    reachThen (writerEnds first.1 first.2) fun _ second => statsEnds second.1 second.2.1 second.2.2

structure Stranded (s : Client) : Prop where
  receiver : s.receiver = .left
  go : s.stopFlag = false
  empty : s.rb.count = 0
  drained : s.buffer.length ≤ s.pos
  writer : s.writer ≠ .left ∧ s.writer ≠ .pipeWrite

theorem strandedStep {se s e t} (stranded : Stranded s) (step : next se s e = some t) : Stranded t := by
  have ⟨receiver,go,empty,drained,running,notWrite⟩ := stranded
  rcases stepCases step with receiver' | writer | stats
  · cases receiver' <;> simp_all
  · cases writer with
    | poll pc => exact stranded
    | ready pc go' => exact ⟨receiver,go,empty,drained,by simp⟩
    | loop pc => exact ⟨receiver,go,empty,drained,by simp [go]⟩
    | read bytes rb pc filled taken => exact absurd empty filled
    | sleep pc none_ => exact ⟨receiver,go,empty,drained,by simp⟩
    | wake pc => exact ⟨receiver,go,empty,drained,by simp⟩
    | more pc some_ go' => omega
    | finished pc done => exact ⟨receiver,go,empty,drained,by simp⟩
    | write n pc partly => exact absurd pc notWrite
    | retry r pc again => exact absurd pc notWrite
    | fatal pc => exact absurd pc notWrite
  · cases stats <;> exact ⟨receiver,go,empty,drained,running,notWrite⟩

structure Unstopped (s : Client) : Prop where
  receiver : s.receiver = .left
  go : s.stopFlag = false
  writer : s.writer ≠ .left

theorem unstoppedStep {se s e t} (unstopped : Unstopped s) (step : grantedNext se s e = some t) : Unstopped t := by
  have ⟨receiver,go,running⟩ := unstopped
  obtain ⟨given,step⟩ := grantedSound step
  rcases stepCases step with receiver' | writer | stats
  · cases receiver' <;> simp_all
  · cases writer with
    | poll pc => exact unstopped
    | ready pc go' => exact ⟨receiver,go,by simp⟩
    | loop pc => exact ⟨receiver,go,by simp [go]⟩
    | read bytes rb pc filled taken =>
      refine ⟨?_,go,?_⟩
      · simp only [receiver,signalNotFull]
      · simp only
        split <;> simp
    | sleep pc none_ => exact ⟨receiver,go,by simp⟩
    | wake pc => exact ⟨receiver,go,by simp⟩
    | more pc some_ go' => exact ⟨receiver,go,by simp⟩
    | finished pc done => exact ⟨receiver,go,by simp⟩
    | write n pc partly => exact ⟨receiver,go,by simp⟩
    | retry r pc again => exact ⟨receiver,go,by simp⟩
    | fatal pc => cases given
  · cases stats <;> exact ⟨receiver,go,running⟩

/- All three threads can end without a call that fails, and no wait is one that nobody
can end. -/
structure Ends (se : Session) (s : Client) : Prop where
  reach : CanReach (grantedNext se) Terminated s
  attended : ¬ Abandoned s

theorem noneStranded {se heap trace s} (run : exec (next se) (initial heap) trace = some s)
    (someLeft : s.receiver = .left ∨ s.writer = .left) : Ends se s ↔ s.stopFlag = true := by
  have reach : Reachable se heap s := ⟨trace,run⟩
  constructor
  · intro ends
    by_contra off
    have go : s.stopFlag = false := Bool.eq_false_iff.mpr off
    have running : s.writer ≠ .left := fun left => off ((exitsReachable reach).flagged left)
    have unstopped : Unstopped s := ⟨someLeft.resolve_right running,go,running⟩
    exact neverReach unstopped (fun _ _ _ kept step => unstoppedStep kept step)
      (fun _ kept done => kept.writer done.writer) ends.reach
  · intro stop
    refine ⟨stoppingEnds ⟨reach,stop⟩,?_⟩
    rintro ⟨wait,_⟩
    have go := stopFree (streamRun run) wait (by simp)
    rw [stop] at go
    contradiction

def brokenPipe : List Event :=
  [.receiverStart true,.receiverLoop,.recvfrom (.datagram ⟨⟨1,1989⟩,[0,0,0,0,3,30,40,50],by decide⟩),
   .ringWriteCopy,.account,.receiverLoop,.statsLoop,.writerPoll,.writerLoop,.ringReadCopy,.pipeLoop,
   .pipeWrite .fatal,.writerLoop]

theorem brokenEnds : ∃ s, exec (next sampleSession) (initial []) brokenPipe = some s ∧
    s.receiver = .recvfrom ∧ s.writer = .left ∧ s.stats = .sleeping ∧ Ends sampleSession s :=
  ⟨_,rfl,rfl,rfl,rfl,(@noneStranded _ [] brokenPipe _ rfl (.inr rfl)).mpr rfl⟩

def asleepTrace : List Event :=
  [.receiverStart true,.receiverLoop,.writerPoll,.writerLoop,.ringReadSleep,.recvfrom (.error false)]

theorem writerStranded : ∃ s, exec (next sampleSession) (initial []) asleepTrace = some s ∧
    s.receiver = .left ∧ Abandoned s ∧ ¬ CanReach (next sampleSession) Terminated s ∧ ¬ Ends sampleSession s := by
  refine ⟨_,rfl,rfl,⟨rfl,rfl⟩,?_,fun ends => ends.attended ⟨rfl,rfl⟩⟩
  exact neverReach (I := Stranded) ⟨rfl,rfl,rfl,Nat.le_refl _,by decide⟩
    (fun _ _ _ kept step => strandedStep kept step) (fun _ kept done => kept.writer.1 done.writer)

end IPv4Media.Shutdown
