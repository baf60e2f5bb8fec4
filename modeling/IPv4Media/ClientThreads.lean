import IPv4Media.Library.Execution
import IPv4Media.ClientRing
import IPv4Media.Receiver

/-! receiver_thread, writer_thread and stats_thread over struct shared_data. A step
is one loop test, one system call or one critical section of the ring's mutex, so an
execution is an interleaving of the three threads. A condition wait is a program
counter of its own: a signal moves the waiter on, a spurious wakeup may do so at any
time, and an expired timed wait takes the mutex again in a later step. -/
namespace IPv4Media.ClientThreads
open Octets Proto Socket Receiver ClientRing

/- len is the receiver's local variable, ret what ring_buffer_write returned. -/
inductive ReceiverPc where
  | start | loopTest | recvfrom
  | ringTest (len : Nat) | ringWait (len : Nat) | ringExpired (len : Nat)
  | ringReturned (len : Nat) (ret : Int)
  | left
  deriving DecidableEq, Repr

inductive WriterPc where
  | awaitReady | loopTest | ringTest | ringWait | pipeTest | pipeWrite | left
  deriving DecidableEq, Repr

inductive StatsPc where
  | loopTest | sleeping | left
  deriving DecidableEq, Repr

/- buffer holds the bytes_read octets of the writer's last ring read, pos is its
index into them. pipe is what the child can read: everything write() took. -/
structure Client where
  rb : RingBuffer
  stopFlag : Bool
  receiverReady : Bool
  packetsReceived : Nat
  packetsWritten : Nat
  packetsDropped : Nat
  bytesReceived : Nat
  bytesWritten : Nat
  tracker : SeqTracker
  receiver : ReceiverPc
  msgChannel : Bytes
  writer : WriterPc
  buffer : Bytes
  pos : Nat
  stats : StatsPc
  pipe : Bytes

/- heap is what malloc left in the receive buffer. -/
def initial (heap : Bytes) : Client where
  rb := ringBufferInit
  stopFlag := false
  receiverReady := false
  packetsReceived := 0
  packetsWritten := 0
  packetsDropped := 0
  bytesReceived := 0
  bytesWritten := 0
  tracker := SeqTracker.initial
  receiver := .start
  msgChannel := heap
  writer := .awaitReady
  buffer := []
  pos := 0
  stats := .loopTest
  pipe := []

inductive WriteResult where
  | wrote (n : Nat) | eintr | eagain | fatal
  deriving DecidableEq, Repr

inductive Event where
  | receiverStart (allocated : Bool)
  | receiverLoop
  | recvfrom (r : RecvResult)
  | ringWriteCopy | ringWriteSleep | ringWriteWake | ringWriteExpire | ringWriteTimeout
  | account
  | writerPoll | writerLoop
  | ringReadCopy | ringReadSleep | ringReadWake
  | pipeLoop
  | pipeWrite (r : WriteResult)
  | statsLoop | statsWake
  deriving DecidableEq, Repr

def writerBufferSize : Nat := 64 * 1024

def signalNotEmpty : WriterPc → WriterPc
  | .ringWait => .ringTest
  | pc => pc

def signalNotFull : ReceiverPc → ReceiverPc
  | .ringWait len => .ringTest len
  | pc => pc

def received (se : Session) (s : Client) : RecvResult → Client
  | .error eintr => { s with receiver := if eintr then .loopTest else .left }
  | .datagram d =>
    let buf := deliver s.msgChannel d.bytes
    let len := d.bytes.length
    match verdict se d.source len buf with
    | .chosen => { s with
        msgChannel := buf
        packetsReceived := s.packetsReceived + 1
        tracker := track s.tracker (readSeq se.order buf)
        receiver := .ringTest len }
    | _ => { s with msgChannel := buf, receiver := .loopTest }

def wrote (s : Client) : WriteResult → Option Client
  | .wrote n =>
    if n ≤ s.buffer.length - s.pos then
      some { s with
        pos := s.pos + n
        bytesWritten := s.bytesWritten + n
        pipe := s.pipe ++ (s.buffer.drop s.pos).take n
        writer := .pipeTest }
    else none
  | .eintr => some { s with writer := .pipeTest }
  | .eagain => some { s with writer := .pipeTest }
  -- break leaves the inner loop, so packets_written is counted here as well
  | .fatal => some { s with
      stopFlag := true
      packetsWritten := s.packetsWritten + 1
      writer := .loopTest }

def receiverNext (se : Session) (s : Client) : Event → Option Client
  | .receiverStart allocated => match s.receiver with
    | .start =>
      if allocated then some { s with receiverReady := true, receiver := .loopTest }
      else some { s with receiver := .left }
    | _ => none
  | .receiverLoop => match s.receiver with
    | .loopTest => some { s with receiver := if s.stopFlag then .left else .recvfrom }
    | _ => none
  | .recvfrom r => match s.receiver with
    | .recvfrom => some (received se s r)
    | _ => none
  | .ringWriteCopy => match s.receiver with
    | .ringTest len =>
      if mustWait s.rb (dataLen len) then none else do
        let rb ← ringBufferWrite s.rb (readData s.msgChannel (dataLen len))
        some { s with rb, receiver := .ringReturned len 0, writer := signalNotEmpty s.writer }
    | _ => none
  | .ringWriteSleep => match s.receiver with
    | .ringTest len =>
      if mustWait s.rb (dataLen len) then some { s with receiver := .ringWait len } else none
    | _ => none
  | .ringWriteWake => match s.receiver with
    | .ringWait len => some { s with receiver := .ringTest len }
    | _ => none
  | .ringWriteExpire => match s.receiver with
    | .ringWait len => some { s with receiver := .ringExpired len }
    | _ => none
  | .ringWriteTimeout => match s.receiver with
    | .ringExpired len => some { s with receiver := .ringReturned len (-1) }
    | _ => none
  | .account => match s.receiver with
    | .ringReturned len ret =>
      if ret = 0 then
        some { s with bytesReceived := s.bytesReceived + dataLen len, receiver := .loopTest }
      else some { s with packetsDropped := s.packetsDropped + 1, receiver := .loopTest }
    | _ => none
  | _ => none

def writerNext (s : Client) : Event → Option Client
  | .writerPoll => match s.writer with
    | .awaitReady =>
      if !s.receiverReady && !s.stopFlag then some s else some { s with writer := .loopTest }
    | _ => none
  | .writerLoop => match s.writer with
    | .loopTest => some { s with writer := if s.stopFlag then .left else .ringTest }
    | _ => none
  | .ringReadCopy => match s.writer with
    | .ringTest =>
      if s.rb.count = 0 then none else do
        let (bytes,rb) ← ringBufferRead s.rb writerBufferSize
        some { s with
          rb
          buffer := bytes
          pos := 0
          writer := if 0 < bytes.length then .pipeTest else .loopTest
          receiver := signalNotFull s.receiver }
    | _ => none
  | .ringReadSleep => match s.writer with
    | .ringTest => if s.rb.count = 0 then some { s with writer := .ringWait } else none
    | _ => none
  | .ringReadWake => match s.writer with
    | .ringWait => some { s with writer := .ringTest }
    | _ => none
  | .pipeLoop => match s.writer with
    | .pipeTest =>
      if s.pos < s.buffer.length ∧ s.stopFlag = false then some { s with writer := .pipeWrite }
      else some { s with packetsWritten := s.packetsWritten + 1, writer := .loopTest }
    | _ => none
  | .pipeWrite r => match s.writer with
    | .pipeWrite => wrote s r
    | _ => none
  | _ => none

def statsNext (s : Client) : Event → Option Client
  | .statsLoop => match s.stats with
    | .loopTest => some { s with stats := if s.stopFlag then .left else .sleeping }
    | _ => none
  | .statsWake => match s.stats with
    | .sleeping => some { s with stats := .loopTest }
    | _ => none
  | _ => none

def next (se : Session) (s : Client) (e : Event) : Option Client :=
  (receiverNext se s e).or ((writerNext s e).or (statsNext s e))

/- What one step can do, guards included. Every invariant below is read off these
constructors and never off the transition functions. -/
inductive ReceiverStep (se : Session) (s : Client) : Event → Client → Prop where
  | start (pc : s.receiver = .start) :
      ReceiverStep se s (.receiverStart true) { s with receiverReady := true, receiver := .loopTest }
  | startFailed (pc : s.receiver = .start) :
      ReceiverStep se s (.receiverStart false) { s with receiver := .left }
  | loop (pc : s.receiver = .loopTest) :
      ReceiverStep se s .receiverLoop { s with receiver := if s.stopFlag then .left else .recvfrom }
  | recvError (eintr : Bool) (pc : s.receiver = .recvfrom) :
      ReceiverStep se s (.recvfrom (.error eintr)) { s with receiver := if eintr then .loopTest else .left }
  | recvChosen (d : Datagram) (pc : s.receiver = .recvfrom) (passed : chosen se d = true) :
      ReceiverStep se s (.recvfrom (.datagram d)) { s with
        msgChannel := deliver s.msgChannel d.bytes
        packetsReceived := s.packetsReceived + 1
        tracker := track s.tracker (seqOf se d)
        receiver := .ringTest d.bytes.length }
  | recvIgnored (d : Datagram) (pc : s.receiver = .recvfrom) (failed : chosen se d = false) :
      ReceiverStep se s (.recvfrom (.datagram d))
        { s with msgChannel := deliver s.msgChannel d.bytes, receiver := .loopTest }
  | copy (len : Nat) (rb : RingBuffer) (pc : s.receiver = .ringTest len)
      (room : mustWait s.rb (dataLen len) = false)
      (written : ringBufferWrite s.rb (readData s.msgChannel (dataLen len)) = some rb) :
      ReceiverStep se s .ringWriteCopy
        { s with rb, receiver := .ringReturned len 0, writer := signalNotEmpty s.writer }
  | sleep (len : Nat) (pc : s.receiver = .ringTest len) (full : mustWait s.rb (dataLen len) = true) :
      ReceiverStep se s .ringWriteSleep { s with receiver := .ringWait len }
  | wake (len : Nat) (pc : s.receiver = .ringWait len) :
      ReceiverStep se s .ringWriteWake { s with receiver := .ringTest len }
  | expire (len : Nat) (pc : s.receiver = .ringWait len) :
      ReceiverStep se s .ringWriteExpire { s with receiver := .ringExpired len }
  | timeout (len : Nat) (pc : s.receiver = .ringExpired len) :
      ReceiverStep se s .ringWriteTimeout { s with receiver := .ringReturned len (-1) }
  | accountReceived (len : Nat) (pc : s.receiver = .ringReturned len 0) :
      ReceiverStep se s .account
        { s with bytesReceived := s.bytesReceived + dataLen len, receiver := .loopTest }
  | accountDropped (len : Nat) (ret : Int) (pc : s.receiver = .ringReturned len ret) (failed : ret ≠ 0) :
      ReceiverStep se s .account { s with packetsDropped := s.packetsDropped + 1, receiver := .loopTest }

inductive WriterStep (s : Client) : Event → Client → Prop where
  | poll (pc : s.writer = .awaitReady) : WriterStep s .writerPoll s
  | ready (pc : s.writer = .awaitReady) (go : (!s.receiverReady && !s.stopFlag) = false) :
      WriterStep s .writerPoll { s with writer := .loopTest }
  | loop (pc : s.writer = .loopTest) :
      WriterStep s .writerLoop { s with writer := if s.stopFlag then .left else .ringTest }
  | read (bytes : Bytes) (rb : RingBuffer) (pc : s.writer = .ringTest) (filled : s.rb.count ≠ 0)
      (taken : ringBufferRead s.rb writerBufferSize = some (bytes,rb)) :
      WriterStep s .ringReadCopy { s with
        rb
        buffer := bytes
        pos := 0
        writer := if 0 < bytes.length then .pipeTest else .loopTest
        receiver := signalNotFull s.receiver }
  | sleep (pc : s.writer = .ringTest) (empty : s.rb.count = 0) :
      WriterStep s .ringReadSleep { s with writer := .ringWait }
  | wake (pc : s.writer = .ringWait) : WriterStep s .ringReadWake { s with writer := .ringTest }
  | more (pc : s.writer = .pipeTest) (unwritten : s.pos < s.buffer.length) (go : s.stopFlag = false) :
      WriterStep s .pipeLoop { s with writer := .pipeWrite }
  | finished (pc : s.writer = .pipeTest) (done : ¬ (s.pos < s.buffer.length ∧ s.stopFlag = false)) :
      WriterStep s .pipeLoop { s with packetsWritten := s.packetsWritten + 1, writer := .loopTest }
  | write (n : Nat) (pc : s.writer = .pipeWrite) (partly : n ≤ s.buffer.length - s.pos) :
      WriterStep s (.pipeWrite (.wrote n)) { s with
        pos := s.pos + n
        bytesWritten := s.bytesWritten + n
        pipe := s.pipe ++ (s.buffer.drop s.pos).take n
        writer := .pipeTest }
  | retry (r : WriteResult) (pc : s.writer = .pipeWrite) (again : r = .eintr ∨ r = .eagain) :
      WriterStep s (.pipeWrite r) { s with writer := .pipeTest }
  | fatal (pc : s.writer = .pipeWrite) :
      WriterStep s (.pipeWrite .fatal)
        { s with stopFlag := true, packetsWritten := s.packetsWritten + 1, writer := .loopTest }

inductive StatsStep (s : Client) : Event → Client → Prop where
  | loop (pc : s.stats = .loopTest) :
      StatsStep s .statsLoop { s with stats := if s.stopFlag then .left else .sleeping }
  | wake (pc : s.stats = .sleeping) : StatsStep s .statsWake { s with stats := .loopTest }

theorem receivedStep {se s d} (pc : s.receiver = .recvfrom) :
    ReceiverStep se s (.recvfrom (.datagram d)) (received se s (.datagram d)) := by
  cases passed : chosen se d with
  | true =>
    have v := (verdictChosen se s.msgChannel d).mpr passed
    simp only [received,v]
    rw [readSeqDelivered s.msgChannel passed]
    exact .recvChosen d pc passed
  | false =>
    have v : verdict se d.source d.bytes.length (deliver s.msgChannel d.bytes) ≠ .chosen := by
      intro h
      have both := (verdictChosen se s.msgChannel d).mp h
      rw [passed] at both
      contradiction
    have ignored : received se s (.datagram d) =
        { s with msgChannel := deliver s.msgChannel d.bytes, receiver := .loopTest } := by
      simp only [received]
    rw [ignored]
    exact .recvIgnored d pc passed

theorem receiverSound {se s e t} (h : receiverNext se s e = some t) : ReceiverStep se s e t := by
  cases e
  case receiverStart allocated =>
    simp only [receiverNext] at h
    split at h <;> try contradiction
    rename_i pc
    cases allocated <;> cases Option.some.inj h
    · exact .startFailed pc
    · exact .start pc
  case receiverLoop =>
    simp only [receiverNext] at h
    split at h <;> try contradiction
    rename_i pc
    cases Option.some.inj h
    exact .loop pc
  case recvfrom r =>
    simp only [receiverNext] at h
    split at h <;> try contradiction
    rename_i pc
    cases Option.some.inj h
    cases r with
    | error eintr => exact .recvError eintr pc
    | datagram d => exact receivedStep pc
  case ringWriteCopy =>
    simp only [receiverNext] at h
    split at h <;> try contradiction
    rename_i len pc
    split at h <;> try contradiction
    rename_i room
    obtain ⟨rb,written,last⟩ := Option.bind_eq_some_iff.mp h
    cases Option.some.inj last
    exact .copy len rb pc (by simpa using room) written
  case ringWriteSleep =>
    simp only [receiverNext] at h
    split at h <;> try contradiction
    rename_i len pc
    split at h <;> try contradiction
    cases Option.some.inj h
    exact .sleep len pc (by assumption)
  case ringWriteWake =>
    simp only [receiverNext] at h
    split at h <;> try contradiction
    rename_i len pc
    cases Option.some.inj h
    exact .wake len pc
  case ringWriteExpire =>
    simp only [receiverNext] at h
    split at h <;> try contradiction
    rename_i len pc
    cases Option.some.inj h
    exact .expire len pc
  case ringWriteTimeout =>
    simp only [receiverNext] at h
    split at h <;> try contradiction
    rename_i len pc
    cases Option.some.inj h
    exact .timeout len pc
  case account =>
    simp only [receiverNext] at h
    split at h <;> try contradiction
    rename_i len ret pc
    split at h
    · rename_i zero
      subst ret
      cases Option.some.inj h
      exact .accountReceived len pc
    · cases Option.some.inj h
      exact .accountDropped len ret pc (by assumption)
  all_goals simp [receiverNext] at h

theorem wroteStep {s r t} (pc : s.writer = .pipeWrite) (h : wrote s r = some t) :
    WriterStep s (.pipeWrite r) t := by
  cases r with
  | wrote n =>
    simp only [wrote] at h
    split at h <;> try contradiction
    cases Option.some.inj h
    exact .write n pc (by assumption)
  | eintr => cases Option.some.inj h; exact .retry _ pc (.inl rfl)
  | eagain => cases Option.some.inj h; exact .retry _ pc (.inr rfl)
  | fatal => cases Option.some.inj h; exact .fatal pc

theorem writerSound {s e t} (h : writerNext s e = some t) : WriterStep s e t := by
  cases e
  case writerPoll =>
    simp only [writerNext] at h
    split at h <;> try contradiction
    rename_i pc
    split at h <;> cases Option.some.inj h
    · exact .poll pc
    · rename_i go
      exact .ready pc (Bool.eq_false_iff.mpr go)
  case writerLoop =>
    simp only [writerNext] at h
    split at h <;> try contradiction
    rename_i pc
    cases Option.some.inj h
    exact .loop pc
  case ringReadCopy =>
    simp only [writerNext] at h
    split at h <;> try contradiction
    rename_i pc
    split at h <;> try contradiction
    obtain ⟨⟨bytes,rb⟩,taken,last⟩ := Option.bind_eq_some_iff.mp h
    cases Option.some.inj last
    exact .read bytes rb pc (by assumption) taken
  case ringReadSleep =>
    simp only [writerNext] at h
    split at h <;> try contradiction
    rename_i pc
    split at h <;> try contradiction
    cases Option.some.inj h
    exact .sleep pc (by assumption)
  case ringReadWake =>
    simp only [writerNext] at h
    split at h <;> try contradiction
    rename_i pc
    cases Option.some.inj h
    exact .wake pc
  case pipeLoop =>
    simp only [writerNext] at h
    split at h <;> try contradiction
    rename_i pc
    split at h <;> cases Option.some.inj h
    · rename_i both
      exact .more pc both.1 both.2
    · exact .finished pc (by assumption)
  case pipeWrite r =>
    simp only [writerNext] at h
    split at h <;> try contradiction
    rename_i pc
    exact wroteStep pc h
  all_goals simp [writerNext] at h

theorem statsSound {s e t} (h : statsNext s e = some t) : StatsStep s e t := by
  cases e
  case statsLoop =>
    simp only [statsNext] at h
    split at h <;> try contradiction
    rename_i pc
    cases Option.some.inj h
    exact .loop pc
  case statsWake =>
    simp only [statsNext] at h
    split at h <;> try contradiction
    rename_i pc
    cases Option.some.inj h
    exact .wake pc
  all_goals simp [statsNext] at h

theorem stepCases {se s e t} (h : next se s e = some t) :
    ReceiverStep se s e t ∨ WriterStep s e t ∨ StatsStep s e t := by
  unfold next at h
  rcases Option.or_eq_some_iff.mp h with h | ⟨_,h⟩
  · exact .inl (receiverSound h)
  · rcases Option.or_eq_some_iff.mp h with h | ⟨_,h⟩
    · exact .inr (.inl (writerSound h))
    · exact .inr (.inr (statsSound h))

end IPv4Media.ClientThreads
