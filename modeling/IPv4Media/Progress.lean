import IPv4Media.Bandwidth
import IPv4Media.Broadcast
import IPv4Media.Shutdown

/-! The music goes on at the client. Wherever its threads stand, as long as the receiver has
not left and stop_flag is not set, they come to play what is in the ring, or to hear what
the server has sent and to play that. -/
namespace IPv4Media.Progress
open Octets Proto Socket Receiver ClientRing ClientThreads ClientTrace ClientStream Playlist ChannelSender ServerStream
  TokenBucket MediaLibrary ListCodec Execution Interleaving Server Bandwidth Broadcast
open FlowControl (Flow Flowing flowingRun)

variable {φ : Type}

structure Alive (content : Path → Bytes) (behind : φ → Bytes) (files : List Path) (cps burst : Int) (f : Flow φ) : Prop where
  flowing : Flowing content behind files cps burst f
  metered : Metered cps burst f
  running : f.snder.running = true

variable {st : Station φ} {k : Fin st.owners.length}

structure Playable (st : Station φ) (k : Fin st.owners.length) : Prop where
  openable : ∀ p ∈ (owner st k).mp3glob, ∃ fd, st.behind fd = st.content p
  filled : ∃ p ∈ (owner st k).mp3glob, st.content p ≠ []

theorem channelAlive (ready : Ready st.content st.behind (owner st k)) {es : List (Sigma (Label st))} {s : Wire st}
    (run : exec (serverNext st) (start st) es = some s) (running : (s.part (some k) : Flow φ).snder.running = true) :
    Alive st.content st.behind (owner st k).mp3glob tbfCps tbfBurst (s.part (some k) : Flow φ) := by
  have mine := jointOwn run (some k)
  exact ⟨flowingRun channelParams ready mine,(meteredRun (meteredInit channelParams) mine).1,running⟩

variable {se : Session} {heap : Bytes} {n : Nat} {s : Radio st}

/- The client and the network, while the server stands. -/
def clientNext (st : Station φ) (se : Session) (s : Radio st) : Broadcast.Event st → Option (Radio st)
  | .server _ => none
  | e => radioNext st se s e

theorem clientSound {e : Broadcast.Event st} {u : Radio st} (step : clientNext st se s e = some u) :
    radioNext st se s e = some u := by
  cases e with
  | server e => contradiction
  | hear k => exact step
  | client e => exact step

theorem clientServer {e : Broadcast.Event st} {u : Radio st} (step : clientNext st se s e = some u) :
    u.server = s.server := by
  have moved := radioSound (clientSound step)
  cases moved with
  | server e server served => contradiction
  | hear k entry there fits client heard => rfl
  | client e outside client own_ => rfl

structure Tuning (se : Session) (heap : Bytes) (n : Nat) (s : Radio st) : Prop where
  reach : ∃ es, exec (radioNext st se) (onAir st heap) es = some s
  go : s.client.stopFlag = false
  played : n ≤ s.client.pipe.length

abbrev Plays (se : Session) (n : Nat) (s : Radio st) : Prop :=
  CanReach (clientNext st se) (fun t => n < t.client.pipe.length) s

theorem tuningReach (tuning : Tuning se heap n s) : Shutdown.Reachable se heap s.client := by
  obtain ⟨es,run⟩ := tuning.reach
  obtain ⟨trace,heard,_⟩ := (tunedRun run).client
  exact ⟨trace,heard⟩

theorem clientMoves {goal : Radio st → Prop} {e : ClientThreads.Event} {c : Client} (tuning : Tuning se heap n s)
    (step : ClientThreads.next se s.client e = some c) (outside : foreign se e = true) (go : c.stopFlag = false)
    (played : s.client.pipe.length ≤ c.pipe.length)
    (rest : Tuning se heap n { s with client := c } → CanReach (clientNext st se) goal { s with client := c }) :
    CanReach (clientNext st se) goal s := by
  have moved : clientNext st se s (.client e) = some { s with client := c } := by
    simp [clientNext,radioNext,outside,step]
  obtain ⟨es,run⟩ := tuning.reach
  exact reachStep moved (rest ⟨⟨es ++ [.client e],execSnoc.mpr ⟨s,run,clientSound moved⟩⟩,go,Nat.le_trans tuning.played played⟩)

theorem writePlays (tuning : Tuning se heap n s) (pc : s.client.writer = .pipeWrite) : Plays se n s := by
  have some_ := (Shutdown.exitsReachable (tuningReach tuning)).writing pc
  have step : ClientThreads.next se s.client (.pipeWrite (.wrote 1)) = some { s.client with
      pos := s.client.pos + 1
      bytesWritten := s.client.bytesWritten + 1
      pipe := s.client.pipe ++ (s.client.buffer.drop s.client.pos).take 1
      writer := .pipeTest } := by
    have within : 1 ≤ s.client.buffer.length - s.client.pos := by omega
    simp [ClientThreads.next,receiverNext,writerNext,wrote,pc,within]
  refine clientMoves tuning step rfl tuning.go (by simp) fun later => reachNow ?_
  have before := tuning.played
  simp only [List.length_append,List.length_take,List.length_drop]
  omega

theorem pipePlays (tuning : Tuning se heap n s) (pc : s.client.writer = .pipeTest)
    (some_ : s.client.pos < s.client.buffer.length) : Plays se n s := by
  have step : ClientThreads.next se s.client .pipeLoop = some { s.client with writer := .pipeWrite } := by
    simp [ClientThreads.next,receiverNext,writerNext,pc,some_,tuning.go]
  exact clientMoves tuning step rfl tuning.go (Nat.le_refl _) fun later => writePlays later rfl

theorem ringPlays (tuning : Tuning se heap n s) (pc : s.client.writer = .ringTest) (filled : s.client.rb.count ≠ 0) :
    Plays se n s := by
  obtain ⟨trace,stream⟩ := Shutdown.streamReachable (tuningReach tuning)
  obtain ⟨rb,taken,_⟩ := readTakes stream.ring writerBufferSize
  have size : 0 < ((queue s.client.rb).take writerBufferSize).length := by
    rw [List.length_take,queueLength,writerBufferSize]
    omega
  have step : ClientThreads.next se s.client .ringReadCopy = some { s.client with
      rb, buffer := (queue s.client.rb).take writerBufferSize, pos := 0, writer := .pipeTest,
      receiver := signalNotFull s.client.receiver } := by
    simp only [ClientThreads.next,receiverNext,writerNext,pc,filled,taken,Option.bind_eq_bind,Option.bind_some,if_false,
      if_pos size]
    rfl
  exact clientMoves tuning step rfl tuning.go (Nat.le_refl _) fun later => pipePlays later rfl size

theorem loopPlays (tuning : Tuning se heap n s) (pc : s.client.writer = .loopTest) (filled : s.client.rb.count ≠ 0) :
    Plays se n s := by
  have step : ClientThreads.next se s.client .writerLoop = some { s.client with writer := .ringTest } := by
    simp [ClientThreads.next,receiverNext,writerNext,pc,tuning.go]
  exact clientMoves tuning step rfl tuning.go (Nat.le_refl _) fun later => ringPlays later rfl filled

theorem filledPlays (tuning : Tuning se heap n s) (filled : s.client.rb.count ≠ 0) : Plays se n s := by
  have exits := Shutdown.exitsReachable (tuningReach tuning)
  cases pc : s.client.writer with
  | awaitReady =>
    have ready : s.client.receiverReady = true := by
      cases off : s.client.receiverReady with
      | true => rfl
      | false => exact absurd (exits.ready off).2 filled
    have step : ClientThreads.next se s.client .writerPoll = some { s.client with writer := .loopTest } := by
      simp [ClientThreads.next,receiverNext,writerNext,pc,ready]
    exact clientMoves tuning step rfl tuning.go (Nat.le_refl _) fun later => loopPlays later rfl filled
  | loopTest => exact loopPlays tuning pc filled
  | ringTest => exact ringPlays tuning pc filled
  | ringWait => exact absurd (exits.asleep pc) filled
  | pipeTest =>
    by_cases some_ : s.client.pos < s.client.buffer.length
    · exact pipePlays tuning pc some_
    · have step : ClientThreads.next se s.client .pipeLoop =
          some { s.client with packetsWritten := s.client.packetsWritten + 1, writer := .loopTest } := by
        simp [ClientThreads.next,receiverNext,writerNext,pc,some_]
      exact clientMoves tuning step rfl tuning.go (Nat.le_refl _) fun later => loopPlays later rfl filled
  | pipeWrite => exact writePlays tuning pc
  | left =>
    have stop := exits.flagged pc
    rw [tuning.go] at stop
    contradiction

structure Listening (se : Session) (heap : Bytes) (n : Nat) (server : Wire st) (t : Radio st) : Prop where
  tuning : Tuning se heap n t
  receiver : t.client.receiver = .recvfrom
  same : t.server = server

theorem loopListens (tuning : Tuning se heap n s) (pc : s.client.receiver = .loopTest) :
    CanReach (clientNext st se) (Listening se heap n s.server) s := by
  have step : ClientThreads.next se s.client .receiverLoop = some { s.client with receiver := .recvfrom } := by
    simp [ClientThreads.next,receiverNext,pc,tuning.go]
  exact clientMoves tuning step rfl tuning.go (Nat.le_refl _) fun later => reachNow ⟨later,rfl,rfl⟩

theorem accountListens {len : Nat} {ret : Int} (tuning : Tuning se heap n s) (pc : s.client.receiver = .ringReturned len ret) :
    CanReach (clientNext st se) (Listening se heap n s.server) s := by
  by_cases zero : ret = 0
  · have step : ClientThreads.next se s.client .account =
        some { s.client with bytesReceived := s.client.bytesReceived + dataLen len, receiver := .loopTest } := by
      simp [ClientThreads.next,receiverNext,pc,zero]
    exact clientMoves tuning step rfl tuning.go (Nat.le_refl _) fun later => loopListens later rfl
  · have step : ClientThreads.next se s.client .account =
        some { s.client with packetsDropped := s.client.packetsDropped + 1, receiver := .loopTest } := by
      simp [ClientThreads.next,receiverNext,pc,zero]
    exact clientMoves tuning step rfl tuning.go (Nat.le_refl _) fun later => loopListens later rfl

theorem expiredListens {len : Nat} (tuning : Tuning se heap n s) (pc : s.client.receiver = .ringExpired len) :
    CanReach (clientNext st se) (Listening se heap n s.server) s := by
  have step : ClientThreads.next se s.client .ringWriteTimeout =
      some { s.client with receiver := .ringReturned len (-1) } := by
    simp [ClientThreads.next,receiverNext,pc]
  exact clientMoves tuning step rfl tuning.go (Nat.le_refl _) fun later => accountListens later rfl

theorem waitListens {len : Nat} (tuning : Tuning se heap n s) (pc : s.client.receiver = .ringWait len) :
    CanReach (clientNext st se) (Listening se heap n s.server) s := by
  have step : ClientThreads.next se s.client .ringWriteExpire = some { s.client with receiver := .ringExpired len } := by
    simp [ClientThreads.next,receiverNext,pc]
  exact clientMoves tuning step rfl tuning.go (Nat.le_refl _) fun later => expiredListens later rfl

theorem ringListens {len : Nat} (tuning : Tuning se heap n s) (pc : s.client.receiver = .ringTest len) :
    CanReach (clientNext st se) (Listening se heap n s.server) s := by
  obtain ⟨trace,run⟩ := tuningReach tuning
  rcases (ringStepsDefined run).1 len pc with copied | slept
  · obtain ⟨c,copy⟩ := Option.isSome_iff_exists.mp copied
    have step : ClientThreads.next se s.client .ringWriteCopy = some c := by rw [ClientThreads.next,copy]; rfl
    cases receiverSound copy with
    | copy other rb at_ room written =>
      exact clientMoves tuning step rfl tuning.go (Nat.le_refl _) fun later => accountListens later rfl
  · obtain ⟨c,sleep⟩ := Option.isSome_iff_exists.mp slept
    have step : ClientThreads.next se s.client .ringWriteSleep = some c := by rw [ClientThreads.next,sleep]; rfl
    cases receiverSound sleep with
    | sleep other at_ full =>
      exact clientMoves tuning step rfl tuning.go (Nat.le_refl _) fun later => waitListens later rfl

theorem receiverListens (tuning : Tuning se heap n s) (running : s.client.receiver ≠ .left) :
    CanReach (clientNext st se) (Listening se heap n s.server) s := by
  cases pc : s.client.receiver with
  | start =>
    have step : ClientThreads.next se s.client (.receiverStart true) =
        some { s.client with receiverReady := true, receiver := .loopTest } := by
      simp [ClientThreads.next,receiverNext,pc]
    exact clientMoves tuning step rfl tuning.go (Nat.le_refl _) fun later => loopListens later rfl
  | loopTest => exact loopListens tuning pc
  | recvfrom => exact reachNow ⟨tuning,pc,rfl⟩
  | ringTest len => exact ringListens tuning pc
  | ringWait len => exact waitListens tuning pc
  | ringExpired len => exact expiredListens tuning pc
  | ringReturned len ret => exact accountListens tuning pc
  | left => exact absurd pc running

theorem hearPlays {c : Fin st.owners.length} (listens : Listens st se c) (tuning : Tuning se heap n s)
    (pc : s.client.receiver = .recvfrom) {k : Nat} {d : Bytes} (there : s.server.log[k]? = some (some c,d))
    (long : channelDataOffset < d.length) : Plays se n s := by
  obtain ⟨es,run⟩ := tuning.reach
  obtain ⟨⟨fs,served⟩,_,_⟩ := tunedRun run
  have ranked := rankEntry there
  have passed := (channelPasses listens served ranked).2
  rw [decide_eq_true (⟨rfl,long⟩ : c = c ∧ channelDataOffset < d.length)] at passed
  have fits := wireFits served ranked
  have taken : chosen se ⟨se.serverAddr,d,fits⟩ = true := by
    have both := of_decide_eq_true passed
    exact decide_eq_true ⟨rfl,both.1,both.2⟩
  have received_ := @receivedStep se s.client ⟨se.serverAddr,d,fits⟩ pc
  have step : ClientThreads.next se s.client (.recvfrom (.datagram ⟨se.serverAddr,d,fits⟩)) =
      some (received se s.client (.datagram ⟨se.serverAddr,d,fits⟩)) := by
    simp [ClientThreads.next,receiverNext,pc]
  generalize received se s.client (.datagram ⟨se.serverAddr,d,fits⟩) = after at step received_
  have moved : clientNext st se s (.hear k) = some { s with client := after, heard := s.heard ++ [k] } := by
    simp only [clientNext,radioNext,there,Option.bind_eq_bind,Option.bind_some,dif_pos fits,step]
  cases received_ with
  | recvIgnored other at_ failed =>
    rw [taken] at failed
    contradiction
  | recvChosen other at_ _ =>
    refine reachStep moved ?_
    have later : Tuning se heap n { s with
        client := { s.client with
          msgChannel := deliver s.client.msgChannel d
          packetsReceived := s.client.packetsReceived + 1
          tracker := track s.client.tracker (seqOf se ⟨se.serverAddr,d,fits⟩)
          receiver := .ringTest d.length }
        heard := s.heard ++ [k] } := ⟨⟨es ++ [.hear k],execSnoc.mpr ⟨s,run,clientSound moved⟩⟩,tuning.go,tuning.played⟩
    by_cases filled : s.client.rb.count = 0
    · have data := readDataDelivered s.client.msgChannel taken
      obtain ⟨trace,stream⟩ := Shutdown.streamReachable (tuningReach tuning)
      have size := dataLenPayload ⟨se.serverAddr,d,fits⟩
      simp only at data size
      have room : s.client.rb.count + (payload ⟨se.serverAddr,d,fits⟩).length ≤ ringBufferSize := by
        rw [filled,← size,dataLen]
        simp only [msgChannelMax] at fits
        simp only [ringBufferSize]
        omega
      obtain ⟨rb,written,_,appended⟩ := writeAppends stream.ring room
      have count := congrArg List.length appended
      rw [List.length_append,queueLength,queueLength] at count
      have some_ : 0 < (payload ⟨se.serverAddr,d,fits⟩).length := by
        simp only [payload,List.length_drop]
        omega
      have wait : mustWait s.client.rb (dataLen d.length) = false := by
        rw [mustWait,size]
        exact decide_eq_false (by omega)
      refine clientMoves (e := .ringWriteCopy) later (c := { s.client with
          msgChannel := deliver s.client.msgChannel d
          packetsReceived := s.client.packetsReceived + 1
          tracker := track s.client.tracker (seqOf se ⟨se.serverAddr,d,fits⟩)
          rb, receiver := .ringReturned d.length 0, writer := signalNotEmpty s.client.writer }) ?_ rfl tuning.go
          (Nat.le_refl _) fun copied => filledPlays copied (by simp only; omega)
      simp [ClientThreads.next,receiverNext,wait,data,written]
    · exact filledPlays later filled

end IPv4Media.Progress
