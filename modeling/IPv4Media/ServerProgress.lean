import IPv4Media.Progress
import IPv4Media.ServerExit
import IPv4Media.ServerLocks

/-! The music goes on, lock by lock. As long as SIGALRM has found no thread inside a locked
section, a channel's thread that has not ended comes to its next datagram with payload,
wherever it and the others stand in their calls and handlers. The others have to leave
their locked sections for it and to send nothing. -/
namespace IPv4Media.ServerProgress
open Octets Proto Playlist ChannelSender ServerStream TokenBucket TimerModule MediaLibrary Execution Interleaving
open FlowControl (Phase Flow FileServer afterRead)
open Server (Station Thread owner serverNext history)
open StartUp (World Running Media main mainSound station staffedMain staffedReady plainDir discDir sampleWorld sampleMedia)
open TuneIn (serving discStation)
open ChannelIds (IdsSuffice)
open ChannelBuckets (Equipped scannedEquipped)
open Cancellation (Healthy liveNext healthyMove healthyStart scanned)
open CleanExit (restNext restSound undisturbed)
open TimerThreads (Pc Move free freeSound held)
open ServerLocks

variable {φ : Type} {st : Station φ} {mod : Module} {k : Fin st.owners.length} {s u v : Process st} {e : Event st}

abbrev nobody : Nat → Bool := fun _ => false

/- The alarm finds its thread outside the locked sections. -/
def Spared (s : Process st) (e : Event st) (_ : Process st) : Prop :=
  ∀ t, e = .timer (.alarm t) → held (s.timer.pc t) = []

theorem setPhaseTimer (s : Process st) (r : Option (Fin st.owners.length × Phase φ)) :
    (setPhase s r).timer = s.timer := by
  cases r <;> rfl

theorem healthyNext (healthy : Healthy nobody s.timer) (spared : Spared s e u) (step : next s e = some u) :
    Healthy nobody u.timer := by
  cases actSound step with
  | fetch k v idle running move => exact healthyMove healthy (fun t alarm => by cases alarm) rfl rfl move
  | check k n v granted move => exact healthyMove healthy (fun t alarm => by cases alarm) rfl rfl move
  | giveBack k read rest v owes move => exact healthyMove healthy (fun t alarm => by cases alarm) rfl rfl move
  | wake t v move => exact healthyMove healthy (fun t alarm => by cases alarm) rfl rfl move
  | handle t v move => exact healthyMove healthy (fun t alarm => by cases alarm) rfl rfl move
  | alarm t v move =>
    refine healthyMove healthy (fun x alarm => ?_) rfl rfl move
    cases alarm
    exact spared t rfl
  | step t v move =>
    rw [setPhaseTimer]
    exact healthyMove healthy (fun t alarm => by cases alarm) rfl rfl move
  | _ => exact healthy

structure Furnished (st : Station φ) (mod : Module) (k : Fin st.owners.length) : Prop where
  scan : ∃ envs, scanned envs = some mod
  equipped : ∃ before, Equipped before mod st.owners
  ready : Ready st.content st.behind (owner st k)
  playable : Progress.Playable st k

structure Standing (st : Station φ) (mod : Module) (k : Fin st.owners.length) (s : Process st) : Prop where
  reach : ∃ es, exec next (start st mod) es = some s ∧ Along next Spared (start st mod) es
  running : (s.snder k).running = true

theorem standingNext (standing : Standing st mod k s) (spared : Spared s e u) (step : next s e = some u)
    (running : (u.snder k).running = true) : Standing st mod k u := by
  obtain ⟨es,run,along⟩ := standing.reach
  exact ⟨⟨es ++ [e],execSnoc.mpr ⟨s,run,step⟩,(alongSnoc run step).mpr ⟨along,spared⟩⟩,running⟩

theorem standingHealthy (furnished : Furnished st mod k) (standing : Standing st mod k s) : Healthy nobody s.timer := by
  obtain ⟨es,run,along⟩ := standing.reach
  obtain ⟨envs,scan⟩ := furnished.scan
  have first : Healthy nobody (start st mod).timer := healthyStart scan
  exact invariantAlong (I := fun s => Healthy nobody s.timer) (P := Spared) first
    (fun _ _ _ healthy spared step => healthyNext healthy spared step) run along

structure Known (k : Fin st.owners.length) (s : Process st) (b : Mytbf) : Prop where
  live : s.timer.mod.bucket (owner st k).tbf = some b
  calls : Calls s
  alive : Progress.Alive st.content st.behind (owner st k).mp3glob tbfCps tbfBurst
    ⟨{ b with pos := (owner st k).tbf },s.snder k,s.phase k⟩
  refund : ∀ read rest, s.phase k = .refunding read rest → free s.timer (thrChannel k) = true →
    ∃ v, next s (.giveBack k) = some v

theorem standingKnown (furnished : Furnished st mod k) (standing : Standing st mod k s) : ∃ b, Known k s b := by
  obtain ⟨es,run,_⟩ := standing.reach
  obtain ⟨before,equipped⟩ := furnished.equipped
  obtain ⟨w,followed,related⟩ := relatedRun equipped run
  obtain ⟨b,live,flow,_⟩ := related.holds k
  have running : (w.part (some k) : Flow φ).snder.running = true := by
    rw [flow]
    exact standing.running
  have alive := Progress.channelAlive furnished.ready followed running
  rw [flow] at alive
  exact ⟨b,live,related.calls,alive,fun read rest owes idle => returnAdmitted related owes idle⟩

theorem sentLogged {before : Module} (equipped : Equipped before mod st.owners) {es : List (Event st)}
    (run : exec next (start st mod) es = some s) :
    (∀ j, ofMachine (some j) s.log = (s.snder j).sent) ∧ ofMachine none s.log = s.listed := by
  obtain ⟨w,followed,related⟩ := relatedRun equipped run
  have logged := loggedRun Server.historyGrows (Server.startLogged st) followed
  constructor
  · intro j
    obtain ⟨b,_,flow,_⟩ := related.holds j
    have mine := logged (some j)
    rw [flow,related.log] at mine
    exact mine
  · have mine := logged none
    rw [related.listed,related.log] at mine
    exact mine

structure Beside (k : Fin st.owners.length) (s u : Process st) : Prop where
  snder : ∀ j, j ≠ k → u.snder j = s.snder j
  listed : u.listed = s.listed

theorem besideTrans (first : Beside k s u) (second : Beside k u v) : Beside k s v :=
  ⟨fun j other => (second.snder j other).trans (first.snder j other),second.listed.trans first.listed⟩

/- What the phase of a channel's thread can become while its calls end. -/
inductive Onward : Phase φ → Phase φ → Prop
  | same (phase : Phase φ) : Onward phase phase
  | granted (n : Int) : Onward .idle (.granted n)
  | repaid (read : Read φ) (rest : Int) : Onward (.refunding read rest) (.sending read)

theorem onwardTrans {a b c : Phase φ} (first : Onward a b) (second : Onward b c) : Onward a c := by
  cases first with
  | same => exact second
  | granted n => cases second; exact .granted n
  | repaid read rest => cases second; exact .repaid read rest

/- A thread that has asked is in the call until it has what it asked for. -/
def Begun : Phase φ → Pc → Prop
  | .idle, .fetchLock _ _ => True
  | .idle, .fetchTest _ _ => True
  | .idle, .fetchWait _ _ => True
  | .idle, .fetchWoken _ _ => True
  | .idle, _ => False
  | .refunding _ _, .returnLock _ _ => True
  | .refunding _ _, _ => False
  | _, _ => True

theorem liveStep {timer timer' : TimerThreads.State} {e : TimerThreads.Event}
    (live : liveNext nobody timer e = some timer') : TimerThreads.next timer e = some timer' := by
  unfold liveNext at live
  split at live <;> try contradiction
  exact live

theorem restStep {e : TimerThreads.Event} {timer : TimerThreads.State} (rest : restNext nobody s.timer e = some timer) :
    ∃ u, timerNext s e = some u ∧ u.timer = timer ∧ u.snder = s.snder ∧ u.listed = s.listed := by
  obtain ⟨quiet,live⟩ := restSound rest
  have made := liveStep live
  have called : call s e = some { s with timer } := by rw [call,made]; rfl
  cases e with
  | wake t => exact ⟨_,called,rfl,rfl,rfl⟩
  | alarm t => exact ⟨_,called,rfl,rfl,rfl⟩
  | handle t => exact ⟨_,called,rfl,rfl,rfl⟩
  | step t =>
    refine ⟨setPhase { s with timer } (stepped s t),by rw [timerNext,called]; rfl,setPhaseTimer _ _,?_,?_⟩
    · cases stepped s t <;> rfl
    · cases stepped s t <;> rfl
  | _ => contradiction

theorem steppedSource {t : Nat} {j : Fin st.owners.length} {phase : Phase φ} (made : stepped s t = some (j,phase)) :
    t = thrChannel j ∧ ((∃ address size b n c, s.timer.pc t = .fetchTest address size ∧
        s.timer.mod.bucket address = some b ∧ fetchtoken b size = some (n,c) ∧ phase = .granted n) ∨
      ∃ address size read rest, s.timer.pc t = .returnLock address size ∧ s.phase j = .refunding read rest ∧
        phase = .sending read) := by
  obtain ⟨i,found,made⟩ := Option.bind_eq_some_iff.mp made
  have here := List.find?_some found
  simp only [decide_eq_true_eq] at here
  split at made
  · rename_i address size at_
    obtain ⟨b,live,made⟩ := Option.bind_eq_some_iff.mp made
    obtain ⟨⟨n,c⟩,got,last⟩ := Option.bind_eq_some_iff.mp made
    obtain ⟨rfl,rfl⟩ := Prod.mk.inj (Option.some.inj last)
    exact ⟨here.symm,.inl ⟨address,size,b,n,c,at_,live,got,rfl⟩⟩
  · rename_i address size at_
    split at made <;> try contradiction
    rename_i read rest owes
    obtain ⟨rfl,rfl⟩ := Prod.mk.inj (Option.some.inj made)
    exact ⟨here.symm,.inr ⟨address,size,read,rest,at_,owes,rfl⟩⟩
  · contradiction

theorem steppedOther {t : Nat} (other : t ≠ thrChannel k) (timer : TimerThreads.State) :
    (setPhase { s with timer } (stepped s t)).phase k = s.phase k := by
  cases made : stepped s t with
  | none => rfl
  | some r =>
    obtain ⟨j,phase⟩ := r
    have apart : k ≠ j := by
      rintro rfl
      exact other (steppedSource made).1
    exact Function.update_of_ne apart _ _

theorem steppedOnward {t : Nat} (calls : Calls s) (timer : TimerThreads.State) :
    Onward (s.phase k) ((setPhase { s with timer } (stepped s t)).phase k) := by
  by_cases mine : t = thrChannel k
  · subst mine
    have inside := calls.inside k
    cases made : stepped s (thrChannel k) with
    | none => exact .same _
    | some r =>
      obtain ⟨j,phase⟩ := r
      obtain ⟨same,taken | repaid⟩ := steppedSource made
      · cases thrChannelInj same
        obtain ⟨address,size,b,n,c,at_,_,_,rfl⟩ := taken
        rw [at_] at inside
        rw [inside.2.2.1]
        simp only [setPhase,Function.update_self]
        exact .granted n
      · cases thrChannelInj same
        obtain ⟨address,size,read,rest,_,owes,rfl⟩ := repaid
        rw [owes]
        simp only [setPhase,Function.update_self]
        exact .repaid read rest
  · rw [steppedOther mine]
    exact .same _

theorem onwardNext {e : TimerThreads.Event} (calls : Calls s) (step : timerNext s e = some u) :
    Onward (s.phase k) (u.phase k) := by
  have act : Act s (.timer e) u := actSound step
  cases act with
  | step t v move => exact steppedOnward calls v
  | _ => exact .same _

theorem begunGranted {phase : Phase φ} {n : Int} {pc : Pc} (onward : Onward (.granted n) phase) : Begun phase pc := by
  cases onward
  exact True.intro

theorem begunSending {phase : Phase φ} {read : Read φ} {pc : Pc} (onward : Onward (.sending read) phase) :
    Begun phase pc := by
  cases onward
  exact True.intro

theorem begunOwn {timer : TimerThreads.State} (begun : Begun (s.phase k) (s.timer.pc (thrChannel k)))
    (calls : Calls s) (made : TimerThreads.Step s.timer (thrChannel k) (s.timer.pc (thrChannel k)) timer) :
    Begun ((setPhase { s with timer } (stepped s (thrChannel k))).phase k) (timer.pc (thrChannel k)) := by
  have onward := @steppedOnward φ st k s (thrChannel k) calls timer
  have mine := channelOfSelf k
  cases phase : s.phase k with
  | granted n =>
    rw [phase] at onward
    exact begunGranted onward
  | sending read =>
    rw [phase] at onward
    exact begunSending onward
  | idle =>
    rw [phase] at begun
    generalize at_ : s.timer.pc (thrChannel k) = pc at made begun
    cases made with
    | fetchLock address size free =>
      have none_ : stepped s (thrChannel k) = none := by simp [stepped,mine,at_]
      simp [none_,setPhase,phase,Begun]
    | fetchWoken address size free =>
      have none_ : stepped s (thrChannel k) = none := by simp [stepped,mine,at_]
      simp [none_,setPhase,phase,Begun]
    | fetchSleep address size b live empty =>
      have none_ : stepped s (thrChannel k) = none := by simp [stepped,mine,at_,live,empty]
      simp [none_,setPhase,phase,Begun]
    | fetchTake address size n b c live got =>
      have some_ : stepped s (thrChannel k) = some (k,.granted n) := by simp [stepped,mine,at_,live,got]
      simp [some_,setPhase,Begun]
    | _ => exact begun.elim
  | refunding read rest =>
    rw [phase] at begun
    generalize at_ : s.timer.pc (thrChannel k) = pc at made begun
    cases made with
    | returnAdd address size b c live added free =>
      have some_ : stepped s (thrChannel k) = some (k,.sending read) := by simp [stepped,mine,at_,phase]
      simp [some_,setPhase,Begun]
    | _ => exact begun.elim

theorem begunNext {e : TimerThreads.Event} (begun : Begun (s.phase k) (s.timer.pc (thrChannel k))) (calls : Calls s)
    (step : timerNext s e = some u) : Begun (u.phase k) (u.timer.pc (thrChannel k)) := by
  have act : Act s (.timer e) u := actSound step
  cases act with
  | step t v move =>
    cases move with
    | step _ _ quiet made =>
      rw [setPhaseTimer]
      by_cases mine : t = thrChannel k
      · subst mine
        exact begunOwn begun calls made
      · rw [steppedOther mine,(AlarmLocks.stepFrame made).2 _ (Ne.symm mine)]
        exact begun
  | wake t v move =>
    cases move with
    | wake _ address size asleep quiet =>
      by_cases mine : t = thrChannel k
      · subst mine
        rw [asleep] at begun
        have later : (TimerThreads.goto s.timer (thrChannel k) (.fetchWoken address size)).pc (thrChannel k) =
            .fetchWoken address size := updateSame _ _ _
        simp only [later]
        cases phase : s.phase k <;> simp_all [Begun]
      · have still : (TimerThreads.goto s.timer t (.fetchWoken address size)).pc (thrChannel k) =
            s.timer.pc (thrChannel k) := updateOther _ _ (Ne.symm mine)
        simp only [still]
        exact begun
  | alarm t v move =>
    cases move
    exact begun
  | handle t v move =>
    cases move with
    | handle _ h _ running made =>
      simp only [(AlarmLocks.handlerFrame made).1]
      exact begun

structure Ending (k : Fin st.owners.length) (s u : Process st) : Prop where
  snder : u.snder = s.snder
  listed : u.listed = s.listed
  onward : Onward (s.phase k) (u.phase k)
  begun : Begun (s.phase k) (s.timer.pc (thrChannel k)) → Begun (u.phase k) (u.timer.pc (thrChannel k))

theorem endingStart (s : Process st) : Ending k s s := ⟨rfl,rfl,.same _,id⟩

theorem endingBeside (ending : Ending k s u) : Beside k s u := ⟨fun j _ => congrFun ending.snder j,ending.listed⟩

theorem restLifts {goal : TimerThreads.State → Prop} (furnished : Furnished st mod k) (standing : Standing st mod k s)
    (reach : CanReach (restNext nobody) goal s.timer) :
    CanReach next (fun u => Standing st mod k u ∧ Ending k s u ∧ goal u.timer) s := by
  obtain ⟨events,timer,run,there⟩ := reach
  suffices lifted : ∀ v, Standing st mod k v → Ending k s v → exec (restNext nobody) v.timer events = some timer →
      CanReach next (fun u => Standing st mod k u ∧ Ending k s u ∧ goal u.timer) v from
    lifted s standing (endingStart s) run
  clear run
  induction events with
  | nil =>
    intro v standing ending run
    cases Option.some.inj run
    exact reachNow ⟨standing,ending,there⟩
  | cons e events ih =>
    intro v standing ending run
    obtain ⟨middle,rest,later⟩ := Option.bind_eq_some_iff.mp run
    obtain ⟨u,step,same,snder,listed⟩ := restStep rest
    obtain ⟨b,known⟩ := standingKnown furnished standing
    have spared : Spared v (.timer e) u := by
      intro t alarm
      cases alarm
      exact beq_iff_eq.mp (restSound rest).1
    have after : Standing st mod k u := standingNext standing spared step (by rw [snder]; exact standing.running)
    refine reachStep (e := Event.timer e) step (ih u after ?_ (by rw [same]; exact later))
    exact ⟨snder.trans ending.snder,listed.trans ending.listed,onwardTrans ending.onward (onwardNext known.calls step),
      fun begun => begunNext (ending.begun begun) known.calls step⟩

structure Freed (st : Station φ) (mod : Module) (k : Fin st.owners.length) (s u : Process st) : Prop where
  standing : Standing st mod k u
  ending : Ending k s u
  idle : free u.timer (thrChannel k) = true

/- Wherever the thread is, its calls can end, with every lock that is in the way released. -/
theorem threadFreed (furnished : Furnished st mod k) (standing : Standing st mod k s) :
    CanReach next (Freed st mod k s) s := by
  have healthy := standingHealthy furnished standing
  have ends : CanReach (restNext nobody) (CleanExit.Idle nobody (thrChannel k)) s.timer :=
    reachThen (CleanExit.handlerEnds healthy (thrChannel k)) fun u quiet => CleanExit.callEnds quiet.1 quiet.2
  refine reachThen (restLifts furnished standing ends) fun u done => reachNow ?_
  obtain ⟨later,ending,idle⟩ := done
  exact ⟨later,ending,by simp [free,idle.outside,idle.quiet]⟩

structure Sent (st : Station φ) (mod : Module) (k : Fin st.owners.length) (s : Process st) (ch : ChannelContext φ)
    (data : Bytes) (u : Process st) : Prop where
  standing : Standing st mod k u
  beside : Beside k s u
  idle : free u.timer (thrChannel k) = true
  phase : u.phase k = .idle
  ch : (u.snder k).ch = ch
  sent : (u.snder k).sent = (s.snder k).sent ++ [msgChannel st.order (s.snder k).sequenceNumber (owner st k).chnid data]

theorem sendsOn {read : Read φ} (furnished : Furnished st mod k) (standing : Standing st mod k s)
    (idle : free s.timer (thrChannel k) = true) (holds : s.phase k = .sending read) :
    CanReach next (Sent st mod k s (s.snder k).ch read.buf) s := by
  obtain ⟨b,known⟩ := standingKnown furnished standing
  have length := known.alive.metered.holds read holds
  have positive : ¬ read.len < 0 := by omega
  have step : next s (.send k true) = some { s with
      snder := Function.update s.snder k { s.snder k with
        sent := (s.snder k).sent ++ [msgChannel st.order (s.snder k).sequenceNumber (owner st k).chnid read.buf]
        sequenceNumber := (s.snder k).sequenceNumber + 1 }
      phase := Function.update s.phase k .idle
      log := s.log ++
        [(some k,msgChannel st.order (s.snder k).sequenceNumber (owner st k).chnid read.buf)] } := by
    simp [next,holds,idle,afterRead,positive]
  have spared : ∀ u, Spared s (.send k true) u := fun u t alarm => by cases alarm
  have later := standingNext standing (spared _) step (by simpa using standing.running)
  refine reachStep step (reachNow ⟨later,⟨fun j other => ?_,rfl⟩,idle,?_,?_,?_⟩)
  · exact Function.update_of_ne other _ _
  · exact Function.update_self ..
  · simp
  · simp

theorem callDone (furnished : Furnished st mod k) (standing : Standing st mod k s)
    (begun : Begun (s.phase k) (s.timer.pc (thrChannel k))) :
    CanReach next (fun u => Freed st mod k s u ∧ Begun (u.phase k) .outside) s := by
  refine reachThen (threadFreed furnished standing) fun u freed => reachNow ⟨freed,?_⟩
  have last := freed.ending.begun begun
  rw [(freeSound freed.idle).1] at last
  exact last

theorem refundsOn {read : Read φ} {rest : Int} (furnished : Furnished st mod k) (standing : Standing st mod k s)
    (idle : free s.timer (thrChannel k) = true) (owes : s.phase k = .refunding read rest) :
    CanReach next (Sent st mod k s (s.snder k).ch read.buf) s := by
  obtain ⟨b,known⟩ := standingKnown furnished standing
  obtain ⟨v,step⟩ := known.refund read rest owes idle
  have act := actSound step
  cases act with
  | giveBack _ other left timer same move =>
    have later := standingNext standing (fun t alarm => by cases alarm) step standing.running
    cases move with
    | giveBack _ _ _ c live _ positive small =>
      have begun : Begun (s.phase k) ((TimerThreads.goto s.timer (thrChannel k)
          (.returnLock (owner st k).tbf left)).pc (thrChannel k)) := by
        rw [owes,AlarmLocks.gotoPc]
        exact True.intro
      refine reachStep step (reachThen (callDone furnished later begun) fun u done => ?_)
      obtain ⟨freed,last⟩ := done
      have sending : u.phase k = .sending read := by
        have onward := freed.ending.onward
        simp only [owes] at onward
        generalize u.phase k = phase at onward last
        cases onward with
        | same => exact last.elim
        | repaid => rfl
      refine reachThen (sendsOn furnished freed.standing freed.idle sending) fun w sent => reachNow ?_
      have snder : u.snder = s.snder := freed.ending.snder
      have beside : Beside k s u := ⟨fun j _ => congrFun snder j,freed.ending.listed⟩
      refine ⟨sent.standing,besideTrans beside sent.beside,sent.idle,sent.phase,?_,?_⟩
      · rw [sent.ch,snder]
      · rw [sent.sent,snder]

/- What comes before a call of mlib_readchn's loop: the tokens, then the log line's look at
what is left of them. -/
structure Granted (st : Station φ) (mod : Module) (k : Fin st.owners.length) (s u : Process st) : Prop where
  standing : Standing st mod k u
  beside : Beside k s u
  idle : free u.timer (thrChannel k) = true
  phase : ∃ n, u.phase k = .granted n
  snder : u.snder k = s.snder k

theorem checksOn {n : Int} (furnished : Furnished st mod k) (standing : Standing st mod k s)
    (idle : free s.timer (thrChannel k) = true) (granted : s.phase k = .granted n) :
    CanReach next (Granted st mod k s) s := by
  obtain ⟨b,known⟩ := standingKnown furnished standing
  have step : next s (.check k) =
      some { s with timer := TimerThreads.goto s.timer (thrChannel k) (.checkLock (owner st k).tbf) } := by
    simp [next,granted,call,TimerThreads.next,idle,known.live]
  have later := standingNext standing (fun t alarm => by cases alarm) step standing.running
  have begun : Begun (s.phase k) ((TimerThreads.goto s.timer (thrChannel k) (.checkLock (owner st k).tbf)).pc
      (thrChannel k)) := by
    rw [granted]
    exact True.intro
  refine reachStep step (reachThen (callDone furnished later begun) fun u done => reachNow ?_)
  obtain ⟨freed,_⟩ := done
  have onward := freed.ending.onward
  simp only [granted] at onward
  have snder : u.snder = s.snder := freed.ending.snder
  refine ⟨freed.standing,⟨fun j _ => congrFun snder j,freed.ending.listed⟩,freed.idle,⟨n,?_⟩,congrFun snder k⟩
  generalize u.phase k = phase at onward
  cases onward
  rfl

theorem fetchesOn (furnished : Furnished st mod k) (standing : Standing st mod k s)
    (idle : free s.timer (thrChannel k) = true) (asks : s.phase k = .idle) : CanReach next (Granted st mod k s) s := by
  obtain ⟨b,known⟩ := standingKnown furnished standing
  have wanted : (1 : Int) ≤ readSize := by decide
  have step : next s (.fetch k) =
      some { s with timer := TimerThreads.goto s.timer (thrChannel k) (.fetchLock (owner st k).tbf readSize) } := by
    simp [next,asks,standing.running,call,TimerThreads.next,idle,known.live,wanted]
  have later := standingNext standing (fun t alarm => by cases alarm) step standing.running
  have begun : Begun (s.phase k) ((TimerThreads.goto s.timer (thrChannel k) (.fetchLock (owner st k).tbf readSize)).pc
      (thrChannel k)) := by
    rw [asks,AlarmLocks.gotoPc]
    exact True.intro
  refine reachStep step (reachThen (callDone furnished later begun) fun u done => ?_)
  obtain ⟨freed,last⟩ := done
  have granted : ∃ n, u.phase k = .granted n := by
    have onward := freed.ending.onward
    simp only [asks] at onward
    generalize u.phase k = phase at onward last
    cases onward with
    | same => exact last.elim
    | granted n => exact ⟨n,rfl⟩
  obtain ⟨n,granted⟩ := granted
  have snder : u.snder = s.snder := freed.ending.snder
  have beside : Beside k s u := ⟨fun j _ => congrFun snder j,freed.ending.listed⟩
  refine reachThen (checksOn furnished freed.standing freed.idle granted) fun w checked => reachNow ?_
  exact ⟨checked.standing,besideTrans beside checked.beside,checked.idle,checked.phase,by rw [checked.snder,snder]⟩

def passed (s : Process st) (k : Fin st.owners.length) (read : Read φ) (refund : Option Int) : Process st :=
  { s with
    snder := Function.update s.snder k { s.snder k with ch := read.ch }
    phase := Function.update s.phase k (readPhase read refund) }

theorem passedBeside (s : Process st) (k : Fin st.owners.length) (read : Read φ) (refund : Option Int) :
    Beside k s (passed s k read refund) :=
  ⟨fun _ other => Function.update_of_ne other _ _,rfl⟩

@[simp] theorem passedSnder (s : Process st) (k : Fin st.owners.length) (read : Read φ) (refund : Option Int) :
    (passed s k read refund).snder k = { s.snder k with ch := read.ch } := Function.update_self ..

@[simp] theorem passedPhase (s : Process st) (k : Fin st.owners.length) (read : Read φ) (refund : Option Int) :
    (passed s k read refund).phase k = readPhase read refund := Function.update_self ..

theorem readsOn {n : Int} (furnished : Furnished st mod k) (server : FileServer st.content st.behind (owner st k).mp3glob)
    (standing : Standing st mod k s) (idle : free s.timer (thrChannel k) = true) (granted : s.phase k = .granted n) :
    ∃ read, ReadSource server.os (owner st k).chnid n.toNat 0 (s.snder k).ch read ∧
      CanReach next (Sent st mod k s read.ch read.buf) s := by
  obtain ⟨b,known⟩ := standingKnown furnished standing
  have positive := known.alive.flowing.positive n granted
  obtain ⟨out,streaming⟩ := known.alive.flowing.streaming
  obtain ⟨read,looped⟩ := turnEnds streaming server.serves (by omega : 1 ≤ n.toNat) Nat.zero_lt_one
  refine ⟨read,readSound looped,?_⟩
  have called : ∃ refund, mlibReadchn server.os (owner st k).chnid n.toNat 1 (s.snder k).ch = some (read,refund) := by
    simp only [mlibReadchn]
    rw [looped]
    exact ⟨_,rfl⟩
  obtain ⟨refund,called⟩ := called
  have step : next s (.read k server 1) = some (passed s k read refund) := by
    simp [next,granted,idle,called,passed]
  have later := standingNext standing (fun t alarm => by cases alarm) step (by simpa using standing.running)
  have sends : CanReach next (Sent st mod k (passed s k read refund) read.ch read.buf) (passed s k read refund) := by
    cases refund with
    | none =>
      have sent := @sendsOn _ _ _ _ _ read furnished later idle (passedPhase s k read none)
      rw [passedSnder] at sent
      exact sent
    | some rest =>
      have sent := @refundsOn _ _ _ _ _ read rest furnished later idle (passedPhase s k read (some rest))
      rw [passedSnder] at sent
      exact sent
  refine reachStep step (reachThen sends fun u sent => reachNow ?_)
  refine ⟨sent.standing,besideTrans (passedBeside s k read refund) sent.beside,sent.idle,sent.phase,sent.ch,?_⟩
  rw [sent.sent,passedSnder]

/- A whole turn: a datagram with payload, or one end of file less on the way to one. -/
structure Turned (st : Station φ) (mod : Module) (k : Fin st.owners.length) (s u : Process st) : Prop where
  standing : Standing st mod k u
  beside : Beside k s u
  idle : free u.timer (thrChannel k) = true
  phase : u.phase k = .idle
  sent : ∃ d, (u.snder k).sent = (s.snder k).sent ++ [d] ∧ (channelDataOffset < d.length ∨
    FlowControl.emptyReads st.content (u.snder k).ch + 1 ≤ FlowControl.emptyReads st.content (s.snder k).ch)

theorem turnsOn {n : Int} (furnished : Furnished st mod k) (server : FileServer st.content st.behind (owner st k).mp3glob)
    (standing : Standing st mod k s) (idle : free s.timer (thrChannel k) = true) (granted : s.phase k = .granted n) :
    CanReach next (Turned st mod k s) s := by
  obtain ⟨b,known⟩ := standingKnown furnished standing
  have positive := known.alive.flowing.positive n granted
  obtain ⟨out,streaming⟩ := known.alive.flowing.streaming
  obtain ⟨read,source,sends⟩ := readsOn furnished server standing idle granted
  refine reachThen sends fun u sent => reachNow ⟨sent.standing,sent.beside,sent.idle,sent.phase,_,sent.sent,?_⟩
  have length := (readLength source).1
  rw [sent.ch]
  cases FlowControl.servedRead streaming server.serves (by omega : 1 ≤ n.toNat) source with
  | data inside least most =>
    refine .inl ?_
    rw [msgChannelLength]
    omega
  | ended past len pos offset =>
    refine .inr (FlowControl.emptyReadsEnded ?_ past (readSame source).mp3glob pos offset)
    have filled := furnished.playable.filled
    rw [← streaming.mp3glob] at filled
    exact filled

structure Spoken (k : Fin st.owners.length) (s u : Process st) : Prop where
  beside : Beside k s u
  sent : ∃ more d, (u.snder k).sent = (s.snder k).sent ++ more ++ [d] ∧ channelDataOffset < d.length

theorem spokenLater {before : List Bytes} (beside : Beside k s u) (sent : (u.snder k).sent = (s.snder k).sent ++ before)
    (spoken : Spoken k u v) : Spoken k s v := by
  obtain ⟨more,d,last,long⟩ := spoken.sent
  refine ⟨besideTrans beside spoken.beside,before ++ more,d,?_,long⟩
  rw [last,sent,List.append_assoc (s.snder k).sent]

/- From one turn to the next the way to a file with something in it gets shorter. -/
theorem idleSpeaks (furnished : Furnished st mod k) (server : FileServer st.content st.behind (owner st k).mp3glob)
    (standing : Standing st mod k s) (idle : free s.timer (thrChannel k) = true) (phase : s.phase k = .idle) :
    CanReach next (Spoken k s) s := by
  induction left : FlowControl.emptyReads st.content (s.snder k).ch using Nat.strong_induction_on generalizing s with
  | _ m ih =>
  refine reachThen (fetchesOn furnished standing idle phase) fun u granted => ?_
  obtain ⟨n,tokens⟩ := granted.phase
  refine reachThen (turnsOn furnished server granted.standing granted.idle tokens) fun v turned => ?_
  obtain ⟨d,sent,long | nearer⟩ := turned.sent
  · rw [granted.snder] at sent
    exact reachNow ⟨besideTrans granted.beside turned.beside,[],d,by rw [sent,List.append_nil],long⟩
  · rw [granted.snder] at sent nearer
    refine reachThen (ih _ (by omega) turned.standing turned.idle turned.phase rfl) fun w spoken => reachNow ?_
    exact spokenLater (besideTrans granted.beside turned.beside) sent spoken

theorem sentSpeaks {ch : ChannelContext φ} {data : Bytes} (furnished : Furnished st mod k)
    (server : FileServer st.content st.behind (owner st k).mp3glob) (sent : Sent st mod k s ch data u) :
    CanReach next (Spoken k s) u := by
  refine reachThen (idleSpeaks furnished server sent.standing sent.idle sent.phase) fun v spoken => reachNow ?_
  exact spokenLater sent.beside sent.sent spoken

theorem freeSpeaks (furnished : Furnished st mod k) (server : FileServer st.content st.behind (owner st k).mp3glob)
    (standing : Standing st mod k s) (idle : free s.timer (thrChannel k) = true) : CanReach next (Spoken k s) s := by
  cases phase : s.phase k with
  | idle => exact idleSpeaks furnished server standing idle phase
  | granted n =>
    obtain ⟨read,_,sends⟩ := readsOn furnished server standing idle phase
    exact reachThen sends fun u sent => sentSpeaks furnished server sent
  | refunding read rest =>
    exact reachThen (refundsOn furnished standing idle phase) fun u sent => sentSpeaks furnished server sent
  | sending read =>
    exact reachThen (sendsOn furnished standing idle phase) fun u sent => sentSpeaks furnished server sent

theorem channelSpeaks (furnished : Furnished st mod k) (standing : Standing st mod k s) :
    CanReach next (Spoken k s) s := by
  obtain ⟨server⟩ := FlowControl.serverExists furnished.playable.openable
  refine reachThen (threadFreed furnished standing) fun u freed => ?_
  refine reachThen (freeSpeaks furnished server freed.standing freed.idle) fun v spoken => reachNow ?_
  have sent : (u.snder k).sent = (s.snder k).sent ++ [] := by rw [freed.ending.snder,List.append_nil]
  exact spokenLater (endingBeside freed.ending) sent spoken

theorem furnishedMain {w : World φ} {opts : List (Char × String)} {r : Running φ} {dirs : List (MediaDir φ)}
    (ran : main w opts = .ok r) (globbed : w.globbed r.conf.mediaDir = some dirs)
    (suffice_ : IdsSuffice (UInt8.ofNat minchnid) dirs) {o : ByteOrder} {content : Path → Bytes} {behind : φ → Bytes}
    (media : ∀ d ∈ dirs, Media content behind d) {k : Fin (station o content behind r).owners.length}
    (playable : Progress.Playable (station o content behind r) k) :
    Furnished (station o content behind r) r.scanned.lib.mod k := by
  have source := mainSound ran
  have staffed := staffedMain source globbed suffice_
  have called := source.scan
  rw [globbed] at called
  exact ⟨ServerExit.mainScanned source globbed,⟨_,scannedEquipped called⟩,staffedReady staffed media o k,playable⟩

def sparedNow (s : Process st) : Event st → Bool
  | .timer (.alarm t) => held (s.timer.pc t) == []
  | _ => true

theorem nowSpared (s : Process st) (e : Event st) (u : Process st) (now : sparedNow s e = true) : Spared s e u := by
  rintro t rfl
  exact beq_iff_eq.mp now

/- The one channel's thread waits for tokens, thr_list has sent, and alrm_handle on main
holds mut_job and the bucket's mutex. -/
def handled : List (Event discStation) :=
  [.fetch disc,.timer (.step 2),.timer (.step 2),.list true,.timer (.alarm 0),.timer (.handle 0),.timer (.handle 0),
    .timer (.handle 0)]

theorem handledPlayable : Progress.Playable discStation disc :=
  ⟨fun p _ => ⟨p,rfl⟩,[1],List.mem_cons_self,by decide⟩

end IPv4Media.ServerProgress
