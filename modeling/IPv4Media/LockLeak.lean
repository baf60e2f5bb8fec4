import IPv4Media.CleanExit

/-! A bucket's mutex whose holder never moves again: a thread that ended with it, or one
that alrm_handle interrupted inside its locked section. The next handler that comes to
the bucket stays there for ever, and so does daemon_exit when it waits for that handler.
An alrm_handle that daemon_exit has interrupted never moves again either. -/
namespace IPv4Media.LockLeak
open TokenBucket TimerModule TimerThreads AlarmLocks Execution Locking Cancellation CleanExit

variable {threads : List Nat} {s u : Server} {t : Nat}

structure Sound (s : State) : Prop where
  settled : Settled s
  agreed : Agreed s

theorem soundBurial (sound : Sound s.base) (quiet : s.base.handler t = none) (burial : Burial s t u) :
    Sound u.base := by
  cases burial with
  | outside idle => exact sound
  | waiting address size free stands =>
    have before : Call s.base.mod (.fetchTest address size) ∧ held (s.base.pc t) = [] := by
      have call := sound.settled.calls t
      rcases stands with asleep | woken
      · rw [asleep] at call ⊢
        exact ⟨call,rfl⟩
      · rw [woken] at call ⊢
        exact ⟨call,rfl⟩
    have still : (took s.base t (.bucket address) (.fetchTest address size)).handler t = none := quiet
    refine ⟨⟨sound.settled.known,fun v => ?_,sound.settled.handlers⟩,?_⟩
    · by_cases mine : v = t
      · rw [mine]
        exact (congrArg (Call s.base.mod) (updateSame _ _ _)).mpr before.1
      · exact (congrArg (Call s.base.mod) (updateOther _ _ mine)).mpr (sound.settled.calls v)
    · refine disciplinedStep (t := t) sound.agreed ?_ ?_
      · rw [heldQuiet quiet,before.2]
        refine .took (Lock.bucket address) free ?_
        simp only [ended]
        rw [heldQuiet still,tookPc]
        rfl
      · intro v other
        exact congrArg (handlerHeld (s.base.handler v) ++ held ·) (updateOther _ _ other)

theorem soundNext {e : Cancellation.Event} (sound : Sound s.base) (step : Cancellation.next threads s e = some u) :
    Sound u.base := by
  cases deedSound step with
  | base e v served alive top move => exact ⟨settledMove sound.settled served move,agreedMove sound.agreed move⟩
  | terminate t u alive quiet burial => exact soundBurial sound quiet burial
  | _ => exact sound

def Before (m : Module) (p : Nat) : Option Handler → Prop
  | none => False
  | some .lockJob => True
  | some (.loop i) => i ≤ p
  | some (.lockBucket i address) => i ≤ p ∧ m.job i = some address
  | some (.unlockBucket i _) => i < p

/- x, which never moves again, holds the bucket of slot p, and the handler on t has yet
to come to it. -/
structure Leaked (x t address p : Nat) (s : Server) : Prop where
  sound : Sound s.base
  kept : .bucket address ∈ held (s.base.pc x)
  still : x = t ∨ s.dead x = true
  slot : s.base.mod.job p = some address
  inside : p < mytbfMax
  before : Before s.base.mod p (s.base.handler t)

theorem leakedHandle {x address p : Nat} {h : Handler} {v : State} (leaked : Leaked x t address p s)
    (running : s.base.handler t = some h) (step : HandlerStep s.base t h v) : Before v.mod p (v.handler t) := by
  have before := leaked.before
  rw [running] at before
  have owner : s.base.holder (.bucket address) = some x :=
    (leaked.sound.agreed.agree _ x).mpr (List.mem_append_right _ leaked.kept)
  cases step with
  | lockJob free => simp [Before]
  | skip i inside empty =>
    have other : i ≠ p := by
      rintro rfl
      rw [leaked.slot] at empty
      contradiction
    have before : i ≤ p := before
    simpa [Before] using by omega
  | slot i place inside registered => simpa [Before] using ⟨before,registered⟩
  | done i past =>
    have before : i ≤ p := before
    have inside := leaked.inside
    omega
  | credit i place b c free live added =>
    have other : i ≠ p := by
      rintro rfl
      cases Option.some.inj (leaked.slot.symm.trans before.2)
      rw [owner] at free
      contradiction
    have early := before.1
    simpa [Before] using by omega
  | unlockBucket i place =>
    have before : i < p := before
    simpa [Before] using by omega

theorem interruptedMove {v w : State} {e : TimerThreads.Event} (served : serving e = true)
    (busy : v.handler (actor e) ≠ none) (move : Move v e w) :
    ∃ h, v.handler (actor e) = some h ∧ HandlerStep v (actor e) h w := by
  cases move with
  | initNull t env cps burst m loaded => cases served
  | init t env cps burst m idle params loaded => cases served
  | destroy t address idle live => cases served
  | fetch t address size idle live wanted => exact absurd (freeSound idle).2 busy
  | giveBack t address size b live idle positive small => exact absurd (freeSound idle).2 busy
  | check t address idle live => exact absurd (freeSound idle).2 busy
  | wake t address size asleep quiet => exact absurd quiet busy
  | step t u quiet made => exact absurd quiet busy
  | alarm t quiet => exact absurd quiet busy
  | handle t h u running made => exact ⟨h,running,made⟩

theorem beforeKept {m n : Module} {p : Nat} {h : Option Handler} (same : n.job = m.job) (before : Before m p h) :
    Before n p h := by
  cases h with
  | none => exact before
  | some h =>
    cases h with
    | lockBucket i address => exact ⟨before.1,by rw [same]; exact before.2⟩
    | _ => exact before

theorem leakedMove {x address p : Nat} {e : TimerThreads.Event} {v : State} (leaked : Leaked x t address p s)
    (served : serving e = true) (alive : s.dead (actor e) = false) (move : Move s.base e v) :
    Leaked x t address p { s with base := v } := by
  have job := (spentKept (moveSpent leaked.sound.settled served move).1).job
  have own : v.pc t = s.base.pc t ∧ Before v.mod p (v.handler t) := by
    by_cases mine : actor e = t
    · have busy : s.base.handler (actor e) ≠ none := by
        intro quiet
        have before := leaked.before
        rw [← mine,quiet] at before
        exact before
      obtain ⟨h,running,made⟩ := interruptedMove served busy move
      rw [mine] at running made
      exact ⟨by rw [(handlerFrame made).1],leakedHandle leaked running made⟩
    · obtain ⟨calls,handlers⟩ := moveFrame move (Ne.symm mine)
      exact ⟨calls,by rw [handlers]; exact beforeKept job leaked.before⟩
  have kept : v.pc x = s.base.pc x := by
    rcases leaked.still with same | gone
    · rw [same]
      exact own.1
    · refine (moveFrame move ?_).1
      rintro rfl
      rw [alive] at gone
      contradiction
  have sound : Sound v := ⟨settledMove leaked.sound.settled served move,agreedMove leaked.sound.agreed move⟩
  refine ⟨sound,?_,leaked.still,?_,leaked.inside,own.2⟩
  · rw [kept]
    exact leaked.kept
  · rw [job]
    exact leaked.slot

theorem leakedBusy {x address p : Nat} (leaked : Leaked x t address p s) : s.base.handler t ≠ none := by
  intro quiet
  have before := leaked.before
  rw [quiet] at before
  exact before

theorem burialFrame {v : Nat} (burial : Burial s v u) :
    u.base.mod = s.base.mod ∧ u.base.handler = s.base.handler ∧ ∀ x, x ≠ v → u.base.pc x = s.base.pc x := by
  cases burial with
  | outside idle => exact ⟨rfl,rfl,fun _ _ => rfl⟩
  | waiting address size free stands => exact ⟨rfl,rfl,fun _ other => updateOther _ _ other⟩

theorem leakedBurial {x address p v : Nat} (leaked : Leaked x t address p s) (alive : s.dead v = false)
    (quiet : s.base.handler v = none) (burial : Burial s v u) : Leaked x t address p u := by
  have sound := soundBurial leaked.sound quiet burial
  obtain ⟨mod,handlers,calls⟩ := burialFrame burial
  have other : x ≠ v := by
    rintro rfl
    rcases leaked.still with same | gone
    · subst same
      exact leakedBusy leaked quiet
    · rw [alive] at gone
      contradiction
  have dead : u.dead x = s.dead x := by
    cases burial with
    | outside idle => exact updateOther _ _ other
    | waiting address size free stands => exact updateOther _ _ other
  refine ⟨sound,?_,by rw [dead]; exact leaked.still,by rw [mod]; exact leaked.slot,leaked.inside,?_⟩
  · rw [calls x other]
    exact leaked.kept
  · rw [mod,handlers]
    exact leaked.before

theorem leakedNext {x address p : Nat} {e : Cancellation.Event} (leaked : Leaked x t address p s)
    (step : Cancellation.next threads s e = some u) : Leaked x t address p u := by
  have ⟨sound,kept,still,slot,inside,before⟩ := leaked
  cases deedSound step with
  | base e v served alive top move => exact leakedMove leaked served alive move
  | terminate v u alive quiet burial => exact leakedBurial leaked alive quiet burial
  | _ => exact ⟨sound,kept,still,slot,inside,before⟩

theorem leakedStuck {x address p : Nat} (leaked : Leaked x t address p s) :
    ¬ CanReach (Cancellation.next threads) (fun u => u.base.handler t = none) s :=
  neverReach leaked (fun _ _ _ leaked step => leakedNext leaked step) (fun _ leaked => leakedBusy leaked)

structure Awaits (s : Server) : Prop where
  begun : s.exit ≠ .running
  under : s.nested = false
  here : s.exit ≠ .exited

theorem leakedMain {x address p : Nat} (leaked : Leaked x main address p s) (awaits : Awaits s) :
    ¬ CanReach (Cancellation.next threads) (fun u => u.exit = .exited) s := by
  refine neverReach (I := fun u => Leaked x main address p u ∧ Awaits u) ⟨leaked,awaits⟩ ?_
    (fun _ stuck => stuck.2.here)
  rintro v e w ⟨leaked,begun,under,here⟩ step
  refine ⟨leakedNext leaked step,?_⟩
  have busy : ¬ (v.base.handler main = none ∨ v.nested = true) := by
    rintro (quiet | nested)
    · exact leakedBusy leaked quiet
    · rw [under] at nested
      contradiction
  cases deedSound step with
  | base e v served alive top move => exact ⟨begun,under,here⟩
  | cancel t => exact ⟨begun,under,here⟩
  | terminate t u alive quiet burial => cases burial <;> exact ⟨begun,under,here⟩
  | daemonExit running => exact absurd running begun
  | finish last turn => exact absurd turn busy
  | ask t rest first turn => exact absurd turn busy
  | joined t rest waits gone turn => exact absurd turn busy

theorem nestedNext {h : Handler} {e : Cancellation.Event} (nested : s.nested = true)
    (under : s.base.handler main = some h) (step : Cancellation.next threads s e = some u) :
    u.nested = true ∧ u.base.handler main = some h := by
  cases deedSound step with
  | base e v served alive top move => exact ⟨nested,((moveFrame move (Ne.symm (top nested))).2).trans under⟩
  | terminate t u alive quiet burial =>
    refine ⟨?_,by rw [(burialFrame burial).2.1]; exact under⟩
    cases burial <;> exact nested
  | daemonExit running => exact ⟨Option.isSome_iff_exists.mpr ⟨h,under⟩,under⟩
  | _ => exact ⟨nested,under⟩

theorem nestedStuck {h : Handler} (nested : s.nested = true) (under : s.base.handler main = some h) :
    ¬ CanReach (Cancellation.next threads) (fun u => u.base.handler main = none) s := by
  refine neverReach (I := fun u => u.nested = true ∧ u.base.handler main = some h) ⟨nested,under⟩ ?_ ?_
  · intro v e w still step
    exact nestedNext still.1 still.2 step
  · intro v still quiet
    rw [still.2] at quiet
    contradiction

/- daemon_exit joins a thread that stands before the mutex of the handler under it. -/
structure Crossed (t address i : Nat) (size : Int) (rest : List Nat) (s : Server) : Prop where
  sound : Sound s.base
  nested : s.nested = true
  under : s.base.handler main = some (.unlockBucket i address)
  before : s.base.pc t = .fetchLock address size
  alive : s.dead t = false
  waits : s.exit = .join t rest

theorem crossedCall {address i : Nat} {size : Int} {rest : List Nat} {e : TimerThreads.Event} {v : State}
    (crossed : Crossed t address i size rest s) (served : serving e = true) (move : Move s.base e v) :
    v.pc t = .fetchLock address size := by
  have before := crossed.before
  by_cases mine : t = actor e
  · subst mine
    cases move with
    | initNull t env cps burst m loaded => cases served
    | init t env cps burst m idle params loaded => cases served
    | destroy t address idle live => cases served
    | fetch t place wanted idle live positive => cases before.symm.trans (freeSound idle).1
    | giveBack t place wanted b live idle positive small => cases before.symm.trans (freeSound idle).1
    | check t place idle live => cases before.symm.trans (freeSound idle).1
    | wake t place wanted asleep quiet => cases before.symm.trans asleep
    | step t v quiet made =>
      simp only [actor] at before
      rw [before] at made
      cases made with
      | fetchLock _ _ free =>
        have owner : s.base.holder (.bucket address) = some main := by
          refine (crossed.sound.agreed.agree _ main).mpr ?_
          rw [allHeld,crossed.under]
          exact List.mem_cons_self
        rw [owner] at free
        contradiction
    | alarm t quiet => exact before
    | handle t h v running made =>
      rw [(handlerFrame made).1]
      exact before
  · rw [(moveFrame move mine).1]
    exact before

theorem crossedNext {address i : Nat} {size : Int} {rest : List Nat} {e : Cancellation.Event}
    (crossed : Crossed t address i size rest s) (step : Cancellation.next threads s e = some u) :
    Crossed t address i size rest u := by
  have sound := soundNext crossed.sound step
  have ⟨nested,under⟩ := nestedNext crossed.nested crossed.under step
  have ⟨_,_,_,before,alive,waits⟩ := crossed
  cases deedSound step with
  | base e v served live top move => exact ⟨sound,nested,under,crossedCall crossed served move,alive,waits⟩
  | cancel v => exact ⟨sound,nested,under,before,alive,waits⟩
  | terminate v u live quiet burial =>
    have other : t ≠ v := by
      rintro rfl
      cases burial with
      | outside idle => cases before.symm.trans idle
      | waiting place wanted free stands => rcases stands with asleep | woken <;> simp_all
    refine ⟨sound,nested,under,((burialFrame burial).2.2 t other).trans before,?_,?_⟩
    · cases burial <;> exact (updateOther _ _ other).trans alive
    · cases burial <;> exact waits
  | daemonExit running => cases running.symm.trans waits
  | finish last turn => cases last.symm.trans waits
  | ask v others first turn => cases first.symm.trans waits
  | joined v others now gone turn =>
    cases now.symm.trans waits
    rw [alive] at gone
    contradiction

theorem crossedStuck {address i : Nat} {size : Int} {rest : List Nat} (crossed : Crossed t address i size rest s) :
    ¬ CanReach (Cancellation.next threads) (fun u => u.exit = .exited) s := by
  refine neverReach crossed (fun _ _ _ crossed step => crossedNext crossed step) fun _ crossed ended => ?_
  cases crossed.waits.symm.trans ended

theorem waitHarms (burial : Burial s t u) (inside : s.base.pc t ≠ .outside) : ¬ Unharmed threads u := by
  intro unharmed
  cases burial with
  | outside idle => exact inside idle
  | waiting address size free stands =>
    exact unharmed.released t (.bucket address) (updateSame _ _ _) (Function.update_self _ _ _)

theorem heldLive {m : Module} {pc : Pc} (call : Call m pc) (holds : held pc ≠ []) :
    ∃ address b, .bucket address ∈ held pc ∧ m.bucket address = some b := by
  have found : ∀ address, held pc = [.bucket address] → (m.bucket address).isSome = true →
      ∃ address b, .bucket address ∈ held pc ∧ m.bucket address = some b := by
    intro address only some_
    obtain ⟨b,live⟩ := Option.isSome_iff_exists.mp some_
    exact ⟨address,b,by rw [only]; exact List.mem_cons_self,live⟩
  cases pc with
  | fetchTest address size => exact found address rfl call.1
  | fetchUnlock address => exact found address rfl call
  | returnUnlock address => exact found address rfl call
  | checkUnlock address => exact found address rfl call
  | initUnlock => exact call.elim
  | destroyUnlock address => exact call.elim
  | _ => exact absurd rfl holds

theorem alarmHarms {v : State} (healthy : Healthy s.dead s.base) (move : Move s.base (.alarm t) v)
    (holds : held (s.base.pc t) ≠ []) : ¬ Unharmed threads { s with base := v } := by
  intro unharmed
  have settled := settledMove healthy.settled rfl move
  have agreed := agreedMove healthy.calm.agreed move
  obtain ⟨address,b,has,live⟩ := heldLive (healthy.settled.calls t) holds
  obtain ⟨slot,inside⟩ := healthy.settled.known.table.own address b live
  cases move with
  | alarm t quiet =>
    have leaked : Leaked t t address b.pos { s with base := interrupt s.base t (some .lockJob) } := by
      refine ⟨⟨settled,agreed⟩,has,.inl rfl,slot,inside,?_⟩
      rw [interruptHandler]
      exact True.intro
    exact leakedStuck leaked (unharmed.ticks t)

theorem considerateNeeded {e : Cancellation.Event} (healthy : Healthy s.dead s.base)
    (step : Cancellation.next threads s e = some u) (unharmed : Unharmed threads u) : Considerate s e u := by
  cases deedSound step with
  | base e v served alive top move =>
    refine ⟨fun t now => (by cases now),fun t now => ?_,fun now => by cases now⟩
    cases now
    by_contra holds
    exact alarmHarms healthy move holds unharmed
  | terminate t u alive quiet burial =>
    refine ⟨fun v now => ?_,fun v now => (by cases now),fun now => by cases now⟩
    cases now
    by_contra inside
    exact waitHarms burial inside unharmed
  | daemonExit running =>
    refine ⟨fun t now => (by cases now),fun t now => (by cases now),fun _ => ?_⟩
    by_contra busy
    obtain ⟨h,under⟩ := Option.ne_none_iff_exists'.mp busy
    have nested : (s.base.handler main).isSome = true := Option.isSome_iff_exists.mpr ⟨h,under⟩
    exact absurd (unharmed.ticks main) (nestedStuck nested under)
  | _ => exact ⟨fun t now => (by cases now),fun t now => (by cases now),fun now => by cases now⟩

theorem cancellation {envs : List InitEnv} {mod : Module} {events : List Cancellation.Event} {s : Server}
    (scan : scanned envs = some mod) (run : exec (Cancellation.next threads) (Cancellation.start mod) events = some s) :
    Unharmed threads (Cancellation.start mod) ∧
    (Along (Cancellation.next threads) (fun _ _ u => Unharmed threads u) (Cancellation.start mod) events ↔
      Along (Cancellation.next threads) Considerate (Cancellation.start mod) events) := by
  have healthy := healthyStart scan
  have joining : Joining (Cancellation.start mod) := fun v rest waits => by cases waits
  refine ⟨healthyUnharmed healthy rfl joining,?_⟩
  refine alongIff (I := fun s => Healthy s.dead s.base ∧ Joining s ∧ s.nested = false)
    ⟨healthy,joining,rfl⟩ ?_ ?_ run
  · intro s e u known step
    constructor
    · exact considerateNeeded known.1 step
    · intro considerate
      exact healthyUnharmed (healthyNext known.1 considerate step) (topNext known.2.2 considerate step)
        (joiningNext known.2.1 step)
  · intro s e u known considerate step
    exact ⟨healthyNext known.1 considerate step,joiningNext known.2.1 step,topNext known.2.2 considerate step⟩

def considerateNow (s : Server) : Cancellation.Event → Bool
  | .terminate t => s.base.pc t == .outside
  | .base (.alarm t) => held (s.base.pc t) == []
  | .daemonExit => s.base.handler main == none
  | _ => true

theorem considerateSound (s : Server) (e : Cancellation.Event) (u : Server) (now : considerateNow s e = true) :
    Considerate s e u := by
  constructor
  · rintro t rfl
    simpa [considerateNow] using now
  · rintro t rfl
    simpa [considerateNow] using now
  · rintro rfl
    simpa [considerateNow] using now

def oneChannel : Module := (scanned [⟨true,true,true⟩]).get (by decide +kernel)

theorem oneScanned : scanned [⟨true,true,true⟩] = some oneChannel := (Option.some_get _).symm

/- The thread sleeps on its empty bucket, a tick feeds the bucket, and the thread is
cancelled but ends only after its fetch. -/
def wokenExit : List Cancellation.Event :=
  [.base (.fetch 1 0 100),.base (.step 1),.base (.step 1),.daemonExit,.exitStep,.base (.alarm 2),.base (.handle 2),
    .base (.handle 2),.base (.handle 2),.base (.handle 2),.base (.wake 1),.base (.step 1),.base (.step 1),
    .base (.step 1),.terminate 1,.exitStep,.exitStep]

theorem wokenUnharmed : ∃ s, exec (Cancellation.next [1]) (Cancellation.start oneChannel) wokenExit = some s ∧
    s.exit = .exited ∧
    Along (Cancellation.next [1]) (fun _ _ u => Unharmed [1] u) (Cancellation.start oneChannel) wokenExit := by
  have considerate : Along (Cancellation.next [1]) Considerate (Cancellation.start oneChannel) wokenExit :=
    alongChecked considerateSound (by decide +kernel)
  have seen : (exec (Cancellation.next [1]) (Cancellation.start oneChannel) wokenExit).map (fun s => s.exit) =
      some .exited := by decide +kernel
  obtain ⟨s,run,same⟩ := Option.map_eq_some_iff.mp seen
  exact ⟨s,run,same,(cancellation oneScanned run).2.mpr considerate⟩

/- daemon_exit cancels the thread in its wait; the next tick comes to main. -/
def waitingExit : List Cancellation.Event :=
  [.base (.fetch 1 0 100),.base (.step 1),.base (.step 1),.daemonExit,.exitStep,.terminate 1,.base (.alarm 0),
    .base (.handle 0),.base (.handle 0)]

theorem soundRun {events : List Cancellation.Event} {s : Server}
    (run : exec (Cancellation.next threads) (Cancellation.start oneChannel) events = some s) : Sound s.base := by
  have healthy := healthyStart oneScanned
  exact invariant (I := fun s => Sound s.base) ⟨healthy.settled,healthy.calm.agreed⟩
    (fun _ _ _ sound step => soundNext sound step) run

theorem waitingSeen : ∃ s, exec (Cancellation.next [1]) (Cancellation.start oneChannel) waitingExit = some s ∧
    s.dead 1 = true ∧ s.base.holder (.bucket 0) = some 1 ∧ Leaked 1 main 0 0 s ∧ Awaits s := by
  have seen : (exec (Cancellation.next [1]) (Cancellation.start oneChannel) waitingExit).map (fun s =>
      ((s.dead 1,s.base.holder (.bucket 0),s.base.pc 1),(s.base.mod.job 0,s.base.handler main,s.exit,s.nested))) =
      some ((true,some 1,.fetchTest 0 100),(some 0,some (.lockBucket 0 0),.join 1 [],false)) := by decide +kernel
  obtain ⟨s,run,same⟩ := Option.map_eq_some_iff.mp seen
  simp only [Prod.mk.injEq] at same
  obtain ⟨⟨gone,owner,inside⟩,slot,stands,waits,under⟩ := same
  have awaits : Awaits s := ⟨by rw [waits]; simp,under,by rw [waits]; simp⟩
  refine ⟨s,run,gone,owner,⟨soundRun run,?_,.inr gone,slot,by decide,?_⟩,awaits⟩
  · rw [inside]
    exact List.mem_cons_self
  · rw [stands]
    exact ⟨Nat.le_refl 0,slot⟩

/- daemon_exit interrupts an alrm_handle that holds the mutex the thread stands before. -/
def nestedExit : List Cancellation.Event :=
  [.base (.fetch 1 0 100),.base (.alarm 0),.base (.handle 0),.base (.handle 0),.base (.handle 0),.daemonExit,.exitStep]

theorem nestedSeen : ∃ s, exec (Cancellation.next [1]) (Cancellation.start oneChannel) nestedExit = some s ∧
    Crossed 1 0 0 100 [] s := by
  have seen : (exec (Cancellation.next [1]) (Cancellation.start oneChannel) nestedExit).map (fun s =>
      ((s.nested,s.base.handler main),(s.base.pc 1,s.dead 1,s.exit))) =
      some ((true,some (.unlockBucket 0 0)),(.fetchLock 0 100,false,.join 1 [])) := by decide +kernel
  obtain ⟨s,run,same⟩ := Option.map_eq_some_iff.mp seen
  simp only [Prod.mk.injEq] at same
  obtain ⟨⟨nested,under⟩,before,alive,waits⟩ := same
  exact ⟨s,run,soundRun run,nested,under,before,alive,waits⟩

theorem waiterLeaks :
    (∃ s, exec (Cancellation.next [1]) (Cancellation.start oneChannel) waitingExit = some s ∧
      s.dead 1 = true ∧ s.base.holder (.bucket 0) = some 1 ∧
      ¬ CanReach (Cancellation.next [1]) (fun u => u.base.handler main = none) s ∧
      ¬ CanReach (Cancellation.next [1]) (fun u => u.exit = .exited) s ∧ ¬ Unharmed [1] s) ∧
    (∃ s, exec (Cancellation.next [1]) (Cancellation.start oneChannel) nestedExit = some s ∧
      ¬ CanReach (Cancellation.next [1]) (fun u => u.base.handler main = none) s ∧
      ¬ CanReach (Cancellation.next [1]) (fun u => u.exit = .exited) s ∧ ¬ Unharmed [1] s) := by
  constructor
  · obtain ⟨s,run,gone,owner,leaked,awaits⟩ := waitingSeen
    refine ⟨s,run,gone,owner,leakedStuck leaked,leakedMain leaked awaits,?_⟩
    exact fun unharmed => unharmed.released 1 (.bucket 0) gone owner
  · obtain ⟨s,run,crossed⟩ := nestedSeen
    refine ⟨s,run,nestedStuck crossed.nested crossed.under,crossedStuck crossed,?_⟩
    exact fun unharmed => crossedStuck crossed unharmed.exits

end IPv4Media.LockLeak
