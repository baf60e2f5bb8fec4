import IPv4Media.TimerThreads

/-! alrm_handle takes mut_job and every bucket's mut on whatever thread SIGALRM found.
A thread that holds one of them when the alarm comes cannot release it before the
handler returns, and the handler waits for it. -/
namespace IPv4Media.AlarmLocks
open TokenBucket TimerModule TimerThreads Execution Locking

def Agreed (s : State) : Prop := Disciplined s.holder (allHeld s)

/- The alarm finds a thread that holds none of the mutexes. -/
def Spared (s : State) (e : Event) (_ : State) : Prop := ∀ t, e = .alarm t → held (s.pc t) = []

structure Calm (s : State) : Prop where
  agreed : Agreed s
  quiet : ∀ t, s.handler t ≠ none → held (s.pc t) = []

@[simp] theorem gotoPc (s : State) (t : Nat) (pc : Pc) : (goto s t pc).pc t = pc := updateSame _ _ _
@[simp] theorem tookPc (s : State) (t : Nat) (l : Lock) (pc : Pc) : (took s t l pc).pc t = pc := updateSame _ _ _
@[simp] theorem unlockPc (s : State) (t : Nat) (l : Lock) (pc : Pc) : (unlock s t l pc).pc t = pc := updateSame _ _ _
@[simp] theorem gotoHandler (s : State) (t : Nat) (pc : Pc) : (goto s t pc).handler = s.handler := rfl
@[simp] theorem tookHandler (s : State) (t : Nat) (l : Lock) (pc : Pc) : (took s t l pc).handler = s.handler := rfl
@[simp] theorem unlockHandler (s : State) (t : Nat) (l : Lock) (pc : Pc) : (unlock s t l pc).handler = s.handler := rfl
@[simp] theorem putPc (s : State) (address : Nat) (b : Mytbf) : (putBucket s address b).pc = s.pc := rfl
@[simp] theorem putHandler (s : State) (address : Nat) (b : Mytbf) : (putBucket s address b).handler = s.handler := rfl
@[simp] theorem interruptHandler (s : State) (t : Nat) (h : Option Handler) : (interrupt s t h).handler t = h :=
  updateSame _ _ _
@[simp] theorem handlerTookHandler (s : State) (t : Nat) (l : Lock) (h : Handler) :
    (handlerTook s t l h).handler t = some h := updateSame _ _ _
@[simp] theorem handlerUnlockHandler (s : State) (t : Nat) (l : Lock) (h : Option Handler) :
    (handlerUnlock s t l h).handler t = h := updateSame _ _ _
@[simp] theorem interruptPc (s : State) (t : Nat) (h : Option Handler) : (interrupt s t h).pc = s.pc := rfl
@[simp] theorem handlerTookPc (s : State) (t : Nat) (l : Lock) (h : Handler) : (handlerTook s t l h).pc = s.pc := rfl
@[simp] theorem handlerUnlockPc (s : State) (t : Nat) (l : Lock) (h : Option Handler) :
    (handlerUnlock s t l h).pc = s.pc := rfl

theorem stepLocks {s u : State} {t : Nat} {pc : Pc} (step : Step s t pc u) :
    LockStep s.holder t (held pc) (held (u.pc t)) u.holder := by
  cases step with
  | initPlace cps burst pos free found => exact .took Lock.job free (by simp [held])
  | initUnlock => exact .gave Lock.job (by simp [held])
  | fetchLock address size free => exact .took (Lock.bucket address) free (by simp [held])
  | fetchSleep address size b live empty => exact .gave (Lock.bucket address) (by simp [held])
  | fetchTake address size n b c live got => exact .stay (by simp [held])
  | fetchWoken address size free => exact .took (Lock.bucket address) free (by simp [held])
  | fetchUnlock address => exact .gave (Lock.bucket address) (by simp [held])
  | returnAdd address size b c live added free => exact .took (Lock.bucket address) free (by simp [held])
  | returnUnlock address => exact .gave (Lock.bucket address) (by simp [held])
  | checkLock address free => exact .took (Lock.bucket address) free (by simp [held])
  | checkUnlock address => exact .gave (Lock.bucket address) (by simp [held])
  | destroyClear address b live free => exact .took Lock.job free (by simp [held])
  | destroyUnlock address => exact .gave Lock.job (by simp [held])
  | destroyFree address => exact .stay (by simp [held])

theorem handlerLocks {s u : State} {t : Nat} {h : Handler} (step : HandlerStep s t h u) :
    LockStep s.holder t (handlerHeld (some h)) (handlerHeld (u.handler t)) u.holder := by
  cases step with
  | lockJob free => exact .took Lock.job free (by simp [handlerHeld])
  | skip i inside empty => exact .stay (by simp [handlerHeld])
  | slot i address inside registered => exact .stay (by simp [handlerHeld])
  | done i past => exact .gave Lock.job (by simp [handlerHeld])
  | credit i address b c free live added => exact .took (Lock.bucket address) free (by simp [handlerHeld])
  | unlockBucket i address => exact .gave (Lock.bucket address) (by simp [handlerHeld])

theorem stepFrame {s u : State} {t : Nat} {pc : Pc} (step : Step s t pc u) :
    u.handler = s.handler ∧ ∀ v, v ≠ t → u.pc v = s.pc v := by
  cases step <;> exact ⟨rfl,fun v other => updateOther _ _ other⟩

theorem handlerFrame {s u : State} {t : Nat} {h : Handler} (step : HandlerStep s t h u) :
    u.pc = s.pc ∧ ∀ v, v ≠ t → u.handler v = s.handler v := by
  cases step <;> exact ⟨rfl,fun v other => updateOther _ _ other⟩

theorem heldQuiet {s : State} {t : Nat} (quiet : s.handler t = none) : allHeld s t = held (s.pc t) := by
  rw [allHeld,quiet]
  rfl

theorem heldInterrupted {s : State} {t : Nat} (nothing : held (s.pc t) = []) :
    allHeld s t = handlerHeld (s.handler t) := by
  rw [allHeld,nothing,List.append_nil]

theorem heldGoto {s : State} {t : Nat} {pc : Pc} (nothing : held (s.pc t) = []) (still : held pc = []) (v : Nat) :
    held ((goto s t pc).pc v) = held (s.pc v) := by
  by_cases mine : v = t
  · subst mine
    simp [nothing,still]
  · exact congrArg held (updateOther _ _ mine)

theorem agreedGoto {s : State} {t : Nat} {pc : Pc} {m : Module} (agreed : Agreed s) (nothing : held (s.pc t) = [])
    (still : held pc = []) : Agreed { goto s t pc with mod := m } :=
  disciplinedStay agreed fun v => congrArg (handlerHeld (s.handler v) ++ ·) (heldGoto nothing still v)

theorem agreedMove {s u : State} {e : Event} (agreed : Agreed s) (move : Move s e u) : Agreed u := by
  cases move with
  | initNull t env cps burst m loaded => exact agreed
  | init t env cps burst m idle params loaded => exact agreedGoto agreed (by rw [(freeSound idle).1]; rfl) rfl
  | fetch t address size idle live wanted => exact agreedGoto agreed (by rw [(freeSound idle).1]; rfl) rfl
  | giveBack t address size b live idle positive small => exact agreedGoto agreed (by rw [(freeSound idle).1]; rfl) rfl
  | check t address idle live => exact agreedGoto agreed (by rw [(freeSound idle).1]; rfl) rfl
  | destroy t address idle live => exact agreedGoto agreed (by rw [(freeSound idle).1]; rfl) rfl
  | wake t address size asleep quiet => exact agreedGoto agreed (by rw [asleep]; rfl) rfl
  | step t u quiet made =>
    obtain ⟨handlers,others⟩ := stepFrame made
    have still : u.handler t = none := by rw [handlers,quiet]
    refine disciplinedStep (t := t) agreed ?_ ?_
    · rw [heldQuiet quiet,heldQuiet still]
      exact stepLocks made
    · intro v other
      rw [allHeld,allHeld,handlers,others v other]
  | handle t h u running made =>
    obtain ⟨calls,others⟩ := handlerFrame made
    refine disciplinedStep (t := t) agreed ?_ ?_
    · rw [allHeld,allHeld,running,calls]
      exact lockStepAbove (handlerLocks made) _
    · intro v other
      rw [allHeld,allHeld,calls,others v other]
  | alarm t quiet =>
    refine disciplinedStay agreed fun v => ?_
    by_cases mine : v = t
    · subst mine
      simp [allHeld,quiet,handlerHeld]
    · rw [allHeld,allHeld]
      simp only [interrupt,updateOther _ _ mine]

theorem quietGoto {s : State} {t : Nat} {pc : Pc} (calm : Calm s) (nothing : held (s.pc t) = [])
    (still : held pc = []) (v : Nat) (interrupted : s.handler v ≠ none) : held ((goto s t pc).pc v) = [] := by
  rw [heldGoto nothing still]
  exact calm.quiet v interrupted

theorem calmMove {s u : State} {e : Event} (calm : Calm s) (spared : Spared s e u) (move : Move s e u) : Calm u := by
  refine ⟨agreedMove calm.agreed move,?_⟩
  cases move with
  | initNull t env cps burst m loaded => exact calm.quiet
  | init t env cps burst m idle params loaded => exact quietGoto calm (by rw [(freeSound idle).1]; rfl) rfl
  | fetch t address size idle live wanted => exact quietGoto calm (by rw [(freeSound idle).1]; rfl) rfl
  | giveBack t address size b live idle positive small => exact quietGoto calm (by rw [(freeSound idle).1]; rfl) rfl
  | check t address idle live => exact quietGoto calm (by rw [(freeSound idle).1]; rfl) rfl
  | destroy t address idle live => exact quietGoto calm (by rw [(freeSound idle).1]; rfl) rfl
  | wake t address size asleep quiet => exact quietGoto calm (by rw [asleep]; rfl) rfl
  | step t u quiet made =>
    intro v interrupted
    obtain ⟨handlers,others⟩ := stepFrame made
    rw [handlers] at interrupted
    have other : v ≠ t := by
      rintro rfl
      exact interrupted quiet
    rw [others v other]
    exact calm.quiet v interrupted
  | handle t h u running made =>
    intro v interrupted
    obtain ⟨calls,others⟩ := handlerFrame made
    rw [calls]
    by_cases mine : v = t
    · subst mine
      exact calm.quiet v (by rw [running]; simp)
    · rw [others v mine] at interrupted
      exact calm.quiet v interrupted
  | alarm t quiet =>
    intro v interrupted
    by_cases mine : v = t
    · rw [mine]
      exact spared t rfl
    · simp only [interrupt,updateOther _ _ mine] at interrupted
      exact calm.quiet v interrupted

theorem agreedStarted (mod : Module) : Agreed (started mod) :=
  ⟨fun l t => by simp [started,allHeld,handlerHeld,held],fun _ => List.nodup_nil⟩

theorem calmStarted (mod : Module) : Calm (started mod) :=
  ⟨agreedStarted mod,fun _ interrupted => absurd rfl interrupted⟩

/- A handler waits for a mutex of the thread it runs on, and neither can go on. -/
def SelfBlocked (s : State) : Prop := ∃ t l, handlerWants (s.handler t) = some l ∧ s.holder l = some t

theorem calmRuns {s : State} (calm : Calm s) : ¬ SelfBlocked s := by
  rintro ⟨t,l,stands,owner⟩
  have has : l ∈ allHeld s t := (calm.agreed.agree l t).mp owner
  cases running : s.handler t with
  | none =>
    rw [running] at stands
    contradiction
  | some h =>
    rw [heldInterrupted (calm.quiet t (by rw [running]; simp)),running] at has
    rw [running] at stands
    cases h with
    | lockJob => simp [handlerHeld] at has
    | lockBucket i address =>
      cases stands
      simp [handlerHeld] at has
    | loop i => contradiction
    | unlockBucket i address => contradiction

theorem calmRun {events : List Event} {s u : State} (calm : Calm s) (run : exec next s events = some u)
    (spared : Along next Spared s events) : Calm u := by
  refine invariantAlong (P := Spared) calm ?_ run spared
  intro s e u calm spared step
  exact calmMove calm spared (moveSound step)

theorem alarmLocks {events : List Event} {s : State} (run : exec next start events = some s)
    (spared : Along next Spared start events) : ¬ SelfBlocked s :=
  calmRuns (calmRun (calmStarted unloaded) run spared)

def sparedNow (s : State) : Event → Bool
  | .alarm t => held (s.pc t) == []
  | _ => true

theorem sparedSound (s : State) (e : Event) (u : State) (now : sparedNow s e = true) : Spared s e u := by
  rintro t rfl
  simpa [sparedNow] using now

def sparedAlarm : List Event :=
  [.init 0 ⟨true,true,true⟩ 40960 204800,.step 0,.step 0,.check 1 0,.step 1,.alarm 2,.handle 2,.handle 2]

theorem checkSpared : ∃ s, exec next start sparedAlarm = some s ∧ ¬ SelfBlocked s ∧
    s.handler 2 = some (.lockBucket 0 0) ∧ s.holder (.bucket 0) = some 1 := by
  have spared : Along next Spared start sparedAlarm := alongChecked sparedSound (by decide +kernel)
  have seen : (exec next start sparedAlarm).map (fun s => (s.handler 2,s.holder (.bucket 0))) =
      some (some (.lockBucket 0 0),some 1) := by decide +kernel
  obtain ⟨s,run,same⟩ := Option.map_eq_some_iff.mp seen
  obtain ⟨stands,owner⟩ := Prod.mk.inj same
  exact ⟨s,run,alarmLocks run spared,stands,owner⟩

/- The alarm finds the thread inside mytbf_checktoken. -/
def checkedAlarm : List Event :=
  [.init 0 ⟨true,true,true⟩ 40960 204800,.step 0,.step 0,.check 1 0,.step 1,.alarm 1,.handle 1,.handle 1]

theorem checkBlocks : ∃ s, exec next start checkedAlarm = some s ∧ SelfBlocked s := by
  have seen : (exec next start checkedAlarm).map (fun s => (s.handler 1,s.holder (.bucket 0))) =
      some (some (.lockBucket 0 0),some 1) := by decide +kernel
  obtain ⟨s,run,same⟩ := Option.map_eq_some_iff.mp seen
  obtain ⟨stands,owner⟩ := Prod.mk.inj same
  exact ⟨s,run,1,.bucket 0,by rw [stands]; rfl,owner⟩

end IPv4Media.AlarmLocks
