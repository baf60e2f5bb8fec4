import IPv4Media.AlarmLocks

/-! After alrm_handle has come to wait for a mutex of the thread it runs on (AlarmLocks):
mut_job stays locked, so the alarms of all later ticks wait for it on their own threads,
and no channel gets another token from a tick. -/
namespace IPv4Media.AlarmStuck
open TokenBucket TimerModule TimerThreads AlarmLocks Execution Locking

structure Blocked (s : State) (t : Nat) (l : Lock) : Prop where
  wants : handlerWants (s.handler t) = some l
  owner : s.holder l = some t

theorem blockedHandler {s u : State} {t : Nat} {l : Lock} {h : Handler} (blocked : Blocked s t l)
    (running : s.handler t = some h) (made : HandlerStep s t h u) : False := by
  obtain ⟨wants,owner⟩ := blocked
  rw [running] at wants
  cases made with
  | lockJob free =>
    cases wants
    rw [free] at owner
    contradiction
  | credit i address b c free live added =>
    cases wants
    rw [free] at owner
    contradiction
  | skip i inside empty => contradiction
  | slot i address inside registered => contradiction
  | done i past => contradiction
  | unlockBucket i address => contradiction

theorem blockedStays {s u : State} {e : Event} {t : Nat} {l : Lock} (blocked : Blocked s t l) (move : Move s e u) :
    u.pc t = s.pc t ∧ u.handler t = s.handler t := by
  have running : s.handler t ≠ none := by
    intro quiet
    have wants := blocked.wants
    rw [quiet] at wants
    contradiction
  have others : ∀ v, s.handler v = none → t ≠ v := by
    intro v quiet same
    rw [same] at running
    exact running quiet
  cases move with
  | initNull v env cps burst m loaded => exact ⟨rfl,rfl⟩
  | init v env cps burst m idle params loaded => exact ⟨updateOther _ _ (others v (freeSound idle).2),rfl⟩
  | fetch v address size idle live wanted => exact ⟨updateOther _ _ (others v (freeSound idle).2),rfl⟩
  | giveBack v address size b live idle positive small => exact ⟨updateOther _ _ (others v (freeSound idle).2),rfl⟩
  | check v address idle live => exact ⟨updateOther _ _ (others v (freeSound idle).2),rfl⟩
  | destroy v address idle live => exact ⟨updateOther _ _ (others v (freeSound idle).2),rfl⟩
  | wake v address size asleep quiet => exact ⟨updateOther _ _ (others v quiet),rfl⟩
  | step v u quiet made =>
    obtain ⟨handlers,calls⟩ := stepFrame made
    exact ⟨calls t (others v quiet),congrFun handlers t⟩
  | alarm v quiet => exact ⟨rfl,updateOther _ _ (others v quiet)⟩
  | handle v h u runs made =>
    obtain ⟨calls,handlers⟩ := handlerFrame made
    refine ⟨congrFun calls t,handlers t ?_⟩
    intro here
    subst here
    exact blockedHandler blocked runs made

theorem blockedMove {s u : State} {e : Event} {t : Nat} {l : Lock} (agreed : Agreed s) (blocked : Blocked s t l)
    (move : Move s e u) : Blocked u t l := by
  obtain ⟨call,handler⟩ := blockedStays blocked move
  have has : l ∈ allHeld u t := by
    rw [allHeld,call,handler]
    exact (agreed.agree l t).mp blocked.owner
  exact ⟨by rw [handler]; exact blocked.wants,((agreedMove agreed move).agree l t).mpr has⟩

theorem jobHeld {s : State} {t : Nat} {l : Lock} (agreed : Agreed s) (blocked : Blocked s t l) :
    s.holder .job = some t := by
  obtain ⟨wants,owner⟩ := blocked
  cases running : s.handler t with
  | none =>
    rw [running] at wants
    contradiction
  | some h =>
    rw [running] at wants
    cases h with
    | lockJob =>
      cases wants
      exact owner
    | lockBucket i address => exact (agreed.agree .job t).mpr (by simp [allHeld,running,handlerHeld])
    | loop i => contradiction
    | unlockBucket i address => contradiction

theorem tableKept {s u : State} {e : Event} {t : Nat} (job : s.holder .job = some t) (move : Move s e u) :
    u.mod.job = s.mod.job := by
  cases move with
  | initNull v env cps burst m loaded => exact loaded.job
  | init v env cps burst m idle params loaded => exact loaded.job
  | step v u quiet made =>
    generalize s.pc v = pc at made
    cases made with
    | initPlace cps burst pos free found => simp [free] at job
    | destroyClear address b live free => simp [free] at job
    | _ => rfl
  | handle v h u runs made => cases made <;> rfl
  | _ => rfl

theorem handlersWait {s u : State} {e : Event} {t : Nat} {l : Lock} (agreed : Agreed s) (blocked : Blocked s t l)
    (move : Move s e u) (v : Nat) : e ≠ .handle v := by
  intro same
  subst same
  have job := jobHeld agreed blocked
  cases move with
  | handle _ h _ runs made =>
    have mine : h = .lockJob ∨ v = t := by
      cases h with
      | lockJob => exact .inl rfl
      | _ =>
        have has : Lock.job ∈ allHeld s v := by simp [allHeld,runs,handlerHeld]
        exact .inr (oneHolder agreed.agree has ((agreed.agree .job t).mp job))
    rcases mine with first | here
    · subst first
      cases made with
      | lockJob free => simp [free] at job
    · subst here
      exact blockedHandler blocked runs made

theorem agreedRun {events : List Event} {s : State} (run : exec next start events = some s) : Agreed s :=
  invariant (agreedStarted unloaded) (fun _ _ _ agreed step => agreedMove agreed (moveSound step)) run

/- The two never come loose: mut_job stays with the thread, no bucket is registered or taken
out, and no handler makes another step, neither this one nor that of any later tick. -/
theorem alarmStuck {events more : List Event} {s u : State} {t : Nat} {l : Lock}
    (run : exec next start events = some s) (blocked : Blocked s t l) (later : exec next s more = some u) :
    Blocked u t l ∧ u.holder .job = some t ∧ u.mod.job = s.mod.job ∧ ∀ v, Event.handle v ∉ more := by
  have kept : Agreed u ∧ Blocked u t l ∧ u.mod.job = s.mod.job ∧ ∀ v, Event.handle v ∉ more := by
    refine history (I := fun more u => Agreed u ∧ Blocked u t l ∧ u.mod.job = s.mod.job ∧ ∀ v, Event.handle v ∉ more)
      ⟨agreedRun run,blocked,rfl,by simp⟩ ?_ later
    intro more w e x before step
    obtain ⟨agreed,there,table,none_⟩ := before
    have move := moveSound step
    refine ⟨agreedMove agreed move,blockedMove agreed there move,?_,?_⟩
    · exact (tableKept (jobHeld agreed there) move).trans table
    · intro v member
      rcases List.mem_append.mp member with old | new
      · exact none_ v old
      · exact handlersWait agreed there move v (List.mem_singleton.mp new).symm
  exact ⟨kept.2.1,jobHeld kept.1 kept.2.1,kept.2.2⟩

theorem checkedStuck : ∃ s u, exec next start checkedAlarm = some s ∧ exec next s [.alarm 2,.fetch 3 0 5] = some u ∧
    Blocked u 1 (.bucket 0) ∧ u.holder .job = some 1 := by
  have seen : (exec next start (checkedAlarm ++ [.alarm 2,.fetch 3 0 5])).isSome = true := by decide +kernel
  obtain ⟨u,whole⟩ := Option.isSome_iff_exists.mp seen
  obtain ⟨s,run,later⟩ := execSplit whole
  have stands : (exec next start checkedAlarm).map (fun s => (s.handler 1,s.holder (.bucket 0))) =
      some (some (.lockBucket 0 0),some 1) := by decide +kernel
  rw [run] at stands
  obtain ⟨wants,owner⟩ := Prod.mk.inj (Option.some.inj stands)
  have blocked : Blocked s 1 (.bucket 0) := ⟨by rw [wants]; rfl,owner⟩
  obtain ⟨still,job,_⟩ := alarmStuck run blocked later
  exact ⟨s,u,run,later,still,job⟩

end IPv4Media.AlarmStuck
