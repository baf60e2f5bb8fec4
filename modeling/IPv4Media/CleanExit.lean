import IPv4Media.Cancellation

/-! What the threads can still do from a healthy state: every alrm_handle can return,
every call can, and daemon_exit can come to its end. -/
namespace IPv4Media.CleanExit
open TokenBucket TimerModule TimerThreads AlarmLocks Execution Locking Cancellation

variable {dead : Nat → Bool} {s u w : State} {t y : Nat}

/- No call begins, and SIGALRM comes only to threads outside the locked sections. -/
def undisturbed (s : State) : TimerThreads.Event → Bool
  | .wake _ => true
  | .step _ => true
  | .alarm t => held (s.pc t) == []
  | .handle _ => true
  | _ => false

def restNext (dead : Nat → Bool) (s : State) (e : TimerThreads.Event) : Option State :=
  if undisturbed s e then liveNext dead s e else none

theorem restSound {e : TimerThreads.Event} (step : restNext dead s e = some u) :
    undisturbed s e = true ∧ liveNext dead s e = some u := by
  unfold restNext at step
  split at step <;> try contradiction
  rename_i quiet
  exact ⟨quiet,step⟩

theorem undisturbedSpared {e : TimerThreads.Event} (quiet : undisturbed s e = true) : Spared s e u := by
  rintro t rfl
  exact beq_iff_eq.mp quiet

theorem restHealthy {e : TimerThreads.Event} (healthy : Healthy dead s) (step : restNext dead s e = some u) :
    Healthy dead u := by
  obtain ⟨quiet,live⟩ := restSound step
  obtain ⟨served,alive,move⟩ := liveSound live
  exact healthyMove healthy (undisturbedSpared quiet) served alive move

theorem aliveRunning (healthy : Healthy dead s) {h : Handler} (running : s.handler t = some h) : dead t = false := by
  by_contra buried
  rw [Bool.not_eq_false] at buried
  rw [(healthy.buried t buried).2] at running
  contradiction

theorem aliveInside (healthy : Healthy dead s) (inside : s.pc t ≠ .outside) : dead t = false := by
  by_contra buried
  rw [Bool.not_eq_false] at buried
  exact inside (healthy.buried t buried).1

theorem goStep (healthy : Healthy dead s) (alive : dead t = false) (quiet : s.handler t = none)
    (made : advance s t (s.pc t) = some u) : restNext dead s (.step t) = some u ∧ Healthy dead u := by
  have step : restNext dead s (.step t) = some u := by
    simp [restNext,undisturbed,liveNext,serving,actor,alive,TimerThreads.next,quiet,made]
  exact ⟨step,restHealthy healthy step⟩

theorem goHandle (healthy : Healthy dead s) {h : Handler} (running : s.handler y = some h)
    (made : handle s y h = some u) : restNext dead s (.handle y) = some u ∧ Healthy dead u := by
  have alive := aliveRunning healthy running
  have step : restNext dead s (.handle y) = some u := by
    simp [restNext,undisturbed,liveNext,serving,actor,alive,TimerThreads.next,running,made]
  exact ⟨step,restHealthy healthy step⟩

/- The call y has interrupted stands still, and so does every other thread that holds
nothing. -/
structure Aside (y : Nat) (s u : State) : Prop where
  call : u.pc y = s.pc y
  idle : ∀ v, v ≠ y → allHeld s v = [] → u.pc v = s.pc v ∧ u.handler v = s.handler v

theorem asideTrans (first : Aside y s u) (second : Aside y u w) : Aside y s w := by
  refine ⟨second.call.trans first.call,fun v other nothing => ?_⟩
  obtain ⟨pc,handler⟩ := first.idle v other nothing
  have still : allHeld u v = [] := by rw [allHeld,pc,handler]; exact nothing
  obtain ⟨pc',handler'⟩ := second.idle v other still
  exact ⟨pc'.trans pc,handler'.trans handler⟩

theorem asideStep {x : Nat} {pc : Pc} (step : Step s x pc u) (other : y ≠ x) (holds : allHeld s x ≠ []) :
    Aside y s u := by
  obtain ⟨handlers,calls⟩ := stepFrame step
  refine ⟨calls y other,fun v _ nothing => ?_⟩
  have apart : v ≠ x := by
    rintro rfl
    exact holds nothing
  exact ⟨calls v apart,by rw [handlers]⟩

theorem asideHandle {h : Handler} (step : HandlerStep s y h u) : Aside y s u := by
  obtain ⟨calls,handlers⟩ := handlerFrame step
  exact ⟨by rw [calls],fun v other _ => ⟨by rw [calls],handlers v other⟩⟩

theorem asideWaiting {x : Nat} (aside : Aside y s u) (holds : allHeld s y ≠ []) (other : x ≠ y)
    (nothing : allHeld s x = []) : Aside x s u := by
  refine ⟨(aside.idle x other nothing).1,fun v _ still => aside.idle v ?_ still⟩
  rintro rfl
  exact holds still

structure Only (address : Nat) (s u : State) : Prop where
  job : u.mod.job = s.mod.job
  bucket : ∀ other, other ≠ address → u.mod.bucket other = s.mod.bucket other
  holder : ∀ other, other ≠ address → u.holder (.bucket other) = s.holder (.bucket other)

theorem onlyTrans {address : Nat} (first : Only address s u) (second : Only address u w) : Only address s w :=
  ⟨second.job.trans first.job,
    fun other apart => (second.bucket other apart).trans (first.bucket other apart),
    fun other apart => (second.holder other apart).trans (first.holder other apart)⟩

def Fed (s : State) (address : Nat) : Prop :=
  s.holder (.bucket address) = none ∧ ∃ b, s.mod.bucket address = some b ∧ 1 ≤ b.token

def Served (k i : Nat) (s : State) : Prop := ∀ j address, k ≤ j → j < i → s.mod.job j = some address → Fed s address

theorem slotsApart {m : Module} (table : Table m) {i j address other : Nat} (here : m.job i = some address)
    (there : m.job j = some other) (apart : j ≠ i) : other ≠ address := by
  rintro rfl
  obtain ⟨b,live,pos⟩ := table.slot i other here
  obtain ⟨c,live',pos'⟩ := table.slot j other there
  cases Option.some.inj (live.symm.trans live')
  exact apart (pos'.symm.trans pos)

theorem servedOnly {k i address : Nat} (table : Table s.mod) (slot : s.mod.job i = some address) (served : Served k i s)
    (only : Only address s u) : Served k i u := by
  intro j other from_ below here
  rw [only.job] at here
  have apart : other ≠ address := slotsApart table slot here (by omega)
  obtain ⟨free,filled⟩ := served j other from_ below here
  refine ⟨?_,?_⟩
  · rw [only.holder other apart]
    exact free
  · rw [only.bucket other apart]
    exact filled

structure Freed (dead : Nat → Bool) (y address : Nat) (s u : State) : Prop where
  healthy : Healthy dead u
  free : u.holder (.bucket address) = none
  only : Only address s u
  aside : Aside y s u
  stands : u.handler y = s.handler y

theorem freedThen {address : Nat} (only : Only address s u) (aside : Aside y s u) (stands : u.handler y = s.handler y)
    (freed : Freed dead y address u w) : Freed dead y address s w :=
  ⟨freed.healthy,freed.free,onlyTrans only freed.only,asideTrans aside freed.aside,freed.stands.trans stands⟩

theorem onlyUnlock (s : State) (t address : Nat) (pc : Pc) : Only address s (unlock s t (.bucket address) pc) := by
  refine ⟨rfl,fun _ _ => rfl,fun other apart => ?_⟩
  exact Function.update_of_ne (by simpa using apart) _ _

theorem unlockFrees {x address : Nat} (pc : Pc) (healthy : Healthy dead s) (quiet : s.handler x = none)
    (other : y ≠ x) (has : .bucket address ∈ held (s.pc x))
    (made : advance s x (s.pc x) = some (unlock s x (.bucket address) pc)) :
    CanReach (restNext dead) (Freed dead y address s) s := by
  have inside : s.pc x ≠ .outside := by
    intro out
    rw [out] at has
    exact absurd has List.not_mem_nil
  have holds : allHeld s x ≠ [] := List.ne_nil_of_mem (List.mem_append_right _ has)
  obtain ⟨step,after⟩ := goStep healthy (aliveInside healthy inside) quiet made
  refine reachStep step (reachNow ⟨after,Function.update_self _ _ _,onlyUnlock s x address pc,?_,rfl⟩)
  exact asideStep (advanceSound made) other holds

theorem takeFrees {x address : Nat} {size : Int} (healthy : Healthy dead s) (quiet : s.handler x = none)
    (other : y ≠ x) (inside : s.pc x = .fetchTest address size) :
    CanReach (restNext dead) (Freed dead y address s) s := by
  have call := healthy.settled.calls x
  rw [inside] at call
  obtain ⟨b,live⟩ := Option.isSome_iff_exists.mp call.1
  have has : .bucket address ∈ held (s.pc x) := by rw [inside]; exact List.mem_cons_self
  cases got : fetchtoken b size with
  | none =>
    refine unlockFrees (.fetchWait address size) healthy quiet other has ?_
    rw [inside]
    simp [advance,live,got]
  | some taken =>
    obtain ⟨n,c⟩ := taken
    have made : advance s x (s.pc x) = some (putBucket (goto s x (.fetchUnlock address)) address c) := by
      rw [inside]
      simp [advance,live,got]
    have holds : allHeld s x ≠ [] := List.ne_nil_of_mem (List.mem_append_right _ has)
    obtain ⟨step,after⟩ := goStep healthy (aliveInside healthy (by rw [inside]; simp)) quiet made
    have now : (putBucket (goto s x (.fetchUnlock address)) address c).pc x = .fetchUnlock address := by simp
    have freed := unlockFrees (y := y) .outside after quiet other (by rw [now]; exact List.mem_cons_self)
      (by rw [now]; rfl)
    have only : Only address s (putBucket (goto s x (.fetchUnlock address)) address c) :=
      ⟨rfl,fun _ apart => updateOther _ _ apart,fun _ _ => rfl⟩
    have aside : Aside y s (putBucket (goto s x (.fetchUnlock address)) address c) :=
      asideStep (advanceSound made) other holds
    exact reachStep step (reachThen freed fun w later => reachNow (freedThen only aside rfl later))

theorem releaseBucket {i address : Nat} (healthy : Healthy dead s)
    (running : s.handler y = some (.lockBucket i address)) :
    CanReach (restNext dead) (Freed dead y address s) s := by
  cases owner : s.holder (.bucket address) with
  | none => exact reachNow ⟨healthy,owner,⟨rfl,fun _ _ => rfl,fun _ _ => rfl⟩,⟨rfl,fun _ _ _ => ⟨rfl,rfl⟩⟩,rfl⟩
  | some x =>
    have agree := healthy.calm.agreed.agree
    have nothing : held (s.pc y) = [] := healthy.calm.quiet y (by rw [running]; simp)
    have job : Lock.job ∈ allHeld s y := by
      rw [heldInterrupted nothing,running]
      exact List.mem_cons_self
    have has : .bucket address ∈ allHeld s x := (agree _ x).mp owner
    have other : y ≠ x := by
      rintro rfl
      rw [heldInterrupted nothing,running] at has
      simp [handlerHeld] at has
    have quiet : s.handler x = none := by
      cases working : s.handler x with
      | none => rfl
      | some h =>
        rw [heldInterrupted (healthy.calm.quiet x (by rw [working]; simp)),working] at has
        have theirs : Lock.job ∈ allHeld s x := by
          rw [heldInterrupted (healthy.calm.quiet x (by rw [working]; simp)),working]
          cases h <;> simp_all [handlerHeld]
        exact absurd (oneHolder agree job theirs) other
    rw [heldQuiet quiet] at has
    cases inside : s.pc x with
    | fetchTest place size =>
      rw [inside] at has
      cases List.mem_singleton.mp has
      exact takeFrees healthy quiet other inside
    | fetchUnlock place =>
      rw [inside] at has
      cases List.mem_singleton.mp has
      exact unlockFrees .outside healthy quiet other (by rw [inside]; exact has) (by rw [inside]; rfl)
    | returnUnlock place =>
      rw [inside] at has
      cases List.mem_singleton.mp has
      exact unlockFrees .outside healthy quiet other (by rw [inside]; exact has) (by rw [inside]; rfl)
    | checkUnlock place =>
      rw [inside] at has
      cases List.mem_singleton.mp has
      exact unlockFrees .outside healthy quiet other (by rw [inside]; exact has) (by rw [inside]; rfl)
    | _ =>
      rw [inside] at has
      simp [held] at has

structure Passed (dead : Nat → Bool) (y k i : Nat) (s u : State) : Prop where
  healthy : Healthy dead u
  loop : u.handler y = some (.loop i)
  served : Served k i u
  aside : Aside y s u

theorem feedBucket {k i address : Nat} (healthy : Healthy dead s) (running : s.handler y = some (.lockBucket i address))
    (free : s.holder (.bucket address) = none) (served : Served k i s) :
    CanReach (restNext dead) (Passed dead y k (i+1) s) s := by
  have walk := healthy.settled.handlers y
  rw [running] at walk
  obtain ⟨b,live,_⟩ := healthy.settled.known.table.slot i address walk.2
  obtain ⟨balanced,rate⟩ := healthy.settled.known.buckets address b live
  obtain ⟨c,added,_⟩ := creditSpec balanced
  have locked : handle s y (.lockBucket i address) =
      some (putBucket (handlerTook s y (.bucket address) (.unlockBucket i address)) address c) := by
    simp [handle,free,live,added]
  obtain ⟨step,middle⟩ := goHandle healthy running locked
  have stands : (putBucket (handlerTook s y (.bucket address) (.unlockBucket i address)) address c).handler y =
      some (.unlockBucket i address) := by simp
  obtain ⟨last,after⟩ := goHandle middle stands rfl
  refine reachStep step (reachStep last (reachNow ⟨after,by simp,?_,?_⟩))
  · have only : Only address s (handlerUnlock (putBucket (handlerTook s y (.bucket address) (.unlockBucket i address))
        address c) y (.bucket address) (some (.loop (i+1)))) := by
      refine ⟨rfl,fun _ apart => updateOther _ _ apart,fun other apart => ?_⟩
      have different : Lock.bucket other ≠ Lock.bucket address := by simpa using apart
      exact (Function.update_of_ne different _ _).trans (Function.update_of_ne different _ _)
    intro j other from_ below here
    rw [only.job] at here
    by_cases now : j = i
    · subst now
      cases Option.some.inj (walk.2.symm.trans here)
      exact ⟨Function.update_self _ _ _,c,updateSame _ _ _,creditPositive balanced rate added⟩
    · have kept := servedOnly healthy.settled.known.table walk.2 served only
      exact kept j other from_ (by omega) (by rw [only.job]; exact here)
  · exact asideTrans (asideHandle (handleSound locked)) (asideHandle (.unlockBucket i address))

theorem bucketServed {k i address : Nat} (healthy : Healthy dead s)
    (running : s.handler y = some (.lockBucket i address)) (served : Served k i s) :
    CanReach (restNext dead) (Passed dead y k (i+1) s) s := by
  have walk := healthy.settled.handlers y
  rw [running] at walk
  refine reachThen (releaseBucket healthy running) fun u freed => ?_
  have kept := servedOnly healthy.settled.known.table walk.2 served freed.only
  refine reachThen (feedBucket freed.healthy (freed.stands.trans running) freed.free kept) fun w passed => ?_
  exact reachNow ⟨passed.healthy,passed.loop,passed.served,asideTrans freed.aside passed.aside⟩

structure Returned (dead : Nat → Bool) (y k : Nat) (s u : State) : Prop where
  healthy : Healthy dead u
  quiet : u.handler y = none
  free : u.holder .job = none
  served : Served k mytbfMax u
  aside : Aside y s u

theorem returnedThen {k : Nat} (aside : Aside y s u) (returned : Returned dead y k u w) : Returned dead y k s w :=
  ⟨returned.healthy,returned.quiet,returned.free,returned.served,asideTrans aside returned.aside⟩

/- The induction is on the slots the handler has yet to pass. -/
theorem walkEnds {k i : Nat} (healthy : Healthy dead s) (running : s.handler y = some (.loop i))
    (served : Served k i s) : CanReach (restNext dead) (Returned dead y k s) s := by
  induction left : mytbfMax - i generalizing i s with
  | zero =>
    have past : ¬ i < mytbfMax := by omega
    have made : handle s y (.loop i) = some (handlerUnlock s y .job none) := by simp [handle,past]
    obtain ⟨step,after⟩ := goHandle healthy running made
    refine reachStep step (reachNow ⟨after,by simp,by simp [handlerUnlock],?_,asideHandle (handleSound made)⟩)
    intro j address from_ below here
    obtain ⟨free,filled⟩ := served j address from_ (by omega) here
    exact ⟨by simpa [handlerUnlock] using free,filled⟩
  | succ n ih =>
    have inside : i < mytbfMax := by omega
    cases slot : s.mod.job i with
    | none =>
      have made : handle s y (.loop i) = some (interrupt s y (some (.loop (i+1)))) := by simp [handle,inside,slot]
      obtain ⟨step,after⟩ := goHandle healthy running made
      have later : Served k (i+1) (interrupt s y (some (.loop (i+1)))) := by
        intro j address from_ below here
        refine served j address from_ ?_ here
        have other : j ≠ i := by
          rintro rfl
          rw [show s.mod.job j = some address from here] at slot
          contradiction
        omega
      refine reachStep step (reachThen (ih after (by simp) later (by omega)) fun w returned => ?_)
      exact reachNow (returnedThen (asideHandle (handleSound made)) returned)
    | some address =>
      have made : handle s y (.loop i) = some (interrupt s y (some (.lockBucket i address))) := by
        simp [handle,inside,slot]
      obtain ⟨step,after⟩ := goHandle healthy running made
      have aside := asideHandle (handleSound made)
      refine reachStep step (reachThen (bucketServed after (interruptHandler s y _) served) fun u passed => ?_)
      refine reachThen (ih passed.healthy passed.loop passed.served (by omega)) fun w returned => ?_
      exact reachNow (returnedThen (asideTrans aside passed.aside) returned)

theorem walkerEnds (healthy : Healthy dead s) {h : Handler} (running : s.handler y = some h) (begun : h ≠ .lockJob) :
    ∃ k, CanReach (restNext dead) (Returned dead y k s) s := by
  have none_ : ∀ i v, Served i i v := fun i v j address from_ below here => by omega
  cases h with
  | lockJob => contradiction
  | loop i => exact ⟨i,walkEnds healthy running (none_ i s)⟩
  | lockBucket i address =>
    refine ⟨i,reachThen (bucketServed healthy running (none_ i s)) fun u passed => ?_⟩
    refine reachThen (walkEnds passed.healthy passed.loop passed.served) fun w returned => ?_
    exact reachNow (returnedThen passed.aside returned)
  | unlockBucket i address =>
    have made : handle s y (.unlockBucket i address) =
        some (handlerUnlock s y (.bucket address) (some (.loop (i+1)))) := rfl
    obtain ⟨step,after⟩ := goHandle healthy running made
    have ends := walkEnds after (handlerUnlockHandler _ _ _ _) (none_ (i+1) _)
    refine ⟨i+1,reachStep step (reachThen ends fun w returned => ?_)⟩
    exact reachNow (returnedThen (asideHandle (handleSound made)) returned)

/- Only a handler holds mut_job, for nothing is registered or destroyed any more. -/
theorem jobWalker (healthy : Healthy dead s) (owner : s.holder .job = some y) :
    ∃ h, s.handler y = some h ∧ h ≠ .lockJob := by
  have has := (healthy.calm.agreed.agree .job y).mp owner
  rcases List.mem_append.mp has with handler | call
  · cases working : s.handler y with
    | none =>
      rw [working] at handler
      exact absurd handler List.not_mem_nil
    | some h =>
      refine ⟨h,rfl,?_⟩
      rintro rfl
      rw [working] at handler
      exact absurd handler List.not_mem_nil
  · have inside := healthy.settled.calls y
    cases at_ : s.pc y <;> rw [at_] at call inside <;> simp_all [held,Call]

theorem tickEnds (healthy : Healthy dead s) (running : s.handler y = some .lockJob) :
    CanReach (restNext dead) (Returned dead y 0 s) s := by
  have first : ∀ {v}, Healthy dead v → v.handler y = some .lockJob → v.holder .job = none →
      CanReach (restNext dead) (Returned dead y 0 v) v := by
    intro v healthy running free
    have made : handle v y .lockJob = some (handlerTook v y .job (.loop 0)) := by simp [handle,free]
    obtain ⟨step,after⟩ := goHandle healthy running made
    have none_ : Served 0 0 (handlerTook v y .job (.loop 0)) := fun j address from_ below here => by omega
    refine reachStep step (reachThen (walkEnds after (handlerTookHandler _ _ _ _) none_) fun w returned => ?_)
    exact reachNow (returnedThen (asideHandle (handleSound made)) returned)
  cases owner : s.holder .job with
  | none => exact first healthy running owner
  | some x =>
    obtain ⟨h,working,begun⟩ := jobWalker healthy owner
    have other : y ≠ x := by
      rintro rfl
      exact begun (Option.some.inj (working.symm.trans running))
    have holds : allHeld s x ≠ [] := List.ne_nil_of_mem ((healthy.calm.agreed.agree .job x).mp owner)
    have nothing : allHeld s y = [] := by
      rw [heldInterrupted (healthy.calm.quiet y (by rw [running]; simp)),running]
      rfl
    obtain ⟨k,ends⟩ := walkerEnds healthy working begun
    refine reachThen ends fun u returned => ?_
    have stands := (returned.aside.idle y other nothing).2.trans running
    refine reachThen (first returned.healthy stands returned.free) fun w again => ?_
    exact reachNow (returnedThen (asideWaiting returned.aside holds other nothing) again)

theorem handlerEnds (healthy : Healthy dead s) (t : Nat) :
    CanReach (restNext dead) (fun u => Healthy dead u ∧ u.handler t = none) s := by
  cases running : s.handler t with
  | none => exact reachNow ⟨healthy,running⟩
  | some h =>
    by_cases begun : h = .lockJob
    · subst begun
      exact reachThen (tickEnds healthy running) fun u returned => reachNow ⟨returned.healthy,returned.quiet⟩
    · obtain ⟨k,ends⟩ := walkerEnds healthy running begun
      exact reachThen ends fun u returned => reachNow ⟨returned.healthy,returned.quiet⟩

structure Refilled (dead : Nat → Bool) (t : Nat) (pc : Pc) (u : State) : Prop where
  healthy : Healthy dead u
  quiet : u.handler t = none
  call : u.pc t = pc
  fed : ∀ address b, u.mod.bucket address = some b → Fed u address

theorem refill (healthy : Healthy dead s) (alive : dead t = false) (quiet : s.handler t = none)
    (nothing : held (s.pc t) = []) : CanReach (restNext dead) (Refilled dead t (s.pc t)) s := by
  have step : restNext dead s (.alarm t) = some (interrupt s t (some .lockJob)) := by
    simp [restNext,undisturbed,nothing,liveNext,serving,actor,alive,TimerThreads.next,quiet]
  have after := restHealthy healthy step
  refine reachStep step (reachThen (tickEnds after (interruptHandler _ _ _)) fun u returned => reachNow ?_)
  refine ⟨returned.healthy,returned.quiet,returned.aside.call,fun address b live => ?_⟩
  obtain ⟨slot,inside⟩ := returned.healthy.settled.known.table.own address b live
  exact returned.served b.pos address (Nat.zero_le _) inside slot

theorem refilledCall {pc : Pc} (refilled : Refilled dead t pc u) : Call u.mod pc := by
  have call := refilled.healthy.settled.calls t
  rw [refilled.call] at call
  exact call

theorem refilledFed {pc : Pc} {address : Nat} (refilled : Refilled dead t pc u)
    (live : (u.mod.bucket address).isSome = true) : Fed u address := by
  obtain ⟨b,found⟩ := Option.isSome_iff_exists.mp live
  exact refilled.fed address b found

structure Idle (dead : Nat → Bool) (t : Nat) (u : State) : Prop where
  healthy : Healthy dead u
  outside : u.pc t = .outside
  quiet : u.handler t = none

theorem unlockEnds {l : Lock} (healthy : Healthy dead s) (alive : dead t = false) (quiet : s.handler t = none)
    (made : advance s t (s.pc t) = some (unlock s t l .outside)) : CanReach (restNext dead) (Idle dead t) s := by
  obtain ⟨step,after⟩ := goStep healthy alive quiet made
  exact reachStep step (reachNow ⟨after,unlockPc _ _ _ _,quiet⟩)

theorem takeEnds {address : Nat} {size : Int} {b : Mytbf} (healthy : Healthy dead s) (alive : dead t = false)
    (quiet : s.handler t = none) (inside : s.pc t = .fetchTest address size) (live : s.mod.bucket address = some b)
    (filled : 1 ≤ b.token) : CanReach (restNext dead) (Idle dead t) s := by
  have some_ : ¬ b.token ≤ 0 := by omega
  cases got : fetchtoken b size with
  | none => simp [fetchtoken,some_] at got
  | some taken =>
    obtain ⟨n,c⟩ := taken
    have made : advance s t (s.pc t) = some (putBucket (goto s t (.fetchUnlock address)) address c) := by
      rw [inside]
      simp [advance,live,got]
    obtain ⟨step,after⟩ := goStep healthy alive quiet made
    refine reachStep step (unlockEnds (l := .bucket address) after alive quiet ?_)
    simp only [putPc,gotoPc]
    rfl

theorem fetchEnds {address : Nat} {size : Int} (healthy : Healthy dead s) (alive : dead t = false)
    (quiet : s.handler t = none) (fed : Fed s address)
    (stands : s.pc t = .fetchLock address size ∨ s.pc t = .fetchWoken address size) :
    CanReach (restNext dead) (Idle dead t) s := by
  obtain ⟨free,b,live,filled⟩ := fed
  have made : advance s t (s.pc t) = some (took s t (.bucket address) (.fetchTest address size)) := by
    rcases stands with asks | woken
    · rw [asks]
      exact if_pos free
    · rw [woken]
      exact if_pos free
  obtain ⟨step,after⟩ := goStep healthy alive quiet made
  exact reachStep step (takeEnds after alive quiet (tookPc _ _ _ _) live filled)

theorem sleeperEnds {address : Nat} {size : Int} (healthy : Healthy dead s) (alive : dead t = false)
    (quiet : s.handler t = none) (asleep : s.pc t = .fetchWait address size) :
    CanReach (restNext dead) (Idle dead t) s := by
  have fed := refill healthy alive quiet (by rw [asleep]; rfl)
  rw [asleep] at fed
  refine reachThen fed fun u refilled => ?_
  have step : restNext dead u (.wake t) = some (goto u t (.fetchWoken address size)) := by
    simp [restNext,undisturbed,liveNext,serving,actor,alive,TimerThreads.next,refilled.call,refilled.quiet]
  have after := restHealthy refilled.healthy step
  have filled := refilledFed refilled (refilledCall refilled).1
  exact reachStep step (fetchEnds after alive refilled.quiet filled (.inr (gotoPc _ _ _)))

theorem testEnds {address : Nat} {size : Int} (healthy : Healthy dead s) (alive : dead t = false)
    (quiet : s.handler t = none) (inside : s.pc t = .fetchTest address size) :
    CanReach (restNext dead) (Idle dead t) s := by
  have call := healthy.settled.calls t
  rw [inside] at call
  obtain ⟨b,live⟩ := Option.isSome_iff_exists.mp call.1
  by_cases filled : 1 ≤ b.token
  · exact takeEnds healthy alive quiet inside live filled
  · have empty : fetchtoken b size = none := if_pos (by omega)
    have made : advance s t (s.pc t) = some (unlock s t (.bucket address) (.fetchWait address size)) := by
      rw [inside]
      simp [advance,live,empty]
    obtain ⟨step,after⟩ := goStep healthy alive quiet made
    exact reachStep step (sleeperEnds after alive quiet (unlockPc _ _ _ _))

/- Every call can end: one that waits has the buckets fed first. -/
theorem callEnds (healthy : Healthy dead s) (quiet : s.handler t = none) :
    CanReach (restNext dead) (Idle dead t) s := by
  by_cases out : s.pc t = .outside
  · exact reachNow ⟨healthy,out,quiet⟩
  have alive := aliveInside healthy out
  have call := healthy.settled.calls t
  cases inside : s.pc t with
  | outside => exact absurd inside out
  | fetchTest address size => exact testEnds healthy alive quiet inside
  | fetchWait address size => exact sleeperEnds healthy alive quiet inside
  | fetchUnlock address => exact unlockEnds (l := .bucket address) healthy alive quiet (by rw [inside]; rfl)
  | returnUnlock address => exact unlockEnds (l := .bucket address) healthy alive quiet (by rw [inside]; rfl)
  | checkUnlock address => exact unlockEnds (l := .bucket address) healthy alive quiet (by rw [inside]; rfl)
  | fetchLock address size =>
    have fed := refill healthy alive quiet (by rw [inside]; rfl)
    rw [inside] at fed
    refine reachThen fed fun u refilled => ?_
    have filled := refilledFed refilled (refilledCall refilled).1
    exact fetchEnds refilled.healthy alive refilled.quiet filled (.inl refilled.call)
  | fetchWoken address size =>
    have fed := refill healthy alive quiet (by rw [inside]; rfl)
    rw [inside] at fed
    refine reachThen fed fun u refilled => ?_
    have filled := refilledFed refilled (refilledCall refilled).1
    exact fetchEnds refilled.healthy alive refilled.quiet filled (.inr refilled.call)
  | returnLock address size =>
    have fed := refill healthy alive quiet (by rw [inside]; rfl)
    rw [inside] at fed
    refine reachThen fed fun u refilled => ?_
    obtain ⟨b,live,positive,small⟩ := refilledCall refilled
    obtain ⟨c,added,_⟩ := returnSpec (refilled.healthy.settled.known.buckets address b live).1 positive small
    have free := (refilled.fed address b live).1
    have made : advance u t (u.pc t) =
        some (putBucket (took u t (.bucket address) (.returnUnlock address)) address c) := by
      rw [refilled.call]
      simp [advance,live,added,lock,free]
    obtain ⟨step,after⟩ := goStep refilled.healthy alive refilled.quiet made
    refine reachStep step (unlockEnds (l := .bucket address) after alive refilled.quiet ?_)
    simp only [putPc,tookPc]
    rfl
  | checkLock address =>
    have fed := refill healthy alive quiet (by rw [inside]; rfl)
    rw [inside] at fed
    refine reachThen fed fun u refilled => ?_
    have free := (refilledFed refilled (refilledCall refilled)).1
    have made : advance u t (u.pc t) = some (took u t (.bucket address) (.checkUnlock address)) := by
      rw [refilled.call]
      exact if_pos free
    obtain ⟨step,after⟩ := goStep refilled.healthy alive refilled.quiet made
    refine reachStep step (unlockEnds (l := .bucket address) after alive refilled.quiet ?_)
    simp only [tookPc]
    rfl
  | _ =>
    rw [inside] at call
    exact call.elim

variable {threads : List Nat}

theorem liftLive {s : Server} {goal : State → Prop} (top : s.nested = false)
    (reach : CanReach (restNext s.dead) goal s.base) :
    CanReach (Cancellation.next threads) (fun u => ∃ base, u = { s with base } ∧ goal base) s := by
  obtain ⟨events,base,run,there⟩ := reach
  refine ⟨events.map .base,{ s with base },?_,base,rfl,there⟩
  induction events generalizing s with
  | nil =>
    cases Option.some.inj run
    rfl
  | cons e events ih =>
    obtain ⟨middle,step,rest⟩ := Option.bind_eq_some_iff.mp run
    have first : Cancellation.next threads s (.base e) = some { s with base := middle } := by
      simp [Cancellation.next,top,(restSound step).2]
    have later := @ih { s with base := middle } top rest
    rw [List.map_cons,execCons,first]
    exact later

theorem mainQuiet {s : Server} (healthy : Healthy s.dead s.base) (top : s.nested = false) :
    CanReach (Cancellation.next threads)
      (fun u => ∃ base, u = { s with base } ∧ Healthy s.dead base ∧ base.handler main = none) s :=
  liftLive top (handlerEnds healthy main)

/- A thread that has been cancelled comes to a cancellation point outside the calls. -/
theorem threadEnds {s : Server} (healthy : Healthy s.dead s.base) (top : s.nested = false)
    (asked : s.cancelled t = true) :
    CanReach (Cancellation.next threads)
      (fun u => Healthy u.dead u.base ∧ u.nested = false ∧ u.dead t = true ∧ u.exit = s.exit) s := by
  by_cases gone : s.dead t = true
  · exact reachNow ⟨healthy,top,gone,rfl⟩
  have idle : CanReach (restNext s.dead) (Idle s.dead t) s.base :=
    reachThen (handlerEnds healthy t) fun u quiet => callEnds quiet.1 quiet.2
  refine reachThen (liftLive top idle) ?_
  rintro _ ⟨base,rfl,idle⟩
  have step : Cancellation.next threads { s with base } (.terminate t) = some (ended { s with base } t base) := by
    simp [Cancellation.next,asked,gone,idle.quiet,idle.outside,terminated]
  exact reachStep step (reachNow ⟨healthyBurial idle.healthy idle.outside idle.quiet,top,updateSame _ _ _,rfl⟩)

theorem joinEnds {s : Server} {rest : List Nat} (healthy : Healthy s.dead s.base) (top : s.nested = false)
    (waits : s.exit = .join t rest) (asked : s.cancelled t = true) :
    CanReach (Cancellation.next threads)
      (fun u => Healthy u.dead u.base ∧ u.nested = false ∧ u.exit = .cancel rest) s := by
  refine reachThen (threadEnds healthy top asked) fun u gone => ?_
  obtain ⟨healthy,top,gone,same⟩ := gone
  refine reachThen (mainQuiet healthy top) ?_
  rintro _ ⟨base,rfl,healthy,quiet⟩
  have step : Cancellation.next threads { u with base } .exitStep = some { u with base, exit := .cancel rest } := by
    simp [Cancellation.next,exitStep,quiet,same,waits,gone]
  exact reachStep step (reachNow ⟨healthy,top,rfl⟩)

/- The induction is on the threads daemon_exit has yet to cancel. -/
theorem cancelEnds {s : Server} {rest : List Nat} (healthy : Healthy s.dead s.base) (top : s.nested = false)
    (turn : s.exit = .cancel rest) :
    CanReach (Cancellation.next threads) (fun u => u.exit = .exited) s := by
  induction rest generalizing s with
  | nil =>
    refine reachThen (mainQuiet healthy top) ?_
    rintro _ ⟨base,rfl,healthy,quiet⟩
    have step : Cancellation.next threads { s with base } .exitStep = some { s with base, exit := .exited } := by
      simp [Cancellation.next,exitStep,quiet,turn]
    exact reachStep step (reachNow rfl)
  | cons t rest ih =>
    refine reachThen (mainQuiet healthy top) ?_
    rintro _ ⟨base,rfl,healthy,quiet⟩
    have step : Cancellation.next threads { s with base } .exitStep =
        some { s with base, cancelled := update s.cancelled t true, exit := .join t rest } := by
      simp [Cancellation.next,exitStep,quiet,turn]
    refine reachStep step (reachThen (joinEnds healthy top rfl (updateSame _ _ _)) fun u later => ?_)
    exact ih later.1 later.2.1 later.2.2

def Joining (s : Server) : Prop := ∀ t rest, s.exit = .join t rest → s.cancelled t = true

theorem exitEnds {s : Server} (healthy : Healthy s.dead s.base) (top : s.nested = false) (joining : Joining s) :
    CanReach (Cancellation.next threads) (fun u => u.exit = .exited) s := by
  cases at_ : s.exit with
  | running =>
    refine reachThen (mainQuiet healthy top) ?_
    rintro _ ⟨base,rfl,healthy,quiet⟩
    have step : Cancellation.next threads { s with base } .daemonExit =
        some { s with base, exit := .cancel threads, nested := false } := by
      simp [Cancellation.next,quiet,at_]
    exact reachStep step (cancelEnds healthy rfl rfl)
  | cancel rest => exact cancelEnds healthy top at_
  | join t rest =>
    refine reachThen (joinEnds healthy top at_ (joining t rest at_)) fun u later => ?_
    exact cancelEnds later.1 later.2.1 later.2.2
  | exited => exact reachNow at_

theorem joiningNext {s u : Server} {e : Cancellation.Event} (joining : Joining s)
    (step : Cancellation.next threads s e = some u) : Joining u := by
  cases deedSound step with
  | base e v served alive top move => exact joining
  | cancel t =>
    intro v rest waits
    by_cases mine : v = t
    · rw [mine]
      exact updateSame _ _ _
    · exact (updateOther _ _ mine).trans (joining v rest waits)
  | terminate t u alive quiet burial => cases burial <;> exact joining
  | daemonExit running => exact fun v rest waits => by cases waits
  | finish last turn => exact fun v rest waits => by cases waits
  | ask t rest first turn =>
    intro v others waits
    cases waits
    exact updateSame _ _ _
  | joined t rest waits gone turn => exact fun v others waits => by cases waits

theorem topNext {s u : Server} {e : Cancellation.Event} (top : s.nested = false) (considerate : Considerate s e u)
    (step : Cancellation.next threads s e = some u) : u.nested = false := by
  cases deedSound step with
  | terminate t u alive quiet burial => cases burial <;> exact top
  | daemonExit running => exact Option.isSome_eq_false_iff.mpr (by rw [considerate.returned rfl]; rfl)
  | _ => exact top

structure Unharmed (threads : List Nat) (s : Server) : Prop where
  released : ∀ t l, s.dead t = true → s.base.holder l ≠ some t
  ticks : ∀ t, CanReach (Cancellation.next threads) (fun u => u.base.handler t = none) s
  exits : CanReach (Cancellation.next threads) (fun u => u.exit = .exited) s

theorem healthyUnharmed {s : Server} (healthy : Healthy s.dead s.base) (top : s.nested = false)
    (joining : Joining s) : Unharmed threads s := by
  refine ⟨fun t l gone owner => ?_,fun t => ?_,exitEnds healthy top joining⟩
  · obtain ⟨outside,quiet⟩ := healthy.buried t gone
    have has := (healthy.calm.agreed.agree l t).mp owner
    rw [heldQuiet quiet,outside] at has
    exact absurd has List.not_mem_nil
  · refine reachThen (liftLive top (handlerEnds healthy t)) ?_
    rintro _ ⟨base,rfl,_,quiet⟩
    exact reachNow quiet

end IPv4Media.CleanExit
