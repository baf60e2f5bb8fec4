import IPv4Media.FairShares

/-! What an alrm_handle of the pool design does for the buckets when other threads move
between its steps: whom it serves in one tick, and how little that can be. -/
namespace IPv4Media.PoolService
open TokenBucket TimerModule TokenPool PoolLaw FairShares Execution

def stocking : Pc → Bool
  | .tickJob => true
  | pc => distributing pc

theorem stockingHolds {pc : Pc} (busy : stocking pc = true) : Lock.pool ∈ held pc := by
  cases pc <;> simp [stocking,distributing,held] at busy ⊢

def Stocked (s : State) : Prop := ∀ t, stocking (s.pc t) = true → refillRate ≤ s.totalTokens

theorem refilledStocked {totalTokens : Int} (pool : 0 ≤ totalTokens) : refillRate ≤ refilled totalTokens := by
  have most : refillRate ≤ maxTokens := by decide
  unfold refilled
  split <;> omega

theorem totalKept {s u : State} {t v : Nat} (agreed : Agreed s) (pool : Lock.pool ∈ held (s.pc t)) (other : t ≠ v)
    (step : Step s v (s.pc v) u) : u.totalTokens = s.totalTokens := by
  have locked := (agreed.agree .pool t).mpr pool
  generalize at_ : s.pc v = pc at step
  cases step with
  | refill free => simp [free] at locked
  | tickEnd i perJob remaining over_ =>
    have theirs : Lock.pool ∈ held (s.pc v) := by simp [at_,held]
    exact absurd (Locking.oneHolder agreed.agree pool theirs) other
  | fetchGrab slot size b live free some_ => simp [free] at locked
  | _ => rfl

theorem stockedGoto {s : State} {v : Nat} {pc : Pc} {owed : Nat → Int} (stocked : Stocked s)
    (other : stocking pc = false) : Stocked { goto s v pc with owed := owed } := by
  intro t busy
  by_cases mine : t = v
  · subst mine
    rw [show ({ goto s t pc with owed := owed } : State).pc t = pc from gotoPc s t pc,other] at busy
    contradiction
  · rw [show ({ goto s v pc with owed := owed } : State).pc t = s.pc t from updateOther _ _ mine] at busy
    exact stocked t busy

theorem stockedStep {s u : State} {t : Nat} (low : 0 ≤ s.totalTokens)
    (stocked : stocking (s.pc t) = true → refillRate ≤ s.totalTokens) (step : Step s t (s.pc t) u)
    (busy : stocking (u.pc t) = true) : refillRate ≤ u.totalTokens := by
  generalize s.pc t = pc at step stocked
  cases step with
  | refill free => exact refilledStocked low
  | tickCount free => exact stocked rfl
  | tickSlot i perJob remaining inside more some_ => exact stocked rfl
  | tickSkip i perJob remaining inside more none_ => exact stocked rfl
  | tickGive i perJob remaining b live free => exact stocked rfl
  | tickUnlockBucket i perJob remaining => exact stocked rfl
  | _ => simp [stocking,distributing] at busy

theorem stockedMove {s u : State} {e : Event} (sound : Sound s) (stocked : Stocked s) (move : Move s e u) :
    Stocked u := by
  cases move with
  | step v u made =>
    intro t busy
    by_cases mine : t = v
    · subst mine
      exact stockedStep sound.bounded.low (stocked t) made busy
    · rw [stepOthers made mine] at busy
      rw [totalKept sound.agreed (stockingHolds busy) mine made]
      exact stocked t busy
  | _ => exact stockedGoto stocked rfl

theorem stockedRun {events : List Event} {s : State} (run : exec next start events = some s) : Stocked s := by
  have both : Sound s ∧ Stocked s := by
    refine invariant (I := fun s => Sound s ∧ Stocked s) ⟨soundStart,by simp [Stocked,start,stocking,distributing]⟩ ?_ run
    intro s e u kept step
    have move := moveSound step
    exact ⟨soundMove kept.1 move,stockedMove kept.1 kept.2 move⟩
  exact both.2

theorem activeSome {job : Nat → Option Mytbf} {slot : Nat} {b : Mytbf} (inside : slot < mytbfMax)
    (live : job slot = some b) : 0 < activeJobs job := by
  rw [activeLeft,left]
  exact List.countP_pos_iff.mpr ⟨slot,List.mem_range'_1.mpr ⟨Nat.zero_le _,by omega⟩,by rw [live]; rfl⟩

theorem activeMost (job : Nat → Option Mytbf) : activeJobs job ≤ mytbfMax := by
  have most := List.countP_le_length (p := fun i => (job i).isSome) (l := List.range mytbfMax)
  rw [List.length_range] at most
  unfold activeJobs
  exact most

/- tokens_per_job with every slot taken and nothing in the pool but the refill. -/
def least : Int := 40

theorem leastShare {s : State} {t slot : Nat} {b : Mytbf} (sound : Sound s) (stocked : Stocked s)
    (busy : stocking (s.pc t) = true) (live : s.job slot = some b) : least ≤ s.totalTokens / activeJobs s.job := by
  have some_ := activeSome (sound.bounded.buckets slot b live).inside live
  have most := activeMost s.job
  have full := stocked t busy
  have rate : least * (mytbfMax : Int) = refillRate := by decide
  apply (Int.le_ediv_iff_mul_le (by omega)).mpr
  calc
    least * (activeJobs s.job : Int) ≤ least * (mytbfMax : Int) := by
      exact Int.mul_le_mul_of_nonneg_left (by omega) (by decide)
    _ = refillRate := rate
    _ ≤ s.totalTokens := full

def Serves (s : State) (e : Event) (u : State) : Prop :=
  ∀ v i perJob remaining, e = .step v → s.pc v = .tickBucket i perJob remaining →
    ∃ b c, s.job i = some b ∧ u.job i = some c ∧ min (b.token + least) b.burst ≤ c.token

theorem servesStep {events : List Event} {s u : State} {e : Event} (run : exec next start events = some s)
    (step : next s e = some u) : Serves s e u := by
  intro v i perJob remaining same at_
  rw [same] at step
  obtain ⟨b,live,raised⟩ := sharesUncut run at_ step
  have share_ := leastShare (soundRun run) (stockedRun run) (by rw [at_]; rfl) live
  refine ⟨b,_,live,raised,?_⟩
  simp only [raise,share]
  omega

def passed (before : List Nat) : Pc → List Nat
  | .tickPool => []
  | .tickBucket i _ _ => before ++ [i]
  | _ => before

def passing (v : Nat) (s : State) (e : Event) (_ : State) (before : List Nat) : List Nat :=
  if e = .step v then passed before (s.pc v) else before

def served (v : Nat) (events : List Event) : List Nat := carry next (passing v) start events []

def taken (job : Nat → Option Mytbf) (n : Nat) : List Nat := (List.range n).filter fun i => (job i).isSome

theorem takenCongr {job job' : Nat → Option Mytbf} (same : ∀ i, (job' i).isSome = (job i).isSome) (n : Nat) :
    taken job' n = taken job n := by
  simp only [taken,same]

theorem takenSome {job : Nat → Option Mytbf} {i : Nat} (live : (job i).isSome = true) :
    taken job (i+1) = taken job i ++ [i] := by
  rw [taken,List.range_succ,List.filter_append,List.filter_singleton,live]
  rfl

theorem takenNone {job : Nat → Option Mytbf} {i : Nat} (empty : job i = none) : taken job (i+1) = taken job i := by
  rw [taken,List.range_succ,List.filter_append,List.filter_singleton,empty]
  exact List.append_nil _

theorem takenRest {job : Nat → Option Mytbf} {i n : Nat} (low : i ≤ n) (rest : ∀ j, i ≤ j → j < n → job j = none) :
    taken job n = taken job i := by
  induction low with
  | refl => rfl
  | @step n low ih =>
    rw [takenNone (rest n low (Nat.lt_succ_self n))]
    exact ih fun j above below => rest j above (by omega)

def Upto (s : State) (before : List Nat) : Pc → Prop
  | .tickJob => before = []
  | .tickLoop i _ _ => before = taken s.job i
  | .tickBucket i _ _ => before = taken s.job i
  | .tickHeld i _ _ => before = taken s.job (i+1)
  | .tickUnlockJob => before = taken s.job mytbfMax
  | _ => True

theorem uptoCongr {s u : State} {before : List Nat} {pc : Pc} (upto : Upto s before pc)
    (same : Lock.job ∈ held pc → Lock.pool ∈ held pc → ∀ i, (u.job i).isSome = (s.job i).isSome) : Upto u before pc := by
  have taken_ : ∀ n, Lock.job ∈ held pc → Lock.pool ∈ held pc → taken s.job n = taken u.job n :=
    fun n job pool => (takenCongr (same job pool) n).symm
  cases pc with
  | tickJob => exact upto
  | tickLoop i perJob remaining => exact upto.trans (taken_ i (by simp [held]) (by simp [held]))
  | tickBucket i perJob remaining => exact upto.trans (taken_ i (by simp [held]) (by simp [held]))
  | tickHeld i perJob remaining => exact upto.trans (taken_ (i+1) (by simp [held]) (by simp [held]))
  | tickUnlockJob => exact upto.trans (taken_ mytbfMax (by simp [held]) (by simp [held]))
  | _ => exact True.intro

theorem uptoOwn {s u : State} {v : Nat} {before : List Nat} (serving : Serving s (s.pc v))
    (stocked : Stocked s) (upto : Upto s before (s.pc v)) (step : Step s v (s.pc v) u) :
    Upto u (passed before (s.pc v)) (u.pc v) := by
  have full := stocked v
  have rate : 0 < refillRate := by decide
  generalize s.pc v = pc at step serving upto full
  cases step with
  | refill free =>
    rw [tookPc]
    rfl
  | tickCount free =>
    rw [tookPc,handed]
    have more : 0 < s.totalTokens := by
      have low := full rfl
      omega
    split
    · exact upto
    · rename_i none_
      have nobody : left s.job 0 mytbfMax = 0 := by
        rw [← activeLeft]
        omega
      have rest := takenRest (Nat.zero_le mytbfMax) fun j _ below =>
        Option.not_isSome_iff_eq_none.mp (List.countP_eq_zero.mp nobody j (List.mem_range'_1.mpr ⟨Nat.zero_le _,by omega⟩))
      exact upto.trans rest.symm
  | tickSlot i perJob remaining inside more some_ =>
    rw [gotoPc]
    exact upto
  | tickSkip i perJob remaining inside more none_ =>
    rw [gotoPc]
    exact upto.trans (takenNone none_).symm
  | tickEnd i perJob remaining over_ =>
    obtain ⟨_,bound,uncut⟩ := serving
    have rest : taken s.job mytbfMax = taken s.job i := by
      rcases over_ with past | out
      · rw [Nat.le_antisymm bound past]
      · exact takenRest bound fun j above below => exitServed uncut out j above (by omega)
    rw [show ({ goto s v .tickUnlockJob with totalTokens := remaining } : State).pc v = .tickUnlockJob from gotoPc _ _ _]
    exact upto.trans rest.symm
  | tickGive i perJob remaining b live free =>
    rw [putBucketPc,tookPc]
    have same := isSomePut live { b with token := b.token + allocated b perJob remaining }
    have next_ : before ++ [i] = taken s.job (i+1) := by
      rw [takenSome (by rw [live]; rfl)]
      exact congrArg (· ++ [i]) upto
    exact next_.trans (takenCongr same (i+1)).symm
  | tickUnlockBucket i perJob remaining =>
    rw [unlockPc]
    exact upto
  | _ => simp [Upto]

theorem uptoMove {s u : State} {e : Event} {v : Nat} {before : List Nat} (sound : Sound s) (serving : Serving s (s.pc v))
    (stocked : Stocked s) (upto : Upto s before (s.pc v)) (move : Move s e u) :
    Upto u (passing v s e u before) (u.pc v) := by
  by_cases mine : v = actor e
  · cases move with
    | step t u made =>
      have here : v = t := mine
      subst here
      rw [passing,if_pos rfl]
      exact uptoOwn serving stocked upto made
    | _ =>
      simp only [actor] at mine
      subst mine
      simp [Upto]
  · have others : e ≠ .step v := by
      intro same
      rw [same] at mine
      exact mine rfl
    rw [passing,if_neg others,moveOthers move mine]
    refine uptoCongr upto fun job pool => ?_
    cases move with
    | step t u made => exact (keptMeanwhile sound.agreed job pool mine made).1
    | _ => exact fun _ => rfl

theorem uptoRun {events : List Event} {s : State} (run : exec next start events = some s) (v : Nat) :
    Upto s (served v events) (s.pc v) := by
  have both : exec next start events = some s ∧ Upto s (served v events) (s.pc v) := by
    refine history (I := fun events s => exec next start events = some s ∧ Upto s (served v events) (s.pc v))
      ⟨rfl,True.intro⟩ ?_ run
    intro events s e u before step
    obtain ⟨ran,upto⟩ := before
    have more : served v (events ++ [e]) = passing v s e u (served v events) := by
      rw [served,carryAppend ran,carry,step]
      rfl
    rw [more]
    exact ⟨execSnoc.mpr ⟨s,ran,step⟩,
      uptoMove (soundRun ran) (servingRun ran v) (stockedRun ran) upto (moveSound step)⟩
  exact both.2

/- In every interleaving: an alrm_handle that comes through its loop has served every bucket
once, in the order of the slots, and nobody it serves goes away with less than the least
share, unless full. -/
theorem poolService {events : List Event} {s : State} (run : exec next start events = some s) :
    (∀ v, s.pc v = .tickUnlockJob → served v events = taken s.job mytbfMax) ∧ Along next Serves start events := by
  refine ⟨?_,alongReached (fun _ _ _ _ ran step => servesStep ran step) run⟩
  intro v done
  have upto := uptoRun run v
  rw [done] at upto
  exact upto

def twoServed : List Event :=
  [.init 0 40960 204800,.step 0,.step 0,.init 0 40960 204800,.step 0,.step 0,.tick 1,.step 1,.step 1,.step 1,.step 1,
    .step 1,.fetch 2 0 100,.step 2,.step 2,.step 1,.step 1,.step 1,.step 2,.step 1]

theorem twoService : ∃ s, exec next start twoServed = some s ∧ taken s.job mytbfMax = [0,1] ∧
    Along next Serves start twoServed := by
  have seen : (exec next start twoServed).map (fun s => (s.pc 1,served 1 twoServed)) = some (.tickUnlockJob,[0,1]) := by
    decide +kernel
  obtain ⟨s,run,same⟩ := Option.map_eq_some_iff.mp seen
  obtain ⟨done,passed_⟩ := Prod.mk.inj same
  obtain ⟨all,serves⟩ := poolService run
  exact ⟨s,run,(all 1 done).symm.trans passed_,serves⟩

end IPv4Media.PoolService

