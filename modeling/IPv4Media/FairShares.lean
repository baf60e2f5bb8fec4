import IPv4Media.PoolLaw

/-! How one alrm_handle of the pool design divides the pool. Its loop clamps each share
by remaining_tokens and stops when that is used up; neither ever takes anything from a
bucket's share of T / A, because what remains covers that share for every bucket left. -/
namespace IPv4Media.FairShares
open TokenBucket TimerModule TokenPool Execution

def left (job : Nat → Option Mytbf) (i d : Nat) : Nat := (List.range' i d).countP fun j => (job j).isSome

theorem rangeLeft (job : Nat → Option Mytbf) (n : Nat) :
    ((List.range n).countP fun i => (job i).isSome) = left job 0 n := by
  rw [left,List.range_eq_range']

theorem activeLeft (job : Nat → Option Mytbf) : activeJobs job = left job 0 mytbfMax := by
  unfold activeJobs
  exact rangeLeft job mytbfMax

theorem leftTaken {job : Nat → Option Mytbf} {i d : Nat} {b : Mytbf} (live : job i = some b) :
    left job i (d+1) = left job (i+1) d + 1 := by
  rw [left,List.range'_succ,List.countP_cons_of_pos (by rw [live]; rfl)]
  rfl

theorem leftEmpty {job : Nat → Option Mytbf} {i d : Nat} (empty : job i = none) :
    left job i (d+1) = left job (i+1) d := by
  rw [left,List.range'_succ,List.countP_cons_of_neg (by rw [empty]; decide)]
  rfl

theorem leftCongr {job job' : Nat → Option Mytbf} (same : ∀ i, (job' i).isSome = (job i).isSome) (i d : Nat) :
    left job' i d = left job i d := by
  simp only [left,same]

/- remaining_tokens covers tokens_per_job for all buckets left, and is not used up where
there is less than one token for each. -/
structure Uncut (job : Nat → Option Mytbf) (i d : Nat) (perJob remaining : Int) : Prop where
  rate : 0 ≤ perJob
  covered : perJob * left job i d ≤ remaining
  scarce : perJob = 0 → 0 < remaining

theorem uncutStart {job : Nat → Option Mytbf} {totalTokens : Int} (some_ : 0 < activeJobs job)
    (more : 0 < totalTokens) : Uncut job 0 mytbfMax (totalTokens / activeJobs job) totalTokens := by
  refine ⟨Int.ediv_nonneg (by omega) (by omega),?_,fun _ => more⟩
  rw [← activeLeft]
  exact Int.ediv_mul_le _ (by omega)

theorem uncutEnough {job : Nat → Option Mytbf} {i d : Nat} {perJob remaining : Int} {b : Mytbf}
    (uncut : Uncut job i (d+1) perJob remaining) (live : job i = some b) : perJob ≤ remaining := by
  have covered := uncut.covered
  have others : 0 ≤ perJob * (left job (i+1) d : Int) := Int.mul_nonneg uncut.rate (Int.natCast_nonneg _)
  rw [leftTaken live,Int.natCast_add,Int.mul_add,Int.natCast_one,Int.mul_one] at covered
  omega

def share (perJob : Int) (b : Mytbf) : Int := min perJob (b.burst - b.token)

def raise (perJob : Int) (b : Mytbf) : Mytbf := { b with token := b.token + share perJob b }

theorem allocatedShare {job : Nat → Option Mytbf} {i d : Nat} {perJob remaining : Int} {b : Mytbf}
    (uncut : Uncut job i (d+1) perJob remaining) (live : job i = some b) (high : b.token ≤ b.burst) :
    allocated b perJob remaining = share perJob b := by
  have enough := uncutEnough uncut live
  have rate := uncut.rate
  unfold allocated share
  omega

theorem uncutTaken {job : Nat → Option Mytbf} {i d : Nat} {perJob remaining : Int} {b : Mytbf}
    (uncut : Uncut job i (d+1) perJob remaining) (live : job i = some b) :
    Uncut job (i+1) d perJob (remaining - share perJob b) := by
  have covered := uncut.covered
  rw [leftTaken live,Int.natCast_add,Int.mul_add,Int.natCast_one,Int.mul_one] at covered
  have most : share perJob b ≤ perJob := Int.min_le_left _ _
  refine ⟨uncut.rate,by omega,?_⟩
  intro none_
  have more := uncut.scarce none_
  omega

theorem uncutEmpty {job : Nat → Option Mytbf} {i d : Nat} {perJob remaining : Int}
    (uncut : Uncut job i (d+1) perJob remaining) (empty : job i = none) : Uncut job (i+1) d perJob remaining :=
  ⟨uncut.rate,by rw [← leftEmpty empty]; exact uncut.covered,uncut.scarce⟩

theorem uncutCongr {job job' : Nat → Option Mytbf} {i d : Nat} {perJob remaining : Int}
    (uncut : Uncut job i d perJob remaining) (same : ∀ i, (job' i).isSome = (job i).isSome) :
    Uncut job' i d perJob remaining :=
  ⟨uncut.rate,by rw [leftCongr same]; exact uncut.covered,uncut.scarce⟩

/- The exit on remaining_tokens leaves no bucket out. -/
theorem exitServed {job : Nat → Option Mytbf} {i d : Nat} {perJob remaining : Int}
    (uncut : Uncut job i d perJob remaining) (out : remaining ≤ 0) : ∀ j, i ≤ j → j < i + d → job j = none := by
  have positive : 0 < perJob := by
    have rate := uncut.rate
    have scarce := uncut.scarce
    omega
  have nobody : left job i d = 0 := by
    by_contra some_
    have covered := uncut.covered
    have more := Int.mul_pos positive (by omega : (0 : Int) < left job i d)
    omega
  intro j low high
  have empty := List.countP_eq_zero.mp nobody j (List.mem_range'_1.mpr ⟨low,high⟩)
  exact Option.not_isSome_iff_eq_none.mp empty

def grant (perJob : Int) : Option Mytbf → Int
  | none => 0
  | some b => share perJob b

def grants (job : Nat → Option Mytbf) (perJob : Int) (i d : Nat) : Int :=
  ((List.range' i d).map fun j => grant perJob (job j)).sum

theorem grantsSucc (job : Nat → Option Mytbf) (perJob : Int) (i d : Nat) :
    grants job perJob i (d+1) = grant perJob (job i) + grants job perJob (i+1) d := by
  simp [grants,List.range'_succ]

theorem grantsCongr {job job' : Nat → Option Mytbf} {i d : Nat} (perJob : Int)
    (same : ∀ j, i ≤ j → j < i + d → job' j = job j) : grants job' perJob i d = grants job perJob i d := by
  unfold grants
  congr 1
  refine List.map_congr_left fun j member => ?_
  obtain ⟨low,high⟩ := List.mem_range'_1.mp member
  rw [same j low high]

theorem grantsNobody {job : Nat → Option Mytbf} {i d : Nat} (perJob : Int)
    (empty : ∀ j, i ≤ j → j < i + d → job j = none) : grants job perJob i d = 0 := by
  unfold grants
  refine List.sum_eq_zero fun x member => ?_
  obtain ⟨j,inside,rfl⟩ := List.mem_map.mp member
  obtain ⟨low,high⟩ := List.mem_range'_1.mp inside
  rw [empty j low high]
  rfl

structure Passed (s : State) (t i : Nat) (perJob remaining : Int) (u : State) : Prop where
  pc : u.pc t = .tickLoop (i+1) perJob (remaining - grant perJob (s.job i))
  slot : u.job i = (s.job i).map (raise perJob)
  others : ∀ j, j ≠ i → u.job j = s.job j
  holder : u.holder = s.holder

theorem slotPassed {s : State} {t i d : Nat} {perJob remaining : Int} (at_ : s.pc t = .tickLoop i perJob remaining)
    (inside : i < mytbfMax) (more : 0 < remaining) (free : s.holder (.bucket i) = none)
    (high : ∀ b, s.job i = some b → b.token ≤ b.burst) (uncut : Uncut s.job i (d+1) perJob remaining) :
    Repeats next (.step t) (Passed s t i perJob remaining) s := by
  cases live : s.job i with
  | none =>
    have skip : next s (.step t) = some (goto s t (.tickLoop (i+1) perJob remaining)) := by
      simp [next,at_,advance,inside,more,live]
    refine repeatsStep skip (repeatsNow ⟨?_,?_,fun _ _ => rfl,rfl⟩)
    · rw [gotoPc,live,grant,Int.sub_zero]
    · rw [live]
      exact live
  | some b =>
    have enter : next s (.step t) = some (goto s t (.tickBucket i perJob remaining)) := by
      simp [next,at_,advance,inside,more,live]
    have give : next (goto s t (.tickBucket i perJob remaining)) (.step t) =
        some (putBucket (took (goto s t (.tickBucket i perJob remaining)) t (.bucket i)
          (.tickHeld i perJob (remaining - share perJob b))) i (raise perJob b)) := by
      rw [next,gotoPc,advance]
      have same : (goto s t (.tickBucket i perJob remaining)).job i = some b := live
      have unlocked : (goto s t (.tickBucket i perJob remaining)).holder (.bucket i) = none := free
      have given := allocatedShare uncut live (high b live)
      simp only [same,Option.bind_eq_bind,Option.bind_some,lock,unlocked,if_true,given]
      rfl
    refine repeatsStep enter (repeatsStep give (repeatsStep (by rw [next,putBucketPc,tookPc]; rfl) (repeatsNow ?_)))
    refine ⟨?_,?_,?_,?_⟩
    · rw [unlockPc,live,grant]
    · rw [live]
      exact updateSame _ _ _
    · intro j other
      exact updateOther _ _ other
    · have restored : Function.update (Function.update s.holder (.bucket i) (some t)) (.bucket i) none = s.holder := by
        rw [Function.update_idem,← free,Function.update_eq_self]
      exact restored

structure Served (s : State) (t i d : Nat) (perJob remaining : Int) (u : State) : Prop where
  pc : u.pc t = .tickUnlockJob
  total : u.totalTokens = remaining - grants s.job perJob i d
  raised : ∀ j, i ≤ j → j < i + d → u.job j = (s.job j).map (raise perJob)
  before : ∀ j, j < i → u.job j = s.job j
  holder : u.holder = s.holder

theorem loopEnds {s : State} {t i d : Nat} {perJob remaining : Int} (at_ : s.pc t = .tickLoop i perJob remaining)
    (over_ : mytbfMax ≤ i ∨ remaining ≤ 0) (nobody : ∀ j, i ≤ j → j < i + d → s.job j = none) :
    Repeats next (.step t) (Served s t i d perJob remaining) s := by
  have exit_ : next s (.step t) = some { goto s t .tickUnlockJob with totalTokens := remaining } := by
    rw [next,at_,advance,if_neg (by omega)]
  refine repeatsStep exit_ (repeatsNow ⟨gotoPc _ _ _,?_,?_,fun _ _ => rfl,rfl⟩)
  · rw [grantsNobody perJob nobody,Int.sub_zero]
  · intro j low high
    rw [nobody j low high]
    exact nobody j low high

theorem loopServes {t d : Nat} {s : State} {i : Nat} {perJob remaining : Int}
    (at_ : s.pc t = .tickLoop i perJob remaining) (bound : i + d = mytbfMax) (free : ∀ l, s.holder (.bucket l) = none)
    (high : ∀ j, i ≤ j → j < i + d → ∀ b, s.job j = some b → b.token ≤ b.burst)
    (uncut : Uncut s.job i d perJob remaining) : Repeats next (.step t) (Served s t i d perJob remaining) s := by
  induction d generalizing s i remaining with
  | zero => exact loopEnds at_ (.inl (by omega)) (by omega)
  | succ d ih =>
    by_cases out : remaining ≤ 0
    · exact loopEnds at_ (.inr out) (exitServed uncut out)
    have taken := slotPassed at_ (by omega) (by omega) (free i) (high i (Nat.le_refl _) (by omega)) uncut
    refine repeatsThen taken fun v passed => ?_
    have behind : ∀ j, i + 1 ≤ j → v.job j = s.job j := fun j low => passed.others j (by omega)
    have rest : Uncut v.job (i+1) d perJob (remaining - grant perJob (s.job i)) := by
      have ahead : Uncut s.job (i+1) d perJob (remaining - grant perJob (s.job i)) := by
        cases live : s.job i with
        | none =>
          rw [grant,Int.sub_zero]
          exact uncutEmpty uncut live
        | some b => exact uncutTaken uncut live
      refine uncutCongr ahead fun j => ?_
      by_cases here : j = i
      · subst here
        rw [passed.slot,Option.isSome_map]
      · rw [passed.others j here]
    have later := ih passed.pc (by omega) (by rw [passed.holder]; exact free) ?_ rest
    · refine repeatsThen later fun u served => repeatsNow ⟨served.pc,?_,?_,?_,served.holder.trans passed.holder⟩
      · have same := @grantsCongr s.job v.job (i+1) d perJob fun j low _ => behind j low
        rw [served.total,same,grantsSucc]
        omega
      · intro j low top
        by_cases here : j = i
        · subst here
          rw [served.before j (by omega),passed.slot]
        · rw [served.raised j (by omega) (by omega),passed.others j here]
      · intro j low
        rw [served.before j (by omega),passed.others j (by omega)]
    · intro j low top b live
      rw [behind j low] at live
      exact high j (by omega) (by omega) b live

theorem refilledPositive {totalTokens : Int} (pool : 0 ≤ totalTokens) : 0 < refilled totalTokens := by
  have rate : 0 < refillRate := by decide
  have most : 0 < maxTokens := by decide
  unfold refilled
  split <;> omega

theorem tookOther (s : State) (t : Nat) {l l' : Lock} (pc : Pc) (apart : l' ≠ l) :
    (took s t l pc).holder l' = s.holder l' := Function.update_of_ne apart _ _

structure Counted (s : State) (t : Nat) (perJob remaining : Int) (u : State) : Prop where
  pc : u.pc t = .tickLoop 0 perJob remaining
  job : u.job = s.job
  buckets : ∀ l, u.holder (.bucket l) = s.holder (.bucket l)

theorem tickCounts {s : State} {t : Nat} (called : s.pc t = .tickPool) (free : ∀ l, s.holder l = none)
    (pool : 0 ≤ s.totalTokens) (active : 0 < activeJobs s.job) :
    Repeats next (.step t)
      (Counted s t (refilled s.totalTokens / activeJobs s.job) (refilled s.totalTokens)) s := by
  have refills : next s (.step t) = some { took s t .pool .tickJob with
      totalTokens := refilled s.totalTokens, ticks := s.ticks + 1 } := by
    rw [next,called,advance,lock,if_pos (free .pool)]
    rfl
  refine repeatsStep refills ?_
  have unlocked : (took s t .pool .tickJob).holder .job = none := by
    rw [tookOther s t .tickJob (by decide),free]
  have hands : handed s.job (refilled s.totalTokens) =
      .tickLoop 0 (refilled s.totalTokens / activeJobs s.job) (refilled s.totalTokens) :=
    if_pos ⟨active,refilledPositive pool⟩
  have counts : ∀ u, u = { took s t .pool .tickJob with
      totalTokens := refilled s.totalTokens, ticks := s.ticks + 1 } →
      next u (.step t) = some (took u t .job (handed s.job (refilled s.totalTokens))) := by
    rintro u rfl
    rw [next,tookPc]
    exact if_pos unlocked
  refine repeatsStep (counts _ rfl) (repeatsNow ⟨?_,rfl,?_⟩)
  · rw [tookPc,hands]
  · intro l
    have first := tookOther s t .tickJob (by simp : Lock.bucket l ≠ .pool)
    exact (tookOther _ t _ (by simp : Lock.bucket l ≠ .job)).trans first

/- One alrm_handle on any table and any pool: every bucket gets min(T / A, burst - token)
and the pool keeps what is left of T. -/
theorem fairShares {s : State} {t : Nat} (idle : s.pc t = .idle) (free : ∀ l, s.holder l = none)
    (table : ∀ i < mytbfMax, ∀ b, s.job i = some b → 0 ≤ b.token ∧ b.token ≤ b.burst) (pool : 0 ≤ s.totalTokens)
    (active : 0 < activeJobs s.job) :
    ∃ k u, exec next s (.tick t :: List.replicate k (.step t)) = some u ∧ u.pc t = .idle ∧
      (∀ i < mytbfMax, u.job i = (s.job i).map (raise (refilled s.totalTokens / activeJobs s.job))) ∧
      u.totalTokens = refilled s.totalTokens -
        ((List.range mytbfMax).map fun i => grant (refilled s.totalTokens / activeJobs s.job) (s.job i)).sum := by
  have call : next s (.tick t) = some (goto s t .tickPool) := if_pos idle
  have counts := @tickCounts (goto s t .tickPool) t (gotoPc _ _ _) free pool active
  have returns : Repeats next (.step t) (fun u => u.pc t = .idle ∧
      (∀ i < mytbfMax, u.job i = (s.job i).map (raise (refilled s.totalTokens / activeJobs s.job))) ∧
      u.totalTokens = refilled s.totalTokens - grants s.job (refilled s.totalTokens / activeJobs s.job) 0 mytbfMax)
      (goto s t .tickPool) := by
    refine repeatsThen counts fun v counted => ?_
    have job : v.job = s.job := counted.job
    have serves := @loopServes t mytbfMax v 0 _ _ counted.pc (Nat.zero_add _)
      (fun l => (counted.buckets l).trans (free _))
      (fun j _ below b live => (table j (by omega) b (by rw [← job]; exact live)).2)
      (by rw [job]; exact uncutStart active (refilledPositive pool))
    refine repeatsThen serves fun w served => ?_
    refine repeatsStep (by rw [next,served.pc]; rfl) (repeatsStep (by rw [next,unlockPc]; rfl) (repeatsNow ?_))
    refine ⟨unlockPc _ _ _ _,?_,?_⟩
    · intro i below
      have raised := served.raised i (Nat.zero_le _) (by omega)
      rw [job] at raised
      exact raised
    · have total := served.total
      rw [job] at total
      exact total
  obtain ⟨k,u,run,back,raised,total⟩ := returns
  refine ⟨k,u,?_,back,raised,?_⟩
  · rw [execCons,call]
    exact run
  · rw [List.range_eq_range']
    exact total

def threeBuckets : State := { start with
  totalTokens := 7
  job := fun i => if i = 2 then some ⟨1,50,50,2⟩ else if i = 5 then some ⟨1,90,80,5⟩
    else if i = 9 then some ⟨1,99999,0,9⟩ else none }

theorem threeServed : ∃ k u, exec next threeBuckets (.tick 4 :: List.replicate k (.step 4)) = some u ∧
    u.pc 4 = .idle ∧ (∀ i < mytbfMax, u.job i = (threeBuckets.job i).map (raise 13655)) ∧
    u.totalTokens = refilled threeBuckets.totalTokens -
      ((List.range mytbfMax).map fun i => grant 13655 (threeBuckets.job i)).sum := by
  have count : activeJobs threeBuckets.job = 3 := by decide +kernel
  have rate : refilled threeBuckets.totalTokens / activeJobs threeBuckets.job = 13655 := by
    rw [count]
    decide
  rw [← rate]
  refine fairShares rfl (fun _ => rfl) ?_ (by decide) (by rw [count]; decide)
  intro i _ b live
  simp only [threeBuckets] at live
  split at live
  · cases Option.some.inj live
    decide
  · split at live
    · cases Option.some.inj live
      decide
    · split at live <;> try contradiction
      cases Option.some.inj live
      decide

/- The same among other threads. While a handler is in its loop it has pool_mut and
mut_job, so T stays in total_tokens and the slots taken stay the same; the balances do not. -/
def Serving (s : State) : Pc → Prop
  | .tickLoop i perJob remaining =>
    perJob = s.totalTokens / activeJobs s.job ∧ i ≤ mytbfMax ∧ Uncut s.job i (mytbfMax - i) perJob remaining
  | .tickBucket i perJob remaining => perJob = s.totalTokens / activeJobs s.job ∧ i < mytbfMax ∧
      (s.job i).isSome = true ∧ Uncut s.job i (mytbfMax - i) perJob remaining
  | .tickHeld i perJob remaining => perJob = s.totalTokens / activeJobs s.job ∧ i < mytbfMax ∧
      Uncut s.job (i+1) (mytbfMax - (i+1)) perJob remaining
  | _ => True

theorem servingCongr {s u : State} {pc : Pc} (serving : Serving s pc)
    (same : ∀ i, (u.job i).isSome = (s.job i).isSome) (total : u.totalTokens = s.totalTokens) : Serving u pc := by
  have count : activeJobs u.job = activeJobs s.job := by
    rw [activeLeft,activeLeft,leftCongr same]
  cases pc with
  | tickLoop i perJob remaining =>
    obtain ⟨rate,bound,uncut⟩ := serving
    exact ⟨by rw [total,count]; exact rate,bound,uncutCongr uncut same⟩
  | tickBucket i perJob remaining =>
    obtain ⟨rate,bound,live,uncut⟩ := serving
    exact ⟨by rw [total,count]; exact rate,bound,by rw [same]; exact live,uncutCongr uncut same⟩
  | tickHeld i perJob remaining =>
    obtain ⟨rate,bound,uncut⟩ := serving
    exact ⟨by rw [total,count]; exact rate,bound,uncutCongr uncut same⟩
  | _ => exact True.intro

theorem isSomePut {job : Nat → Option Mytbf} {slot : Nat} {b : Mytbf} (live : job slot = some b) (c : Mytbf) (i : Nat) :
    (update job slot (some c) i).isSome = (job i).isSome := by
  by_cases here : i = slot
  · subst here
    rw [updateSame,live]
    rfl
  · rw [updateOther _ _ here]

theorem keptMeanwhile {s u : State} {t v : Nat} (agreed : Agreed s) (job : Lock.job ∈ held (s.pc t))
    (pool : Lock.pool ∈ held (s.pc t)) (other : t ≠ v) (step : Step s v (s.pc v) u) :
    (∀ i, (u.job i).isSome = (s.job i).isSome) ∧ u.totalTokens = s.totalTokens := by
  have locked : s.holder .job ≠ none ∧ s.holder .pool ≠ none := by
    rw [(agreed.agree .job t).mpr job,(agreed.agree .pool t).mpr pool]
    simp
  generalize at_ : s.pc v = pc at step
  cases step with
  | initPlace cps burst pos free inside empty => exact absurd free locked.1
  | refill free => exact absurd free locked.2
  | fetchGrab slot size b live free some_ => exact absurd free locked.2
  | tickEnd i perJob remaining over_ =>
    have theirs : Lock.pool ∈ held (s.pc v) := by simp [at_,held]
    exact absurd (Locking.oneHolder agreed.agree pool theirs) other
  | tickGive i perJob remaining b live free => exact ⟨isSomePut live _,rfl⟩
  | fetchTake slot size b live => exact ⟨isSomePut live _,rfl⟩
  | returnAdd slot size b c live free added => exact ⟨isSomePut live _,rfl⟩
  | _ => exact ⟨fun _ => rfl,rfl⟩

theorem servingElsewhere {s : State} {pc : Pc} (elsewhere : PoolLaw.distributing pc = false) : Serving s pc := by
  cases pc <;> simp [PoolLaw.distributing,Serving] at elsewhere ⊢

theorem distributingHolds {pc : Pc} (loop : PoolLaw.distributing pc = true) :
    Lock.job ∈ held pc ∧ Lock.pool ∈ held pc := by
  cases pc <;> simp [PoolLaw.distributing,held] at loop ⊢

theorem slotsAhead {i : Nat} (inside : i < mytbfMax) : mytbfMax - i = mytbfMax - (i+1) + 1 := by omega

theorem servingStep {s u : State} {t : Nat} {pc : Pc} (table : ∀ i b, s.job i = some b → b.token ≤ b.burst)
    (serving : Serving s pc) (step : Step s t pc u) : Serving u (u.pc t) := by
  have stay := fun next_ => @servingCongr s u next_
  cases step with
  | tickCount free =>
    rw [tookPc]
    by_cases some_ : 0 < activeJobs s.job ∧ 0 < s.totalTokens
    · rw [handed,if_pos some_]
      exact ⟨rfl,Nat.zero_le _,uncutStart some_.1 some_.2⟩
    · rw [handed,if_neg some_]
      exact True.intro
  | tickSlot i perJob remaining inside more some_ =>
    obtain ⟨rate,bound,uncut⟩ := serving
    rw [gotoPc]
    exact stay (.tickBucket i perJob remaining) ⟨rate,inside,some_,uncut⟩ (fun _ => rfl) rfl
  | tickSkip i perJob remaining inside more none_ =>
    obtain ⟨rate,bound,uncut⟩ := serving
    rw [slotsAhead inside] at uncut
    rw [gotoPc]
    exact stay (.tickLoop (i+1) perJob remaining) ⟨rate,by omega,uncutEmpty uncut none_⟩ (fun _ => rfl) rfl
  | tickGive i perJob remaining b live free =>
    obtain ⟨rate,bound,some_,uncut⟩ := serving
    rw [slotsAhead bound] at uncut
    rw [putBucketPc,tookPc]
    refine stay (.tickHeld i perJob (remaining - allocated b perJob remaining)) ⟨rate,bound,?_⟩ (isSomePut live _) rfl
    rw [allocatedShare uncut live (table i b live)]
    exact uncutTaken uncut live
  | tickUnlockBucket i perJob remaining =>
    obtain ⟨rate,bound,uncut⟩ := serving
    rw [unlockPc]
    exact stay (.tickLoop (i+1) perJob remaining) ⟨rate,by omega,uncut⟩ (fun _ => rfl) rfl
  | _ => exact servingElsewhere (by simp [PoolLaw.distributing])

theorem servingRun {events : List Event} {s : State} (run : exec next start events = some s) :
    ∀ t, Serving s (s.pc t) := by
  have both : PoolLaw.Sound s ∧ ∀ t, Serving s (s.pc t) := by
    refine invariant (I := fun s => PoolLaw.Sound s ∧ ∀ t, Serving s (s.pc t))
      ⟨PoolLaw.soundStart,fun _ => True.intro⟩ ?_ run
    rintro v e w ⟨sound,serving⟩ step
    have move := moveSound step
    refine ⟨PoolLaw.soundMove sound move,fun t => ?_⟩
    by_cases mine : t = actor e
    · subst mine
      cases move with
      | step t u made =>
        exact servingStep (fun i b live => (sound.bounded.buckets i b live).high) (serving t) made
      | _ => exact servingElsewhere (by simp [actor,PoolLaw.distributing])
    · rw [moveOthers move mine]
      cases loop : PoolLaw.distributing (v.pc t) with
      | false => exact servingElsewhere loop
      | true =>
        obtain ⟨job,pool⟩ := distributingHolds loop
        cases move with
        | step x u made =>
          obtain ⟨same,total⟩ := keptMeanwhile sound.agreed job pool mine made
          exact servingCongr (serving t) same total
        | _ => exact servingCongr (serving t) (fun _ => rfl) rfl
  exact both.2

/- Whatever other threads do between its steps, a handler gives every bucket it comes to
the order-free share, and stops only when no bucket is left. -/
theorem sharesUncut {events : List Event} {s u : State} {t i : Nat} {perJob remaining : Int}
    (run : exec next start events = some s) (at_ : s.pc t = .tickBucket i perJob remaining)
    (step : next s (.step t) = some u) :
    ∃ b, s.job i = some b ∧ u.job i = some (raise (s.totalTokens / activeJobs s.job) b) := by
  have serving := servingRun run t
  rw [at_] at serving
  obtain ⟨rate,bound,some_,uncut⟩ := serving
  rw [slotsAhead bound] at uncut
  have made : Step s t (.tickBucket i perJob remaining) u := by
    rw [← at_]
    exact advanceSound step
  cases made with
  | tickGive _ _ _ b live free =>
    have high := ((PoolLaw.soundRun run).bounded.buckets i b live).high
    refine ⟨b,live,?_⟩
    rw [allocatedShare uncut live high,rate]
    exact updateSame _ _ _

theorem exitsServed {events : List Event} {s : State} {t i : Nat} {perJob remaining : Int}
    (run : exec next start events = some s) (at_ : s.pc t = .tickLoop i perJob remaining) (out : remaining ≤ 0) :
    ∀ j, i ≤ j → j < mytbfMax → s.job j = none := by
  have serving := servingRun run t
  rw [at_] at serving
  obtain ⟨_,bound,uncut⟩ := serving
  intro j low high
  exact exitServed uncut out j low (by omega)

end IPv4Media.FairShares
