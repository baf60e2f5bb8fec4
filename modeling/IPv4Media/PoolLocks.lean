import IPv4Media.TokenPool

/-! The order of the mutexes in the pool design. alrm_handle takes pool_mut, mut_job and
then the buckets one by one. A fetch on an empty bucket takes pool_mut inside the
section of the bucket, which is the other way round. -/
namespace IPv4Media.PoolLocks
open TokenBucket TimerModule TokenPool Execution Locking

def Frozen (s : State) : Prop := Deadlocked s.holder fun t => wants (s.pc t)

def comes (slot : Nat) : Pc → Bool
  | .tickJob => true
  | .tickLoop i _ _ => decide (i ≤ slot)
  | .tickBucket i _ _ => decide (i ≤ slot)
  | .tickHeld i _ _ => decide (i < slot)
  | _ => false

/- No fetch turns to the pool while an alrm_handle is coming to its bucket, and no
alrm_handle takes the pool while a fetch stands before it. -/
structure Orderly (s : State) (e : Event) (_ : State) : Prop where
  fetch : ∀ t slot size b, e = .step t → s.pc t = .fetchTest slot size → s.job slot = some b → b.token ≤ 0 →
    ∀ v, comes slot (s.pc v) = false
  tick : ∀ t, e = .step t → s.pc t = .tickPool → ∀ v slot size, s.pc v ≠ .fetchPool slot size

def Clear (s : State) : Prop := ∀ t slot size, s.pc t = .fetchPool slot size → ∀ v, comes slot (s.pc v) = false

theorem comesStep {s u : State} {t slot : Nat} (step : Step s t (s.pc t) u) (now : comes slot (u.pc t) = true) :
    comes slot (s.pc t) = true ∨ s.pc t = .tickPool := by
  generalize s.pc t = pc at step
  cases step with
  | refill free => exact .inr rfl
  | tickCount free => exact .inl rfl
  | tickSlot i perJob remaining inside more some_ => exact .inl (by simpa [comes] using now)
  | tickSkip i perJob remaining inside more none_ =>
    have past : i + 1 ≤ slot := by simpa [comes] using now
    exact .inl (by simp only [comes,decide_eq_true_eq]; omega)
  | tickGive i perJob remaining b live free =>
    have past : i < slot := by simpa [comes] using now
    exact .inl (by simp only [comes,decide_eq_true_eq]; omega)
  | tickUnlockBucket i perJob remaining =>
    have past : i + 1 ≤ slot := by simpa [comes] using now
    exact .inl (by simp only [comes,decide_eq_true_eq]; omega)
  | _ => simp [comes] at now

theorem fetchStep {s u : State} {t slot : Nat} {size : Int} (step : Step s t (s.pc t) u)
    (now : u.pc t = .fetchPool slot size) :
    s.pc t = .fetchTest slot size ∧ ∃ b, s.job slot = some b ∧ b.token ≤ 0 := by
  generalize s.pc t = pc at step
  cases step with
  | fetchEmpty i n b live dry =>
    rw [gotoPc] at now
    cases now
    exact ⟨rfl,b,live,dry⟩
  | tickCount free =>
    rw [tookPc] at now
    have locks := heldHanded s.job s.totalTokens
    rw [now] at locks
    simp [held] at locks
  | _ => simp at now

theorem clearStep {s u : State} {t : Nat} (clear : Clear s) (orderly : Orderly s (.step t) u)
    (step : Step s t (s.pc t) u) : Clear u := by
  intro v slot size there w
  by_cases turned : v = t
  · subst turned
    obtain ⟨test,b,live,dry⟩ := fetchStep step there
    by_cases same : w = v
    · rw [same,there]
      rfl
    · rw [stepOthers step same]
      exact orderly.fetch v slot size b rfl test live dry w
  · rw [stepOthers step turned] at there
    by_cases same : w = t
    · subst same
      by_contra coming
      rcases comesStep step (by simpa using coming) with before | free
      · rw [clear v slot size there w] at before
        contradiction
      · exact orderly.tick w rfl free v slot size there
    · rw [stepOthers step same]
      exact clear v slot size there w

theorem clearGoto {s : State} {t : Nat} {pc : Pc} {owed : Nat → Int} (clear : Clear s)
    (apart : ∀ slot, comes slot pc = false) (calm : ∀ slot size, pc ≠ .fetchPool slot size) :
    Clear { goto s t pc with owed := owed } := by
  intro v slot size there w
  by_cases turned : v = t
  · subst turned
    rw [gotoPc] at there
    exact absurd there (calm slot size)
  · have before : s.pc v = .fetchPool slot size := (updateOther _ _ turned).symm.trans there
    by_cases same : w = t
    · subst same
      rw [gotoPc]
      exact apart slot
    · exact (congrArg (comes slot) (updateOther _ _ same)).trans (clear v slot size before w)

theorem clearMove {s u : State} {e : Event} (clear : Clear s) (orderly : Orderly s e u) (move : Move s e u) :
    Clear u := by
  cases move with
  | init t cps burst free depth => exact clearGoto clear (fun _ => rfl) (by simp)
  | tick t free => exact clearGoto clear (fun _ => rfl) (by simp)
  | fetch t slot size free live wanted => exact clearGoto clear (fun _ => rfl) (by simp)
  | giveBack t slot size free live positive within => exact clearGoto clear (fun _ => rfl) (by simp)
  | wake t slot size waiting => exact clearGoto clear (fun _ => rfl) (by simp)
  | step t u made => exact clearStep clear orderly made

/- A thread waits only for threads of a higher rank. -/
def rank : Pc → Nat
  | .initLock _ _ => 0
  | .tickPool => 0
  | .fetchLock _ _ => 0
  | .returnLock _ _ => 0
  | .fetchPool _ _ => 1
  | .tickJob => 2
  | .tickBucket _ _ _ => 2
  | _ => 3

theorem poolRank {pc : Pc} (has : Lock.pool ∈ held pc) : 2 ≤ rank pc := by
  cases pc <;> simp_all [held,rank]

theorem jobRank {pc : Pc} (has : Lock.job ∈ held pc) : 2 ≤ rank pc ∧ (rank pc = 2 → Lock.pool ∈ held pc) := by
  cases pc <;> simp_all [held,rank]

theorem bucketRank {pc : Pc} {slot : Nat} (has : Lock.bucket slot ∈ held pc) :
    rank pc = 3 ∨ ∃ size, pc = .fetchPool slot size := by
  cases pc <;> simp_all [held,rank]

theorem bucketAbove {pc : Pc} {slot : Nat} (has : Lock.bucket slot ∈ held pc) : 1 ≤ rank pc := by
  rcases bucketRank has with top | ⟨size,rfl⟩
  · omega
  · exact Nat.le_refl 1

theorem waitsUp {s : State} (agreed : Agreed s) (clear : Clear s) (t u : Nat)
    (waits : Waits s.holder (fun t => wants (s.pc t)) t u) : rank (s.pc t) < rank (s.pc u) := by
  obtain ⟨l,stands,owner⟩ := waits
  have has : l ∈ held (s.pc u) := (agreed.agree l u).mp owner
  simp only at stands
  cases pc : s.pc t with
  | initLock cps burst =>
    rw [pc] at stands
    cases stands
    exact Nat.lt_of_lt_of_le Nat.zero_lt_two (jobRank has).1
  | tickPool =>
    rw [pc] at stands
    cases stands
    exact Nat.lt_of_lt_of_le Nat.zero_lt_two (poolRank has)
  | fetchPool slot size =>
    rw [pc] at stands
    cases stands
    exact Nat.lt_of_lt_of_le Nat.one_lt_two (poolRank has)
  | fetchLock slot size =>
    rw [pc] at stands
    cases stands
    exact bucketAbove has
  | returnLock slot size =>
    rw [pc] at stands
    cases stands
    exact bucketAbove has
  | tickJob =>
    rw [pc] at stands
    cases stands
    obtain ⟨least,tied⟩ := jobRank has
    by_contra level
    -- Both would hold pool_mut.
    have theirs := tied (Nat.le_antisymm (Nat.le_of_not_lt level) least)
    have one : t = u := oneHolder agreed.agree (show Lock.pool ∈ held (s.pc t) by rw [pc]; simp [held]) theirs
    rw [← one,pc] at has
    simp [held] at has
  | tickBucket i perJob remaining =>
    rw [pc] at stands
    cases stands
    rcases bucketRank has with top | ⟨size,there⟩
    · rw [top]
      exact Nat.lt_succ_self 2
    · have coming := clear u i size there t
      rw [pc] at coming
      simp [comes] at coming
  | _ =>
    rw [pc] at stands
    contradiction

theorem poolLocks {events : List Event} {s : State} (run : exec next start events = some s)
    (orderly : Along next Orderly start events) : ¬ Frozen s := by
  have both : Agreed s ∧ Clear s := by
    refine invariantAlong (I := fun s => Agreed s ∧ Clear s) ⟨agreedStart,?_⟩ ?_ run orderly
    · intro t slot size there
      cases there
    · intro s e u kept orderly step
      have move := moveSound step
      exact ⟨agreedMove kept.1 move,clearMove kept.2 orderly move⟩
  exact rankedFree (fun t => rank (s.pc t)) (waitsUp both.1 both.2)

def Few (n : Nat) (s : State) : Prop := ∀ v, n ≤ v → s.pc v = .idle

def orderlyNow (n : Nat) (s : State) (e : Event) : Bool :=
  decide (actor e < n) && match e with
  | .step t => match s.pc t with
    | .fetchTest slot _ => (s.job slot).all (fun b => decide (0 < b.token)) ||
        (List.range n).all fun v => !comes slot (s.pc v)
    | .tickPool => (List.range n).all fun v => match s.pc v with
      | .fetchPool _ _ => false
      | _ => true
    | _ => true
  | _ => true

theorem fewNext {n : Nat} {s u : State} {e : Event} (few : Few n s) (now : orderlyNow n s e = true)
    (step : next s e = some u) : Few n u := by
  intro v past
  have inside : actor e < n := of_decide_eq_true (Bool.and_eq_true_iff.mp now).1
  rw [moveOthers (moveSound step) (by omega)]
  exact few v past

theorem orderlySound {n : Nat} {s : State} {e : Event} (u : State) (few : Few n s) (now : orderlyNow n s e = true) :
    Orderly s e u := by
  obtain ⟨_,now⟩ := Bool.and_eq_true_iff.mp now
  constructor
  · rintro t slot size b rfl test live dry v
    simp only [test,live,Option.all_some,Bool.or_eq_true,decide_eq_true_eq] at now
    by_cases inside : v < n
    · have clear := List.all_eq_true.mp (now.resolve_left (by omega)) v (List.mem_range.mpr inside)
      simpa using clear
    · rw [few v (by omega)]
      rfl
  · rintro t rfl pool v slot size before
    simp only [pool] at now
    by_cases inside : v < n
    · have clear := List.all_eq_true.mp now v (List.mem_range.mpr inside)
      simp [before] at clear
    · rw [few v (by omega)] at before
      contradiction

/- A fetch finds its bucket empty and the pool too, and sleeps. An alrm_handle comes, and
the fetch that wakes waits for the mutex of the bucket it feeds. -/
def service : List Event :=
  [.init 0 40960 204800,.step 0,.step 0,.fetch 2 0 40960,.step 2,.tick 1,.step 2,.step 2,.step 2,.step 2,
    .step 1,.step 1,.step 1,.step 1,.wake 2]

theorem serviceRuns : ∃ s, exec next start service = some s ∧ s.pc 1 = .tickHeld 0 40960 0 ∧
    wants (s.pc 2) = some (.bucket 0) ∧ s.holder (.bucket 0) = some 1 ∧
    Along next Orderly start service ∧ ¬ Frozen s := by
  have orderly : Along next Orderly start service :=
    alongKept (fun _ _ _ few now step => fewNext few now step) (fun _ _ u few now => orderlySound u few now)
      (fun _ _ => rfl : Few 3 start) (by decide +kernel)
  have seen : (exec next start service).map (fun s => (s.pc 1,wants (s.pc 2),s.holder (.bucket 0))) =
      some (.tickHeld 0 40960 0,some (.bucket 0),some 1) := by decide +kernel
  obtain ⟨s,run,same⟩ := Option.map_eq_some_iff.mp seen
  simp only [Prod.mk.injEq] at same
  exact ⟨s,run,same.1,same.2.1,same.2.2,orderly,poolLocks run orderly⟩

/- A fetch finds its bucket empty and stands before the pool, which an alrm_handle on its
way to that bucket holds. -/
def embrace : List Event :=
  [.init 0 40960 204800,.step 0,.step 0,.fetch 2 0 40960,.step 2,.step 2,.tick 1,.step 1,.step 1,.step 1]

theorem embraceFreezes : ∃ s, exec next start embrace = some s ∧ Frozen s := by
  have seen : (exec next start embrace).map (fun s => (s.pc 1,s.pc 2,s.holder .pool,s.holder (.bucket 0))) =
      some (.tickBucket 0 40960 40960,.fetchPool 0 40960,some 1,some 2) := by decide +kernel
  obtain ⟨s,run,same⟩ := Option.map_eq_some_iff.mp seen
  obtain ⟨handler,fetch,pool,bucket⟩ : s.pc 1 = _ ∧ s.pc 2 = _ ∧ s.holder .pool = _ ∧ s.holder (.bucket 0) = _ := by
    simpa using same
  exact ⟨s,run,crossed (t := 1) (u := 2) ⟨.bucket 0,congrArg wants handler,bucket⟩ ⟨.pool,congrArg wants fetch,pool⟩⟩

end IPv4Media.PoolLocks
