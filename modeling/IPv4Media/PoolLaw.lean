import IPv4Media.TokenPool

/-! Tokens of the pool design are moved, not made: while an alrm_handle distributes,
its remaining_tokens stand for total_tokens, which it writes back at the end. -/
namespace IPv4Media.PoolLaw
open TokenBucket TimerModule TokenPool Execution

def balance : Option Mytbf → Int
  | none => 0
  | some b => b.token

def balances (job : Nat → Option Mytbf) (n : Nat) : Int := ((List.range n).map fun i => balance (job i)).sum

theorem balancesSucc (job : Nat → Option Mytbf) (n : Nat) :
    balances job (n+1) = balances job n + balance (job n) := by
  simp [balances,List.range_succ]

theorem balancesPast (job : Nat → Option Mytbf) {n slot : Nat} (b : Option Mytbf) (past : n ≤ slot) :
    balances (update job slot b) n = balances job n := by
  induction n with
  | zero => rfl
  | succ n ih => rw [balancesSucc,balancesSucc,ih (by omega),updateOther _ _ (by omega)]

theorem balancesPut (job : Nat → Option Mytbf) {n slot : Nat} (b : Option Mytbf) (inside : slot < n) :
    balances (update job slot b) n = balances job n - balance (job slot) + balance b := by
  induction n with
  | zero => omega
  | succ n ih =>
    rw [balancesSucc,balancesSucc]
    by_cases last : slot = n
    · subst last
      rw [balancesPast job b (Nat.le_refl _),updateSame]
      omega
    · rw [ih (by omega),updateOther _ _ (Ne.symm last)]
      omega

/- What the pool really has: inside the distribution total_tokens is out of date. -/
def remainingOf (totalTokens : Int) : Pc → Int
  | .tickLoop _ _ remaining => remaining
  | .tickBucket _ _ remaining => remaining
  | .tickHeld _ _ remaining => remaining
  | _ => totalTokens

def pooled (s : State) : Int :=
  match s.holder .pool with
  | some t => remainingOf s.totalTokens (s.pc t)
  | none => s.totalTokens

def level (s : State) : Int := balances s.job mytbfMax + pooled s + s.fetched - s.refunded

theorem pooledHeld {s : State} {t : Nat} (agreed : Agreed s) (has : Lock.pool ∈ held (s.pc t)) :
    pooled s = remainingOf s.totalTokens (s.pc t) := by
  rw [pooled,(agreed.agree .pool t).mpr has]

theorem pooledFree {s : State} (free : s.holder .pool = none) : pooled s = s.totalTokens := by
  rw [pooled,free]

theorem pooledOther {s u : State} {t : Nat} (agreed : Agreed s) (without : Lock.pool ∉ held (s.pc t))
    (others : ∀ v, v ≠ t → u.pc v = s.pc v) (holder : u.holder .pool = s.holder .pool)
    (total : u.totalTokens = s.totalTokens) : pooled u = pooled s := by
  unfold pooled
  rw [holder,total]
  cases owner : s.holder .pool with
  | none => rfl
  | some v =>
    have other : v ≠ t := by
      rintro rfl
      exact without ((agreed.agree .pool v).mp owner)
    simp only [others v other]

structure Capped (slot : Nat) (b : Mytbf) : Prop where
  inside : slot < mytbfMax
  depth : 1 ≤ b.burst
  low : 0 ≤ b.token
  high : b.token ≤ b.burst

def Local : Pc → Prop
  | .initLock _ burst => 1 ≤ burst
  | .tickLoop _ perJob remaining => 0 ≤ perJob ∧ 0 ≤ remaining ∧ remaining ≤ maxTokens
  | .tickBucket _ perJob remaining => 0 ≤ perJob ∧ 0 ≤ remaining ∧ remaining ≤ maxTokens
  | .tickHeld _ perJob remaining => 0 ≤ perJob ∧ 0 ≤ remaining ∧ remaining ≤ maxTokens
  | .fetchLock _ size => 1 ≤ size
  | .fetchTest _ size => 1 ≤ size
  | .fetchPool _ size => 1 ≤ size
  | .fetchGrabbed _ size => 1 ≤ size
  | .fetchNone _ size => 1 ≤ size
  | .fetchSleep _ size => 1 ≤ size
  | .fetchWait _ size => 1 ≤ size
  | .fetchTake _ size => 1 ≤ size
  | .returnLock _ size => 0 ≤ size
  | _ => True

structure Bounded (s : State) : Prop where
  low : 0 ≤ s.totalTokens
  high : s.totalTokens ≤ maxTokens
  buckets : ∀ slot b, s.job slot = some b → Capped slot b
  locals : ∀ t, Local (s.pc t)

def Dry (s : State) : Prop :=
  ∀ t slot size, s.pc t = .fetchPool slot size → ∃ b, s.job slot = some b ∧ b.token ≤ 0

theorem allocatedBounds {slot : Nat} {b : Mytbf} {perJob remaining : Int} (capped : Capped slot b)
    (some_ : 0 ≤ remaining) :
    0 ≤ allocated b perJob remaining ∧ allocated b perJob remaining ≤ remaining ∧
      b.token + allocated b perJob remaining ≤ b.burst := by
  have high := capped.high
  unfold allocated
  omega

theorem requestBounds {slot : Nat} {b : Mytbf} {size totalTokens : Int} (capped : Capped slot b) (wanted : 1 ≤ size)
    (some_ : 0 < totalTokens) :
    1 ≤ request b size totalTokens ∧ request b size totalTokens ≤ totalTokens ∧
      request b size totalTokens ≤ b.burst := by
  have depth := capped.depth
  unfold request
  omega

theorem refilledBounds {totalTokens : Int} (low : 0 ≤ totalTokens) :
    0 ≤ refilled totalTokens ∧ refilled totalTokens ≤ maxTokens ∧
      refilled totalTokens ≤ totalTokens + refillRate := by
  have rate : 0 ≤ refillRate := by decide
  have most : 0 ≤ maxTokens := by decide
  unfold refilled
  split <;> omega

theorem returnBounds {slot : Nat} {b c : Mytbf} {size : Int} (capped : Capped slot b) (positive : 0 ≤ size)
    (added : returntoken b size = some c) : Capped slot c ∧ c.token ≤ b.token + size := by
  obtain ⟨inside,depth,low,high⟩ := capped
  rw [returnSum added]
  exact ⟨⟨inside,depth,by simp only; omega,by simp only; omega⟩,by simp only; omega⟩

theorem cappedPut {job : Nat → Option Mytbf} {slot : Nat} {c : Mytbf} (buckets : ∀ i b, job i = some b → Capped i b)
    (capped : Capped slot c) : ∀ i b, update job slot (some c) i = some b → Capped i b :=
  updateSome capped fun i b _ => buckets i b

theorem localsMoved {s : State} {pcs : Nat → Pc} {t : Nat} (bounded : Bounded s) (mine : Local (pcs t))
    (others : ∀ v, v ≠ t → pcs v = s.pc v) : ∀ v, Local (pcs v) := by
  intro v
  by_cases same : v = t
  · rw [same]
    exact mine
  · rw [others v same]
    exact bounded.locals v

theorem localHanded {s : State} (bounded : Bounded s) : Local (handed s.job s.totalTokens) := by
  by_cases some_ : 0 < activeJobs s.job ∧ 0 < s.totalTokens
  · rw [handed,if_pos some_]
    exact ⟨Int.ediv_nonneg bounded.low (Int.natCast_nonneg _),bounded.low,bounded.high⟩
  · rw [handed,if_neg some_]
    exact True.intro

theorem boundedStep {s u : State} {t : Nat} {pc : Pc} (at_ : s.pc t = pc) (bounded : Bounded s) (dry : Dry s)
    (step : Step s t pc u) : Bounded u := by
  have mine := bounded.locals t
  rw [at_] at mine
  have others := fun v => @stepOthers s u t v pc step
  have ⟨low,high,buckets,_⟩ := bounded
  cases step with
  | initPlace cps burst pos free inside empty =>
    refine ⟨low,high,cappedPut buckets ⟨inside,mine,Int.le_refl 0,?_⟩,localsMoved bounded (by simp [Local]) others⟩
    simp only [Local] at mine
    simp only
    omega
  | refill free =>
    obtain ⟨low',high',_⟩ := refilledBounds low
    exact ⟨low',high',buckets,localsMoved bounded (by simp [Local]) others⟩
  | tickCount free =>
    refine ⟨low,high,buckets,localsMoved bounded ?_ others⟩
    rw [tookPc]
    exact localHanded bounded
  | tickEnd i perJob remaining over_ =>
    exact ⟨mine.2.1,mine.2.2,buckets,localsMoved bounded (by simp [Local]) others⟩
  | tickGive i perJob remaining b live free =>
    have capped := buckets i b live
    have bounds := @allocatedBounds i b perJob remaining capped mine.2.1
    refine ⟨low,high,cappedPut buckets ⟨capped.inside,capped.depth,?_,bounds.2.2⟩,localsMoved bounded ?_ others⟩
    · have token := capped.low
      simp only
      omega
    · simp only [putBucketPc,tookPc]
      exact ⟨mine.1,by omega,by have most := mine.2.2; omega⟩
  | fetchGrab slot size b live free some_ =>
    have capped := buckets slot b live
    obtain ⟨c,found,empty⟩ := dry t slot size at_
    cases Option.some.inj (found.symm.trans live)
    have token := capped.low
    have bounds := @requestBounds slot b size s.totalTokens capped mine some_
    refine ⟨?_,?_,cappedPut buckets ⟨capped.inside,capped.depth,?_,?_⟩,localsMoved bounded ?_ others⟩
    · simp only
      omega
    · simp only
      omega
    · simp only
      omega
    · simp only
      omega
    · simp only [putBucketPc,tookPc]
      exact mine
  | fetchTake slot size b live =>
    have capped := buckets slot b live
    have token := capped.low
    have cap := capped.high
    refine ⟨low,high,cappedPut buckets ⟨capped.inside,capped.depth,?_,?_⟩,localsMoved bounded (by simp [Local]) others⟩
    · simp only
      omega
    · simp only [Local] at mine ⊢
      omega
  | returnAdd slot size b c live free added =>
    have capped := (returnBounds (buckets slot b live) mine added).1
    exact ⟨low,high,cappedPut buckets capped,localsMoved bounded (by simp [Local]) others⟩
  | _ => exact ⟨low,high,buckets,localsMoved bounded (by simp_all [Local]) others⟩

theorem dryStep {s u : State} {t : Nat} (agreed : Agreed s) (dry : Dry s) (step : Step s t (s.pc t) u) : Dry u := by
  intro v slot size there
  by_cases mine : v = t
  · subst mine
    generalize s.pc v = pc at step
    cases step with
    | fetchEmpty i n c found empty =>
      rw [gotoPc] at there
      cases there
      exact ⟨c,found,empty⟩
    | tickCount free =>
      rw [tookPc] at there
      have locks := heldHanded s.job s.totalTokens
      rw [there] at locks
      simp [held] at locks
    | _ => simp at there
  · rw [stepOthers step mine] at there
    obtain ⟨c,before,empty⟩ := dry v slot size there
    refine ⟨c,?_,empty⟩
    rw [stepFrame agreed step (by rw [there]; simp [held]) mine before]
    exact before

theorem remainingHanded (job : Nat → Option Mytbf) (totalTokens : Int) :
    remainingOf totalTokens (handed job totalTokens) = totalTokens := by
  unfold handed
  split <;> rfl

theorem levelFrom {s u : State} {x y : Int} (before : pooled s = x) (now : pooled u = y)
    (sum : balances u.job mytbfMax + y + u.fetched - u.refunded + refillRate * s.ticks ≤
      balances s.job mytbfMax + x + s.fetched - s.refunded + refillRate * u.ticks) :
    level u + refillRate * s.ticks ≤ level s + refillRate * u.ticks := by
  rw [level,level,before,now]
  exact sum

theorem balancesPaid {s : State} {slot : Nat} {b : Mytbf} (bounded : Bounded s) (live : s.job slot = some b)
    (c : Mytbf) :
    balances (update s.job slot (some c)) mytbfMax = balances s.job mytbfMax - b.token + c.token := by
  have sum := balancesPut s.job (some c) (bounded.buckets slot b live).inside
  rw [live] at sum
  exact sum

def pays : Pc → Bool
  | .initLock _ _ => true
  | .tickPool => true
  | .tickBucket _ _ _ => true
  | .fetchPool _ _ => true
  | .fetchTake _ _ => true
  | .returnLock _ _ => true
  | _ => false

theorem pooledKept {s u : State} {t : Nat} (agreed : Agreed s) (after : Agreed u) (has : Lock.pool ∈ held (s.pc t))
    (still : Lock.pool ∈ held (u.pc t))
    (same : remainingOf u.totalTokens (u.pc t) = remainingOf s.totalTokens (s.pc t)) : pooled u = pooled s := by
  rw [pooledHeld agreed has,pooledHeld after still,same]

theorem pooledStep {s u : State} {t : Nat} {pc : Pc} (at_ : s.pc t = pc) (agreed : Agreed s) (after : Agreed u)
    (idle : pays pc = false) (step : Step s t pc u) : pooled u = pooled s := by
  have others := fun v => @stepOthers s u t v pc step
  have kept := @pooledKept s u t agreed after
  cases step with
  | initUnlock => exact pooledOther agreed (by simp [at_,held]) others (by simp [unlock,goto]) rfl
  | tickCount free =>
    refine kept (by simp [at_,held]) (by rw [tookPc,heldHanded]; simp) ?_
    rw [tookPc,at_]
    exact remainingHanded s.job s.totalTokens
  | tickSlot i perJob remaining inside more some_ =>
    exact kept (by simp [at_,held]) (by simp [held]) (by simp [at_,remainingOf])
  | tickSkip i perJob remaining inside more none_ =>
    exact kept (by simp [at_,held]) (by simp [held]) (by simp [at_,remainingOf])
  | tickEnd i perJob remaining over_ =>
    exact kept (by simp [at_,held]) (by simp [held]) (by simp [at_,remainingOf])
  | tickUnlockBucket i perJob remaining =>
    exact kept (by simp [at_,held]) (by simp [held]) (by simp [at_,remainingOf])
  | tickUnlockJob =>
    exact kept (by simp [at_,held]) (by simp [held]) (by simp [at_,remainingOf,unlock,goto])
  | tickUnlockPool =>
    rw [pooledHeld (t := t) agreed (by simp [at_,held]),pooledFree (by simp [unlock]),at_]
    rfl
  | fetchGrabbed slot size =>
    rw [pooledHeld (t := t) agreed (by simp [at_,held]),pooledFree (by simp [unlock]),at_]
    rfl
  | fetchNone slot size =>
    rw [pooledHeld (t := t) agreed (by simp [at_,held]),pooledFree (by simp [unlock]),at_]
    rfl
  | fetchLock slot size free => exact pooledOther agreed (by simp [at_,held]) others (by simp [took,goto]) rfl
  | fetchEmpty slot size b live empty => exact pooledOther agreed (by simp [at_,held]) others (by simp [goto]) rfl
  | fetchFilled slot size b live filled => exact pooledOther agreed (by simp [at_,held]) others (by simp [goto]) rfl
  | fetchSleep slot size => exact pooledOther agreed (by simp [at_,held]) others (by simp [unlock,goto]) rfl
  | fetchUnlock slot => exact pooledOther agreed (by simp [at_,held]) others (by simp [unlock,goto]) rfl
  | returnUnlock slot => exact pooledOther agreed (by simp [at_,held]) others (by simp [unlock,goto]) rfl
  | _ => simp [pays] at idle

theorem levelStep {s u : State} {t : Nat} {pc : Pc} (at_ : s.pc t = pc) (agreed : Agreed s) (after : Agreed u)
    (bounded : Bounded s) (step : Step s t pc u) :
    level u + refillRate * s.ticks ≤ level s + refillRate * u.ticks := by
  have others := fun v => @stepOthers s u t v pc step
  have same := fun idle => pooledStep at_ agreed after idle step
  cases step with
  | initPlace cps burst pos free inside empty =>
    refine levelFrom rfl (pooledOther agreed (by simp [at_,held]) others (by simp [putBucket,took,goto]) rfl) ?_
    have sum := balancesPut s.job (some ⟨cps,burst,0,pos⟩) inside
    rw [empty] at sum
    simp only [balance] at sum
    simp only [putBucket,took,goto]
    omega
  | refill free =>
    refine levelFrom (pooledFree free) (pooledHeld (t := t) after (by simp [held])) ?_
    obtain ⟨_,_,most⟩ := refilledBounds bounded.low
    simp only [tookPc,remainingOf]
    simp only [took,goto]
    rw [Int.natCast_add,Int.mul_add,Int.natCast_one,Int.mul_one]
    omega
  | tickGive i perJob remaining b live free =>
    refine levelFrom (pooledHeld (t := t) agreed (by simp [at_,held])) (pooledHeld (t := t) after (by simp [held])) ?_
    have sum := balancesPaid bounded live { b with token := b.token + allocated b perJob remaining }
    simp only at sum
    simp only [putBucketPc,tookPc,at_,remainingOf]
    simp only [putBucket,took,goto]
    omega
  | fetchGrab slot size b live free some_ =>
    refine levelFrom (pooledFree free) (pooledHeld (t := t) after (by simp [held])) ?_
    have sum := balancesPaid bounded live { b with token := b.token + request b size s.totalTokens }
    simp only at sum
    simp only [putBucketPc,tookPc,remainingOf]
    simp only [putBucket,took,goto]
    omega
  | fetchDry slot size free none_ =>
    refine levelFrom (pooledFree free) (pooledHeld (t := t) after (by simp [held])) ?_
    simp [remainingOf,goto,took]
  | fetchTake slot size b live =>
    refine levelFrom rfl (pooledOther agreed (by simp [at_,held]) others (by simp [putBucket,goto]) rfl) ?_
    have sum := balancesPaid bounded live { b with token := b.token - min b.token size }
    simp only at sum
    simp only [putBucket,goto]
    omega
  | returnAdd slot size b c live free added =>
    refine levelFrom rfl (pooledOther agreed (by simp [at_,held]) others (by simp [putBucket,took,goto]) rfl) ?_
    have positive := bounded.locals t
    rw [at_] at positive
    have most := (returnBounds (bounded.buckets slot b live) positive added).2
    have sum := balancesPaid bounded live c
    simp only [putBucket,took,goto]
    omega
  | _ => exact levelFrom rfl (same rfl) (Int.le_refl _)

structure Sound (s : State) : Prop where
  agreed : Agreed s
  bounded : Bounded s
  dry : Dry s
  minted : level s ≤ refillRate * s.ticks

theorem soundStart : Sound start := by
  refine ⟨agreedStart,⟨Int.le_refl 0,by decide,by simp [start],fun _ => True.intro⟩,by simp [Dry,start],?_⟩
  have none_ : ∀ n, balances start.job n = 0 := by
    intro n
    induction n with
    | zero => rfl
    | succ n ih => rw [balancesSucc,ih]; rfl
  rw [level,none_,pooledFree rfl]
  decide

theorem soundGoto {s : State} {t : Nat} {pc : Pc} {owed : Nat → Int} (sound : Sound s) (free : held (s.pc t) = [])
    (now : held pc = []) (mine : Local pc) : Sound { goto s t pc with owed := owed } := by
  have others : ∀ v, v ≠ t → ({ goto s t pc with owed := owed } : State).pc v = s.pc v :=
    fun v other => updateOther _ _ other
  refine ⟨Locking.disciplinedStay sound.agreed ?_,?_,?_,?_⟩
  · intro v
    by_cases same : v = t
    · subst same
      simp [free,now]
    · rw [others v same]
  · exact ⟨sound.bounded.low,sound.bounded.high,sound.bounded.buckets,
      localsMoved sound.bounded (by rw [gotoPc]; exact mine) others⟩
  · intro v slot size there
    by_cases same : v = t
    · subst same
      rw [gotoPc] at there
      simp [there,held] at now
    · rw [others v same] at there
      exact sound.dry v slot size there
  · have same : pooled { goto s t pc with owed := owed } = pooled s :=
      pooledOther sound.agreed (by simp [free]) others rfl rfl
    rw [level,same]
    exact sound.minted

theorem soundMove {s u : State} {e : Event} (sound : Sound s) (move : Move s e u) : Sound u := by
  have after := agreedMove sound.agreed move
  cases move with
  | init t cps burst free depth => exact soundGoto sound (by rw [free]; rfl) rfl depth
  | tick t free => exact soundGoto sound (by rw [free]; rfl) rfl True.intro
  | fetch t slot size free live wanted => exact soundGoto sound (by rw [free]; rfl) rfl wanted
  | giveBack t slot size free live positive within => exact soundGoto sound (by rw [free]; rfl) rfl positive
  | wake t slot size waiting =>
    have wanted := sound.bounded.locals t
    rw [waiting] at wanted
    exact soundGoto sound (by rw [waiting]; rfl) rfl wanted
  | step t u made =>
    have paid := levelStep rfl sound.agreed after sound.bounded made
    have before := sound.minted
    exact ⟨after,boundedStep rfl sound.bounded sound.dry made,dryStep sound.agreed sound.dry made,by omega⟩

theorem soundRun {events : List Event} {s : State} (run : exec next start events = some s) : Sound s :=
  invariant soundStart (fun _ _ _ sound step => soundMove sound (moveSound step)) run

def distributing : Pc → Bool
  | .tickLoop _ _ _ => true
  | .tickBucket _ _ _ => true
  | .tickHeld _ _ _ => true
  | _ => false

def supply (s : State) : Int := balances s.job mytbfMax + s.totalTokens + s.fetched - s.refunded

structure Conserved (s : State) : Prop where
  pool : 0 ≤ s.totalTokens ∧ s.totalTokens ≤ maxTokens
  buckets : ∀ slot b, s.job slot = some b → 0 ≤ b.token ∧ b.token ≤ b.burst
  distributing : level s ≤ refillRate * s.ticks
  otherwise : (∀ t, PoolLaw.distributing (s.pc t) = false) → supply s ≤ refillRate * s.ticks

theorem poolConservation {events : List Event} {s : State} (run : exec next start events = some s) :
    Conserved s := by
  have sound := soundRun run
  refine ⟨⟨sound.bounded.low,sound.bounded.high⟩,?_,sound.minted,?_⟩
  · intro slot b live
    have capped := sound.bounded.buckets slot b live
    exact ⟨capped.low,capped.high⟩
  · intro quiet
    have same : pooled s = s.totalTokens := by
      unfold pooled
      cases owner : s.holder .pool with
      | none => rfl
      | some t =>
        have idle := quiet t
        simp only
        cases pc : s.pc t <;> simp_all [PoolLaw.distributing,remainingOf]
    have minted := sound.minted
    rw [level,same] at minted
    exact minted

def firstTick : List Event :=
  [.init 0 40960 204800,.step 0,.step 0,.tick 1,.step 1,.step 1,.step 1,.step 1]

/- total_tokens still counts what the bucket has been given. -/
theorem countedTwice : ∃ s, exec next start firstTick = some s ∧ ¬ supply s ≤ refillRate * s.ticks := by
  have sums : (exec next start firstTick).map (fun s => (supply s,s.ticks)) = some (81920,1) := by decide +kernel
  obtain ⟨s,run,both⟩ := Option.map_eq_some_iff.mp sums
  obtain ⟨much,once⟩ := Prod.mk.inj both
  refine ⟨s,run,?_⟩
  rw [much,once]
  decide

def firstFetch : List Event :=
  firstTick ++ List.replicate 4 (.step 1) ++ [.fetch 2 0 100,.step 2,.step 2,.step 2,.step 2]

theorem fetchedOnce : ∃ s, exec next start firstFetch = some s ∧ Conserved s ∧ s.fetched = 100 := by
  have sums : (exec next start firstFetch).map (fun s => s.fetched) = some 100 := by decide +kernel
  obtain ⟨s,run,taken⟩ := Option.map_eq_some_iff.mp sums
  exact ⟨s,run,poolConservation run,taken⟩

end IPv4Media.PoolLaw
