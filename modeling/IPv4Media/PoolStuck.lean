import IPv4Media.PoolLocks
import IPv4Media.PoolService

/-! What becomes of the pool design once a fetch on an empty bucket and an alrm_handle on
its way to that bucket have crossed. PoolLocks has that they deadlock; here it is that
nothing else can happen, and that every run either stays clear of it or is in it. -/
namespace IPv4Media.PoolStuck
open TokenBucket TimerModule TokenPool PoolLaw PoolLocks PoolService FairShares Execution

/- The fetch t has the mutex of a bucket that is empty, and the alrm_handle v has pool_mut
and the bucket still before it. -/
structure Embraced (s : State) (t v slot : Nat) : Prop where
  fetch : ∃ size, s.pc t = .fetchTest slot size ∨ s.pc t = .fetchPool slot size
  empty : ∃ b, s.job slot = some b ∧ b.token ≤ 0
  handler : comes slot (s.pc v) = true

def Reached (s : State) : Prop := ∃ events, exec next start events = some s

theorem comesHolds {pc : Pc} {slot : Nat} (coming : comes slot pc = true) : Lock.pool ∈ held pc := by
  cases pc <;> simp [comes,held] at coming ⊢

theorem embracedBucket {s : State} {t v slot : Nat} (embraced : Embraced s t v slot) :
    Lock.bucket slot ∈ held (s.pc t) := by
  obtain ⟨size,test | pool⟩ := embraced.fetch
  · simp [test,held]
  · simp [pool,held]

theorem embracedApart {s : State} {t v slot : Nat} (embraced : Embraced s t v slot) : t ≠ v := by
  intro same
  have coming := embraced.handler
  rw [← same] at coming
  obtain ⟨size,test | pool⟩ := embraced.fetch
  · simp [test,comes] at coming
  · simp [pool,comes] at coming

theorem ticksKept {s u : State} {e : Event} {v : Nat} (locked : s.holder .pool = some v) (move : Move s e u) :
    u.ticks = s.ticks := by
  cases move with
  | step t u made =>
    generalize s.pc t = pc at made
    cases made with
    | refill free => simp [free] at locked
    | _ => rfl
  | _ => rfl

theorem handlerComes {s u : State} {t v slot : Nat} (sound : Sound s) (serving : Serving s (s.pc v))
    (stocked : Stocked s) (embraced : Embraced s t v slot) (step : Step s v (s.pc v) u) :
    comes slot (u.pc v) = true := by
  obtain ⟨b,live,_⟩ := embraced.empty
  have coming := embraced.handler
  have inside := (sound.bounded.buckets slot b live).inside
  have owner := (sound.agreed.agree (.bucket slot) t).mpr (embracedBucket embraced)
  have full := stocked v
  generalize s.pc v = pc at step coming serving full
  cases step with
  | tickCount free =>
    have rate : 0 < refillRate := by decide
    rw [tookPc,handed,if_pos ⟨activeSome inside live,Int.lt_of_lt_of_le rate (full rfl)⟩]
    simp [comes]
  | tickSlot i perJob remaining low more some_ =>
    rw [gotoPc]
    exact coming
  | tickSkip i perJob remaining low more none_ =>
    have before : i ≤ slot := of_decide_eq_true coming
    have apart : i ≠ slot := by
      intro same
      rw [same,live] at none_
      contradiction
    rw [gotoPc]
    exact decide_eq_true (by omega)
  | tickEnd i perJob remaining over_ =>
    obtain ⟨_,bound,uncut⟩ := serving
    have before : i ≤ slot := of_decide_eq_true coming
    rcases over_ with past | out
    · omega
    · have gone := exitServed uncut out slot before (by omega)
      rw [live] at gone
      contradiction
  | tickGive i perJob remaining c found free =>
    have before : i ≤ slot := of_decide_eq_true coming
    have apart : i ≠ slot := by
      intro same
      rw [same,owner] at free
      contradiction
    rw [putBucketPc,tookPc]
    exact decide_eq_true (by omega)
  | tickUnlockBucket i perJob remaining =>
    have before : i < slot := of_decide_eq_true coming
    rw [unlockPc]
    exact decide_eq_true (by omega)
  | _ => simp [comes] at coming

theorem fetchStands {s u : State} {t v slot : Nat} (agreed : Agreed s) (embraced : Embraced s t v slot)
    (step : Step s t (s.pc t) u) :
    (∃ size, u.pc t = .fetchTest slot size ∨ u.pc t = .fetchPool slot size) ∧ u.job slot = s.job slot := by
  obtain ⟨b,live,dry⟩ := embraced.empty
  have owner := (agreed.agree .pool v).mpr (comesHolds embraced.handler)
  obtain ⟨size,there⟩ := embraced.fetch
  generalize s.pc t = pc at step there
  cases step with
  | fetchEmpty i n c found empty =>
    simp only [Pc.fetchTest.injEq,reduceCtorEq,or_false] at there
    exact ⟨⟨size,.inr (by rw [gotoPc,there.1,there.2])⟩,rfl⟩
  | fetchFilled i n c found filled =>
    simp only [Pc.fetchTest.injEq,reduceCtorEq,or_false] at there
    rw [there.1,live] at found
    cases Option.some.inj found
    omega
  | fetchGrab i n c found free some_ => simp [free] at owner
  | fetchDry i n free none_ => simp [free] at owner
  | _ => simp at there

theorem actorBusy {s u : State} {e : Event} (move : Move s e u) (busy : held (s.pc (actor e)) ≠ []) :
    ∃ t, e = .step t ∧ Step s t (s.pc t) u := by
  cases move with
  | step t u made => exact ⟨t,rfl,made⟩
  | wake t slot size waiting => simp [actor,waiting,held] at busy
  | init t cps burst free depth => simp [actor,free,held] at busy
  | tick t free => simp [actor,free,held] at busy
  | fetch t slot size free live wanted => simp [actor,free,held] at busy
  | giveBack t slot size free live positive within => simp [actor,free,held] at busy

theorem embracedMove {s u : State} {e : Event} {t v slot : Nat} (reached : Reached s) (embraced : Embraced s t v slot)
    (move : Move s e u) : Embraced u t v slot := by
  obtain ⟨events,run⟩ := reached
  have sound := soundRun run
  have apart := embracedApart embraced
  have mutex := embracedBucket embraced
  have pool := comesHolds embraced.handler
  obtain ⟨b,live,dry⟩ := embraced.empty
  by_cases mine : actor e = t
  · obtain ⟨w,same,made⟩ := actorBusy move (by rw [mine]; exact List.ne_nil_of_mem mutex)
    have here : w = t := by rw [← mine,same]; rfl
    subst here
    obtain ⟨fetch,job⟩ := fetchStands sound.agreed embraced made
    refine ⟨fetch,⟨b,by rw [job]; exact live,dry⟩,?_⟩
    rw [stepOthers made (Ne.symm apart)]
    exact embraced.handler
  · have still := moveOthers move (Ne.symm mine)
    have job := moveFrame sound.agreed move mutex (Ne.symm mine) live
    refine ⟨by rw [still]; exact embraced.fetch,⟨b,by rw [job]; exact live,dry⟩,?_⟩
    by_cases theirs : actor e = v
    · obtain ⟨w,same,made⟩ := actorBusy move (by rw [theirs]; exact List.ne_nil_of_mem pool)
      have here : w = v := by rw [← theirs,same]; rfl
      subst here
      exact handlerComes sound (servingRun run w) (stockedRun run) embraced made
    · rw [moveOthers move (Ne.symm theirs)]
      exact embraced.handler

theorem reachedStep {s u : State} {e : Event} (reached : Reached s) (step : next s e = some u) : Reached u := by
  obtain ⟨events,run⟩ := reached
  exact ⟨events ++ [e],execSnoc.mpr ⟨s,run,step⟩⟩

theorem balancesLow {job : Nat → Option Mytbf} (low : ∀ i b, job i = some b → 0 ≤ b.token) (n : Nat) :
    0 ≤ balances job n := by
  induction n with
  | zero => exact Int.le_refl 0
  | succ n ih =>
    have last : 0 ≤ balance (job n) := by
      cases slot : job n with
      | none => exact Int.le_refl 0
      | some b => exact low n b slot
    rw [balancesSucc]
    omega

theorem pooledLow {s : State} (sound : Sound s) : 0 ≤ pooled s := by
  unfold pooled
  split
  · rename_i t owner
    have fits := sound.bounded.locals t
    have low := sound.bounded.low
    cases pc : s.pc t with
    | tickLoop i perJob remaining => rw [pc] at fits; exact fits.2.1
    | tickBucket i perJob remaining => rw [pc] at fits; exact fits.2.1
    | tickHeld i perJob remaining => rw [pc] at fits; exact fits.2.1
    | _ => exact low
  · exact sound.bounded.low

structure Stuck (s : State) (t v slot n : Nat) : Prop where
  embraced : Embraced s t v slot
  bucket : s.holder (.bucket slot) = some t
  pool : s.holder .pool = some v
  ticks : s.ticks = n
  spent : s.fetched - s.refunded ≤ refillRate * n

/- Whatever happens from there on, neither call returns and neither mutex is released. -/
theorem poolStuck {events more : List Event} {s u : State} {t v slot : Nat} (run : exec next start events = some s)
    (embraced : Embraced s t v slot) (later : exec next s more = some u) : Stuck u t v slot s.ticks := by
  have kept : Reached u ∧ Embraced u t v slot ∧ u.ticks = s.ticks := by
    refine invariant (I := fun u => Reached u ∧ Embraced u t v slot ∧ u.ticks = s.ticks)
      ⟨⟨events,run⟩,embraced,rfl⟩ ?_ later
    intro w e x before step
    obtain ⟨reached,there,same⟩ := before
    have move := moveSound step
    obtain ⟨_,ran⟩ := id reached
    have owner := ((soundRun ran).agreed.agree .pool v).mpr (comesHolds there.handler)
    exact ⟨reachedStep reached step,embracedMove reached there move,(ticksKept owner move).trans same⟩
  obtain ⟨⟨_,ran⟩,there,same⟩ := kept
  have sound := soundRun ran
  have minted := sound.minted
  have low := balancesLow (fun i b live => (sound.bounded.buckets i b live).low) mytbfMax
  have rest := pooledLow sound
  refine ⟨there,(sound.agreed.agree _ t).mpr (embracedBucket there),
    (sound.agreed.agree .pool v).mpr (comesHolds there.handler),same,?_⟩
  rw [level,same] at minted
  omega

theorem disorderly {s u : State} {e : Event} (reached : Reached s) (step : next s e = some u)
    (wild : ¬ Orderly s e u) : ∃ t v slot, Embraced u t v slot := by
  have move := moveSound step
  by_cases crossed : ∃ t slot size b v, e = .step t ∧ s.pc t = .fetchTest slot size ∧ s.job slot = some b ∧
      b.token ≤ 0 ∧ comes slot (s.pc v) = true
  · obtain ⟨t,slot,size,b,v,_,test,live,dry,coming⟩ := crossed
    exact ⟨t,v,slot,embracedMove reached ⟨⟨size,.inl test⟩,⟨b,live,dry⟩,coming⟩ move⟩
  · by_cases met : ∃ t v slot size, e = .step t ∧ s.pc t = .tickPool ∧ s.pc v = .fetchPool slot size
    · obtain ⟨v,t,slot,size,same,tick,pool⟩ := met
      subst same
      obtain ⟨events,run⟩ := reached
      have sound := soundRun run
      have apart : t ≠ v := by
        intro here
        rw [here,tick] at pool
        contradiction
      have mutex : Lock.bucket slot ∈ held (s.pc t) := by simp [pool,held]
      obtain ⟨b,live,dry⟩ := sound.dry t slot size pool
      have job := moveFrame sound.agreed move mutex apart live
      have stays := moveOthers move apart
      refine ⟨t,v,slot,⟨size,.inr (stays.trans pool)⟩,⟨b,job.trans live,dry⟩,?_⟩
      cases move with
      | step _ _ made =>
        rw [tick] at made
        cases made with
        | refill free =>
          show comes slot ((took s v .pool .tickJob).pc v) = true
          rw [tookPc]
          rfl
    · refine absurd ⟨?_,?_⟩ wild
      · intro t slot size b same test live dry v
        cases coming : comes slot (s.pc v) with
        | false => rfl
        | true => exact absurd ⟨t,slot,size,b,v,same,test,live,dry,coming⟩ crossed
      · intro t same tick v slot size pool
        exact met ⟨t,v,slot,size,same,tick,pool⟩

theorem poolFate {events : List Event} {s : State} (run : exec next start events = some s) :
    Along next Orderly start events ∨ ∃ t v slot, Embraced s t v slot := by
  have both : exec next start events = some s ∧ (Along next Orderly start events ∨ ∃ t v slot, Embraced s t v slot) := by
    refine history (I := fun events s => exec next start events = some s ∧
      (Along next Orderly start events ∨ ∃ t v slot, Embraced s t v slot)) ⟨rfl,.inl True.intro⟩ ?_ run
    intro events s e u before step
    obtain ⟨ran,fate⟩ := before
    refine ⟨execSnoc.mpr ⟨s,ran,step⟩,?_⟩
    rcases fate with along | ⟨t,v,slot,embraced⟩
    · by_cases wild : Orderly s e u
      · exact .inl ((alongSnoc ran step).mpr ⟨along,wild⟩)
      · exact .inr (disorderly ⟨events,ran⟩ step wild)
    · exact .inr ⟨t,v,slot,embracedMove ⟨events,ran⟩ embraced (moveSound step)⟩
  exact both.2

/- The two calls of PoolLocks' deadlock, before either stands before the other's mutex. -/
def early : List Event :=
  [.init 0 40960 204800,.step 0,.step 0,.fetch 2 0 40960,.step 2,.tick 1,.step 1]

theorem earlyEmbraced : ∃ s, exec next start early = some s ∧ s.ticks = 1 ∧ Embraced s 2 1 0 := by
  have seen : (exec next start early).map (fun s => (s.pc 1,s.pc 2,s.job 0,s.ticks)) =
      some (.tickJob,.fetchTest 0 40960,some ⟨40960,204800,0,0⟩,1) := by decide +kernel
  obtain ⟨s,run,same⟩ := Option.map_eq_some_iff.mp seen
  obtain ⟨handler,fetch,job,ticks⟩ : s.pc 1 = _ ∧ s.pc 2 = _ ∧ s.job 0 = _ ∧ s.ticks = _ := by simpa using same
  exact ⟨s,run,ticks,⟨40960,.inl fetch⟩,⟨_,job,Int.le_refl 0⟩,by rw [handler]; rfl⟩

theorem earlyStuck : ∃ s u, exec next start early = some s ∧ exec next s [.step 2,.step 1,.step 1] = some u ∧
    Stuck u 2 1 0 1 := by
  obtain ⟨s,run,ticks,embraced⟩ := earlyEmbraced
  have goes : (exec next start (early ++ [.step 2,.step 1,.step 1])).isSome = true := by decide +kernel
  obtain ⟨u,whole⟩ := Option.isSome_iff_exists.mp goes
  obtain ⟨middle,first,later⟩ := execSplit whole
  cases Option.some.inj (run.symm.trans first)
  have stuck := poolStuck run embraced later
  rw [ticks] at stuck
  exact ⟨s,u,run,later,stuck⟩

theorem earlyFate : ∃ s, exec next start early = some s ∧
    (Along next Orderly start early ∨ ∃ t v slot, Embraced s t v slot) := by
  obtain ⟨s,run,_⟩ := earlyEmbraced
  exact ⟨s,run,poolFate run⟩

end IPv4Media.PoolStuck
