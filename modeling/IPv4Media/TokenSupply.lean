import IPv4Media.TimerCalls

/-! What a bucket is sure to get. TokenLaw bounds from above what callers can take; here it
is bounded from below what there is for them: no tick passes a registered bucket over, and
nothing of what a tick brings is lost but what the bucket has no room for. -/
namespace IPv4Media.TokenSupply
open TokenBucket TimerModule TokenLaw Execution

theorem aheadExact {pos : Nat} {s t : TokenLaw.State} {e : TokenLaw.Event} (inside : pos < mytbfMax) (step : Step s e t) :
    ahead pos t + amountAt (.tickSlot pos) 1 e = ahead pos s + amountAt .tickBegin 1 e := by
  cases step with
  | init | destroy | fetch => simp [ahead,putBucket,amountAt]
  | tickBegin idle => simp [ahead,idle,amountAt]
  | tickEmpty i at_ within empty =>
    simp only [ahead,at_,amountAt,TokenLaw.Event.tickSlot.injEq,reduceCtorEq,if_false]
    split <;> split <;> split <;> omega
  | tickCredit i other b at_ within slot live =>
    simp only [ahead,at_,amountAt,TokenLaw.Event.tickSlot.injEq,reduceCtorEq,if_false]
    split <;> split <;> split <;> omega
  | tickEnd at_ =>
    have past : ¬ mytbfMax ≤ pos := by omega
    simp [ahead,at_,amountAt,past]
  | giveBack grant g r b found positive within live =>
    have same : (putBucket s g.address (returntoken b r)).tick = s.tick := by
      cases returntoken b r <;> rfl
    simp [ahead,same,amountAt]

theorem aheadBounds (pos : Nat) (s : TokenLaw.State) :
    0 ≤ ahead pos s ∧ ahead pos s ≤ if s.tick = none then 0 else 1 := by
  unfold ahead
  cases s.tick with
  | none => simp
  | some i =>
    simp only [reduceCtorEq,if_false]
    split <;> omega

theorem creditsExact {pos : Nat} {s t : TokenLaw.State} {w : List TokenLaw.Event} (inside : pos < mytbfMax)
    (run : exec nextState s w = some t) :
    ahead pos t + creditsAt pos w = ahead pos s + ticksBegun w := by
  have counted := history (I := fun w t => ahead pos t + (creditsAt pos w : Int) = ahead pos s + ticksBegun w)
    (by simp [creditsAt,ticksBegun]) ?_ run
  · exact counted
  · intro w u e t before step
    have exact_ := aheadExact inside (stepSound step)
    have slots : (creditsAt pos (w ++ [e]) : Int) = creditsAt pos w + amountAt (.tickSlot pos) 1 e := by
      simp only [creditsAt,List.count_append,List.count_singleton,amountAt]
      split <;> simp_all
    have begun : (ticksBegun (w ++ [e]) : Int) = ticksBegun w + amountAt .tickBegin 1 e := by
      simp only [ticksBegun,List.count_append,List.count_singleton,amountAt]
      split <;> simp_all
    omega

/- Over the window so far the bucket is gone, or it has been given its credits up to what
it has room for. -/
structure Supplied (address : Nat) (b : Mytbf) (w : List TokenLaw.Event) (t : TokenLaw.State) : Prop where
  sound : Sound t
  old : address < t.mod.allocated
  spent : 0 ≤ fetched address w
  supplied : ∀ c, t.mod.bucket address = some c → c.cps = b.cps ∧ c.burst = b.burst ∧ c.pos = b.pos ∧
    min b.burst (b.token + creditsAt b.pos w * b.cps) ≤ c.token + fetched address w

theorem fetchedSnoc (address : Nat) (w : List TokenLaw.Event) (e : TokenLaw.Event) :
    fetched address (w ++ [e]) = fetched address w + fetchedBy address e := by
  simp [fetched]

theorem fetchedLow {address : Nat} {s t : TokenLaw.State} {e : TokenLaw.Event} (sound : Sound s) (step : Step s e t) :
    0 ≤ fetchedBy address e := by
  cases step with
  | fetch thread other size n b c wanted live got =>
    obtain ⟨least,_⟩ := fetchSpec (sound.balanced other b live) wanted got
    simp only [fetchedBy]
    split <;> omega
  | _ => simp [fetchedBy]

theorem creditsOther {pos : Nat} {w : List TokenLaw.Event} {e : TokenLaw.Event} (other : e ≠ .tickSlot pos) :
    creditsAt pos (w ++ [e]) = creditsAt pos w := by
  simp [creditsAt,List.count_append,other]

theorem creditsMine {pos : Nat} {w : List TokenLaw.Event} : creditsAt pos (w ++ [.tickSlot pos]) = creditsAt pos w + 1 := by
  simp [creditsAt,List.count_append]

theorem suppliedKept {address : Nat} {b : Mytbf} {w : List TokenLaw.Event} {s t : TokenLaw.State} {e : TokenLaw.Event}
    (supplied : Supplied address b w s) (step : Step s e t) (apart : e ≠ .tickSlot b.pos)
    (allocated : s.mod.allocated ≤ t.mod.allocated)
    (kept : ∀ c, t.mod.bucket address = some c → ∃ d, s.mod.bucket address = some d ∧ c.cps = d.cps ∧
      c.burst = d.burst ∧ c.pos = d.pos ∧ d.token ≤ c.token + fetchedBy address e) :
    Supplied address b (w ++ [e]) t := by
  have spent := supplied.spent
  have taken := @fetchedLow address s t e supplied.sound step
  refine ⟨soundStep supplied.sound step,Nat.lt_of_lt_of_le supplied.old allocated,by rw [fetchedSnoc]; omega,
    fun c live => ?_⟩
  obtain ⟨d,before,rate,depth,slot,more⟩ := kept c live
  obtain ⟨sameRate,sameDepth,samePos,enough⟩ := supplied.supplied d before
  rw [fetchedSnoc,creditsOther apart]
  exact ⟨rate.trans sameRate,depth.trans sameDepth,slot.trans samePos,by omega⟩

theorem suppliedGone {address i : Nat} {b : Mytbf} {w : List TokenLaw.Event} {s t : TokenLaw.State}
    (supplied : Supplied address b w s) (step : Step s (.tickSlot i) t) (allocated : s.mod.allocated ≤ t.mod.allocated)
    (gone : t.mod.bucket address = none) : Supplied address b (w ++ [.tickSlot i]) t := by
  refine ⟨soundStep supplied.sound step,Nat.lt_of_lt_of_le supplied.old allocated,?_,fun c live => ?_⟩
  · rw [fetchedSnoc]
    simpa [fetchedBy] using supplied.spent
  · rw [gone] at live
    contradiction

theorem slotMine {address i : Nat} {b : Mytbf} {w : List TokenLaw.Event} {s : TokenLaw.State}
    (supplied : Supplied address b w s) (here : i = b.pos) (away : s.mod.job i ≠ some address) :
    s.mod.bucket address = none := by
  cases live : s.mod.bucket address with
  | none => rfl
  | some c =>
    obtain ⟨_,_,slot,_⟩ := supplied.supplied c live
    have own := (supplied.sound.table.own address c live).1
    rw [slot,← here] at own
    exact absurd own away

theorem suppliedCredit {address i : Nat} {b d : Mytbf} {w : List TokenLaw.Event} {s : TokenLaw.State}
    (supplied : Supplied address b w s) (live : s.mod.bucket address = some d) (slot : s.mod.job i = some address)
    (step : Step s (.tickSlot i) { putBucket s address (credit d) with tick := some (i+1) }) :
    Supplied address b (w ++ [.tickSlot i]) { putBucket s address (credit d) with tick := some (i+1) } := by
  have sound := soundStep supplied.sound step
  have spent := supplied.spent
  obtain ⟨rate,depth,place,enough⟩ := supplied.supplied d live
  obtain ⟨e,there,at_⟩ := supplied.sound.table.slot i address slot
  cases Option.some.inj (live.symm.trans there)
  obtain ⟨c,added,_⟩ := creditSpec (supplied.sound.balanced address d live)
  have sum := creditSum added
  rw [added] at sound ⊢
  refine ⟨sound,supplied.old,by rw [fetchedSnoc]; simpa [fetchedBy] using spent,fun f now => ?_⟩
  simp only [putBucket,updateSame,Option.some.injEq] at now
  subst now
  have here : i = b.pos := at_.symm.trans place
  have more : ((creditsAt b.pos w + 1 : Nat) : Int) * b.cps = creditsAt b.pos w * b.cps + b.cps := by
    rw [Int.natCast_add,Int.add_mul,Int.natCast_one,Int.one_mul]
  rw [here,creditsMine,more,fetchedSnoc,sum]
  simp only [fetchedBy,rate,depth,place]
  exact ⟨trivial,trivial,trivial,by omega⟩

theorem suppliedStep {address : Nat} {b : Mytbf} {w : List TokenLaw.Event} {s t : TokenLaw.State} {e : TokenLaw.Event}
    (supplied : Supplied address b w s) (step : Step s e t) : Supplied address b (w ++ [e]) t := by
  have sound := supplied.sound
  have still : ∀ c, s.mod.bucket address = some c → ∃ d, s.mod.bucket address = some d ∧ c.cps = d.cps ∧
      c.burst = d.burst ∧ c.pos = d.pos ∧ d.token ≤ c.token + 0 := by
    intro c live
    exact ⟨c,live,rfl,rfl,rfl,by omega⟩
  have whole := step
  cases step with
  | init env cps burst new mod params made =>
    cases made with
    | null loaded =>
      refine suppliedKept supplied whole (by simp) (Nat.le_of_eq loaded.allocated.symm) ?_
      simp only [loaded.bucket]
      exact still
    | made loaded pos inside free =>
      refine suppliedKept supplied whole (by simp) (Nat.le_succ _) ?_
      simp only [updateOther _ _ (Nat.ne_of_lt supplied.old)]
      exact still
  | destroy other mod freed =>
    obtain ⟨d,found,rfl⟩ := destroySound freed
    exact suppliedKept supplied whole (by simp) (Nat.le_refl _) fun c live => still c (updateNone live).2
  | tickBegin idle => exact suppliedKept supplied whole (by simp) (Nat.le_refl _) still
  | tickEnd at_ => exact suppliedKept supplied whole (by simp) (Nat.le_refl _) still
  | tickEmpty i at_ within empty =>
    by_cases here : i = b.pos
    · have gone := slotMine supplied here (by rw [empty]; simp)
      exact suppliedGone supplied whole (Nat.le_refl _) gone
    · exact suppliedKept supplied whole (by simpa using here) (Nat.le_refl _) still
  | tickCredit i other d at_ within slot live =>
    by_cases mine : address = other
    · subst mine
      exact suppliedCredit supplied live slot whole
    · obtain ⟨c,added,_⟩ := creditSpec (sound.balanced other d live)
      rw [added] at whole ⊢
      have same : update s.mod.bucket other (some c) address = s.mod.bucket address := updateOther _ _ mine
      by_cases here : i = b.pos
      · have gone := slotMine supplied here (by rw [slot]; simpa using Ne.symm mine)
        exact suppliedGone supplied whole (Nat.le_refl _) (same.trans gone)
      · refine suppliedKept supplied whole (by simpa using here) (Nat.le_refl _) ?_
        simp only [putBucket,same]
        exact still
  | fetch thread other size n d c wanted live got =>
    obtain ⟨_,_,_,left,_,rate,depth,slot⟩ := fetchSpec (sound.balanced other d live) wanted got
    refine suppliedKept supplied whole (by simp) (Nat.le_refl _) fun f now => ?_
    by_cases mine : address = other
    · subst mine
      simp only [putBucket,updateSame,Option.some.injEq] at now
      subst now
      exact ⟨d,live,rate,depth,slot,by simp only [fetchedBy,if_true]; omega⟩
    · simp only [putBucket,updateOther _ _ mine] at now
      exact ⟨f,now,rfl,rfl,rfl,by simp [fetchedBy,Ne.symm mine]⟩
  | giveBack grant g r d found positive within live =>
    obtain ⟨c,added,_,rate,depth,slot,_,more⟩ := giveBackSpec sound found positive within live
    rw [added] at whole ⊢
    refine suppliedKept supplied whole (by simp) (Nat.le_refl _) fun f now => ?_
    by_cases mine : address = g.address
    · subst mine
      simp only [putBucket,updateSame,Option.some.injEq] at now
      subst now
      exact ⟨d,live,rate,depth,slot,by simpa [fetchedBy] using more⟩
    · simp only [putBucket,updateOther _ _ mine] at now
      exact ⟨f,now,rfl,rfl,rfl,by simp [fetchedBy]⟩

theorem suppliedWindow {address : Nat} {b : Mytbf} {w : List TokenLaw.Event} {s t : TokenLaw.State} (sound : Sound s)
    (live : s.mod.bucket address = some b) (run : exec nextState s w = some t) : Supplied address b w t := by
  refine history (I := fun w t => Supplied address b w t) ?_ (fun w u e t before step =>
    suppliedStep before (stepSound step)) run
  refine ⟨sound,liveAllocated sound.table live,Int.le_refl _,fun c there => ?_⟩
  cases Option.some.inj (live.symm.trans there)
  exact ⟨rfl,rfl,rfl,by simp [creditsAt,fetched]⟩

/- Over any stretch of a run of mytbf.c, whatever alrm_handle interrupts and waits for, a
bucket that stays registered gets what the ticks begun bring, less the one under way at the
end, until it is full: what callers have not taken of it is there. -/
theorem tokenSupply {es w : List TimerCalls.Event} {s u : TimerCalls.Callers} {i address : Nat} {b c : Mytbf}
    (run : exec TimerCalls.next TimerCalls.start es = some s) (registered : s.timer.mod.job i = some address)
    (live : s.timer.mod.bucket address = some b) (later : exec TimerCalls.next s w = some u)
    (kept : u.timer.mod.job i = some address) (still : u.timer.mod.bucket address = some c) :
    min b.burst (b.token + (ticksBegun (deeds TimerCalls.next TimerCalls.deed s w) -
        if TimerCalls.tick u.timer = none then 0 else 1) * b.cps) ≤
      c.token + fetched address (deeds TimerCalls.next TimerCalls.deed s w) := by
  obtain ⟨a,_,before⟩ := TimerCalls.relatedRun TimerCalls.relatedStart run
  obtain ⟨z,followed,after⟩ := TimerCalls.relatedRun before later
  have above : a.mod.bucket address = some b := by
    rw [before.same.bucket address (TimerCalls.registeredLive before registered),live]
  have there : z.mod.bucket address = some c := by
    rw [after.same.bucket address (TimerCalls.registeredLive after kept),still]
  have inside := (before.sound.table.own address b above).2
  have rate := (before.sound.balanced address b above).params.rate
  obtain ⟨_,_,_,enough⟩ := (suppliedWindow before.sound above followed).supplied c there
  have credits := creditsExact inside followed
  have first := (aheadBounds b.pos a).1
  have last := (aheadBounds b.pos z).2
  rw [after.tick] at last
  have brought : ((ticksBegun (deeds TimerCalls.next TimerCalls.deed s w) : Int) -
      if TimerCalls.tick u.timer = none then 0 else 1) * b.cps ≤
        creditsAt b.pos (deeds TimerCalls.next TimerCalls.deed s w) * b.cps :=
    Int.mul_le_mul_of_nonneg_right (by omega) rate
  omega

def oneBucket : List TimerCalls.Event := [.base (.init 0 ⟨true,true,true⟩ 40960 204800),.base (.step 0),.base (.step 0)]

/- A whole tick, from the lock of mut_job over all slots to its unlock, and a fetch. -/
def fedFetch : List TimerCalls.Event :=
  .base (.alarm 2) :: List.replicate (mytbfMax + 4) (.base (.handle 2)) ++
    [.base (.fetch 1 0 100),.base (.step 1),.base (.step 1),.base (.step 1)]

theorem fedSupply : ∃ s u c, exec TimerCalls.next TimerCalls.start oneBucket = some s ∧
    exec TimerCalls.next s fedFetch = some u ∧ u.timer.mod.bucket 0 = some c ∧ c.token = 40860 ∧
    min 204800 (0 + (1 - 0) * 40960) ≤ c.token + 100 := by
  have made : (exec TimerCalls.next TimerCalls.start oneBucket).map (fun s => (s.timer.mod.job 0,s.timer.mod.bucket 0)) =
      some (some 0,some ⟨40960,204800,0,0⟩) := by decide +kernel
  obtain ⟨s,run,same⟩ := Option.map_eq_some_iff.mp made
  obtain ⟨registered,live⟩ := Prod.mk.inj same
  have fed : ((exec TimerCalls.next TimerCalls.start oneBucket).bind fun s => exec TimerCalls.next s fedFetch).map
      (fun u => (u.timer.mod.job 0,u.timer.mod.bucket 0,TimerCalls.tick u.timer)) =
        some (some 0,some ⟨40960,204800,40860,0⟩,none) := by decide +kernel
  have done : (exec TimerCalls.next TimerCalls.start oneBucket).map (fun s =>
      (ticksBegun (deeds TimerCalls.next TimerCalls.deed s fedFetch),
        fetched 0 (deeds TimerCalls.next TimerCalls.deed s fedFetch))) = some (1,100) := by decide +kernel
  rw [run] at fed done
  rw [Option.bind_some] at fed
  obtain ⟨u,later,same⟩ := Option.map_eq_some_iff.mp fed
  obtain ⟨kept,rest⟩ := Prod.mk.inj same
  obtain ⟨still,idle⟩ := Prod.mk.inj rest
  simp only [Option.map_some,Option.some.injEq,Prod.mk.injEq] at done
  obtain ⟨begun,taken⟩ := done
  have supply := tokenSupply run registered live later kept still
  rw [begun,taken,if_pos idle] at supply
  exact ⟨s,u,_,run,later,still,rfl,supply⟩

end IPv4Media.TokenSupply
