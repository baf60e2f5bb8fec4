import IPv4Media.Library.Execution
import IPv4Media.TimerModule

/-! The buckets in use: any number of threads fetch and return tokens while
alrm_handle walks the slot table. mut_job is held from tickBegin to tickEnd, each
slot is one critical section of that bucket's mutex, and so is each fetch and return.
What a thread fetched and has not returned stays on a list of grants. -/
namespace IPv4Media.TokenLaw
open TokenBucket TimerModule Execution

structure Grant where
  thread : Nat
  address : Nat
  amount : Int
  deriving DecidableEq, Repr

/- tick is the next slot of an alrm_handle under way. overflow records an int
addition out of range; nothing the process does after it is defined. -/
structure State where
  mod : Module
  tick : Option Nat
  owed : List Grant
  overflow : Bool

def initialState : State := ⟨unloaded,none,[],false⟩

/- A fetch carries the n it returned, a return the position of its grant. -/
inductive Event where
  | init (env : InitEnv) (cps burst : Int)
  | destroy (address : Nat)
  | tickBegin
  | tickSlot (i : Nat)
  | tickEnd
  | fetch (thread address : Nat) (size n : Int)
  | giveBack (thread address grant : Nat) (r : Int)
  deriving DecidableEq, Repr

def putBucket (s : State) (address : Nat) : Option Mytbf → State
  | some b => { s with mod := { s.mod with bucket := update s.mod.bucket address (some b) } }
  | none => { s with overflow := true }

def nextState (s : State) : Event → Option State
  | .init env cps burst =>
    if s.tick = none ∧ Params cps burst then do
      let (_,mod) ← mytbfInit s.mod env cps burst
      some { s with mod }
    else none
  | .destroy address =>
    if s.tick = none then do
      let mod ← mytbfDestroy s.mod address
      some { s with mod }
    else none
  | .tickBegin => if s.tick = none then some { s with tick := some 0 } else none
  | .tickSlot i =>
    if s.tick = some i ∧ i < mytbfMax then
      match s.mod.job i with
      | none => some { s with tick := some (i+1) }
      | some address => do
        let b ← s.mod.bucket address
        some { putBucket s address (credit b) with tick := some (i+1) }
    else none
  | .tickEnd => if s.tick = some mytbfMax then some { s with tick := none } else none
  | .fetch thread address size n =>
    if 1 ≤ size then do
      let b ← s.mod.bucket address
      let (got,c) ← fetchtoken b size
      if got = n then some { putBucket s address (some c) with owed := s.owed ++ [⟨thread,address,n⟩] }
      else none
    else none
  | .giveBack thread address grant r => do
    let g ← s.owed[grant]?
    if g.thread = thread ∧ g.address = address ∧ 0 ≤ r ∧ r ≤ g.amount then do
      let b ← s.mod.bucket address
      some { putBucket s address (returntoken b r) with
        owed := s.owed.set grant { g with amount := g.amount - r } }
    else none

/- What one step can do. A bucket step names the bucket before it. -/
inductive Step (s : State) : Event → State → Prop where
  | init (env : InitEnv) (cps burst : Int) (address : Option Nat) (mod : Module) (params : Params cps burst)
      (made : InitStep s.mod cps burst address mod) : Step s (.init env cps burst) { s with mod }
  | destroy (address : Nat) (mod : Module) (freed : mytbfDestroy s.mod address = some mod) :
      Step s (.destroy address) { s with mod }
  | tickBegin (idle : s.tick = none) : Step s .tickBegin { s with tick := some 0 }
  | tickEmpty (i : Nat) (at_ : s.tick = some i) (inside : i < mytbfMax) (empty : s.mod.job i = none) :
      Step s (.tickSlot i) { s with tick := some (i+1) }
  | tickCredit (i address : Nat) (b : Mytbf) (at_ : s.tick = some i) (inside : i < mytbfMax)
      (slot : s.mod.job i = some address) (live : s.mod.bucket address = some b) :
      Step s (.tickSlot i) { putBucket s address (credit b) with tick := some (i+1) }
  | tickEnd (at_ : s.tick = some mytbfMax) : Step s .tickEnd { s with tick := none }
  | fetch (thread address : Nat) (size n : Int) (b c : Mytbf) (wanted : 1 ≤ size)
      (live : s.mod.bucket address = some b) (got : fetchtoken b size = some (n,c)) :
      Step s (.fetch thread address size n)
        { putBucket s address (some c) with owed := s.owed ++ [⟨thread,address,n⟩] }
  | giveBack (grant : Nat) (g : Grant) (r : Int) (b : Mytbf) (found : s.owed[grant]? = some g)
      (positive : 0 ≤ r) (within : r ≤ g.amount) (live : s.mod.bucket g.address = some b) :
      Step s (.giveBack g.thread g.address grant r) { putBucket s g.address (returntoken b r) with
        owed := s.owed.set grant { g with amount := g.amount - r } }

theorem stepSound {s e t} (h : nextState s e = some t) : Step s e t := by
  cases e with
  | init env cps burst =>
    simp only [nextState] at h
    split at h <;> try contradiction
    rename_i guard
    obtain ⟨⟨address,mod⟩,made,last⟩ := Option.bind_eq_some_iff.mp h
    cases Option.some.inj last
    exact .init env cps burst address mod guard.2 (initSound made)
  | destroy address =>
    simp only [nextState] at h
    split at h <;> try contradiction
    obtain ⟨mod,freed,last⟩ := Option.bind_eq_some_iff.mp h
    cases Option.some.inj last
    exact .destroy address mod freed
  | tickBegin =>
    simp only [nextState] at h
    split at h <;> try contradiction
    cases Option.some.inj h
    exact .tickBegin (by assumption)
  | tickSlot i =>
    simp only [nextState] at h
    split at h <;> try contradiction
    rename_i guard
    split at h
    · rename_i empty
      cases Option.some.inj h
      exact .tickEmpty i guard.1 guard.2 empty
    · rename_i address slot
      obtain ⟨b,live,last⟩ := Option.bind_eq_some_iff.mp h
      cases Option.some.inj last
      exact .tickCredit i address b guard.1 guard.2 slot live
  | tickEnd =>
    simp only [nextState] at h
    split at h <;> try contradiction
    cases Option.some.inj h
    exact .tickEnd (by assumption)
  | fetch thread address size n =>
    simp only [nextState] at h
    split at h <;> try contradiction
    rename_i wanted
    obtain ⟨b,live,h⟩ := Option.bind_eq_some_iff.mp h
    obtain ⟨⟨got,c⟩,fetched,last⟩ := Option.bind_eq_some_iff.mp h
    split at last <;> try contradiction
    rename_i same
    subst same
    cases Option.some.inj last
    exact .fetch thread address size got b c wanted live fetched
  | giveBack thread address grant r =>
    simp only [nextState] at h
    obtain ⟨g,found,rest⟩ := Option.bind_eq_some_iff.mp h
    split at rest <;> try contradiction
    rename_i guard
    obtain ⟨rfl,rfl,positive,within⟩ := guard
    obtain ⟨b,live,last⟩ := Option.bind_eq_some_iff.mp rest
    cases Option.some.inj last
    exact .giveBack grant g r b found positive within live

structure Sound (s : State) : Prop where
  table : Table s.mod
  balanced : ∀ address b, s.mod.bucket address = some b → Balanced b
  owed : ∀ g ∈ s.owed, g.address < s.mod.allocated ∧ 0 ≤ g.amount ∧
    ∀ b, s.mod.bucket g.address = some b → g.amount ≤ b.burst
  defined : s.overflow = false

theorem soundInitial : Sound initialState :=
  ⟨tableUnloaded,by simp [initialState,unloaded],by simp [initialState],rfl⟩

/- A return is within the depth of the bucket it goes to, so the addition stays in range. -/
theorem giveBackSpec {s : State} {grant : Nat} {g : Grant} {r : Int} {b : Mytbf} (sound : Sound s)
    (found : s.owed[grant]? = some g) (positive : 0 ≤ r) (within : r ≤ g.amount)
    (live : s.mod.bucket g.address = some b) :
    ∃ c, returntoken b r = some c ∧ Balanced c ∧ c.cps = b.cps ∧ c.burst = b.burst ∧ c.pos = b.pos ∧
      c.token ≤ b.token + r ∧ b.token ≤ c.token := by
  obtain ⟨_,_,small⟩ := sound.owed g (List.mem_of_getElem? found)
  have bound := small b live
  exact returnSpec (sound.balanced g.address b live) positive (by omega)

theorem soundPut {s : State} {address b c} (sound : Sound s) (live : s.mod.bucket address = some b)
    (balanced : Balanced c) (burst : c.burst = b.burst) (slot : c.pos = b.pos) :
    Sound (putBucket s address (some c)) := by
  refine ⟨tablePut sound.table live slot,?_,?_,sound.defined⟩
  · exact updateSome balanced fun other d _ => sound.balanced other d
  · intro g member
    obtain ⟨below,positive,small⟩ := sound.owed g member
    refine ⟨below,positive,?_⟩
    intro d liveOther
    by_cases same : g.address = address
    · simp only [putBucket,same,updateSame,Option.some.injEq] at liveOther
      subst d
      rw [burst]
      exact small b (by rw [same]; exact live)
    · simp only [putBucket,updateOther _ _ same] at liveOther
      exact small d liveOther

theorem soundInit {s : State} {cps burst address mod} (sound : Sound s) (params : Params cps burst)
    (made : InitStep s.mod cps burst address mod) : Sound { s with mod } := by
  refine ⟨tableInit sound.table made,?_,?_,sound.defined⟩
  · cases made with
    | null loaded =>
      simp only [loaded.bucket]
      exact sound.balanced
    | made loaded pos inside free =>
      have depth := params.depth
      exact updateSome ⟨params,by simp,by simp only; omega⟩ fun other b _ => sound.balanced other b
  · intro g member
    obtain ⟨below,positive,small⟩ := sound.owed g member
    cases made with
    | null loaded =>
      simp only [loaded.allocated,loaded.bucket]
      exact ⟨below,positive,small⟩
    | made loaded pos inside free =>
      have old : g.address ≠ s.mod.allocated := by omega
      simp only [updateOther _ _ old]
      exact ⟨by omega,positive,small⟩

theorem soundDestroy {s : State} {address mod} (sound : Sound s)
    (freed : mytbfDestroy s.mod address = some mod) : Sound { s with mod } := by
  have table := tableDestroy sound.table freed
  obtain ⟨b,found,rfl⟩ := destroySound freed
  refine ⟨table,fun other c live => sound.balanced other c (updateNone live).2,?_,sound.defined⟩
  intro g member
  obtain ⟨below,positive,small⟩ := sound.owed g member
  exact ⟨below,positive,fun c live => small c (updateNone live).2⟩

theorem soundStep {s e t} (sound : Sound s) (step : Step s e t) : Sound t := by
  cases step with
  | init env cps burst address mod params made => exact soundInit sound params made
  | destroy address mod freed => exact soundDestroy sound freed
  | tickBegin idle => exact ⟨sound.table,sound.balanced,sound.owed,sound.defined⟩
  | tickEmpty i at_ inside empty => exact ⟨sound.table,sound.balanced,sound.owed,sound.defined⟩
  | tickCredit i address b at_ inside slot live =>
    obtain ⟨c,done,balanced,_,burst,pos,_⟩ := creditSpec (sound.balanced address b live)
    rw [done]
    have put := soundPut sound live balanced burst pos
    exact ⟨put.table,put.balanced,put.owed,put.defined⟩
  | tickEnd at_ => exact ⟨sound.table,sound.balanced,sound.owed,sound.defined⟩
  | fetch thread address size n b c wanted live got =>
    obtain ⟨least,most,small,_,balanced,_,burst,pos⟩ := fetchSpec (sound.balanced address b live) wanted got
    have put := soundPut sound live balanced burst pos
    refine ⟨put.table,put.balanced,?_,put.defined⟩
    intro g member
    rcases List.mem_append.mp member with old | new
    · exact put.owed g old
    · rw [List.mem_singleton.mp new]
      refine ⟨liveAllocated sound.table live,by simp only; omega,?_⟩
      intro d same
      simp only [putBucket,updateSame,Option.some.injEq] at same
      subst d
      simp only
      omega
  | giveBack grant g r b found positive within live =>
    have member : g ∈ s.owed := List.mem_of_getElem? found
    obtain ⟨c,done,balanced,_,burst,pos,_⟩ := giveBackSpec sound found positive within live
    rw [done]
    have put := soundPut sound live balanced burst pos
    refine ⟨put.table,put.balanced,?_,put.defined⟩
    intro other inside
    rcases List.mem_or_eq_of_mem_set inside with old | rfl
    · exact put.owed other old
    · obtain ⟨under,_,cap⟩ := put.owed g member
      refine ⟨under,by simp only; omega,?_⟩
      intro d same
      have limit := cap d same
      simp only
      omega

theorem soundWindow {s t w} (sound : Sound s) (run : exec nextState s w = some t) : Sound t :=
  invariant sound (fun _ _ _ kept step => soundStep kept (stepSound step)) run

theorem soundRun {s es} (run : exec nextState initialState es = some s) : Sound s :=
  soundWindow soundInitial run

def fetchedBy (address : Nat) : Event → Int
  | .fetch _ a _ n => if a = address then n else 0
  | _ => 0

def returnedBy (address : Nat) : Event → Int
  | .giveBack _ a _ r => if a = address then r else 0
  | _ => 0

def fetched (address : Nat) (w : List Event) : Int := (w.map (fetchedBy address)).sum
def returned (address : Nat) (w : List Event) : Int := (w.map (returnedBy address)).sum
def creditsAt (pos : Nat) (w : List Event) : Nat := w.count (.tickSlot pos)
def ticksBegun (w : List Event) : Nat := w.count .tickBegin

def tokenAt (s : State) (address : Nat) : Int :=
  match s.mod.bucket address with
  | some b => b.token
  | none => 0

/- Inside a window the address stays with the bucket it had at the start, or is dead. -/
structure Watched (address : Nat) (cps : Int) (pos : Nat) (s : State) : Prop where
  sound : Sound s
  old : address < s.mod.allocated
  same : ∀ b, s.mod.bucket address = some b → b.cps = cps ∧ b.pos = pos

def amountAt (label : Event) (amount : Int) (e : Event) : Int := if e = label then amount else 0

theorem tokenAtLive {s : State} {address b} (live : s.mod.bucket address = some b) :
    tokenAt s address = b.token := by
  simp only [tokenAt,live]

theorem tokenAtDead {s : State} {address} (dead : s.mod.bucket address = none) : tokenAt s address = 0 := by
  simp only [tokenAt,dead]

theorem tokenAtLow {s : State} (sound : Sound s) (address : Nat) : 0 ≤ tokenAt s address := by
  cases live : s.mod.bucket address with
  | none => rw [tokenAtDead live]
  | some b =>
    rw [tokenAtLive live]
    exact (sound.balanced address b live).low

theorem tokenAtFrame {s t : State} {address} (same : t.mod.bucket address = s.mod.bucket address) :
    tokenAt t address = tokenAt s address := by
  simp only [tokenAt,same]

theorem watchedPut {address cps pos other} {s t : State} {b c : Mytbf} (watched : Watched address cps pos s)
    (sound : Sound t) (live : s.mod.bucket other = some b) (rate : c.cps = b.cps) (slot : c.pos = b.pos)
    (allocated : t.mod.allocated = s.mod.allocated)
    (put : t.mod.bucket = update s.mod.bucket other (some c)) : Watched address cps pos t := by
  refine ⟨sound,by rw [allocated]; exact watched.old,?_⟩
  intro d found
  rw [put] at found
  by_cases here : address = other
  · subst here
    simp only [updateSame,Option.some.injEq] at found
    subst d
    rw [rate,slot]
    exact watched.same b live
  · rw [updateOther _ _ here] at found
    exact watched.same d found

theorem watchedStep {address cps pos s e t} (watched : Watched address cps pos s) (step : Step s e t) :
    Watched address cps pos t := by
  have sound := soundStep watched.sound step
  have old := watched.old
  cases step with
  | init env cps' burst new mod params made =>
    cases made with
    | null loaded =>
      refine ⟨sound,by simp only [loaded.allocated]; exact old,?_⟩
      simp only [loaded.bucket]
      exact watched.same
    | made loaded slot inside free =>
      have older : address ≠ s.mod.allocated := by omega
      refine ⟨sound,by simp only; omega,?_⟩
      simp only [updateOther _ _ older]
      exact watched.same
  | destroy other mod freed =>
    obtain ⟨b,live,rfl⟩ := destroySound freed
    refine ⟨sound,old,?_⟩
    exact fun c found => watched.same c (updateNone found).2
  | tickBegin idle => exact ⟨sound,old,watched.same⟩
  | tickEmpty i at_ inside empty => exact ⟨sound,old,watched.same⟩
  | tickCredit i other b at_ inside slot live =>
    obtain ⟨c,done,_,rate,_,place,_⟩ := creditSpec (watched.sound.balanced other b live)
    rw [done] at sound ⊢
    exact watchedPut watched sound live rate place rfl rfl
  | tickEnd at_ => exact ⟨sound,old,watched.same⟩
  | fetch thread other size n b c wanted live got =>
    obtain ⟨_,_,_,_,_,rate,_,place⟩ := fetchSpec (watched.sound.balanced other b live) wanted got
    exact watchedPut watched sound live rate place rfl rfl
  | giveBack grant g r b found positive within live =>
    obtain ⟨c,done,_,rate,_,place,_⟩ := giveBackSpec watched.sound found positive within live
    rw [done] at sound ⊢
    exact watchedPut watched sound live rate place rfl rfl

/- One step pays for what it takes out of the bucket. A credit goes to the bucket
whose slot the tick has reached, because the slot table and the heap agree. -/
theorem tokenStep {address cps pos s e t} (watched : Watched address cps pos s) (rate : 0 ≤ cps)
    (step : Step s e t) :
    tokenAt t address + fetchedBy address e ≤
      tokenAt s address + (amountAt (.tickSlot pos) cps e + returnedBy address e) := by
  have sound := watched.sound
  cases step with
  | init env cps' burst new mod params made =>
    have same : mod.bucket address = s.mod.bucket address := by
      cases made with
      | null loaded => rw [loaded.bucket]
      | made loaded slot inside free =>
        have old := watched.old
        exact updateOther _ _ (by omega)
    simp [tokenAtFrame (t := { s with mod }) same,fetchedBy,amountAt,returnedBy]
  | destroy other mod freed =>
    have low := tokenAtLow sound address
    obtain ⟨b,live,rfl⟩ := destroySound freed
    by_cases here : address = other
    · subst here
      rw [tokenAtDead (updateSame _ _ _)]
      simpa [fetchedBy,amountAt,returnedBy] using low
    · rw [tokenAtFrame (updateOther _ _ here)]
      simp [fetchedBy,amountAt,returnedBy]
  | tickBegin idle => simp [tokenAt,fetchedBy,amountAt,returnedBy]
  | tickEmpty i at_ inside empty =>
    have credit : 0 ≤ amountAt (.tickSlot pos) cps (.tickSlot i) := by
      unfold amountAt
      split <;> omega
    simpa [tokenAt,fetchedBy,returnedBy] using credit
  | tickCredit i other b at_ inside slot live =>
    obtain ⟨c,done,_,_,_,_,most,_⟩ := creditSpec (sound.balanced other b live)
    rw [done]
    by_cases here : address = other
    · subst here
      obtain ⟨d,liveSlot,place⟩ := sound.table.slot i address slot
      rw [live] at liveSlot
      cases Option.some.inj liveSlot
      obtain ⟨sameRate,samePos⟩ := watched.same b live
      have paid : amountAt (.tickSlot pos) cps (.tickSlot i) = b.cps := by
        rw [amountAt,if_pos (by rw [← place,samePos]),sameRate]
      rw [tokenAtLive (updateSame _ _ _),tokenAtLive live,paid]
      simp only [fetchedBy,returnedBy]
      omega
    · have credit : 0 ≤ amountAt (.tickSlot pos) cps (.tickSlot i) := by
        unfold amountAt
        split <;> omega
      rw [tokenAtFrame (updateOther _ _ here)]
      simpa [fetchedBy,returnedBy] using credit
  | tickEnd at_ => simp [tokenAt,fetchedBy,amountAt,returnedBy]
  | fetch thread other size n b c wanted live got =>
    obtain ⟨_,_,_,left,_⟩ := fetchSpec (sound.balanced other b live) wanted got
    by_cases here : address = other
    · subst here
      rw [tokenAtLive (updateSame _ _ _),tokenAtLive live]
      simp [fetchedBy,amountAt,returnedBy,left]
    · rw [tokenAtFrame (updateOther _ _ here)]
      simp [fetchedBy,amountAt,returnedBy,Ne.symm here]
  | giveBack grant g r b found positive within live =>
    obtain ⟨c,done,_,_,_,_,most,_⟩ := giveBackSpec sound found positive within live
    rw [done]
    by_cases here : address = g.address
    · rw [here,tokenAtLive (updateSame _ _ _),tokenAtLive live]
      simpa [fetchedBy,amountAt,returnedBy] using most
    · rw [tokenAtFrame (updateOther _ _ here)]
      simp [fetchedBy,amountAt,returnedBy,Ne.symm here]

theorem amountSum (label : Event) (amount : Int) (w : List Event) :
    (w.map (amountAt label amount)).sum = w.count label * amount := by
  induction w with
  | nil => simp
  | cons e w ih =>
    rw [List.map_cons,List.sum_cons,ih,List.count_cons,amountAt]
    by_cases here : e = label
    · simp only [here,if_true,beq_self_eq_true,Int.natCast_add,Int.natCast_one,Int.add_mul,Int.one_mul]
      exact Int.add_comm _ _
    · simp [here]

theorem windowBound {s t : State} {w address b} (sound : Sound s) (run : exec nextState s w = some t)
    (live : s.mod.bucket address = some b) :
    fetched address w - returned address w ≤ b.token + creditsAt b.pos w * b.cps := by
  have rate := (sound.balanced address b live).params.rate
  have start : Watched address b.cps b.pos s := by
    refine ⟨sound,liveAllocated sound.table live,?_⟩
    intro c found
    rw [live] at found
    cases Option.some.inj found
    exact ⟨rfl,rfl⟩
  have keep : ∀ s e t, Watched address b.cps b.pos s → nextState s e = some t →
      Watched address b.cps b.pos t :=
    fun _ _ _ watched step => watchedStep watched (stepSound step)
  have pays : ∀ s e t, Watched address b.cps b.pos s → nextState s e = some t →
      tokenAt t address + fetchedBy address e ≤
        tokenAt s address + (amountAt (.tickSlot b.pos) b.cps e + returnedBy address e) :=
    fun _ _ _ watched step => tokenStep watched rate (stepSound step)
  have paid := balance keep pays start run
  have low := tokenAtLow (soundWindow sound run) address
  rw [tokenAtLive live,List.sum_map_add,amountSum] at paid
  have spent : fetched address w ≤ b.token + (creditsAt b.pos w * b.cps + returned address w) :=
    Int.le_trans (Int.le_add_of_nonneg_left low) paid
  omega

def ahead (pos : Nat) (s : State) : Int :=
  match s.tick with
  | some i => if i ≤ pos then 1 else 0
  | none => 0

theorem aheadStep {pos s e t} (step : Step s e t) :
    ahead pos t + amountAt (.tickSlot pos) 1 e ≤ ahead pos s + amountAt .tickBegin 1 e := by
  cases step with
  | init | destroy | fetch => simp [ahead,putBucket,amountAt]
  | tickBegin idle => simp [ahead,idle,amountAt]
  | tickEmpty i at_ inside empty =>
    simp only [ahead,at_,amountAt,Event.tickSlot.injEq,reduceCtorEq,if_false]
    split <;> split <;> split <;> omega
  | tickCredit i other b at_ inside slot live =>
    simp only [ahead,at_,amountAt,Event.tickSlot.injEq,reduceCtorEq,if_false]
    split <;> split <;> split <;> omega
  | tickEnd at_ =>
    simp only [ahead,at_,amountAt,reduceCtorEq,if_false]
    split <;> omega
  | giveBack grant g r b found positive within live =>
    have same : (putBucket s g.address (returntoken b r)).tick = s.tick := by
      cases returntoken b r <;> rfl
    simp [ahead,same,amountAt]

/- A tick comes past each slot at most once, and one may have begun before the window. -/
theorem creditsBegun {s t : State} {w} (pos : Nat) (run : exec nextState s w = some t) :
    creditsAt pos w ≤ ticksBegun w + if s.tick = none then 0 else 1 := by
  have counted : ahead pos t + (w.map (amountAt (.tickSlot pos) 1)).sum ≤
      ahead pos s + (w.map (amountAt .tickBegin 1)).sum :=
    balance (fun _ _ _ (kept : True) _ => kept) (fun _ _ _ _ step => aheadStep (stepSound step)) trivial run
  rw [amountSum,amountSum] at counted
  have low : 0 ≤ ahead pos t := by
    unfold ahead
    split
    · split <;> omega
    · omega
  have high : ahead pos s ≤ if s.tick = none then 0 else 1 := by
    unfold ahead
    split
    · split <;> simp_all
    · simp_all
  unfold creditsAt ticksBegun
  split at high <;> simp_all <;> omega

theorem fetchGranted {es s} (run : exec nextState initialState es = some s)
    {thread address : Nat} {size n : Int} (done : .fetch thread address size n ∈ es) : 1 ≤ n ∧ n ≤ size := by
  obtain ⟨before,after,rfl⟩ := List.append_of_mem done
  obtain ⟨t,first,rest⟩ := execSplit run
  obtain ⟨u,step,_⟩ := Option.bind_eq_some_iff.mp rest
  have sound := soundRun first
  cases stepSound step with
  | fetch _ _ _ _ b c wanted live got =>
    obtain ⟨least,most,_⟩ := fetchSpec (sound.balanced address b live) wanted got
    exact ⟨least,most⟩

theorem tokenBucketLaw {es s} (run : exec nextState initialState es = some s) :
    s.overflow = false ∧
    (∀ address b, s.mod.bucket address = some b → 0 ≤ b.token ∧ b.token ≤ b.burst) ∧
    (∀ thread address size n, .fetch thread address size n ∈ es → 1 ≤ n ∧ n ≤ size) ∧
    (∀ w t address b, exec nextState s w = some t → s.mod.bucket address = some b →
      fetched address w - returned address w ≤ b.token + creditsAt b.pos w * b.cps ∧
      creditsAt b.pos w ≤ ticksBegun w + if s.tick = none then 0 else 1) := by
  have sound := soundRun run
  refine ⟨sound.defined,?_,?_,?_⟩
  · intro address b live
    have balanced := sound.balanced address b live
    exact ⟨balanced.low,balanced.high⟩
  · intro thread address size n done
    exact fetchGranted run done
  · intro w t address b window live
    exact ⟨windowBound sound window live,creditsBegun b.pos window⟩

def sampleRun : List Event := [.init ⟨true,true,true⟩ 40960 204800,.tickBegin,.tickSlot 0,.fetch 7 0 40960 40960]
def sampleWindow : List Event := [.tickSlot 1,.giveBack 7 0 0 30,.fetch 8 0 40960 30]

theorem sampleLaw : ∃ s t, exec nextState initialState sampleRun = some s ∧
    exec nextState s sampleWindow = some t ∧ s.overflow = false ∧
    fetched 0 sampleWindow - returned 0 sampleWindow ≤ 0 + creditsAt 0 sampleWindow * 40960 := by
  obtain ⟨safe,_,_,window⟩ := @tokenBucketLaw sampleRun _ rfl
  exact ⟨_,_,rfl,rfl,safe,(window sampleWindow _ 0 ⟨40960,204800,0,0⟩ rfl rfl).1⟩

end IPv4Media.TokenLaw
