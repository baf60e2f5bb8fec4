import IPv4Media.AlarmLocks
import IPv4Media.TokenLaw

/-! mytbf.c told in whole calls. In TimerThreads every lock and unlock is a step, and
alrm_handle may interrupt any of them; in TokenLaw a call is one step. What a call does
to the buckets happens in one of its steps, so the first is the second in the order of
these. Callers return what they have fetched, and destroy a bucket nobody is in a call on. -/
namespace IPv4Media.TimerCalls
open TokenBucket TimerModule TimerThreads Execution
open TokenLaw (Grant)

def about : Pc → Option Nat
  | .outside => none
  | .initLock _ _ => none
  | .initUnlock => none
  | .fetchLock address _ => some address
  | .fetchTest address _ => some address
  | .fetchWait address _ => some address
  | .fetchWoken address _ => some address
  | .fetchUnlock address => some address
  | .returnLock address _ => some address
  | .returnUnlock address => some address
  | .checkLock address => some address
  | .checkUnlock address => some address
  | .destroyLock address => some address
  | .destroyUnlock address => some address
  | .destroyFree address => some address

/- The bucket a call puts an end to, and the one it has cleared the slot of. -/
def ending : Pc → Option Nat
  | .destroyLock address => some address
  | .destroyUnlock address => some address
  | .destroyFree address => some address
  | _ => none

def cleared : Pc → Option Nat
  | .destroyUnlock address => some address
  | .destroyFree address => some address
  | _ => none

/- grant is the grant a thread in mytbf_returntoken is giving back from. -/
structure Callers where
  timer : TimerThreads.State
  owed : List Grant
  grant : Nat → Nat
  callers : List Nat

/- A return names the position of its grant. -/
inductive Event
  | base (e : TimerThreads.Event)
  | giveBack (thread address grant : Nat) (r : Int)
  deriving DecidableEq, Repr

def start : Callers := ⟨TimerThreads.start,[],fun _ => 0,[]⟩

def nobody (s : Callers) (f : Pc → Option Nat) (address : Nat) : Bool :=
  s.callers.all fun t => f (s.timer.pc t) != some address

def allowed (s : Callers) : TimerThreads.Event → Bool
  | .fetch _ address _ => nobody s ending address
  | .giveBack _ address _ => nobody s ending address
  | .check _ address => nobody s ending address
  | .destroy _ address => nobody s about address
  | _ => true

def called : TimerThreads.Event → List Nat
  | .fetch t _ _ => [t]
  | .giveBack t _ _ => [t]
  | .check t _ => [t]
  | .destroy t _ => [t]
  | _ => []

def callDeed (s : Callers) (t : Nat) : Pc → Option TokenLaw.Event
  | .initLock cps burst => some (.init ⟨true,true,true⟩ cps burst)
  | .fetchTest address size => do
    let b ← s.timer.mod.bucket address
    let (n,_) ← fetchtoken b size
    some (.fetch t address size n)
  | .returnLock address size => some (.giveBack t address (s.grant t) size)
  | .destroyLock address => some (.destroy address)
  | _ => none

def handlerDeed (m : Module) : Handler → Option TokenLaw.Event
  | .lockJob => some .tickBegin
  | .loop i => if i < mytbfMax then (if m.job i = none then some (.tickSlot i) else none) else some .tickEnd
  | .lockBucket i _ => some (.tickSlot i)
  | .unlockBucket _ _ => none

def deed (s : Callers) : Event → Option TokenLaw.Event
  | .base (.step t) => callDeed s t (s.timer.pc t)
  | .base (.handle t) => do
    let h ← s.timer.handler t
    handlerDeed s.timer.mod h
  | _ => none

def charged (owed : List Grant) : Option TokenLaw.Event → List Grant
  | some (.fetch t address _ n) => owed ++ [⟨t,address,n⟩]
  | some (.giveBack _ _ grant r) =>
    match owed[grant]? with
    | some g => owed.set grant { g with amount := g.amount - r }
    | none => owed
  | _ => owed

def moved (s : Callers) (e : TimerThreads.Event) : Option Callers :=
  if allowed s e then do
    let v ← TimerThreads.next s.timer e
    some ⟨v,charged s.owed (deed s (.base e)),s.grant,called e ++ s.callers⟩
  else none

def next (s : Callers) : Event → Option Callers
  | .base (.giveBack _ _ _) => none
  | .base e => moved s e
  | .giveBack t address grant r => do
    let g ← s.owed[grant]?
    if g.thread = t ∧ g.address = address ∧ 0 ≤ r ∧ r ≤ g.amount then do
      let u ← moved s (.giveBack t address r)
      some { u with grant := update s.grant t grant }
    else none

inductive Act (s : Callers) : Event → Callers → Prop where
  | base (e : TimerThreads.Event) (v : TimerThreads.State) (plain : ∀ t address r, e ≠ .giveBack t address r)
      (open_ : allowed s e = true) (move : Move s.timer e v) :
      Act s (.base e) ⟨v,charged s.owed (deed s (.base e)),s.grant,called e ++ s.callers⟩
  | giveBack (t grant : Nat) (g : Grant) (r : Int) (v : TimerThreads.State) (found : s.owed[grant]? = some g)
      (owner : g.thread = t) (positive : 0 ≤ r) (within : r ≤ g.amount) (open_ : nobody s ending g.address = true)
      (move : Move s.timer (.giveBack t g.address r) v) :
      Act s (.giveBack t g.address grant r) ⟨v,s.owed,update s.grant t grant,t :: s.callers⟩

theorem movedSound {s u : Callers} {e : TimerThreads.Event} (h : moved s e = some u) :
    allowed s e = true ∧ ∃ v, Move s.timer e v ∧
      u = ⟨v,charged s.owed (deed s (.base e)),s.grant,called e ++ s.callers⟩ := by
  unfold moved at h
  split at h <;> try contradiction
  rename_i open_
  obtain ⟨v,stepped,last⟩ := Option.bind_eq_some_iff.mp h
  exact ⟨open_,v,moveSound stepped,(Option.some.inj last).symm⟩

theorem actSound {s u : Callers} {e : Event} (h : next s e = some u) : Act s e u := by
  cases e with
  | giveBack t address grant r =>
    obtain ⟨g,found,h⟩ := Option.bind_eq_some_iff.mp h
    split at h <;> try contradiction
    rename_i guard
    obtain ⟨owner,here,positive,within⟩ := guard
    subst here
    obtain ⟨w,made,last⟩ := Option.bind_eq_some_iff.mp h
    obtain ⟨open_,v,move,rfl⟩ := movedSound made
    cases Option.some.inj last
    exact .giveBack t grant g r v found owner positive within open_ move
  | base e =>
    cases e with
    | giveBack t address r => contradiction
    | _ =>
      obtain ⟨open_,v,move,rfl⟩ := movedSound h
      exact .base _ v (by simp) open_ move

/- The callers keep apart from a bucket's end: nobody else is in a call on it. -/
structure Users (pc : Nat → Pc) (callers : List Nat) : Prop where
  apart : ∀ t u address, ending (pc t) = some address → about (pc u) = some address → t = u
  known : ∀ t, t ∉ callers → about (pc t) = none

theorem endingAbout {pc : Pc} {address : Nat} (ends : ending pc = some address) : about pc = some address := by
  cases pc <;> first | exact ends | contradiction

theorem clearedEnding {pc : Pc} {address : Nat} (gone : cleared pc = some address) : ending pc = some address := by
  cases pc <;> first | exact gone | contradiction

theorem nobodySound {s : Callers} {f : Pc → Option Nat} {address : Nat} (users : Users s.timer.pc s.callers)
    (part : ∀ pc, f pc = some address → about pc = some address) (none_ : nobody s f address = true) (t : Nat) :
    f (s.timer.pc t) ≠ some address := by
  intro there
  by_cases known : t ∈ s.callers
  · have absent := List.all_eq_true.mp none_ t known
    simp [there] at absent
  · have outside := users.known t known
    rw [part _ there] at outside
    contradiction

theorem usersBegin {pc : Nat → Pc} {callers : List Nat} {t : Nat} {new : Pc} (users : Users pc callers)
    (mine : ∀ address, about new = some address → ∀ u, u ≠ t → ending (pc u) ≠ some address)
    (last : ∀ address, ending new = some address → ∀ u, u ≠ t → about (pc u) ≠ some address) :
    Users (update pc t new) (t :: callers) := by
  constructor
  · intro u v address ends there
    by_cases first : u = t
    · by_cases second : v = t
      · rw [first,second]
      · subst first
        rw [updateSame] at ends
        rw [updateOther _ _ second] at there
        exact absurd there (last address ends v second)
    · rw [updateOther _ _ first] at ends
      by_cases second : v = t
      · subst second
        rw [updateSame] at there
        exact absurd ends (mine address there u first)
      · rw [updateOther _ _ second] at there
        exact users.apart u v address ends there
  · intro u absent
    rw [updateOther _ _ (List.ne_of_not_mem_cons absent)]
    exact users.known u (List.not_mem_of_not_mem_cons absent)

structure Onward (old new : Pc) : Prop where
  about : ∀ address, about new = some address → about old = some address
  ending : ∀ address, ending new = some address → ending old = some address

theorem usersOnward {pc : Nat → Pc} {callers : List Nat} {t : Nat} {new : Pc} (users : Users pc callers)
    (onward : Onward (pc t) new) : Users (update pc t new) callers := by
  have before : ∀ u address, TimerCalls.about (update pc t new u) = some address →
      TimerCalls.about (pc u) = some address := by
    intro u address there
    by_cases mine : u = t
    · subst mine
      rw [updateSame] at there
      exact onward.about address there
    · rwa [updateOther _ _ mine] at there
  constructor
  · intro u v address ends there
    refine users.apart u v address ?_ (before v address there)
    by_cases mine : u = t
    · subst mine
      rw [updateSame] at ends
      exact onward.ending address ends
    · rwa [updateOther _ _ mine] at ends
  · intro u absent
    cases there : TimerCalls.about (update pc t new u) with
    | none => rfl
    | some address =>
      have old := before u address there
      rw [users.known u absent] at old
      contradiction

theorem stepOnward {s u : TimerThreads.State} {t : Nat} {pc : Pc} (step : Step s t pc u) : Onward pc (u.pc t) := by
  have either : TimerCalls.about (u.pc t) = TimerCalls.about pc ∧ TimerCalls.ending (u.pc t) = TimerCalls.ending pc ∨
      u.pc t = .outside := by
    cases step <;> simp [TimerCalls.about,TimerCalls.ending]
  rcases either with ⟨stays,ends⟩ | leaves
  · exact ⟨fun _ there => stays ▸ there,fun _ there => ends ▸ there⟩
  · rw [leaves]
    exact ⟨fun _ there => by contradiction,fun _ there => by contradiction⟩

def slot : Option Handler → Option Nat
  | some (.loop i) => some i
  | some (.lockBucket i _) => some i
  | some (.unlockBucket i _) => some (i+1)
  | _ => none

def tick (s : TimerThreads.State) : Option Nat := (s.holder .job).bind fun t => slot (s.handler t)

def Walking (m : Module) : Handler → Prop
  | .lockJob => True
  | .loop i => i ≤ mytbfMax
  | .lockBucket i address => i < mytbfMax ∧ m.job i = some address
  | .unlockBucket i _ => i < mytbfMax

def Calling (owed : List Grant) (grant : Nat) (m : Module) (t : Nat) : Pc → Prop
  | .initLock cps burst => Params cps burst
  | .fetchLock _ size => 1 ≤ size
  | .fetchTest _ size => 1 ≤ size
  | .fetchWait _ size => 1 ≤ size
  | .fetchWoken _ size => 1 ≤ size
  | .returnLock address size =>
    ∃ g, owed[grant]? = some g ∧ g.thread = t ∧ g.address = address ∧ 0 ≤ size ∧ size ≤ g.amount
  | .destroyUnlock address => m.bucket address = none ∧ address < m.allocated
  | .destroyFree address => m.bucket address = none ∧ address < m.allocated
  | _ => True

/- The bucket table above and below. A bucket whose slot is cleared is gone above, and
below it is still to be freed. -/
structure Same (pc : Nat → Pc) (m n : Module) : Prop where
  job : m.job = n.job
  allocated : m.allocated = n.allocated
  bucket : ∀ address, (∀ t, cleared (pc t) ≠ some address) → m.bucket address = n.bucket address

structure Related (s : Callers) (a : TokenLaw.State) : Prop where
  agreed : AlarmLocks.Agreed s.timer
  sound : TokenLaw.Sound a
  users : Users s.timer.pc s.callers
  same : Same s.timer.pc a.mod s.timer.mod
  owed : a.owed = s.owed
  tick : a.tick = tick s.timer
  calling : ∀ t, Calling s.owed (s.grant t) a.mod t (s.timer.pc t)
  walking : ∀ t h, s.timer.handler t = some h → Walking s.timer.mod h

theorem clearedFrame {pc : Nat → Pc} {t : Nat} {new : Pc} (same : cleared new = cleared (pc t)) (u : Nat) :
    cleared (update pc t new u) = cleared (pc u) := by
  by_cases mine : u = t
  · rw [mine,updateSame,same]
  · rw [updateOther _ _ mine]

theorem samePut {pc : Nat → Pc} {m n : Module} (same : Same pc m n) (address : Nat) (c : Mytbf) :
    Same pc { m with bucket := update m.bucket address (some c) } { n with bucket := update n.bucket address (some c) } := by
  refine ⟨same.job,same.allocated,fun other absent => ?_⟩
  simp only [update,same.bucket other absent]

theorem sameFrame {pc pc' : Nat → Pc} {m n : Module} (same : Same pc m n)
    (clears : ∀ u, cleared (pc' u) = cleared (pc u)) : Same pc' m n := by
  refine ⟨same.job,same.allocated,fun address absent => same.bucket address fun u => ?_⟩
  rw [← clears u]
  exact absent u

structure Later (m n : Module) : Prop where
  gone : ∀ address, address < m.allocated → m.bucket address = none → n.bucket address = none
  allocated : m.allocated ≤ n.allocated

theorem laterRefl (m : Module) : Later m m := ⟨fun _ _ dead => dead,Nat.le_refl _⟩

theorem laterPut {m : Module} {address : Nat} {b c : Mytbf} (live : m.bucket address = some b) :
    Later m { m with bucket := update m.bucket address (some c) } := by
  refine ⟨fun other _ dead => ?_,Nat.le_refl _⟩
  have apart : other ≠ address := by
    intro here
    rw [here,live] at dead
    contradiction
  exact (updateOther _ _ apart).trans dead

theorem callingLater {owed owed' : List Grant} {grant t : Nat} {m n : Module} {pc : Pc}
    (calling : Calling owed grant m t pc) (later : Later m n)
    (grants : ∀ g, owed[grant]? = some g → g.thread = t → owed'[grant]? = some g) : Calling owed' grant n t pc := by
  cases pc with
  | returnLock address size =>
    obtain ⟨g,found,owner,rest⟩ := calling
    exact ⟨g,grants g found owner,owner,rest⟩
  | destroyUnlock address => exact ⟨later.gone address calling.2 calling.1,Nat.lt_of_lt_of_le calling.2 later.allocated⟩
  | destroyFree address => exact ⟨later.gone address calling.2 calling.1,Nat.lt_of_lt_of_le calling.2 later.allocated⟩
  | _ => exact calling

theorem jobStep {holder holder' : Lock → Option Nat} {t : Nat} {before after : List Lock}
    (locks : Locking.LockStep holder t before after holder') (own : ∀ l ∈ before, holder l = some t) :
    holder' .job = holder .job ∨ holder .job = none ∧ holder' .job = some t ∨
      holder .job = some t ∧ holder' .job = none := by
  cases locks with
  | stay same => exact .inl rfl
  | took l free now =>
    by_cases here : l = .job
    · subst here
      exact .inr (.inl ⟨free,Function.update_self _ _ _⟩)
    · exact .inl (Function.update_of_ne (Ne.symm here) _ _)
  | gave l had =>
    by_cases here : l = .job
    · subst here
      exact .inr (.inr ⟨own .job (by rw [had]; exact List.mem_cons_self),Function.update_self _ _ _⟩)
    · exact .inl (Function.update_of_ne (Ne.symm here) _ _)

theorem tickStep {s u : TimerThreads.State} {t : Nat} (agreed : AlarmLocks.Agreed s) (quiet : s.handler t = none)
    (step : Step s t (s.pc t) u) : tick u = tick s := by
  have own : ∀ l ∈ held (s.pc t), s.holder l = some t := by
    intro l has
    exact (agreed.agree l t).mpr (by rw [AlarmLocks.heldQuiet quiet]; exact has)
  have handlers := (AlarmLocks.stepFrame step).1
  rcases jobStep (AlarmLocks.stepLocks step) own with same | ⟨before,after⟩ | ⟨before,after⟩
  · simp only [tick,same,handlers]
  · simp only [tick,before,after,handlers,Option.bind_some,Option.bind_none,quiet,slot]
  · simp only [tick,before,after,handlers,Option.bind_some,Option.bind_none,quiet,slot]

theorem uncleared {pc : Nat → Pc} {callers : List Nat} {t address : Nat} (users : Users pc callers)
    (mine : about (pc t) = some address) (here : cleared (pc t) = none) (u : Nat) : cleared (pc u) ≠ some address := by
  intro gone
  rw [users.apart u t address (clearedEnding gone) mine,here] at gone
  contradiction

theorem registeredLive {s : Callers} {a : TokenLaw.State} {i address : Nat} (related : Related s a)
    (registered : s.timer.mod.job i = some address) (u : Nat) : cleared (s.timer.pc u) ≠ some address := by
  intro gone
  rw [← related.same.job] at registered
  obtain ⟨b,live,_⟩ := related.sound.table.slot i address registered
  have calling := related.calling u
  have dead : a.mod.bucket address = none := by
    cases stands : s.timer.pc u <;> rw [stands] at gone calling <;> first | contradiction | skip
    · cases Option.some.inj gone
      exact calling.1
    · cases Option.some.inj gone
      exact calling.1
  rw [dead] at live
  contradiction

theorem walkerHolds {s : TimerThreads.State} {u : Nat} {h : Handler} (agreed : AlarmLocks.Agreed s)
    (running : s.handler u = some h) (walks : Lock.job ∈ handlerHeld (some h)) : s.holder .job = some u :=
  (agreed.agree .job u).mpr (by rw [allHeld,running]; exact List.mem_append_left _ walks)

theorem walkingFree {s : TimerThreads.State} {u : Nat} {h : Handler} {m n : Module} (agreed : AlarmLocks.Agreed s)
    (free : s.holder .job = none) (running : s.handler u = some h) (walking : Walking m h) : Walking n h := by
  cases h with
  | lockBucket i address =>
    have owner := walkerHolds agreed running (by simp [handlerHeld])
    rw [free] at owner
    contradiction
  | _ => exact walking

theorem tickFree {s : TimerThreads.State} (free : s.holder .job = none) : tick s = none := by
  rw [tick,free]
  rfl

theorem tickHeld {s : TimerThreads.State} {t : Nat} (owner : s.holder .job = some t) : tick s = slot (s.handler t) := by
  rw [tick,owner]
  rfl

theorem relatedCall {s : Callers} {a b : TokenLaw.State} {v : TimerThreads.State} {t : Nat} {owed : List Grant}
    (related : Related s a) (quiet : s.timer.handler t = none) (step : Step s.timer t (s.timer.pc t) v)
    (sound : TokenLaw.Sound b) (same : Same v.pc b.mod v.mod) (charged : b.owed = owed) (ticks : b.tick = a.tick)
    (later : Later a.mod b.mod)
    (grants : ∀ u, u ≠ t → ∀ g, s.owed[s.grant u]? = some g → g.thread = u → owed[s.grant u]? = some g)
    (mine : Calling owed (s.grant t) b.mod t (v.pc t))
    (walking : ∀ u h, s.timer.handler u = some h → Walking s.timer.mod h → Walking v.mod h) :
    Related ⟨v,owed,s.grant,s.callers⟩ b := by
  obtain ⟨handlers,others⟩ := AlarmLocks.stepFrame step
  have pc : v.pc = update s.timer.pc t (v.pc t) := by
    funext u
    by_cases here : u = t
    · rw [here,updateSame]
    · rw [updateOther _ _ here,others u here]
  refine ⟨AlarmLocks.agreedMove related.agreed (.step t v quiet step),sound,?_,same,charged,?_,?_,?_⟩
  · simp only
    rw [pc]
    exact usersOnward related.users (stepOnward step)
  · rw [ticks,related.tick]
    exact (tickStep related.agreed quiet step).symm
  · intro u
    by_cases here : u = t
    · rw [here]
      exact mine
    · simp only [others u here]
      exact callingLater (related.calling u) later (grants u here)
  · intro u h running
    simp only [handlers] at running
    exact walking u h running (related.walking u h running)

theorem relatedQuiet {s : Callers} {a : TokenLaw.State} {v : TimerThreads.State} {t : Nat} (related : Related s a)
    (quiet : s.timer.handler t = none) (step : Step s.timer t (s.timer.pc t) v) (mod : v.mod = s.timer.mod)
    (clears : cleared (v.pc t) = cleared (s.timer.pc t)) (mine : Calling s.owed (s.grant t) a.mod t (v.pc t)) :
    Related ⟨v,s.owed,s.grant,s.callers⟩ a := by
  refine relatedCall related quiet step related.sound ?_ related.owed rfl (laterRefl _) (fun _ _ _ found _ => found)
    mine ?_
  · rw [mod]
    refine sameFrame related.same fun u => ?_
    by_cases here : u = t
    · rw [here,clears]
    · rw [(AlarmLocks.stepFrame step).2 u here]
  · rw [mod]
    exact fun _ _ _ walking => walking

theorem initFollowed {s : Callers} {a : TokenLaw.State} {t pos : Nat} {cps burst : Int} (related : Related s a)
    (quiet : s.timer.handler t = none) (stands : s.timer.pc t = .initLock cps burst) (free : s.timer.holder .job = none)
    (found : getFreePosUnlocked s.timer.mod = some pos) :
    ∃ b, TokenLaw.nextState a (.init ⟨true,true,true⟩ cps burst) = some b ∧
      Related ⟨{ took s.timer t .job .initUnlock with mod := place s.timer.mod pos cps burst },s.owed,s.grant,
        s.callers⟩ b := by
  have step := Step.initPlace (t := t) cps burst pos free found
  have params : Params cps burst := by simpa [stands,Calling] using related.calling t
  have idle : a.tick = none := by rw [related.tick,tickFree free]
  have spot : freePosFrom a.mod.job mytbfMax 0 = some pos := by
    rw [related.same.job]
    exact found
  obtain ⟨l,loaded,made⟩ := initReturns spot cps burst
  have followed : TokenLaw.nextState a (.init ⟨true,true,true⟩ cps burst) = some { a with mod := { l with
      job := update l.job pos (some a.mod.allocated)
      bucket := update l.bucket a.mod.allocated (some ⟨cps,burst,0,pos⟩)
      allocated := a.mod.allocated + 1 } } := by
    simp [TokenLaw.nextState,idle,params,made]
  refine ⟨_,followed,?_⟩
  rw [← stands] at step
  refine relatedCall related quiet step (TokenLaw.soundStep related.sound (TokenLaw.stepSound followed)) ?_
    related.owed rfl ?_ (fun _ _ _ found _ => found) (by simp [Calling]) ?_
  · have clears : ∀ u, cleared (update s.timer.pc t .initUnlock u) = cleared (s.timer.pc u) :=
      clearedFrame (by rw [stands]; rfl)
    have before := sameFrame related.same clears
    refine ⟨?_,?_,?_⟩
    · simp only [place,loaded.job,before.job,before.allocated]
    · simp only [place,before.allocated]
    · intro address absent
      simp only [place,update,loaded.bucket,before.allocated,before.bucket address absent]
  · refine ⟨fun address old dead => ?_,Nat.le_succ _⟩
    simp only [updateOther _ _ (Nat.ne_of_lt old),loaded.bucket]
    exact dead
  · exact fun u h running walking => walkingFree related.agreed free running walking

theorem destroyFollowed {s : Callers} {a : TokenLaw.State} {t address : Nat} {b : Mytbf} (related : Related s a)
    (quiet : s.timer.handler t = none) (stands : s.timer.pc t = .destroyLock address)
    (live : s.timer.mod.bucket address = some b) (free : s.timer.holder .job = none) :
    ∃ c, TokenLaw.nextState a (.destroy address) = some c ∧
      Related ⟨{ took s.timer t .job (.destroyUnlock address) with
        mod := { s.timer.mod with job := update s.timer.mod.job b.pos none } },s.owed,s.grant,s.callers⟩ c := by
  have step := Step.destroyClear (t := t) address b live free
  have idle : a.tick = none := by rw [related.tick,tickFree free]
  have above : a.mod.bucket address = some b := by
    rw [related.same.bucket address (uncleared related.users (by rw [stands]; rfl) (by rw [stands]; rfl))]
    exact live
  have followed : TokenLaw.nextState a (.destroy address) = some { a with mod := { a.mod with
      job := update a.mod.job b.pos none
      bucket := update a.mod.bucket address none
      frees := update a.mod.frees address (a.mod.frees address + 1) } } := by
    simp [TokenLaw.nextState,idle,mytbfDestroy,above]
  refine ⟨_,followed,?_⟩
  rw [← stands] at step
  refine relatedCall related quiet step (TokenLaw.soundStep related.sound (TokenLaw.stepSound followed)) ?_
    related.owed rfl ?_ (fun _ _ _ found _ => found) ?_ ?_
  · refine ⟨by simp only [related.same.job],related.same.allocated,fun other absent => ?_⟩
    have apart : other ≠ address := by
      intro here
      exact absent t (by simp [here,cleared])
    simp only [updateOther _ _ apart]
    refine related.same.bucket other fun u gone => ?_
    have mine : u ≠ t := by
      intro here
      rw [here,stands] at gone
      contradiction
    exact absent u (by rw [(AlarmLocks.stepFrame step).2 u mine]; exact gone)
  · refine ⟨fun other _ dead => ?_,Nat.le_refl _⟩
    by_cases here : other = address
    · rw [here]
      exact updateSame _ _ _
    · exact (updateOther _ _ here).trans dead
  · simp only [AlarmLocks.tookPc,Calling]
    exact ⟨updateSame _ _ _,liveAllocated related.sound.table above⟩
  · exact fun u h running walking => walkingFree related.agreed free running walking

theorem fetchFollowed {s : Callers} {a : TokenLaw.State} {t address : Nat} {size n : Int} {b c : Mytbf}
    (related : Related s a) (quiet : s.timer.handler t = none) (stands : s.timer.pc t = .fetchTest address size)
    (live : s.timer.mod.bucket address = some b) (got : fetchtoken b size = some (n,c)) :
    ∃ d, TokenLaw.nextState a (.fetch t address size n) = some d ∧
      Related ⟨TimerThreads.putBucket (goto s.timer t (.fetchUnlock address)) address c,s.owed ++ [⟨t,address,n⟩],s.grant,
        s.callers⟩ d := by
  have step := Step.fetchTake (t := t) address size n b c live got
  have wanted : 1 ≤ size := by simpa [stands,Calling] using related.calling t
  have above : a.mod.bucket address = some b := by
    rw [related.same.bucket address (uncleared related.users (by rw [stands]; rfl) (by rw [stands]; rfl))]
    exact live
  have followed : TokenLaw.nextState a (.fetch t address size n) =
      some { TokenLaw.putBucket a address (some c) with owed := a.owed ++ [⟨t,address,n⟩] } := by
    simp [TokenLaw.nextState,wanted,above,got]
  refine ⟨_,followed,?_⟩
  rw [← stands] at step
  refine relatedCall related quiet step (TokenLaw.soundStep related.sound (TokenLaw.stepSound followed)) ?_
    (by rw [related.owed]) rfl (laterPut above) ?_ (by simp [Calling]) ?_
  · exact samePut (sameFrame related.same (clearedFrame (by rw [stands]; rfl))) address c
  · intro u _ g found _
    rw [List.getElem?_append_left (List.getElem?_eq_some_iff.mp found).choose]
    exact found
  · intro u h _ walking
    exact walking

theorem returnFollowed {s : Callers} {a : TokenLaw.State} {t address : Nat} {size : Int} {b c : Mytbf}
    (related : Related s a) (quiet : s.timer.handler t = none) (stands : s.timer.pc t = .returnLock address size)
    (live : s.timer.mod.bucket address = some b) (added : returntoken b size = some c)
    (free : s.timer.holder (.bucket address) = none) :
    ∃ d, TokenLaw.nextState a (.giveBack t address (s.grant t) size) = some d ∧
      Related ⟨TimerThreads.putBucket (took s.timer t (.bucket address) (.returnUnlock address)) address c,
        charged s.owed (some (.giveBack t address (s.grant t) size)),s.grant,s.callers⟩ d := by
  have step := Step.returnAdd (t := t) address size b c live added free
  have calling := related.calling t
  rw [stands] at calling
  obtain ⟨g,found,owner,place,positive,within⟩ := calling
  have above : a.mod.bucket address = some b := by
    rw [related.same.bucket address (uncleared related.users (by rw [stands]; rfl) (by rw [stands]; rfl))]
    exact live
  have followed : TokenLaw.nextState a (.giveBack t address (s.grant t) size) =
      some { TokenLaw.putBucket a address (some c) with
        owed := a.owed.set (s.grant t) { g with amount := g.amount - size } } := by
    simp [TokenLaw.nextState,related.owed,found,owner,place,positive,within,above,added]
  refine ⟨_,followed,?_⟩
  rw [← stands] at step
  simp only [charged,found]
  refine relatedCall related quiet step (TokenLaw.soundStep related.sound (TokenLaw.stepSound followed)) ?_
    (by rw [related.owed]) rfl (laterPut above) ?_ (by simp [Calling]) ?_
  · exact samePut (sameFrame related.same (clearedFrame (by rw [stands]; rfl))) address c
  · intro u other d held owned
    have apart : s.grant t ≠ s.grant u := by
      intro equal
      rw [← equal,found] at held
      cases Option.some.inj held
      exact other (owned.symm.trans owner)
    rw [List.getElem?_set_ne apart]
    exact held
  · intro u h _ walking
    exact walking

theorem freeRelated {s : Callers} {a : TokenLaw.State} {t address : Nat} (related : Related s a)
    (quiet : s.timer.handler t = none) (stands : s.timer.pc t = .destroyFree address) :
    Related ⟨{ goto s.timer t .outside with mod := { s.timer.mod with
      bucket := update s.timer.mod.bucket address none
      frees := update s.timer.mod.frees address (s.timer.mod.frees address + 1) } },s.owed,s.grant,s.callers⟩ a := by
  have step := @Step.destroyFree s.timer t address
  have calling := related.calling t
  rw [stands] at calling
  rw [← stands] at step
  refine relatedCall related quiet step related.sound ?_ related.owed rfl (laterRefl _) (fun _ _ _ found _ => found)
    (by simp [Calling]) (fun u h _ walking => walking)
  refine ⟨related.same.job,related.same.allocated,fun other absent => ?_⟩
  by_cases here : other = address
  · rw [here]
    exact calling.1.trans (updateSame _ _ _).symm
  · simp only [updateOther _ _ here]
    refine related.same.bucket other fun u gone => ?_
    by_cases mine : u = t
    · rw [mine,stands] at gone
      exact here (Option.some.inj gone).symm
    · exact absent u (by rw [(AlarmLocks.stepFrame step).2 u mine]; exact gone)

theorem stepFollowed {s : Callers} {a : TokenLaw.State} {v : TimerThreads.State} {t : Nat} (related : Related s a)
    (quiet : s.timer.handler t = none) (step : Step s.timer t (s.timer.pc t) v) :
    ∃ b, exec TokenLaw.nextState a (callDeed s t (s.timer.pc t)).toList = some b ∧
      Related ⟨v,charged s.owed (callDeed s t (s.timer.pc t)),s.grant,s.callers⟩ b := by
  have calling := related.calling t
  have silent := @relatedQuiet s a v t related quiet step
  generalize stands : s.timer.pc t = pc at step calling silent ⊢
  cases step with
  | initPlace cps burst pos free found =>
    obtain ⟨b,followed,last⟩ := initFollowed related quiet stands free found
    exact ⟨b,by simp [callDeed,followed],last⟩
  | fetchTake address size n b c live got =>
    obtain ⟨d,followed,last⟩ := fetchFollowed related quiet stands live got
    have seen : callDeed s t (.fetchTest address size) = some (.fetch t address size n) := by simp [callDeed,live,got]
    rw [seen]
    exact ⟨d,by simp [followed],last⟩
  | fetchSleep address size b live empty =>
    have seen : callDeed s t (.fetchTest address size) = none := by simp [callDeed,live,empty]
    rw [seen]
    exact ⟨a,rfl,silent rfl (by simp [cleared]) (by simpa [Calling] using calling)⟩
  | returnAdd address size b c live added free =>
    obtain ⟨d,followed,last⟩ := returnFollowed related quiet stands live added free
    exact ⟨d,by simp [callDeed,followed],last⟩
  | destroyClear address b live free =>
    obtain ⟨c,followed,last⟩ := destroyFollowed related quiet stands live free
    exact ⟨c,by simp [callDeed,followed],last⟩
  | destroyFree address => exact ⟨a,rfl,freeRelated related quiet stands⟩
  | initUnlock => exact ⟨a,rfl,silent rfl (by simp [cleared]) (by simp [Calling])⟩
  | fetchLock address size free => exact ⟨a,rfl,silent rfl (by simp [cleared]) (by simpa [Calling] using calling)⟩
  | fetchWoken address size free => exact ⟨a,rfl,silent rfl (by simp [cleared]) (by simpa [Calling] using calling)⟩
  | fetchUnlock address => exact ⟨a,rfl,silent rfl (by simp [cleared]) (by simp [Calling])⟩
  | returnUnlock address => exact ⟨a,rfl,silent rfl (by simp [cleared]) (by simp [Calling])⟩
  | checkLock address free => exact ⟨a,rfl,silent rfl (by simp [cleared]) (by simp [Calling])⟩
  | checkUnlock address => exact ⟨a,rfl,silent rfl (by simp [cleared]) (by simp [Calling])⟩
  | destroyUnlock address => exact ⟨a,rfl,silent rfl (by simp [cleared]) (by simpa [Calling] using calling)⟩

theorem relatedHandle {s : Callers} {a b : TokenLaw.State} {v : TimerThreads.State} {t : Nat} {h : Handler}
    (related : Related s a) (running : s.timer.handler t = some h) (step : HandlerStep s.timer t h v)
    (sound : TokenLaw.Sound b) (same : Same s.timer.pc b.mod v.mod) (owed : b.owed = s.owed)
    (ticks : b.tick = TimerCalls.tick v) (later : Later a.mod b.mod) (job : v.mod.job = s.timer.mod.job)
    (mine : ∀ h', v.handler t = some h' → Walking s.timer.mod h') : Related ⟨v,s.owed,s.grant,s.callers⟩ b := by
  obtain ⟨calls,others⟩ := AlarmLocks.handlerFrame step
  refine ⟨AlarmLocks.agreedMove related.agreed (.handle t h v running step),sound,?_,?_,owed,ticks,?_,?_⟩
  · rw [calls]
    exact related.users
  · rw [calls]
    exact same
  · intro u
    simp only [calls]
    exact callingLater (related.calling u) later fun _ found _ => found
  · intro u h' stands
    have before : Walking s.timer.mod h' := by
      by_cases here : u = t
      · rw [here] at stands
        exact mine h' stands
      · rw [others u here] at stands
        exact related.walking u h' stands
    cases h' with
    | lockBucket i address => exact ⟨before.1,by rw [job]; exact before.2⟩
    | _ => exact before

theorem handleFollowed {s : Callers} {a : TokenLaw.State} {v : TimerThreads.State} {t : Nat} {h : Handler}
    (related : Related s a) (running : s.timer.handler t = some h) (step : HandlerStep s.timer t h v) :
    ∃ b, exec TokenLaw.nextState a (handlerDeed s.timer.mod h).toList = some b ∧
      Related ⟨v,s.owed,s.grant,s.callers⟩ b := by
  have walking := related.walking t h running
  have owner := walkerHolds related.agreed running
  have at_ : Lock.job ∈ handlerHeld (some h) → a.tick = slot (some h) := by
    intro walks
    rw [related.tick,tickHeld (owner walks),running]
  have one : ∀ {e b}, TokenLaw.nextState a e = some b → exec TokenLaw.nextState a (some e).toList = some b := by
    intro e b followed
    simp [followed]
  have after : ∀ {e b}, TokenLaw.nextState a e = some b → TokenLaw.Sound b :=
    fun followed => TokenLaw.soundStep related.sound (TokenLaw.stepSound followed)
  cases step with
  | lockJob free =>
    have idle : a.tick = none := by rw [related.tick,tickFree free]
    have followed : TokenLaw.nextState a .tickBegin = some { a with tick := some 0 } := by
      simp [TokenLaw.nextState,idle]
    have now : tick (handlerTook s.timer t .job (.loop 0)) = some 0 := by simp [tick,handlerTook,interrupt,slot]
    exact ⟨_,one followed,relatedHandle related running (.lockJob free) (after followed) related.same related.owed
      now.symm (laterRefl _) rfl (by simp [Walking])⟩
  | skip i inside empty =>
    have place : a.tick = some i := at_ (by simp [handlerHeld])
    have slotEmpty : a.mod.job i = none := by rw [related.same.job,empty]
    have followed : TokenLaw.nextState a (.tickSlot i) = some { a with tick := some (i+1) } := by
      simp [TokenLaw.nextState,place,inside,slotEmpty]
    have seen : handlerDeed s.timer.mod (.loop i) = some (.tickSlot i) := by simp [handlerDeed,inside,empty]
    have now : tick (interrupt s.timer t (some (.loop (i+1)))) = some (i+1) := by
      simp [tick,interrupt,owner (by simp [handlerHeld]),slot]
    rw [seen]
    exact ⟨_,one followed,relatedHandle related running (.skip i inside empty) (after followed) related.same related.owed
      now.symm (laterRefl _) rfl (by simpa [Walking] using Nat.succ_le_of_lt inside)⟩
  | slot i address inside registered =>
    have place : a.tick = some i := at_ (by simp [handlerHeld])
    have seen : handlerDeed s.timer.mod (.loop i) = none := by simp [handlerDeed,inside,registered]
    have now : tick (interrupt s.timer t (some (.lockBucket i address))) = some i := by
      simp [tick,interrupt,owner (by simp [handlerHeld]),TimerCalls.slot]
    rw [seen]
    exact ⟨a,rfl,relatedHandle related running (.slot i address inside registered) related.sound related.same related.owed
      (place.trans now.symm) (laterRefl _) rfl (by simpa [Walking] using ⟨inside,registered⟩)⟩
  | done i past =>
    have last : i = mytbfMax := Nat.le_antisymm walking past
    have place : a.tick = some mytbfMax := last ▸ at_ (by simp [handlerHeld])
    have followed : TokenLaw.nextState a .tickEnd = some { a with tick := none } := by
      simp [TokenLaw.nextState,place]
    have seen : handlerDeed s.timer.mod (.loop i) = some .tickEnd := by simp [handlerDeed,last]
    have now : tick (handlerUnlock s.timer t .job none) = none := tickFree (by simp [handlerUnlock])
    rw [seen]
    exact ⟨_,one followed,relatedHandle related running (.done i past) (after followed) related.same related.owed
      now.symm (laterRefl _) rfl (by simp)⟩
  | credit i address b c free live added =>
    have place : a.tick = some i := at_ (by simp [handlerHeld])
    have registered : a.mod.job i = some address := by rw [related.same.job,walking.2]
    have above : a.mod.bucket address = some b := by
      rw [related.same.bucket address (registeredLive related walking.2)]
      exact live
    have followed : TokenLaw.nextState a (.tickSlot i) =
        some { TokenLaw.putBucket a address (some c) with tick := some (i+1) } := by
      simp [TokenLaw.nextState,place,walking.1,registered,above,added]
    have now : tick (TimerThreads.putBucket (handlerTook s.timer t (.bucket address) (.unlockBucket i address)) address c) =
        some (i+1) := by
      simp [tick,TimerThreads.putBucket,handlerTook,interrupt,owner (by simp [handlerHeld]),slot]
    exact ⟨_,one followed,relatedHandle related running (.credit i address b c free live added) (after followed)
      (samePut related.same address c) related.owed now.symm (laterPut above) rfl (by simpa [Walking] using walking.1)⟩
  | unlockBucket i address =>
    have place : a.tick = some (i+1) := at_ (by simp [handlerHeld])
    have now : tick (handlerUnlock s.timer t (.bucket address) (some (.loop (i+1)))) = some (i+1) := by
      simp [tick,handlerUnlock,interrupt,owner (by simp [handlerHeld]),slot]
    have below : i + 1 ≤ mytbfMax := walking
    exact ⟨a,rfl,relatedHandle related running (.unlockBucket i address) related.sound related.same related.owed
      (place.trans now.symm) (laterRefl _) rfl (by simpa [Walking] using below)⟩

theorem relatedGoto {s : Callers} {a : TokenLaw.State} {t : Nat} {new : Pc} {m : Module} {grant : Nat → Nat}
    {callers : List Nat} (related : Related s a) (loaded : m = s.timer.mod ∨ Loaded s.timer.mod m)
    (agreed : AlarmLocks.Agreed { goto s.timer t new with mod := m })
    (users : Users (update s.timer.pc t new) callers) (clears : cleared new = cleared (s.timer.pc t))
    (mine : Calling s.owed (grant t) a.mod t new) (others : ∀ u, u ≠ t → grant u = s.grant u) :
    Related ⟨{ goto s.timer t new with mod := m },s.owed,grant,callers⟩ a := by
  have table : m.job = s.timer.mod.job ∧ m.allocated = s.timer.mod.allocated ∧ m.bucket = s.timer.mod.bucket := by
    rcases loaded with same | loaded
    · rw [same]
      exact ⟨rfl,rfl,rfl⟩
    · exact ⟨loaded.job,loaded.allocated,loaded.bucket⟩
  obtain ⟨job,allocated,bucket⟩ := table
  have before := sameFrame related.same (clearedFrame clears)
  refine ⟨agreed,related.sound,users,⟨before.job.trans job.symm,before.allocated.trans allocated.symm,?_⟩,related.owed,
    related.tick,?_,?_⟩
  · intro address absent
    simp only [bucket]
    exact before.bucket address absent
  · intro u
    by_cases here : u = t
    · rw [here]
      simpa using mine
    · simp only [goto,updateOther _ _ here,others u here]
      exact related.calling u
  · intro u h running
    have walking := related.walking u h running
    cases h with
    | lockBucket i address => exact ⟨walking.1,by simp only [job]; exact walking.2⟩
    | _ => exact walking

theorem freeRuns {s : TimerThreads.State} {t : Nat} (idle : free s t = true) (pc : Pc) (held_ : held pc = [])
    (agreed : AlarmLocks.Agreed s) (m : Module) : AlarmLocks.Agreed { goto s t pc with mod := m } :=
  AlarmLocks.agreedGoto agreed (by rw [(freeSound idle).1]; rfl) held_

theorem callBegun {s : Callers} {a : TokenLaw.State} {t address : Nat} {new : Pc} {grant : Nat → Nat}
    (related : Related s a) (idle : free s.timer t = true) (open_ : nobody s ending address = true)
    (here : about new = some address) (goes : ending new = none) (unlocked : held new = [])
    (mine : Calling s.owed (grant t) a.mod t new) (others : ∀ u, u ≠ t → grant u = s.grant u) :
    Related ⟨goto s.timer t new,s.owed,grant,t :: s.callers⟩ a := by
  have outside := (freeSound idle).1
  have clears : cleared new = none := by
    cases gone : cleared new with
    | none => rfl
    | some other =>
      rw [clearedEnding gone] at goes
      contradiction
  refine relatedGoto (m := s.timer.mod) related (.inl rfl) (freeRuns idle new unlocked related.agreed _) ?_
    (by rw [clears,outside]; rfl) mine others
  refine usersBegin related.users ?_ (by simp [goes])
  intro other there u _ ends
  rw [here] at there
  cases Option.some.inj there
  exact nobodySound related.users (fun _ => endingAbout) open_ u ends

theorem actFollowed {s u : Callers} {a : TokenLaw.State} {e : Event} (related : Related s a) (act : Act s e u) :
    ∃ b, exec TokenLaw.nextState a (deed s e).toList = some b ∧ Related u b := by
  cases act with
  | giveBack t grant g r v found owner positive within open_ move =>
    cases move with
    | giveBack _ _ _ b live idle _ small =>
      refine ⟨a,rfl,callBegun related idle open_ rfl rfl rfl ?_ fun u other => updateOther _ _ other⟩
      exact ⟨g,by rw [updateSame]; exact found,owner,rfl,positive,within⟩
  | base e v plain open_ move =>
    cases move with
    | initNull t env cps burst m loaded =>
      refine ⟨a,rfl,?_⟩
      have still : update s.timer.pc t (s.timer.pc t) = s.timer.pc := by
        funext u
        by_cases here : u = t
        · rw [here,updateSame]
        · exact updateOther _ _ here
      have same : { goto s.timer t (s.timer.pc t) with mod := m } = { s.timer with mod := m } := by
        simp only [goto,still]
      change Related ⟨{ s.timer with mod := m },s.owed,s.grant,s.callers⟩ a
      rw [← same]
      exact relatedGoto related (.inr loaded) (by rw [same]; exact related.agreed) (by rw [still]; exact related.users)
        rfl (related.calling t) fun _ _ => rfl
    | init t env cps burst m idle params loaded =>
      have outside := (freeSound idle).1
      exact ⟨a,rfl,relatedGoto related (.inr loaded) (freeRuns idle (.initLock cps burst) rfl related.agreed m)
        (usersOnward related.users (by
          constructor <;> intro other there <;> contradiction)) (by rw [outside]; rfl) params fun _ _ => rfl⟩
    | fetch t address size idle live wanted =>
      exact ⟨a,rfl,callBegun related idle open_ rfl rfl rfl wanted fun _ _ => rfl⟩
    | giveBack t address size b live idle positive small => exact absurd rfl (plain t address size)
    | check t address idle live => exact ⟨a,rfl,callBegun related idle open_ rfl rfl rfl True.intro fun _ _ => rfl⟩
    | destroy t address idle live =>
      have outside := (freeSound idle).1
      refine ⟨a,rfl,relatedGoto (m := s.timer.mod) related (.inl rfl)
        (freeRuns idle (.destroyLock address) rfl related.agreed _) ?_ (by rw [outside]; rfl) True.intro fun _ _ => rfl⟩
      have alone := nobodySound related.users (fun _ there => there) open_
      refine usersBegin related.users ?_ ?_
      · intro other there u _ ends
        cases Option.some.inj there
        exact alone u (endingAbout ends)
      · intro other ends u _ there
        cases Option.some.inj ends
        exact alone u there
    | wake t address size asleep quiet =>
      have wanted : 1 ≤ size := by simpa [asleep,Calling] using related.calling t
      exact ⟨a,rfl,relatedGoto (m := s.timer.mod) related (.inl rfl)
        (AlarmLocks.agreedGoto related.agreed (by rw [asleep]; rfl) rfl)
        (usersOnward related.users (by rw [asleep]; exact ⟨fun _ there => there,fun _ ends => ends⟩))
        (by rw [asleep]; rfl) wanted fun _ _ => rfl⟩
    | step t v quiet made => exact stepFollowed related quiet made
    | alarm t quiet =>
      refine ⟨a,rfl,?_⟩
      have agreed := AlarmLocks.agreedMove related.agreed (.alarm t quiet)
      have ticks : tick (interrupt s.timer t (some .lockJob)) = tick s.timer := by
        cases owner : s.timer.holder .job with
        | none => rw [tickFree owner,tickFree (s := interrupt s.timer t (some .lockJob)) owner]
        | some u =>
          rw [tickHeld owner,tickHeld (s := interrupt s.timer t (some .lockJob)) owner]
          by_cases here : u = t
          · rw [here,AlarmLocks.interruptHandler,quiet]
            rfl
          · simp only [interrupt,updateOther _ _ here]
      refine ⟨agreed,related.sound,related.users,related.same,related.owed,related.tick.trans ticks.symm,
        related.calling,?_⟩
      intro u h running
      by_cases here : u = t
      · rw [here] at running
        simp only [AlarmLocks.interruptHandler,Option.some.injEq] at running
        subst running
        exact True.intro
      · simp only [interrupt,updateOther _ _ here] at running
        exact related.walking u h running
    | handle t h v running made =>
      obtain ⟨b,followed,last⟩ := handleFollowed related running made
      have seen : deed s (.base (.handle t)) = handlerDeed s.timer.mod h := by simp [deed,running]
      have owed : charged s.owed (handlerDeed s.timer.mod h) = s.owed := by
        cases h with
        | loop i =>
          simp only [handlerDeed]
          split
          · split <;> rfl
          · rfl
        | _ => rfl
      rw [seen,owed]
      exact ⟨b,followed,last⟩

theorem relatedStart : Related start TokenLaw.initialState := by
  refine ⟨AlarmLocks.agreedStarted unloaded,TokenLaw.soundInitial,⟨?_,fun _ _ => rfl⟩,⟨rfl,rfl,fun _ _ => rfl⟩,rfl,rfl,
    fun _ => True.intro,fun _ _ running => by contradiction⟩
  intro t u address ends
  contradiction

theorem relatedNext {s u : Callers} {a : TokenLaw.State} {e : Event} (related : Related s a) (step : next s e = some u) :
    ∃ b, exec TokenLaw.nextState a (deed s e).toList = some b ∧ Related u b :=
  actFollowed related (actSound step)

theorem relatedRun {es : List Event} {s u : Callers} {a : TokenLaw.State} (related : Related s a)
    (run : exec next s es = some u) :
    ∃ b, exec TokenLaw.nextState a (deeds next deed s es) = some b ∧ Related u b :=
  refines (fun _ _ _ _ kept step => relatedNext kept step) related run

/- The law of the bucket holds below: what has been taken out over any stretch is paid for
by the balance and the handlers that have got mut_job, wherever they have got to since. -/
theorem relatedWindow {w : List Event} {s u : Callers} {a : TokenLaw.State} {address : Nat} {b : Mytbf}
    (related : Related s a) (run : exec next s w = some u) (live : a.mod.bucket address = some b) :
    TokenLaw.fetched address (deeds next deed s w) - TokenLaw.returned address (deeds next deed s w) ≤
      b.token + ((TokenLaw.ticksBegun (deeds next deed s w) + if tick s.timer = none then 0 else 1 : Nat) : Int) *
        b.cps := by
  obtain ⟨_,followed,_⟩ := relatedRun related run
  have bound := TokenLaw.windowBound related.sound followed live
  have credits := TokenLaw.creditsBegun b.pos followed
  rw [related.tick] at credits
  have paid := Int.mul_le_mul_of_nonneg_right (Int.ofNat_le.mpr credits) (related.sound.balanced address b live).params.rate
  exact Int.le_trans bound (Int.add_le_add_left paid _)

theorem timerCalls {es : List Event} {s : Callers} (run : exec next start es = some s) :
    (∃ a, exec TokenLaw.nextState TokenLaw.initialState (deeds next deed start es) = some a ∧ a.overflow = false ∧
      a.owed = s.owed ∧ a.tick = tick s.timer ∧ Same s.timer.pc a.mod s.timer.mod) ∧
    ∀ i address b, s.timer.mod.job i = some address → s.timer.mod.bucket address = some b →
      (0 ≤ b.token ∧ b.token ≤ b.burst) ∧
      ∀ w u, exec next s w = some u →
        TokenLaw.fetched address (deeds next deed s w) - TokenLaw.returned address (deeds next deed s w) ≤
          b.token + ((TokenLaw.ticksBegun (deeds next deed s w) + if tick s.timer = none then 0 else 1 : Nat) : Int) *
            b.cps := by
  obtain ⟨a,followed,related⟩ := relatedRun relatedStart run
  refine ⟨⟨a,followed,related.sound.defined,related.owed,related.tick,related.same⟩,?_⟩
  intro i address b registered live
  have above : a.mod.bucket address = some b := by
    rw [related.same.bucket address (registeredLive related registered),live]
  have balanced := related.sound.balanced address b above
  exact ⟨⟨balanced.low,balanced.high⟩,fun w u later => relatedWindow related later above⟩

/- Two buckets, one destroyed again; a thread sleeps on the other, an alarm on a third thread
feeds it, and the thread takes 100 tokens and gives 30 back before the handler goes on. -/
def interruptedFetch : List Event :=
  [.base (.init 0 ⟨true,true,true⟩ 40960 204800),.base (.step 0),.base (.step 0),
    .base (.init 0 ⟨true,true,true⟩ 40960 204800),.base (.step 0),.base (.step 0),
    .base (.destroy 0 1),.base (.step 0),.base (.step 0),.base (.step 0),
    .base (.fetch 1 0 100),.base (.step 1),.base (.step 1),
    .base (.alarm 2),.base (.handle 2),.base (.handle 2),.base (.handle 2),.base (.handle 2),
    .base (.wake 1),.base (.step 1),.base (.step 1),.base (.step 1),
    .giveBack 1 0 0 30,.base (.step 1),.base (.step 1)]

theorem interruptedCalls : ∃ s a, exec next start interruptedFetch = some s ∧
    exec TokenLaw.nextState TokenLaw.initialState [.init ⟨true,true,true⟩ 40960 204800,
      .init ⟨true,true,true⟩ 40960 204800,.destroy 1,.tickBegin,.tickSlot 0,.fetch 1 0 100 100,.giveBack 1 0 0 30] =
        some a ∧ a.tick = some 1 ∧ a.owed = [⟨1,0,70⟩] := by
  have seen : (exec next start interruptedFetch).map (fun s => (tick s.timer,s.owed)) =
      some (some 1,[⟨1,0,70⟩]) := by decide +kernel
  have done : deeds next deed start interruptedFetch = [.init ⟨true,true,true⟩ 40960 204800,
      .init ⟨true,true,true⟩ 40960 204800,.destroy 1,.tickBegin,.tickSlot 0,.fetch 1 0 100 100,
      .giveBack 1 0 0 30] := by decide +kernel
  obtain ⟨s,run,same⟩ := Option.map_eq_some_iff.mp seen
  obtain ⟨place,left⟩ := Prod.mk.inj same
  obtain ⟨⟨a,followed,_,owed,ticks,_⟩,_⟩ := timerCalls run
  rw [done] at followed
  exact ⟨s,a,run,followed,ticks.trans place,owed.trans left⟩

end IPv4Media.TimerCalls
