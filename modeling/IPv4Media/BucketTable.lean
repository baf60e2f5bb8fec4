import IPv4Media.Library.Execution
import IPv4Media.TimerModule
import Mathlib.Data.Finset.Card

/-! The slot table of mytbf.c under any order of mytbf_init, mytbf_destroy and ticks.
mytbf_destroy is two steps: it clears its slot under mut_job and frees the bucket after
that, so ticks and other calls fall between. mytbf_init is one, because nobody sees the
new bucket before it has mut_job. An alrm_handle holds mut_job from tickLock to
tickUnlock. An int addition out of range ends the execution. -/
namespace IPv4Media.BucketTable
open TokenBucket TimerModule Execution

def clearSlot (m : Module) (address : Nat) : Option Module := do
  let b ← m.bucket address
  some { m with job := update m.job b.pos none }

def freeBucket (m : Module) (address : Nat) : Module := { m with
  bucket := update m.bucket address none
  frees := update m.frees address (m.frees address + 1) }

theorem destroyParts (m : Module) (address : Nat) :
    mytbfDestroy m address = (clearSlot m address).map fun n => freeBucket n address := by
  unfold mytbfDestroy clearSlot
  cases m.bucket address <;> rfl

/- tick is the next slot of an alrm_handle under way, leaving marks the buckets whose
mytbf_destroy has cleared the slot and not yet freed them. -/
structure State where
  mod : Module
  tick : Option Nat
  leaving : Nat → Bool

def start : State := ⟨unloaded,none,fun _ => false⟩

/- An init carries the address it returned. destroy is the first part of
mytbf_destroy and free the second. -/
inductive Event where
  | init (env : InitEnv) (cps burst : Int) (address : Option Nat)
  | destroy (address : Nat)
  | free (address : Nat)
  | tickLock
  | tickSlot (i : Nat)
  | tickUnlock
  deriving DecidableEq, Repr

/- A caller destroys a bucket once. -/
def next (s : State) : Event → Option State
  | .init env cps burst address =>
    if s.tick = none then do
      let (got,mod) ← mytbfInit s.mod env cps burst
      if got = address then some { s with mod } else none
    else none
  | .destroy address =>
    if s.tick = none ∧ s.leaving address = false then do
      let mod ← clearSlot s.mod address
      some { s with mod, leaving := update s.leaving address true }
    else none
  | .free address =>
    if s.leaving address then
      some { s with mod := freeBucket s.mod address, leaving := update s.leaving address false }
    else none
  | .tickLock => if s.tick = none then some { s with tick := some 0 } else none
  | .tickSlot i =>
    if s.tick = some i ∧ i < mytbfMax then
      match s.mod.job i with
      | none => some { s with tick := some (i+1) }
      | some address => do
        let b ← s.mod.bucket address
        let c ← credit b
        some { s with
          mod := { s.mod with bucket := update s.mod.bucket address (some c) }
          tick := some (i+1) }
    else none
  | .tickUnlock => if s.tick = some mytbfMax then some { s with tick := none } else none

inductive Step (s : State) : Event → State → Prop where
  | init (env : InitEnv) (cps burst : Int) (address : Option Nat) (mod : Module) (idle : s.tick = none)
      (made : InitStep s.mod cps burst address mod) : Step s (.init env cps burst address) { s with mod }
  | destroy (address : Nat) (b : Mytbf) (idle : s.tick = none) (staying : s.leaving address = false)
      (live : s.mod.bucket address = some b) :
      Step s (.destroy address) { s with
        mod := { s.mod with job := update s.mod.job b.pos none }
        leaving := update s.leaving address true }
  | free (address : Nat) (leaving : s.leaving address = true) :
      Step s (.free address) { s with
        mod := freeBucket s.mod address
        leaving := update s.leaving address false }
  | tickLock (idle : s.tick = none) : Step s .tickLock { s with tick := some 0 }
  | tickEmpty (i : Nat) (at_ : s.tick = some i) (inside : i < mytbfMax) (empty : s.mod.job i = none) :
      Step s (.tickSlot i) { s with tick := some (i+1) }
  | tickCredit (i address : Nat) (b c : Mytbf) (at_ : s.tick = some i) (inside : i < mytbfMax)
      (slot : s.mod.job i = some address) (live : s.mod.bucket address = some b) (credited : credit b = some c) :
      Step s (.tickSlot i) { s with
        mod := { s.mod with bucket := update s.mod.bucket address (some c) }
        tick := some (i+1) }
  | tickUnlock (at_ : s.tick = some mytbfMax) : Step s .tickUnlock { s with tick := none }

theorem stepSound {s t : State} {e : Event} (h : next s e = some t) : Step s e t := by
  cases e with
  | init env cps burst address =>
    simp only [next] at h
    split at h <;> try contradiction
    rename_i idle
    obtain ⟨⟨got,mod⟩,made,last⟩ := Option.bind_eq_some_iff.mp h
    split at last <;> try contradiction
    rename_i same
    subst same
    cases Option.some.inj last
    exact .init env cps burst got mod idle (initSound made)
  | destroy address =>
    simp only [next] at h
    split at h <;> try contradiction
    rename_i guard
    obtain ⟨mod,slot,last⟩ := Option.bind_eq_some_iff.mp h
    obtain ⟨b,live,clear⟩ := Option.bind_eq_some_iff.mp slot
    cases Option.some.inj clear
    cases Option.some.inj last
    exact .destroy address b guard.1 guard.2 live
  | free address =>
    simp only [next] at h
    split at h <;> try contradiction
    rename_i leaving
    cases Option.some.inj h
    exact .free address leaving
  | tickLock =>
    simp only [next] at h
    split at h <;> try contradiction
    rename_i idle
    cases Option.some.inj h
    exact .tickLock idle
  | tickSlot i =>
    simp only [next] at h
    split at h <;> try contradiction
    rename_i guard
    split at h
    · rename_i empty
      cases Option.some.inj h
      exact .tickEmpty i guard.1 guard.2 empty
    · rename_i address slot
      obtain ⟨b,live,h⟩ := Option.bind_eq_some_iff.mp h
      obtain ⟨c,credited,last⟩ := Option.bind_eq_some_iff.mp h
      cases Option.some.inj last
      exact .tickCredit i address b c guard.1 guard.2 slot live credited
  | tickUnlock =>
    simp only [next] at h
    split at h <;> try contradiction
    rename_i at_
    cases Option.some.inj h
    exact .tickUnlock at_

def made : Event → Option Nat
  | .init _ _ _ address => address
  | _ => none

def ended : Event → Option Nat
  | .destroy address => some address
  | _ => none

def Live (trace : List Event) (address : Nat) : Prop :=
  (∃ e ∈ trace, made e = some address) ∧ ∀ e ∈ trace, ended e ≠ some address

theorem liveSnoc (trace : List Event) (e : Event) (address : Nat) :
    Live (trace ++ [e]) address ↔
      ((∃ f ∈ trace, made f = some address) ∨ made e = some address) ∧
        (∀ f ∈ trace, ended f ≠ some address) ∧ ended e ≠ some address := by
  simp only [Live,List.mem_append,List.mem_singleton]
  constructor
  · rintro ⟨⟨f,member | rfl,returned⟩,never⟩
    · exact ⟨.inl ⟨f,member,returned⟩,fun g old => never g (.inl old),never e (.inr rfl)⟩
    · exact ⟨.inr returned,fun g old => never g (.inl old),never f (.inr rfl)⟩
  · rintro ⟨returned,never,last⟩
    refine ⟨?_,?_⟩
    · rcases returned with ⟨f,member,returned⟩ | returned
      · exact ⟨f,.inl member,returned⟩
      · exact ⟨e,.inr rfl,returned⟩
    · rintro g (old | rfl)
      · exact never g old
      · exact last

theorem liveAside {trace : List Event} {e : Event} (keeps : made e = none) (spares : ended e = none) (address : Nat) :
    Live (trace ++ [e]) address ↔ Live trace address := by
  rw [liveSnoc,keeps,spares]
  simp [Live]

/- The module with mytbf_destroy taken as a whole: what leaves has left. -/
def view (s : State) : Module := { s.mod with
  bucket := fun address => if s.leaving address then none else s.mod.bucket address }

theorem viewSome {s : State} {address : Nat} {b : Mytbf} :
    (view s).bucket address = some b ↔ s.leaving address = false ∧ s.mod.bucket address = some b := by
  simp only [view]
  cases s.leaving address <;> simp

theorem viewPut {s : State} {address : Nat} (staying : s.leaving address = false) (b : Option Mytbf) (other : Nat) :
    (if s.leaving other then none else update s.mod.bucket address b other) =
      update (view s).bucket address b other := by
  by_cases here : other = address
  · subst here
    simp [staying]
  · simp only [view,updateOther _ _ here]

theorem tableSame {m n : Module} (table : Table m) (job : n.job = m.job) (bucket : n.bucket = m.bucket)
    (allocated : n.allocated = m.allocated) : Table n := by
  constructor
  · rw [job,bucket]; exact table.slot
  · rw [job,bucket]; exact table.own
  · rw [allocated,bucket]; exact table.bound

structure Kept (trace : List Event) (s : State) : Prop where
  table : Table (view s)
  live : ∀ address, Live trace address ↔ ∃ b, (view s).bucket address = some b
  ended : ∀ e ∈ trace, ∀ address, ended e = some address → address < s.mod.allocated
  leaving : ∀ address, s.leaving address = true → address < s.mod.allocated

theorem keptStart : Kept [] start :=
  ⟨tableSame tableUnloaded rfl rfl rfl,by simp [Live,view,start,unloaded],by simp,by simp [start]⟩

theorem viewInit {s : State} {mod : Module} {cps burst : Int} {address : Option Nat}
    (step : InitStep s.mod cps burst address mod) (fresh : s.leaving s.mod.allocated = false) :
    InitStep (view s) cps burst address (view { s with mod }) := by
  cases step with
  | null loaded =>
    refine .null ⟨loaded.job,?_,loaded.allocated,loaded.cancels,loaded.joins,loaded.frees,loaded.once,
      loaded.threads,loaded.handlers,loaded.tid⟩
    simp only [view,loaded.bucket]
  | made loaded pos inside free =>
    rename_i n
    have same : Loaded (view s) (view { s with mod := n }) :=
      ⟨loaded.job,by simp only [view,loaded.bucket],loaded.allocated,loaded.cancels,loaded.joins,loaded.frees,
        loaded.once,loaded.threads,loaded.handlers,loaded.tid⟩
    have new := @InitStep.made (view s) cps burst _ same pos inside free
    have bucket := funext (viewPut fresh (some ⟨cps,burst,0,pos⟩))
    simp only [view] at new bucket ⊢
    rw [bucket]
    exact new

theorem keptInit {trace : List Event} {s : State} {env : InitEnv} {cps burst : Int} {address : Option Nat}
    {mod : Module} (kept : Kept trace s) (step : InitStep s.mod cps burst address mod) :
    Kept (trace ++ [.init env cps burst address]) { s with mod } := by
  have fresh : s.leaving s.mod.allocated = false := by
    by_contra leaves
    have below := kept.leaving s.mod.allocated (by simpa using leaves)
    omega
  have viewed := viewInit step fresh
  have allocated : s.mod.allocated ≤ mod.allocated := by
    cases step with
    | null loaded => exact Nat.le_of_eq loaded.allocated.symm
    | made loaded pos inside free => exact Nat.le_succ _
  refine ⟨tableInit kept.table viewed,?_,?_,?_⟩
  · intro other
    rw [liveSnoc]
    cases step with
    | null loaded =>
      have same : (view { s with mod := mod }).bucket = (view s).bucket := by simp only [view,loaded.bucket]
      rw [same,← kept.live]
      simp [made,ended,Live]
    | made loaded pos inside free =>
      by_cases new : other = s.mod.allocated
      · subst new
        have never : ∀ f ∈ trace, ended f ≠ some s.mod.allocated := by
          intro f member gone
          have below := kept.ended f member s.mod.allocated gone
          omega
        refine iff_of_true ⟨.inr rfl,never,nofun⟩ ⟨⟨cps,burst,0,pos⟩,viewSome.mpr ⟨fresh,updateSame _ _ _⟩⟩
      · have elsewhere : made (.init env cps burst (some s.mod.allocated)) ≠ some other := fun same =>
          new (Option.some.inj same).symm
        have old := kept.live other
        simp only [view,updateOther _ _ new] at old ⊢
        rw [← old]
        simp [elsewhere,ended,Live]
  · intro e member other gone
    rcases List.mem_append.mp member with old | new
    · exact Nat.lt_of_lt_of_le (kept.ended e old other gone) allocated
    · rw [List.mem_singleton.mp new] at gone
      contradiction
  · intro other leaves
    exact Nat.lt_of_lt_of_le (kept.leaving other leaves) allocated

theorem keptDestroy {trace : List Event} {s : State} {address : Nat} {b : Mytbf} (kept : Kept trace s)
    (staying : s.leaving address = false) (live : s.mod.bucket address = some b) :
    Kept (trace ++ [.destroy address]) { s with
      mod := { s.mod with job := update s.mod.job b.pos none }
      leaving := update s.leaving address true } := by
  have viewed : (view s).bucket address = some b := viewSome.mpr ⟨staying,live⟩
  have old := liveAllocated kept.table viewed
  have bucket : ∀ other, (view { s with
      mod := { s.mod with job := update s.mod.job b.pos none }
      leaving := update s.leaving address true }).bucket other = update (view s).bucket address none other := by
    intro other
    by_cases here : other = address
    · subst here
      simp [view]
    · simp only [view,updateOther _ _ here]
  refine ⟨?_,?_,?_,?_⟩
  · have step : mytbfDestroy (view s) address =
        some (freeBucket { view s with job := update s.mod.job b.pos none } address) := by
      rw [destroyParts,clearSlot,viewed]
      rfl
    exact tableSame (tableDestroy kept.table step) rfl (funext bucket) rfl
  · intro other
    rw [liveSnoc,bucket]
    by_cases here : other = address
    · subst here
      simp [ended]
    · have apart : ended (.destroy address) ≠ some other := fun same => here (Option.some.inj same).symm
      rw [updateOther _ _ here,← kept.live]
      simp [made,apart,Live]
  · intro e member other gone
    rcases List.mem_append.mp member with before | new
    · exact kept.ended e before other gone
    · rw [List.mem_singleton.mp new] at gone
      cases Option.some.inj gone
      exact old
  · intro other leaves
    by_cases here : other = address
    · subst here
      exact old
    · simp only [updateOther _ _ here] at leaves
      exact kept.leaving other leaves

theorem keptAside {trace : List Event} {s t : State} {e : Event} (kept : Kept trace s) (table : Table (view t))
    (makes : made e = none) (ends_ : ended e = none) (allocated : t.mod.allocated = s.mod.allocated)
    (alive : ∀ address, (∃ b, (view t).bucket address = some b) ↔ ∃ b, (view s).bucket address = some b)
    (leaving : ∀ address, t.leaving address = true → s.leaving address = true) : Kept (trace ++ [e]) t := by
  refine ⟨table,?_,?_,?_⟩
  · intro address
    rw [liveAside makes ends_,alive]
    exact kept.live address
  · intro f member address gone
    rw [allocated]
    rcases List.mem_append.mp member with before | new
    · exact kept.ended f before address gone
    · rw [List.mem_singleton.mp new,ends_] at gone
      contradiction
  · intro address leaves
    rw [allocated]
    exact kept.leaving address (leaving address leaves)

theorem freeUnseen {s : State} {address : Nat} (leaving : s.leaving address = true) :
    (view { s with mod := freeBucket s.mod address, leaving := update s.leaving address false }).bucket =
      (view s).bucket := by
  funext other
  by_cases here : other = address
  · subst here
    simp [view,freeBucket,leaving]
  · simp only [view,freeBucket,updateOther _ _ here]

theorem creditSlot {b c : Mytbf} (credited : credit b = some c) : c.pos = b.pos := by
  rw [creditSum credited]

theorem slotStays {s : State} (table : Table (view s)) {i address : Nat} (slot : s.mod.job i = some address) :
    s.leaving address = false ∧ ∃ b, s.mod.bucket address = some b ∧ b.pos = i := by
  obtain ⟨b,live,pos⟩ := table.slot i address slot
  obtain ⟨staying,found⟩ := viewSome.mp live
  exact ⟨staying,b,found,pos⟩

theorem keptCredit {trace : List Event} {s : State} {i address : Nat} {b c : Mytbf} (kept : Kept trace s)
    (slot : s.mod.job i = some address) (live : s.mod.bucket address = some b) (credited : credit b = some c) :
    Kept (trace ++ [.tickSlot i]) { s with
      mod := { s.mod with bucket := update s.mod.bucket address (some c) }
      tick := some (i+1) } := by
  obtain ⟨staying,_⟩ := slotStays kept.table slot
  have viewed : (view s).bucket address = some b := viewSome.mpr ⟨staying,live⟩
  have bucket := viewPut staying (some c)
  refine keptAside kept ?_ rfl rfl rfl ?_ fun _ leaves => leaves
  · exact tableSame (tablePut kept.table viewed (creditSlot credited)) rfl (funext bucket) rfl
  · intro other
    by_cases here : other = address
    · subst here
      exact iff_of_true ⟨c,(bucket other).trans (updateSame _ _ _)⟩ ⟨b,viewed⟩
    · have same := (bucket other).trans (updateOther _ _ here)
      exact iff_of_eq (congrArg (fun found => ∃ d, found = some d) same)

theorem keptStep {trace : List Event} {s t : State} {e : Event} (kept : Kept trace s) (step : Step s e t) :
    Kept (trace ++ [e]) t := by
  cases step with
  | init env cps burst address mod idle made => exact keptInit kept made
  | destroy address b idle staying live => exact keptDestroy kept staying live
  | free address leaving =>
    have same := freeUnseen leaving
    refine keptAside kept (tableSame kept.table rfl same rfl) rfl rfl rfl (fun _ => by rw [same]) ?_
    intro other leaves
    by_cases here : other = address
    · rw [here]
      exact leaving
    · simp only [updateOther _ _ here] at leaves
      exact leaves
  | tickLock idle => exact keptAside kept kept.table rfl rfl rfl (fun _ => Iff.rfl) fun _ leaves => leaves
  | tickEmpty i at_ inside empty =>
    exact keptAside kept kept.table rfl rfl rfl (fun _ => Iff.rfl) fun _ leaves => leaves
  | tickCredit i address b c at_ inside slot live credited => exact keptCredit kept slot live credited
  | tickUnlock at_ => exact keptAside kept kept.table rfl rfl rfl (fun _ => Iff.rfl) fun _ leaves => leaves

theorem keptRun {trace : List Event} {s : State} (run : exec next start trace = some s) : Kept trace s :=
  history (I := Kept) keptStart (fun _ _ _ _ kept step => keptStep kept (stepSound step)) run

/- An alrm_handle that has come to slot i since it took mut_job in s: the live buckets
in the slots behind it are credited, those ahead as they were. -/
structure Ticking (s v : State) (i : Nat) : Prop where
  at_ : v.tick = some i
  job : v.mod.job = s.mod.job
  staying : ∀ address b, (view s).bucket address = some b → v.leaving address = false
  behind : ∀ address b, (view s).bucket address = some b → b.pos < i →
    ∃ c, credit b = some c ∧ v.mod.bucket address = some c
  ahead : ∀ address b, (view s).bucket address = some b → i ≤ b.pos → v.mod.bucket address = some b

theorem tickingLock {s : State} : Ticking s { s with tick := some 0 } 0 :=
  ⟨rfl,rfl,fun _ _ live => (viewSome.mp live).1,fun _ _ _ none_ => absurd none_ (Nat.not_lt_zero _),
    fun _ _ live _ => (viewSome.mp live).2⟩

theorem tickingFree {s v : State} {i address : Nat} (ticking : Ticking s v i) (leaving : v.leaving address = true) :
    Ticking s { v with mod := freeBucket v.mod address, leaving := update v.leaving address false } i := by
  have other : ∀ live b, (view s).bucket live = some b → live ≠ address := by
    rintro live b found rfl
    rw [ticking.staying live b found] at leaving
    contradiction
  refine ⟨ticking.at_,ticking.job,?_,?_,?_⟩
  · intro live b found
    simp only [updateOther _ _ (other live b found)]
    exact ticking.staying live b found
  · intro live b found low
    simp only [freeBucket,updateOther _ _ (other live b found)]
    exact ticking.behind live b found low
  · intro live b found high
    simp only [freeBucket,updateOther _ _ (other live b found)]
    exact ticking.ahead live b found high

theorem tickingEmpty {s v : State} {i : Nat} (table : Table (view s)) (ticking : Ticking s v i)
    (empty : v.mod.job i = none) : Ticking s { v with tick := some (i+1) } (i+1) := by
  have nobody : ∀ address b, (view s).bucket address = some b → b.pos ≠ i := by
    rintro address b live rfl
    have slot : s.mod.job b.pos = some address := (table.own address b live).1
    rw [← ticking.job,empty] at slot
    contradiction
  refine ⟨rfl,ticking.job,ticking.staying,?_,?_⟩
  · intro address b live low
    have other := nobody address b live
    exact ticking.behind address b live (by omega)
  · intro address b live high
    exact ticking.ahead address b live (by omega)

theorem tickingCredit {s v : State} {i address : Nat} {b c : Mytbf} (table : Table (view s)) (ticking : Ticking s v i)
    (slot : v.mod.job i = some address) (live : v.mod.bucket address = some b) (credited : credit b = some c) :
    Ticking s { v with
      mod := { v.mod with bucket := update v.mod.bucket address (some c) }
      tick := some (i+1) } (i+1) := by
  rw [ticking.job] at slot
  obtain ⟨d,was,pos⟩ := table.slot i address slot
  have same := ticking.ahead address d was (by omega)
  cases Option.some.inj (live.symm.trans same)
  have alone : ∀ other e, (view s).bucket other = some e → other ≠ address → e.pos ≠ i := by
    rintro other e found different rfl
    have theirs : s.mod.job e.pos = some other := (table.own other e found).1
    rw [slot] at theirs
    exact different (Option.some.inj theirs).symm
  refine ⟨rfl,ticking.job,ticking.staying,?_,?_⟩
  · intro other e found low
    by_cases here : other = address
    · subst here
      cases Option.some.inj (was.symm.trans found)
      exact ⟨c,credited,updateSame _ _ _⟩
    · have apart := alone other e found here
      simp only [updateOther _ _ here]
      exact ticking.behind other e found (by omega)
  · intro other e found high
    have different : other ≠ address := by
      rintro rfl
      cases Option.some.inj (was.symm.trans found)
      omega
    simp only [updateOther _ _ different]
    exact ticking.ahead other e found (by omega)

/- mut_job is held, so all that can happen is the next slot, or a bucket that left
before being freed. -/
theorem tickingStep {s v w : State} {i : Nat} {e : Event} (table : Table (view s)) (ticking : Ticking s v i)
    (step : Step v e w) (inside : e ≠ .tickUnlock) : ∃ j, Ticking s w j := by
  have busy := ticking.at_
  cases step with
  | init env cps burst address mod idle made =>
    rw [idle] at busy
    contradiction
  | destroy address b idle staying live =>
    rw [idle] at busy
    contradiction
  | free address leaving => exact ⟨i,tickingFree ticking leaving⟩
  | tickLock idle =>
    rw [idle] at busy
    contradiction
  | tickEmpty j at_ inside empty =>
    cases Option.some.inj (at_.symm.trans busy)
    exact ⟨i+1,tickingEmpty table ticking empty⟩
  | tickCredit j address b c at_ inside slot live credited =>
    cases Option.some.inj (at_.symm.trans busy)
    exact ⟨i+1,tickingCredit table ticking slot live credited⟩
  | tickUnlock at_ => contradiction

theorem tickingRun {s v w : State} {i : Nat} {mid : List Event} (table : Table (view s)) (ticking : Ticking s v i)
    (run : exec next v mid = some w) (inside : ∀ e ∈ mid, e ≠ .tickUnlock) : ∃ j, Ticking s w j := by
  induction mid generalizing v i with
  | nil => cases Option.some.inj run; exact ⟨i,ticking⟩
  | cons e mid ih =>
    obtain ⟨middle,first,rest⟩ := Option.bind_eq_some_iff.mp run
    obtain ⟨j,later⟩ := tickingStep table ticking (stepSound first) (inside e List.mem_cons_self)
    exact ih later rest fun f member => inside f (List.mem_cons_of_mem e member)

theorem tickCredits {s u : State} {mid : List Event} (table : Table (view s))
    (run : exec next s (.tickLock :: mid ++ [.tickUnlock]) = some u) (inside : ∀ e ∈ mid, e ≠ .tickUnlock)
    {address : Nat} {b : Mytbf} (live : (view s).bucket address = some b) :
    ∃ c, credit b = some c ∧ u.mod.bucket address = some c := by
  obtain ⟨w,walk,last⟩ := execSnoc.mp run
  obtain ⟨v,first,rest⟩ := Option.bind_eq_some_iff.mp walk
  have locked : Ticking s v 0 := by
    cases stepSound first with
    | tickLock idle => exact tickingLock
  obtain ⟨j,ticking⟩ := tickingRun table locked rest inside
  cases stepSound last with
  | tickUnlock at_ =>
    cases Option.some.inj (at_.symm.trans ticking.at_)
    exact ticking.behind address b live (table.own address b live).2

theorem tickingSlot {s v : State} {i : Nat} (table : Table (view s)) (ticking : Ticking s v i) (inside : i < mytbfMax)
    (fits : ∀ address b, (view s).bucket address = some b → credit b ≠ none) :
    ∃ w, next v (.tickSlot i) = some w ∧ Ticking s w (i+1) := by
  cases slot : v.mod.job i with
  | none =>
    refine ⟨{ v with tick := some (i+1) },?_,tickingEmpty table ticking slot⟩
    simp only [next,slot]
    exact if_pos ⟨ticking.at_,inside⟩
  | some address =>
    obtain ⟨b,was,pos⟩ := table.slot i address (by rw [← slot,ticking.job]; rfl)
    have live := ticking.ahead address b was (by omega)
    obtain ⟨c,credited⟩ := Option.ne_none_iff_exists'.mp (fits address b was)
    refine ⟨_,?_,tickingCredit table ticking slot live credited⟩
    simp only [next,slot,live,credited,Option.bind_eq_bind,Option.bind_some]
    exact if_pos ⟨ticking.at_,inside⟩

theorem tickingSlots {s v : State} {i d : Nat} (table : Table (view s)) (ticking : Ticking s v i)
    (bound : i + d = mytbfMax) (fits : ∀ address b, (view s).bucket address = some b → credit b ≠ none) :
    ∃ w, exec next v ((List.range' i d).map .tickSlot) = some w ∧ Ticking s w mytbfMax := by
  induction d generalizing v i with
  | zero => exact ⟨v,rfl,by rw [← bound]; exact ticking⟩
  | succ d ih =>
    obtain ⟨middle,first,passed⟩ := tickingSlot table ticking (by omega) fits
    obtain ⟨w,rest,there⟩ := ih passed (by omega)
    refine ⟨w,?_,there⟩
    rw [List.range'_succ,List.map_cons,execCons,first]
    exact rest

theorem tickReturns {s : State} (table : Table (view s)) (idle : s.tick = none)
    (fits : ∀ address b, (view s).bucket address = some b → credit b ≠ none) :
    ∃ u, exec next s (.tickLock :: (List.range mytbfMax).map .tickSlot ++ [.tickUnlock]) = some u := by
  have locks : next s .tickLock = some { s with tick := some 0 } := if_pos idle
  obtain ⟨w,walk,there⟩ := tickingSlots table tickingLock (Nat.zero_add mytbfMax) fits
  rw [← List.range_eq_range'] at walk
  refine ⟨{ w with tick := none },?_⟩
  rw [List.cons_append,execCons,locks,Option.bind_some,execAppend,walk,Option.bind_some,execCons,next,if_pos there.at_]
  rfl

theorem initNext {s : State} {n : Module} {env : InitEnv} {cps burst : Int} {address : Option Nat}
    (idle : s.tick = none) (made : mytbfInit s.mod env cps burst = some (address,n)) :
    next s (.init env cps burst address) = some { s with mod := n } := by
  simp [next,idle,made]

theorem roomLeft {s : State} (table : Table (view s)) {live : Finset Nat}
    (all : ∀ address b, (view s).bucket address = some b → address ∈ live) (few : live.card < mytbfMax) :
    ∃ pos, freePosFrom s.mod.job mytbfMax 0 = some pos := by
  by_contra full
  have none_ : freePosFrom s.mod.job mytbfMax 0 = none := by
    rw [Option.eq_none_iff_forall_ne_some]
    exact fun pos found => full ⟨pos,found⟩
  have taken : ∀ i ∈ Finset.range mytbfMax, ∃ address b, s.mod.job i = some address ∧
      (view s).bucket address = some b ∧ b.pos = i := by
    intro i below
    have some_ := freePosTaken none_ i (Nat.zero_le i) (by rw [Nat.zero_add]; exact Finset.mem_range.mp below)
    obtain ⟨address,slot⟩ := Option.ne_none_iff_exists'.mp some_
    obtain ⟨b,found,pos⟩ := table.slot i address slot
    exact ⟨address,b,slot,found,pos⟩
  have many := Finset.card_le_card_of_injOn (s := Finset.range mytbfMax) (t := live)
    (fun i => (s.mod.job i).getD 0) ?_ ?_
  · rw [Finset.card_range] at many
    omega
  · intro i below
    obtain ⟨address,b,slot,found,_⟩ := taken i below
    simp only [slot]
    exact all address b found
  · intro i below j above same
    obtain ⟨address,b,slot,found,pos⟩ := taken i below
    obtain ⟨other,c,theirs,seen,place⟩ := taken j above
    simp only [slot,theirs,Option.getD_some] at same
    subst same
    rw [found] at seen
    cases Option.some.inj seen
    exact pos.symm.trans place

structure TableLaw (trace : List Event) (s : State) : Prop where
  own : ∀ address, Live trace address →
    ∃ b, s.mod.bucket address = some b ∧ s.mod.job b.pos = some address ∧ b.pos < mytbfMax
  apart : ∀ address other b c, Live trace address → Live trace other → s.mod.bucket address = some b →
    s.mod.bucket other = some c → b.pos = c.pos → address = other
  slots : ∀ i address, s.mod.job i = some address → Live trace address
  credits : ∀ mid u, exec next s (.tickLock :: mid ++ [.tickUnlock]) = some u → (∀ e ∈ mid, e ≠ .tickUnlock) →
    ∀ address, Live trace address →
      ∃ b c, s.mod.bucket address = some b ∧ credit b = some c ∧ u.mod.bucket address = some c
  returns : s.tick = none → (∀ address b, Live trace address → s.mod.bucket address = some b → credit b ≠ none) →
    ∃ u, exec next s (.tickLock :: (List.range mytbfMax).map .tickSlot ++ [.tickUnlock]) = some u
  room : s.tick = none → ∀ live : Finset Nat, (∀ address, Live trace address → address ∈ live) →
    live.card < mytbfMax → ∀ cps burst,
      ∃ u, next s (.init ⟨true,true,true⟩ cps burst (some s.mod.allocated)) = some u
  spares : ∀ i u, next s (.tickSlot i) = some u → ∀ address, ¬ Live trace address →
    u.mod.bucket address = s.mod.bucket address
  others : ∀ address u, next s (.destroy address) = some u ∨ next s (.free address) = some u →
    ∀ other, other ≠ address → u.mod.bucket other = s.mod.bucket other ∧
      ∀ i, u.mod.job i = some other ↔ s.mod.job i = some other

theorem slotLive {trace : List Event} {s : State} (kept : Kept trace s) {i address : Nat}
    (slot : s.mod.job i = some address) : Live trace address := by
  obtain ⟨staying,b,found,_⟩ := slotStays kept.table slot
  exact (kept.live address).mpr ⟨b,viewSome.mpr ⟨staying,found⟩⟩

theorem destroySpares {trace : List Event} {s u : State} {address other : Nat} (kept : Kept trace s)
    (step : next s (.destroy address) = some u) (different : other ≠ address) :
    u.mod.bucket other = s.mod.bucket other ∧ ∀ i, u.mod.job i = some other ↔ s.mod.job i = some other := by
  cases stepSound step with
  | destroy _ b idle staying live =>
    refine ⟨rfl,fun i => ?_⟩
    by_cases here : i = b.pos
    · subst here
      have own : s.mod.job b.pos = some address := (kept.table.own address b (viewSome.mpr ⟨staying,live⟩)).1
      simp [own,Ne.symm different]
    · simp only [updateOther _ _ here]

theorem freeSpares {s u : State} {address other : Nat} (step : next s (.free address) = some u)
    (different : other ≠ address) :
    u.mod.bucket other = s.mod.bucket other ∧ ∀ i, u.mod.job i = some other ↔ s.mod.job i = some other := by
  cases stepSound step with
  | free _ leaving => exact ⟨updateOther _ _ different,fun _ => Iff.rfl⟩

theorem tickSpares {trace : List Event} {s u : State} {i address : Nat} (kept : Kept trace s)
    (step : next s (.tickSlot i) = some u) (dead : ¬ Live trace address) :
    u.mod.bucket address = s.mod.bucket address := by
  cases stepSound step with
  | tickEmpty _ at_ inside empty => rfl
  | tickCredit _ other b c at_ inside slot live credited =>
    refine updateOther _ _ ?_
    rintro rfl
    exact dead (slotLive kept slot)

theorem bucketTable {trace : List Event} {s : State} (run : exec next start trace = some s) : TableLaw trace s := by
  have kept := keptRun run
  have live : ∀ address, Live trace address → ∃ b, (view s).bucket address = some b :=
    fun address alive => (kept.live address).mp alive
  have alive : ∀ address b, (view s).bucket address = some b → Live trace address :=
    fun address b viewed => (kept.live address).mpr ⟨b,viewed⟩
  refine ⟨?_,?_,fun _ _ slot => slotLive kept slot,?_,?_,?_,fun _ _ step _ dead => tickSpares kept step dead,?_⟩
  · intro address alive
    obtain ⟨b,viewed⟩ := live address alive
    obtain ⟨slot,inside⟩ := kept.table.own address b viewed
    exact ⟨b,(viewSome.mp viewed).2,slot,inside⟩
  · intro address other b c alive lives found theirs same
    obtain ⟨b',viewed⟩ := live address alive
    obtain ⟨c',seen⟩ := live other lives
    cases Option.some.inj (found.symm.trans (viewSome.mp viewed).2)
    cases Option.some.inj (theirs.symm.trans (viewSome.mp seen).2)
    have mine := (kept.table.own address b viewed).1
    rw [same,(kept.table.own other c seen).1] at mine
    exact (Option.some.inj mine).symm
  · intro mid u whole inside address alive
    obtain ⟨b,viewed⟩ := live address alive
    obtain ⟨c,credited,after⟩ := tickCredits kept.table whole inside viewed
    exact ⟨b,c,(viewSome.mp viewed).2,credited,after⟩
  · intro idle fits
    refine tickReturns kept.table idle fun address b viewed => ?_
    exact fits address b (alive address b viewed) (viewSome.mp viewed).2
  · intro idle members all few cps burst
    obtain ⟨pos,found⟩ := roomLeft kept.table (fun address b viewed => all address (alive address b viewed)) few
    obtain ⟨l,_,made⟩ := initReturns found cps burst
    exact ⟨_,initNext idle made⟩
  · rintro address u (step | step) other different
    · exact destroySpares kept step different
    · exact freeSpares step different

/- Slot 0 is taken again before the bucket that left it is freed, inside a tick. -/
def recycled : List Event :=
  [.init ⟨true,true,true⟩ 30 300 (some 0),.init ⟨true,true,true⟩ (-5) 0 (some 1),.destroy 0,
    .init ⟨true,true,true⟩ 7 70 (some 2),.tickLock,.tickSlot 0,.free 0,.tickSlot 1]

theorem recycledTable : ∃ s, exec next start recycled = some s ∧ TableLaw recycled s ∧ s.mod.job 0 = some 2 ∧
    s.mod.bucket 2 = some ⟨7,70,7,0⟩ ∧ s.mod.bucket 1 = some ⟨-5,0,-5,1⟩ := by
  have slots : (exec next start recycled).map (fun s => (s.mod.job 0,s.mod.bucket 2,s.mod.bucket 1)) =
      some (some 2,some ⟨7,70,7,0⟩,some ⟨-5,0,-5,1⟩) := by decide +kernel
  obtain ⟨s,run,seen⟩ := Option.map_eq_some_iff.mp slots
  obtain ⟨taken,balances⟩ := Prod.mk.inj seen
  obtain ⟨filled,other⟩ := Prod.mk.inj balances
  exact ⟨s,run,bucketTable run,taken,filled,other⟩

end IPv4Media.BucketTable
