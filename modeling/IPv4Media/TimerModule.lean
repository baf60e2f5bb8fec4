import IPv4Media.TokenBucket

/-! The file-scope state of mytbf.c: the slot table job[], the heap its pointers lead
to, pthread_once, the one tid, and the handlers registered with atexit. Addresses
and thread numbers are handed out in order and never again. exit() inside a call
leaves no module behind: that call does not return. -/
namespace IPv4Media.TimerModule
open TokenBucket

def mytbfMax : Nat := 1024

structure Module where
  job : Nat → Option Nat
  bucket : Nat → Option Mytbf
  allocated : Nat
  onceInit : Bool
  threads : Nat
  tid : Option Nat
  handlers : Nat
  cancels : Nat → Nat
  joins : Nat → Nat
  frees : Nat → Nat

def unloaded : Module where
  job := fun _ => none
  bucket := fun _ => none
  allocated := 0
  onceInit := false
  threads := 0
  tid := none
  handlers := 0
  cancels := fun _ => 0
  joins := fun _ => 0
  frees := fun _ => 0

def update {α : Type} (f : Nat → α) (i : Nat) (v : α) : Nat → α := fun j => if j = i then v else f j

@[simp] theorem updateSame {α : Type} (f : Nat → α) (i : Nat) (v : α) : update f i v i = v := if_pos rfl

theorem updateOther {α : Type} (f : Nat → α) {i j : Nat} (v : α) (h : j ≠ i) : update f i v j = f j := if_neg h

theorem updateSome {α : Type} {f : Nat → Option α} {P : Nat → α → Prop} {i : Nat} {v : α} (mine : P i v)
    (others : ∀ j w, j ≠ i → f j = some w → P j w) : ∀ j w, update f i (some v) j = some w → P j w := by
  intro j w found
  by_cases here : j = i
  · subst here
    rw [updateSame] at found
    cases Option.some.inj found
    exact mine
  · rw [updateOther _ _ here] at found
    exact others j w here found

theorem updateNone {α : Type} {f : Nat → Option α} {i j : Nat} {w : α} (found : update f i none j = some w) :
    j ≠ i ∧ f j = some w := by
  by_cases here : j = i
  · rw [here,updateSame] at found
    contradiction
  · rw [updateOther _ _ here] at found
    exact ⟨here,found⟩

/- created says whether pthread_create succeeds. -/
def moduleLoad (m : Module) (created : Bool) : Option Module :=
  if created then
    some { m with threads := m.threads + 1, tid := some m.threads, handlers := m.handlers + 1 }
  else none

def pthreadOnce (m : Module) (created : Bool) : Option Module :=
  if m.onceInit then some m else (moduleLoad m created).map fun n => { n with onceInit := true }

def freePosFrom (job : Nat → Option Nat) : Nat → Nat → Option Nat
  | 0, _ => none
  | n+1, i => if job i = none then some i else freePosFrom job n (i+1)

def getFreePosUnlocked (m : Module) : Option Nat := freePosFrom m.job mytbfMax 0

/- What the two thread creations and malloc answer during one mytbf_init. -/
structure InitEnv where
  direct : Bool
  once : Bool
  memory : Bool
  deriving DecidableEq, Repr

/- The address the call returns, none for NULL. -/
def mytbfInit (m : Module) (env : InitEnv) (cps burst : Int) : Option (Option Nat × Module) := do
  let m ← moduleLoad m env.direct
  let m ← pthreadOnce m env.once
  if env.memory then
    let pos ← getFreePosUnlocked m
    some (some m.allocated,{ m with
      job := update m.job pos (some m.allocated)
      bucket := update m.bucket m.allocated (some ⟨cps,burst,0,pos⟩)
      allocated := m.allocated + 1 })
  else some (none,m)

def mytbfDestroy (m : Module) (address : Nat) : Option Module := do
  let b ← m.bucket address
  some { m with
    job := update m.job b.pos none
    bucket := update m.bucket address none
    frees := update m.frees address (m.frees address + 1) }

def registeredIn (job : Nat → Option Nat) (address : Nat) : Nat :=
  (List.range mytbfMax).countP fun i => job i == some address

def moduleUnload (m : Module) : Module := { m with
  cancels := fun t => m.cancels t + if m.tid = some t then 1 else 0
  joins := fun t => m.joins t + if m.tid = some t then 1 else 0
  frees := fun address => m.frees address + registeredIn m.job address }

def unloadTimes : Nat → Module → Module
  | 0, m => m
  | n+1, m => unloadTimes n (moduleUnload m)

/- exit() runs every registered handler, each as often as it was registered. -/
def processExit (m : Module) : Module := unloadTimes m.handlers m

theorem freePosSound {job : Nat → Option Nat} {n i pos : Nat} (h : freePosFrom job n i = some pos) :
    i ≤ pos ∧ pos < i + n ∧ job pos = none := by
  induction n generalizing i with
  | zero => simp [freePosFrom] at h
  | succ n ih =>
    unfold freePosFrom at h
    split at h
    · cases Option.some.inj h
      exact ⟨Nat.le_refl _,by omega,by assumption⟩
    · obtain ⟨low,high,free⟩ := ih h
      exact ⟨by omega,by omega,free⟩

theorem getFreePosSound {m : Module} {pos : Nat} (h : getFreePosUnlocked m = some pos) :
    pos < mytbfMax ∧ m.job pos = none := by
  obtain ⟨_,high,free⟩ := freePosSound h
  exact ⟨by omega,free⟩

structure Loaded (m n : Module) : Prop where
  job : n.job = m.job
  bucket : n.bucket = m.bucket
  allocated : n.allocated = m.allocated
  cancels : n.cancels = m.cancels
  joins : n.joins = m.joins
  frees : n.frees = m.frees
  once : n.onceInit = true
  threads : n.threads = m.threads + if m.onceInit then 1 else 2
  handlers : n.handlers = m.handlers + if m.onceInit then 1 else 2
  tid : n.tid = some (n.threads - 1)

theorem loadsSound {m n : Module} {env : InitEnv}
    (h : (do let k ← moduleLoad m env.direct; pthreadOnce k env.once) = some n) : Loaded m n := by
  obtain ⟨k,direct,once⟩ := Option.bind_eq_some_iff.mp h
  unfold moduleLoad at direct
  split at direct <;> try contradiction
  cases Option.some.inj direct
  unfold pthreadOnce at once
  cases ready : m.onceInit with
  | true =>
    simp only [ready,if_true] at once
    cases Option.some.inj once
    exact ⟨rfl,rfl,rfl,rfl,rfl,rfl,rfl,by simp [ready],by simp [ready],rfl⟩
  | false =>
    simp only [ready,moduleLoad,Bool.false_eq_true,if_false] at once
    split at once <;> try contradiction
    cases Option.some.inj once
    exact ⟨rfl,rfl,rfl,rfl,rfl,rfl,rfl,by simp [ready],by simp [ready],rfl⟩

inductive InitStep (m : Module) (cps burst : Int) : Option Nat → Module → Prop where
  | null {n} (loaded : Loaded m n) : InitStep m cps burst none n
  | made {n} (loaded : Loaded m n) (pos : Nat) (inside : pos < mytbfMax) (free : m.job pos = none) :
      InitStep m cps burst (some m.allocated) { n with
        job := update m.job pos (some m.allocated)
        bucket := update m.bucket m.allocated (some ⟨cps,burst,0,pos⟩)
        allocated := m.allocated + 1 }

theorem initSound {m n : Module} {env cps burst address}
    (h : mytbfInit m env cps burst = some (address,n)) : InitStep m cps burst address n := by
  simp only [mytbfInit,Option.bind_eq_bind] at h
  obtain ⟨k,direct,h⟩ := Option.bind_eq_some_iff.mp h
  obtain ⟨l,once,h⟩ := Option.bind_eq_some_iff.mp h
  have loaded : Loaded m l := loadsSound (Option.bind_eq_some_iff.mpr ⟨k,direct,once⟩)
  split at h
  · obtain ⟨pos,found,last⟩ := Option.bind_eq_some_iff.mp h
    obtain ⟨rfl,rfl⟩ := Prod.mk.inj (Option.some.inj last)
    obtain ⟨inside,free⟩ := getFreePosSound found
    rw [loaded.job] at free
    have made := @InitStep.made m cps burst l loaded pos inside free
    simpa only [loaded.job,loaded.bucket,loaded.allocated] using made
  · obtain ⟨rfl,rfl⟩ := Prod.mk.inj (Option.some.inj h)
    exact .null loaded

theorem destroySound {m n : Module} {address} (h : mytbfDestroy m address = some n) :
    ∃ b, m.bucket address = some b ∧ n = { m with
      job := update m.job b.pos none
      bucket := update m.bucket address none
      frees := update m.frees address (m.frees address + 1) } := by
  simp only [mytbfDestroy,Option.bind_eq_bind] at h
  obtain ⟨b,found,last⟩ := Option.bind_eq_some_iff.mp h
  exact ⟨b,found,(Option.some.inj last).symm⟩

/- The slot table and the heap agree: a slot leads to a live bucket that knows its
slot, and nothing is live beyond the addresses handed out. -/
structure Table (m : Module) : Prop where
  slot : ∀ i address, m.job i = some address → ∃ b, m.bucket address = some b ∧ b.pos = i
  own : ∀ address b, m.bucket address = some b → m.job b.pos = some address ∧ b.pos < mytbfMax
  bound : ∀ address, m.allocated ≤ address → m.bucket address = none

theorem tableUnloaded : Table unloaded :=
  ⟨by simp [unloaded],by simp [unloaded],fun _ _ => rfl⟩

theorem tableInit {m n : Module} {cps burst address} (table : Table m)
    (step : InitStep m cps burst address n) : Table n := by
  cases step with
  | null loaded =>
    constructor
    · rw [loaded.job,loaded.bucket]; exact table.slot
    · rw [loaded.job,loaded.bucket]; exact table.own
    · rw [loaded.allocated,loaded.bucket]; exact table.bound
  | made loaded pos inside free =>
    constructor
    · refine updateSome ⟨_,updateSame _ _ _,rfl⟩ fun i address _ slot => ?_
      obtain ⟨b,live,at_⟩ := table.slot i address slot
      have old : address ≠ m.allocated := by
        rintro rfl
        rw [table.bound _ (Nat.le_refl _)] at live
        contradiction
      exact ⟨b,(updateOther _ _ old).trans live,at_⟩
    · refine updateSome ⟨updateSame _ _ _,inside⟩ fun address b _ live => ?_
      obtain ⟨slot,below⟩ := table.own address b live
      have other : b.pos ≠ pos := by
        intro same
        rw [same,free] at slot
        contradiction
      exact ⟨(updateOther _ _ other).trans slot,below⟩
    · intro address past
      have new : address ≠ m.allocated := by simp only at past; omega
      simp only [updateOther _ _ new]
      exact table.bound address (by simp only at past; omega)

theorem tableDestroy {m n : Module} {address} (table : Table m) (step : mytbfDestroy m address = some n) :
    Table n := by
  obtain ⟨b,live,rfl⟩ := destroySound step
  constructor
  · intro i other slot
    obtain ⟨apart,slot⟩ := updateNone slot
    obtain ⟨c,liveOther,at_⟩ := table.slot i other slot
    have different : other ≠ address := by
      rintro rfl
      rw [live] at liveOther
      cases Option.some.inj liveOther
      exact apart at_.symm
    exact ⟨c,(updateOther _ _ different).trans liveOther,at_⟩
  · intro other c liveOther
    obtain ⟨different,liveOther⟩ := updateNone liveOther
    obtain ⟨slot,below⟩ := table.own other c liveOther
    have apart : c.pos ≠ b.pos := by
      intro equal
      rw [equal,(table.own address b live).1] at slot
      exact different (Option.some.inj slot).symm
    exact ⟨(updateOther _ _ apart).trans slot,below⟩
  · intro other past
    by_cases same : other = address
    · subst same
      exact updateSame _ _ _
    · simp only [updateOther _ _ same]
      exact table.bound other past

structure Packed (m : Module) (n : Nat) : Prop where
  taken : ∀ i < n, m.job i ≠ none
  free : ∀ i, n ≤ i → m.job i = none

theorem packedUnloaded : Packed unloaded 0 := ⟨by simp,fun _ _ => rfl⟩

theorem freePosFirst {job : Nat → Option Nat} {k i d : Nat} (taken : ∀ e < d, job (i+e) ≠ none)
    (free : job (i+d) = none) (within : d < k) : freePosFrom job k i = some (i+d) := by
  induction d generalizing k i with
  | zero =>
    obtain ⟨k,rfl⟩ := Nat.exists_eq_succ_of_ne_zero (by omega : k ≠ 0)
    rw [freePosFrom]
    exact if_pos free
  | succ d ih =>
    obtain ⟨k,rfl⟩ := Nat.exists_eq_succ_of_ne_zero (by omega : k ≠ 0)
    have rest := @ih k (i+1) ?_ ?_ (by omega)
    · have first : job i ≠ none := taken 0 (by omega)
      rw [freePosFrom,if_neg first,rest]
      congr 1
      omega
    · intro e below
      rw [Nat.add_assoc,Nat.add_comm 1 e]
      exact taken (e+1) (by omega)
    · rw [Nat.add_assoc,Nat.add_comm 1 d]
      exact free

theorem initReturns {m : Module} {pos : Nat} (found : freePosFrom m.job mytbfMax 0 = some pos) (cps burst : Int) :
    ∃ l, Loaded m l ∧ mytbfInit m ⟨true,true,true⟩ cps burst = some (some m.allocated,{ l with
      job := update l.job pos (some m.allocated)
      bucket := update l.bucket m.allocated (some ⟨cps,burst,0,pos⟩)
      allocated := m.allocated + 1 }) := by
  have loads : ∃ l, (do let k ← moduleLoad m true; pthreadOnce k true) = some l := by
    cases ready : m.onceInit <;> simp [moduleLoad,pthreadOnce,ready]
  obtain ⟨l,loaded⟩ := loads
  obtain ⟨k,direct,once⟩ := Option.bind_eq_some_iff.mp loaded
  have same := @loadsSound m l ⟨true,true,true⟩ loaded
  have free : getFreePosUnlocked l = some pos := by
    rw [getFreePosUnlocked,same.job]
    exact found
  refine ⟨l,same,?_⟩
  simp only [mytbfInit,direct,once,free,same.allocated,Option.bind_eq_bind,Option.bind_some,if_true]

theorem packedInit {m : Module} {n : Nat} (packed : Packed m n) (room : n < mytbfMax) (cps burst : Int) :
    ∃ k, mytbfInit m ⟨true,true,true⟩ cps burst = some (some m.allocated,k) ∧ Packed k (n+1) := by
  have first := @freePosFirst m.job mytbfMax 0 n
  simp only [Nat.zero_add] at first
  obtain ⟨l,same,made⟩ := initReturns (first packed.taken (packed.free n (Nat.le_refl n)) room) cps burst
  refine ⟨_,made,?_⟩
  constructor
  · intro i below
    by_cases last : i = n
    · subst last
      simp
    · simp only [updateOther _ _ last,same.job]
      exact packed.taken i (by omega)
  · intro i past
    have other : i ≠ n := by omega
    simp only [updateOther _ _ other,same.job]
    exact packed.free i (by omega)

theorem freePosTaken {job : Nat → Option Nat} {n i : Nat} (full : freePosFrom job n i = none) :
    ∀ j, i ≤ j → j < i + n → job j ≠ none := by
  induction n generalizing i with
  | zero => omega
  | succ n ih =>
    unfold freePosFrom at full
    split at full <;> try contradiction
    rename_i taken
    intro j low high
    by_cases here : j = i
    · rw [here]
      exact taken
    · exact ih full j (by omega) (by omega)

theorem liveAllocated {m : Module} (table : Table m) {address b} (live : m.bucket address = some b) :
    address < m.allocated := by
  by_contra past
  rw [table.bound address (by omega)] at live
  contradiction

theorem tablePut {m : Module} {address b c} (table : Table m) (live : m.bucket address = some b)
    (slot : c.pos = b.pos) : Table { m with bucket := update m.bucket address (some c) } := by
  constructor
  · intro i other at_
    obtain ⟨d,liveOther,pos⟩ := table.slot i other at_
    by_cases same : other = address
    · subst same
      rw [live] at liveOther
      cases Option.some.inj liveOther
      exact ⟨c,updateSame _ _ _,slot.trans pos⟩
    · exact ⟨d,by simp only [updateOther _ _ same,liveOther],pos⟩
  · refine updateSome ?_ fun other d _ liveOther => table.own other d liveOther
    rw [slot]
    exact table.own address b live
  · intro other past
    have same : other ≠ address := by
      rintro rfl
      have below := liveAllocated table live
      simp only at past
      omega
    simp only [updateOther _ _ same]
    exact table.bound other past

end IPv4Media.TimerModule
