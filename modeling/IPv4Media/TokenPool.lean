import IPv4Media.Library.Execution
import IPv4Media.Library.Locking
import IPv4Media.TimerModule

/-! The token pool design (mytbftokenpool.c): mytbf_init, alrm_handle, mytbf_fetchtoken
and mytbf_returntoken on any number of threads, every lock and unlock a step of its own.
The file ends inside mytbf_returntoken, after the cap; the mutex is taken to be unlocked
there and nothing more to happen. priority, last_fetch_time and fetch_count decide
nothing and are left out. -/
namespace IPv4Media.TokenPool
open TokenBucket TimerModule

def maxTokens : Int := 200 * 1024
def refillRate : Int := 40 * 1024

inductive Lock
  | pool
  | job
  | bucket (slot : Nat)
  deriving DecidableEq, Repr

/- Where a thread is, with the locals it needs there. The names in tick are alrm_handle's
with i, tokens_per_job and remaining_tokens. -/
inductive Pc
  | idle
  | initLock (cps burst : Int)
  | initUnlock
  | tickPool
  | tickJob
  | tickLoop (i : Nat) (perJob remaining : Int)
  | tickBucket (i : Nat) (perJob remaining : Int)
  | tickHeld (i : Nat) (perJob remaining : Int)
  | tickUnlockJob
  | tickUnlockPool
  | fetchLock (slot : Nat) (size : Int)
  | fetchTest (slot : Nat) (size : Int)
  | fetchPool (slot : Nat) (size : Int)
  | fetchGrabbed (slot : Nat) (size : Int)
  | fetchNone (slot : Nat) (size : Int)
  | fetchSleep (slot : Nat) (size : Int)
  | fetchWait (slot : Nat) (size : Int)
  | fetchTake (slot : Nat) (size : Int)
  | fetchUnlock (slot : Nat)
  | returnLock (slot : Nat) (size : Int)
  | returnUnlock (slot : Nat)
  deriving DecidableEq, Repr

/- ticks counts the refills. owed is what the callers of a bucket have fetched and not
returned. -/
structure State where
  totalTokens : Int
  job : Nat → Option Mytbf
  holder : Lock → Option Nat
  pc : Nat → Pc
  ticks : Nat
  fetched : Int
  refunded : Int
  owed : Nat → Int

inductive Event
  | init (thread : Nat) (cps burst : Int)
  | tick (thread : Nat)
  | fetch (thread slot : Nat) (size : Int)
  | giveBack (thread slot : Nat) (size : Int)
  | wake (thread : Nat)
  | step (thread : Nat)
  deriving DecidableEq, Repr

def start : State where
  totalTokens := 0
  job := fun _ => none
  holder := fun _ => none
  pc := fun _ => .idle
  ticks := 0
  fetched := 0
  refunded := 0
  owed := fun _ => 0

def goto (s : State) (t : Nat) (pc : Pc) : State := { s with pc := update s.pc t pc }

def lock (s : State) (t : Nat) (l : Lock) (pc : Pc) : Option State :=
  if s.holder l = none then some { goto s t pc with holder := Function.update s.holder l (some t) } else none

def unlock (s : State) (t : Nat) (l : Lock) (pc : Pc) : State :=
  { goto s t pc with holder := Function.update s.holder l none }

def putBucket (s : State) (slot : Nat) (b : Mytbf) : State := { s with job := update s.job slot (some b) }

def getFreePosUnlocked (job : Nat → Option Mytbf) : Option Nat :=
  (List.range mytbfMax).find? fun i => (job i).isNone

def refilled (totalTokens : Int) : Int :=
  if totalTokens + refillRate > maxTokens then maxTokens else totalTokens + refillRate

-- A comparison with this count must not set off a walk through all slots.
@[irreducible] def activeJobs (job : Nat → Option Mytbf) : Nat := (List.range mytbfMax).countP fun i => (job i).isSome

def allocated (b : Mytbf) (perJob remaining : Int) : Int :=
  max 0 (min (min perJob remaining) (b.burst - b.token))

def request (b : Mytbf) (size totalTokens : Int) : Int := min (min size totalTokens) b.burst

def handed (job : Nat → Option Mytbf) (totalTokens : Int) : Pc :=
  if 0 < activeJobs job ∧ 0 < totalTokens then .tickLoop 0 (totalTokens / activeJobs job) totalTokens
  else .tickUnlockJob

def advance (s : State) (t : Nat) : Pc → Option State
  | .idle => none
  | .initLock cps burst => do
    let pos ← getFreePosUnlocked s.job
    let u ← lock s t .job .initUnlock
    some (putBucket u pos ⟨cps,burst,0,pos⟩)
  | .initUnlock => some (unlock s t .job .idle)
  | .tickPool => do
    let u ← lock s t .pool .tickJob
    some { u with totalTokens := refilled s.totalTokens, ticks := s.ticks + 1 }
  | .tickJob => lock s t .job (handed s.job s.totalTokens)
  | .tickLoop i perJob remaining =>
    if i < mytbfMax ∧ 0 < remaining then
      if (s.job i).isSome then some (goto s t (.tickBucket i perJob remaining))
      else some (goto s t (.tickLoop (i+1) perJob remaining))
    else some { goto s t .tickUnlockJob with totalTokens := remaining }
  | .tickBucket i perJob remaining => do
    let b ← s.job i
    let n := allocated b perJob remaining
    let u ← lock s t (.bucket i) (.tickHeld i perJob (remaining - n))
    some (putBucket u i { b with token := b.token + n })
  | .tickHeld i perJob remaining => some (unlock s t (.bucket i) (.tickLoop (i+1) perJob remaining))
  | .tickUnlockJob => some (unlock s t .job .tickUnlockPool)
  | .tickUnlockPool => some (unlock s t .pool .idle)
  | .fetchLock slot size => lock s t (.bucket slot) (.fetchTest slot size)
  | .fetchTest slot size => do
    let b ← s.job slot
    some (goto s t (if b.token ≤ 0 then .fetchPool slot size else .fetchTake slot size))
  | .fetchPool slot size => do
    let b ← s.job slot
    if s.totalTokens > 0 then do
      let n := request b size s.totalTokens
      let u ← lock s t .pool (.fetchGrabbed slot size)
      some { putBucket u slot { b with token := b.token + n } with totalTokens := s.totalTokens - n }
    else lock s t .pool (.fetchNone slot size)
  | .fetchGrabbed slot size => some (unlock s t .pool (.fetchTake slot size))
  | .fetchNone slot size => some (unlock s t .pool (.fetchSleep slot size))
  | .fetchSleep slot size => some (unlock s t (.bucket slot) (.fetchWait slot size))
  | .fetchWait _ _ => none
  | .fetchTake slot size => do
    let b ← s.job slot
    let n := min b.token size
    some { putBucket (goto s t (.fetchUnlock slot)) slot { b with token := b.token - n } with
      fetched := s.fetched + n
      owed := update s.owed slot (s.owed slot + n) }
  | .fetchUnlock slot => some (unlock s t (.bucket slot) .idle)
  | .returnLock slot size => do
    let b ← s.job slot
    let c ← returntoken b size
    let u ← lock s t (.bucket slot) (.returnUnlock slot)
    some { putBucket u slot c with refunded := s.refunded + size }
  | .returnUnlock slot => some (unlock s t (.bucket slot) .idle)

/- Any thread outside a call may start one, also alrm_handle: on a thread it interrupts
where that holds no lock it acts as on a thread of its own. A waiter may wake at any
time. A caller returns no more than is owed. -/
def next (s : State) : Event → Option State
  | .init t cps burst => if s.pc t = .idle ∧ 1 ≤ burst then some (goto s t (.initLock cps burst)) else none
  | .tick t => if s.pc t = .idle then some (goto s t .tickPool) else none
  | .fetch t slot size =>
    if s.pc t = .idle ∧ (s.job slot).isSome ∧ 1 ≤ size then some (goto s t (.fetchLock slot size)) else none
  | .giveBack t slot size =>
    if s.pc t = .idle ∧ (s.job slot).isSome ∧ 0 ≤ size ∧ size ≤ s.owed slot then
      some { goto s t (.returnLock slot size) with owed := update s.owed slot (s.owed slot - size) }
    else none
  | .wake t =>
    match s.pc t with
    | .fetchWait slot size => some (goto s t (.fetchLock slot size))
    | _ => none
  | .step t => advance s t (s.pc t)

/- The mutexes a thread holds, the last one taken first. -/
def held : Pc → List Lock
  | .initUnlock => [.job]
  | .tickJob => [.pool]
  | .tickLoop _ _ _ => [.job,.pool]
  | .tickBucket _ _ _ => [.job,.pool]
  | .tickHeld i _ _ => [.bucket i,.job,.pool]
  | .tickUnlockJob => [.job,.pool]
  | .tickUnlockPool => [.pool]
  | .fetchTest slot _ => [.bucket slot]
  | .fetchPool slot _ => [.bucket slot]
  | .fetchGrabbed slot _ => [.pool,.bucket slot]
  | .fetchNone slot _ => [.pool,.bucket slot]
  | .fetchSleep slot _ => [.bucket slot]
  | .fetchTake slot _ => [.bucket slot]
  | .fetchUnlock slot => [.bucket slot]
  | .returnUnlock slot => [.bucket slot]
  | _ => []

def wants : Pc → Option Lock
  | .initLock _ _ => some .job
  | .tickPool => some .pool
  | .tickJob => some .job
  | .tickBucket i _ _ => some (.bucket i)
  | .fetchLock slot _ => some (.bucket slot)
  | .fetchPool _ _ => some .pool
  | .returnLock slot _ => some (.bucket slot)
  | _ => none

theorem freeSlot {job : Nat → Option Mytbf} {pos : Nat} (h : getFreePosUnlocked job = some pos) :
    pos < mytbfMax ∧ job pos = none := by
  unfold getFreePosUnlocked at h
  have empty := List.find?_some h
  exact ⟨List.mem_range.mp (List.mem_of_find?_eq_some h),Option.isNone_iff_eq_none.mp empty⟩

theorem lockSound {s u : State} {t l pc} (h : lock s t l pc = some u) :
    s.holder l = none ∧ u = { goto s t pc with holder := Function.update s.holder l (some t) } := by
  unfold lock at h
  split at h <;> try contradiction
  rename_i free
  exact ⟨free,(Option.some.inj h).symm⟩

def took (s : State) (t : Nat) (l : Lock) (pc : Pc) : State :=
  { goto s t pc with holder := Function.update s.holder l (some t) }

inductive Step (s : State) (t : Nat) : Pc → State → Prop where
  | initPlace (cps burst : Int) (pos : Nat) (free : s.holder .job = none) (inside : pos < mytbfMax)
      (empty : s.job pos = none) :
      Step s t (.initLock cps burst) (putBucket (took s t .job .initUnlock) pos ⟨cps,burst,0,pos⟩)
  | initUnlock : Step s t .initUnlock (unlock s t .job .idle)
  | refill (free : s.holder .pool = none) :
      Step s t .tickPool { took s t .pool .tickJob with
        totalTokens := refilled s.totalTokens, ticks := s.ticks + 1 }
  | tickCount (free : s.holder .job = none) : Step s t .tickJob (took s t .job (handed s.job s.totalTokens))
  | tickSlot (i : Nat) (perJob remaining : Int) (inside : i < mytbfMax) (more : 0 < remaining)
      (some_ : (s.job i).isSome = true) :
      Step s t (.tickLoop i perJob remaining) (goto s t (.tickBucket i perJob remaining))
  | tickSkip (i : Nat) (perJob remaining : Int) (inside : i < mytbfMax) (more : 0 < remaining)
      (none_ : s.job i = none) :
      Step s t (.tickLoop i perJob remaining) (goto s t (.tickLoop (i+1) perJob remaining))
  | tickEnd (i : Nat) (perJob remaining : Int) (over_ : mytbfMax ≤ i ∨ remaining ≤ 0) :
      Step s t (.tickLoop i perJob remaining) { goto s t .tickUnlockJob with totalTokens := remaining }
  | tickGive (i : Nat) (perJob remaining : Int) (b : Mytbf) (live : s.job i = some b)
      (free : s.holder (.bucket i) = none) :
      Step s t (.tickBucket i perJob remaining)
        (putBucket (took s t (.bucket i) (.tickHeld i perJob (remaining - allocated b perJob remaining))) i
          { b with token := b.token + allocated b perJob remaining })
  | tickUnlockBucket (i : Nat) (perJob remaining : Int) :
      Step s t (.tickHeld i perJob remaining) (unlock s t (.bucket i) (.tickLoop (i+1) perJob remaining))
  | tickUnlockJob : Step s t .tickUnlockJob (unlock s t .job .tickUnlockPool)
  | tickUnlockPool : Step s t .tickUnlockPool (unlock s t .pool .idle)
  | fetchLock (slot : Nat) (size : Int) (free : s.holder (.bucket slot) = none) :
      Step s t (.fetchLock slot size) (took s t (.bucket slot) (.fetchTest slot size))
  | fetchEmpty (slot : Nat) (size : Int) (b : Mytbf) (live : s.job slot = some b) (dry : b.token ≤ 0) :
      Step s t (.fetchTest slot size) (goto s t (.fetchPool slot size))
  | fetchFilled (slot : Nat) (size : Int) (b : Mytbf) (live : s.job slot = some b) (filled : 0 < b.token) :
      Step s t (.fetchTest slot size) (goto s t (.fetchTake slot size))
  | fetchGrab (slot : Nat) (size : Int) (b : Mytbf) (live : s.job slot = some b) (free : s.holder .pool = none)
      (some_ : 0 < s.totalTokens) :
      Step s t (.fetchPool slot size) { putBucket (took s t .pool (.fetchGrabbed slot size)) slot
          { b with token := b.token + request b size s.totalTokens } with
        totalTokens := s.totalTokens - request b size s.totalTokens }
  | fetchDry (slot : Nat) (size : Int) (free : s.holder .pool = none) (none_ : s.totalTokens ≤ 0) :
      Step s t (.fetchPool slot size) (took s t .pool (.fetchNone slot size))
  | fetchGrabbed (slot : Nat) (size : Int) :
      Step s t (.fetchGrabbed slot size) (unlock s t .pool (.fetchTake slot size))
  | fetchNone (slot : Nat) (size : Int) : Step s t (.fetchNone slot size) (unlock s t .pool (.fetchSleep slot size))
  | fetchSleep (slot : Nat) (size : Int) :
      Step s t (.fetchSleep slot size) (unlock s t (.bucket slot) (.fetchWait slot size))
  | fetchTake (slot : Nat) (size : Int) (b : Mytbf) (live : s.job slot = some b) :
      Step s t (.fetchTake slot size)
        { putBucket (goto s t (.fetchUnlock slot)) slot { b with token := b.token - min b.token size } with
          fetched := s.fetched + min b.token size
          owed := update s.owed slot (s.owed slot + min b.token size) }
  | fetchUnlock (slot : Nat) : Step s t (.fetchUnlock slot) (unlock s t (.bucket slot) .idle)
  | returnAdd (slot : Nat) (size : Int) (b c : Mytbf) (live : s.job slot = some b)
      (free : s.holder (.bucket slot) = none) (added : returntoken b size = some c) :
      Step s t (.returnLock slot size) { putBucket (took s t (.bucket slot) (.returnUnlock slot)) slot c with
        refunded := s.refunded + size }
  | returnUnlock (slot : Nat) : Step s t (.returnUnlock slot) (unlock s t (.bucket slot) .idle)

theorem advanceSound {s u : State} {t : Nat} {pc : Pc} (h : advance s t pc = some u) : Step s t pc u := by
  cases pc with
  | idle => contradiction
  | initLock cps burst =>
    simp only [advance,Option.bind_eq_bind] at h
    obtain ⟨pos,found,h⟩ := Option.bind_eq_some_iff.mp h
    obtain ⟨v,locked,last⟩ := Option.bind_eq_some_iff.mp h
    obtain ⟨free,rfl⟩ := lockSound locked
    cases Option.some.inj last
    obtain ⟨inside,empty⟩ := freeSlot found
    exact .initPlace cps burst pos free inside empty
  | initUnlock => cases Option.some.inj h; exact .initUnlock
  | tickPool =>
    obtain ⟨v,locked,last⟩ := Option.bind_eq_some_iff.mp h
    obtain ⟨free,rfl⟩ := lockSound locked
    cases Option.some.inj last
    exact .refill free
  | tickJob =>
    obtain ⟨free,rfl⟩ := lockSound h
    exact .tickCount free
  | tickLoop i perJob remaining =>
    simp only [advance] at h
    split at h
    · rename_i more
      split at h <;> cases Option.some.inj h
      · exact .tickSlot i perJob remaining more.1 more.2 (by assumption)
      · rename_i empty
        exact .tickSkip i perJob remaining more.1 more.2 (Option.not_isSome_iff_eq_none.mp empty)
    · cases Option.some.inj h
      exact .tickEnd i perJob remaining (by omega)
  | tickBucket i perJob remaining =>
    obtain ⟨b,live,h⟩ := Option.bind_eq_some_iff.mp h
    obtain ⟨v,locked,last⟩ := Option.bind_eq_some_iff.mp h
    obtain ⟨free,rfl⟩ := lockSound locked
    cases Option.some.inj last
    exact .tickGive i perJob remaining b live free
  | tickHeld i perJob remaining => cases Option.some.inj h; exact .tickUnlockBucket i perJob remaining
  | tickUnlockJob => cases Option.some.inj h; exact .tickUnlockJob
  | tickUnlockPool => cases Option.some.inj h; exact .tickUnlockPool
  | fetchLock slot size =>
    obtain ⟨free,rfl⟩ := lockSound h
    exact .fetchLock slot size free
  | fetchTest slot size =>
    obtain ⟨b,live,last⟩ := Option.bind_eq_some_iff.mp h
    cases Option.some.inj last
    split
    · exact .fetchEmpty slot size b live (by assumption)
    · exact .fetchFilled slot size b live (by omega)
  | fetchPool slot size =>
    obtain ⟨b,live,h⟩ := Option.bind_eq_some_iff.mp h
    split at h
    · obtain ⟨v,locked,last⟩ := Option.bind_eq_some_iff.mp h
      obtain ⟨free,rfl⟩ := lockSound locked
      cases Option.some.inj last
      exact .fetchGrab slot size b live free (by assumption)
    · obtain ⟨free,rfl⟩ := lockSound h
      exact .fetchDry slot size free (by omega)
  | fetchGrabbed slot size => cases Option.some.inj h; exact .fetchGrabbed slot size
  | fetchNone slot size => cases Option.some.inj h; exact .fetchNone slot size
  | fetchSleep slot size => cases Option.some.inj h; exact .fetchSleep slot size
  | fetchWait slot size => contradiction
  | fetchTake slot size =>
    obtain ⟨b,live,last⟩ := Option.bind_eq_some_iff.mp h
    cases Option.some.inj last
    exact .fetchTake slot size b live
  | fetchUnlock slot => cases Option.some.inj h; exact .fetchUnlock slot
  | returnLock slot size =>
    obtain ⟨b,live,h⟩ := Option.bind_eq_some_iff.mp h
    obtain ⟨c,added,h⟩ := Option.bind_eq_some_iff.mp h
    obtain ⟨v,locked,last⟩ := Option.bind_eq_some_iff.mp h
    obtain ⟨free,rfl⟩ := lockSound locked
    cases Option.some.inj last
    exact .returnAdd slot size b c live free added
  | returnUnlock slot => cases Option.some.inj h; exact .returnUnlock slot

inductive Move (s : State) : Event → State → Prop where
  | init (t : Nat) (cps burst : Int) (free : s.pc t = .idle) (depth : 1 ≤ burst) :
      Move s (.init t cps burst) (goto s t (.initLock cps burst))
  | tick (t : Nat) (free : s.pc t = .idle) : Move s (.tick t) (goto s t .tickPool)
  | fetch (t slot : Nat) (size : Int) (free : s.pc t = .idle) (live : (s.job slot).isSome = true)
      (wanted : 1 ≤ size) : Move s (.fetch t slot size) (goto s t (.fetchLock slot size))
  | giveBack (t slot : Nat) (size : Int) (free : s.pc t = .idle) (live : (s.job slot).isSome = true)
      (positive : 0 ≤ size) (within : size ≤ s.owed slot) :
      Move s (.giveBack t slot size) { goto s t (.returnLock slot size) with
        owed := update s.owed slot (s.owed slot - size) }
  | wake (t slot : Nat) (size : Int) (waiting : s.pc t = .fetchWait slot size) :
      Move s (.wake t) (goto s t (.fetchLock slot size))
  | step (t : Nat) (u : State) (made : Step s t (s.pc t) u) : Move s (.step t) u

theorem moveSound {s u : State} {e : Event} (h : next s e = some u) : Move s e u := by
  cases e with
  | init t cps burst =>
    simp only [next] at h
    split at h <;> try contradiction
    rename_i guard
    cases Option.some.inj h
    exact .init t cps burst guard.1 guard.2
  | tick t =>
    simp only [next] at h
    split at h <;> try contradiction
    cases Option.some.inj h
    exact .tick t (by assumption)
  | fetch t slot size =>
    simp only [next] at h
    split at h <;> try contradiction
    rename_i guard
    cases Option.some.inj h
    exact .fetch t slot size guard.1 guard.2.1 guard.2.2
  | giveBack t slot size =>
    simp only [next] at h
    split at h <;> try contradiction
    rename_i guard
    cases Option.some.inj h
    exact .giveBack t slot size guard.1 guard.2.1 guard.2.2.1 guard.2.2.2
  | wake t =>
    simp only [next] at h
    split at h <;> try contradiction
    rename_i slot size waiting
    cases Option.some.inj h
    exact .wake t slot size waiting
  | step t => exact .step t u (advanceSound h)

def Agreed (s : State) : Prop := Locking.Disciplined s.holder fun t => held (s.pc t)

@[simp] theorem gotoPc (s : State) (t : Nat) (pc : Pc) : (goto s t pc).pc t = pc := updateSame _ _ _
@[simp] theorem tookPc (s : State) (t : Nat) (l : Lock) (pc : Pc) : (took s t l pc).pc t = pc := updateSame _ _ _
@[simp] theorem unlockPc (s : State) (t : Nat) (l : Lock) (pc : Pc) : (unlock s t l pc).pc t = pc := updateSame _ _ _
@[simp] theorem putBucketPc (s : State) (slot : Nat) (b : Mytbf) : (putBucket s slot b).pc = s.pc := rfl

theorem heldHanded (job : Nat → Option Mytbf) (totalTokens : Int) : held (handed job totalTokens) = [.job,.pool] := by
  unfold handed
  split <;> rfl

theorem stepLocks {s u : State} {t : Nat} {pc : Pc} (step : Step s t pc u) :
    Locking.LockStep s.holder t (held pc) (held (u.pc t)) u.holder := by
  cases step with
  | initPlace cps burst pos free inside empty => exact .took Lock.job free (by simp [held])
  | initUnlock => exact .gave Lock.job (by simp [held])
  | refill free => exact .took Lock.pool free (by simp [held])
  | tickCount free => exact .took Lock.job free (by rw [tookPc,heldHanded]; rfl)
  | tickSlot i perJob remaining inside more some_ => exact .stay (by simp [held])
  | tickSkip i perJob remaining inside more none_ => exact .stay (by simp [held])
  | tickEnd i perJob remaining over_ => exact .stay (by simp [held])
  | tickGive i perJob remaining b live free => exact .took (Lock.bucket i) free (by simp [held])
  | tickUnlockBucket i perJob remaining => exact .gave (Lock.bucket i) (by simp [held])
  | tickUnlockJob => exact .gave Lock.job (by simp [held])
  | tickUnlockPool => exact .gave Lock.pool (by simp [held])
  | fetchLock slot size free => exact .took (Lock.bucket slot) free (by simp [held])
  | fetchEmpty slot size b live dry => exact .stay (by simp [held])
  | fetchFilled slot size b live filled => exact .stay (by simp [held])
  | fetchGrab slot size b live free some_ => exact .took Lock.pool free (by simp [held])
  | fetchDry slot size free none_ => exact .took Lock.pool free (by simp [held])
  | fetchGrabbed slot size => exact .gave Lock.pool (by simp [held])
  | fetchNone slot size => exact .gave Lock.pool (by simp [held])
  | fetchSleep slot size => exact .gave (Lock.bucket slot) (by simp [held])
  | fetchTake slot size b live => exact .stay (by simp [held])
  | fetchUnlock slot => exact .gave (Lock.bucket slot) (by simp [held])
  | returnAdd slot size b c live free added => exact .took (Lock.bucket slot) free (by simp [held])
  | returnUnlock slot => exact .gave (Lock.bucket slot) (by simp [held])

theorem stepOthers {s u : State} {t v : Nat} {pc : Pc} (step : Step s t pc u) (other : v ≠ t) : u.pc v = s.pc v := by
  cases step <;> exact updateOther _ _ other

def actor : Event → Nat
  | .init t _ _ => t
  | .tick t => t
  | .fetch t _ _ => t
  | .giveBack t _ _ => t
  | .wake t => t
  | .step t => t

theorem moveOthers {s u : State} {e : Event} {v : Nat} (move : Move s e u) (other : v ≠ actor e) :
    u.pc v = s.pc v := by
  cases move with
  | step t u made => exact stepOthers made other
  | _ => exact updateOther _ _ other

theorem moveLocks {s u : State} {e : Event} (move : Move s e u) :
    Locking.LockStep s.holder (actor e) (held (s.pc (actor e))) (held (u.pc (actor e))) u.holder := by
  cases move with
  | init t cps burst free depth => exact .stay (by simp [actor,free,held])
  | tick t free => exact .stay (by simp [actor,free,held])
  | fetch t slot size free live wanted => exact .stay (by simp [actor,free,held])
  | giveBack t slot size free live positive within => exact .stay (by simp [actor,free,held])
  | wake t slot size waiting => exact .stay (by simp [actor,waiting,held])
  | step t u made => exact stepLocks made

theorem agreedMove {s u : State} {e : Event} (agreed : Agreed s) (move : Move s e u) : Agreed u := by
  refine Locking.disciplinedStep agreed (moveLocks move) fun v other => ?_
  rw [moveOthers move other]

theorem stepFrame {s u : State} {t v slot : Nat} {b : Mytbf} (agreed : Agreed s) (step : Step s v (s.pc v) u)
    (holds : Lock.bucket slot ∈ held (s.pc t)) (other : t ≠ v) (live : s.job slot = some b) :
    u.job slot = s.job slot := by
  have owner := (agreed.agree (.bucket slot) t).mpr holds
  have apart : ∀ i, (s.holder (.bucket i) = none ∨ Lock.bucket i ∈ held (s.pc v)) → slot ≠ i := by
    rintro i (free | theirs) rfl
    · rw [owner] at free
      contradiction
    · exact other (Locking.oneHolder agreed.agree holds theirs)
  generalize at_ : s.pc v = pc at step
  cases step with
  | initPlace cps burst pos free inside empty =>
    refine updateOther _ _ ?_
    rintro rfl
    rw [live] at empty
    contradiction
  | tickGive i perJob remaining c found free => exact updateOther _ _ (apart i (.inl free))
  | fetchGrab i size c found free some_ => exact updateOther _ _ (apart i (.inr (by simp [at_,held])))
  | fetchTake i size c found => exact updateOther _ _ (apart i (.inr (by simp [at_,held])))
  | returnAdd i size c d found free added => exact updateOther _ _ (apart i (.inl free))
  | _ => rfl

theorem moveFrame {s u : State} {e : Event} {t slot : Nat} {b : Mytbf} (agreed : Agreed s) (move : Move s e u)
    (holds : Lock.bucket slot ∈ held (s.pc t)) (other : t ≠ actor e) (live : s.job slot = some b) :
    u.job slot = s.job slot := by
  cases move with
  | step v u made => exact stepFrame agreed made holds other live
  | _ => rfl

theorem agreedStart : Agreed start :=
  ⟨fun l t => by simp [start,held],fun _ => List.nodup_nil⟩

end IPv4Media.TokenPool
