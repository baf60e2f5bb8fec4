import IPv4Media.Library.Execution
import IPv4Media.Library.Locking
import IPv4Media.TimerModule

/-! mytbf.c on any number of threads, every lock and unlock a step of its own, with
SIGALRM delivered to any of them between any two steps. The thread that gets it runs
alrm_handle before it goes on with its own call; until the handler returns it gets no
other. A bucket is used through its address; after its free nothing is done with it. -/
namespace IPv4Media.TimerThreads
open TokenBucket TimerModule Execution

inductive Lock
  | job
  | bucket (address : Nat)
  deriving DecidableEq, Repr

/- Where a thread is in a call, each name that of the call and what comes next in it. A
thread that has been woken in pthread_cond_wait stands before the mutex. -/
inductive Pc
  | outside
  | initLock (cps burst : Int)
  | initUnlock
  | fetchLock (address : Nat) (size : Int)
  | fetchTest (address : Nat) (size : Int)
  | fetchWait (address : Nat) (size : Int)
  | fetchWoken (address : Nat) (size : Int)
  | fetchUnlock (address : Nat)
  | returnLock (address : Nat) (size : Int)
  | returnUnlock (address : Nat)
  | checkLock (address : Nat)
  | checkUnlock (address : Nat)
  | destroyLock (address : Nat)
  | destroyUnlock (address : Nat)
  | destroyFree (address : Nat)
  deriving DecidableEq, Repr

inductive Handler
  | lockJob
  | loop (i : Nat)
  | lockBucket (i address : Nat)
  | unlockBucket (i address : Nat)
  deriving DecidableEq, Repr

structure State where
  mod : Module
  holder : Lock → Option Nat
  pc : Nat → Pc
  handler : Nat → Option Handler

inductive Event
  | init (thread : Nat) (env : InitEnv) (cps burst : Int)
  | fetch (thread address : Nat) (size : Int)
  | giveBack (thread address : Nat) (size : Int)
  | check (thread address : Nat)
  | destroy (thread address : Nat)
  | wake (thread : Nat)
  | step (thread : Nat)
  | alarm (thread : Nat)
  | handle (thread : Nat)
  deriving DecidableEq, Repr

def started (mod : Module) : State := ⟨mod,fun _ => none,fun _ => .outside,fun _ => none⟩

def start : State := started unloaded

def goto (s : State) (t : Nat) (pc : Pc) : State := { s with pc := update s.pc t pc }

def took (s : State) (t : Nat) (l : Lock) (pc : Pc) : State :=
  { goto s t pc with holder := Function.update s.holder l (some t) }

def lock (s : State) (t : Nat) (l : Lock) (pc : Pc) : Option State :=
  if s.holder l = none then some (took s t l pc) else none

def unlock (s : State) (t : Nat) (l : Lock) (pc : Pc) : State :=
  { goto s t pc with holder := Function.update s.holder l none }

def interrupt (s : State) (t : Nat) (h : Option Handler) : State := { s with handler := update s.handler t h }

def handlerTook (s : State) (t : Nat) (l : Lock) (h : Handler) : State :=
  { interrupt s t (some h) with holder := Function.update s.holder l (some t) }

def handlerUnlock (s : State) (t : Nat) (l : Lock) (h : Option Handler) : State :=
  { interrupt s t h with holder := Function.update s.holder l none }

def putBucket (s : State) (address : Nat) (b : Mytbf) : State :=
  { s with mod := { s.mod with bucket := update s.mod.bucket address (some b) } }

/- The locked section of mytbf_init, with the malloc before it. -/
def place (m : Module) (pos : Nat) (cps burst : Int) : Module := { m with
  job := update m.job pos (some m.allocated)
  bucket := update m.bucket m.allocated (some ⟨cps,burst,0,pos⟩)
  allocated := m.allocated + 1 }

def advance (s : State) (t : Nat) : Pc → Option State
  | .outside => none
  | .initLock cps burst => do
    let pos ← getFreePosUnlocked s.mod
    let u ← lock s t .job .initUnlock
    some { u with mod := place s.mod pos cps burst }
  | .initUnlock => some (unlock s t .job .outside)
  | .fetchLock address size => lock s t (.bucket address) (.fetchTest address size)
  | .fetchTest address size => do
    let b ← s.mod.bucket address
    match fetchtoken b size with
    | none => some (unlock s t (.bucket address) (.fetchWait address size))
    | some (_,c) => some (putBucket (goto s t (.fetchUnlock address)) address c)
  | .fetchWait _ _ => none
  | .fetchWoken address size => lock s t (.bucket address) (.fetchTest address size)
  | .fetchUnlock address => some (unlock s t (.bucket address) .outside)
  | .returnLock address size => do
    let b ← s.mod.bucket address
    let c ← returntoken b size
    let u ← lock s t (.bucket address) (.returnUnlock address)
    some (putBucket u address c)
  | .returnUnlock address => some (unlock s t (.bucket address) .outside)
  | .checkLock address => lock s t (.bucket address) (.checkUnlock address)
  | .checkUnlock address => some (unlock s t (.bucket address) .outside)
  | .destroyLock address => do
    let b ← s.mod.bucket address
    let u ← lock s t .job (.destroyUnlock address)
    some { u with mod := { s.mod with job := update s.mod.job b.pos none } }
  | .destroyUnlock address => some (unlock s t .job (.destroyFree address))
  | .destroyFree address =>
    some { goto s t .outside with mod := { s.mod with
      bucket := update s.mod.bucket address none
      frees := update s.mod.frees address (s.mod.frees address + 1) } }

def handle (s : State) (t : Nat) : Handler → Option State
  | .lockJob => if s.holder .job = none then some (handlerTook s t .job (.loop 0)) else none
  | .loop i =>
    if i < mytbfMax then
      match s.mod.job i with
      | none => some (interrupt s t (some (.loop (i+1))))
      | some address => some (interrupt s t (some (.lockBucket i address)))
    else some (handlerUnlock s t .job none)
  | .lockBucket i address =>
    if s.holder (.bucket address) = none then do
      let b ← s.mod.bucket address
      let c ← credit b
      some (putBucket (handlerTook s t (.bucket address) (.unlockBucket i address)) address c)
    else none
  | .unlockBucket i address => some (handlerUnlock s t (.bucket address) (some (.loop (i+1))))

def free (s : State) (t : Nat) : Bool := s.pc t == .outside && s.handler t == none

/- A waiter may wake at any time, by a broadcast or by itself. A caller returns at most
what one fetch can give. -/
def next (s : State) : Event → Option State
  | .init t env cps burst =>
    if free s t ∧ Params cps burst then do
      let m ← moduleLoad s.mod env.direct
      let m ← pthreadOnce m env.once
      if env.memory then some { goto s t (.initLock cps burst) with mod := m } else some { s with mod := m }
    else none
  | .fetch t address size =>
    if free s t ∧ (s.mod.bucket address).isSome ∧ 1 ≤ size then some (goto s t (.fetchLock address size)) else none
  | .giveBack t address size => do
    let b ← s.mod.bucket address
    if free s t ∧ 0 ≤ size ∧ size ≤ b.burst then some (goto s t (.returnLock address size)) else none
  | .check t address =>
    if free s t ∧ (s.mod.bucket address).isSome then some (goto s t (.checkLock address)) else none
  | .destroy t address =>
    if free s t ∧ (s.mod.bucket address).isSome then some (goto s t (.destroyLock address)) else none
  | .wake t =>
    match s.pc t with
    | .fetchWait address size => if s.handler t = none then some (goto s t (.fetchWoken address size)) else none
    | _ => none
  | .step t => if s.handler t = none then advance s t (s.pc t) else none
  | .alarm t => if s.handler t = none then some (interrupt s t (some .lockJob)) else none
  | .handle t => do
    let h ← s.handler t
    handle s t h

/- The mutexes a call and a handler hold, the last one taken first. -/
def held : Pc → List Lock
  | .initUnlock => [.job]
  | .fetchTest address _ => [.bucket address]
  | .fetchUnlock address => [.bucket address]
  | .returnUnlock address => [.bucket address]
  | .checkUnlock address => [.bucket address]
  | .destroyUnlock _ => [.job]
  | _ => []

def handlerHeld : Option Handler → List Lock
  | some (.loop _) => [.job]
  | some (.lockBucket _ _) => [.job]
  | some (.unlockBucket _ address) => [.bucket address,.job]
  | _ => []

def allHeld (s : State) (t : Nat) : List Lock := handlerHeld (s.handler t) ++ held (s.pc t)

def handlerWants : Option Handler → Option Lock
  | some .lockJob => some .job
  | some (.lockBucket _ address) => some (.bucket address)
  | _ => none

inductive Step (s : State) (t : Nat) : Pc → State → Prop where
  | initPlace (cps burst : Int) (pos : Nat) (free : s.holder .job = none)
      (found : getFreePosUnlocked s.mod = some pos) :
      Step s t (.initLock cps burst) { took s t .job .initUnlock with mod := place s.mod pos cps burst }
  | initUnlock : Step s t .initUnlock (unlock s t .job .outside)
  | fetchLock (address : Nat) (size : Int) (free : s.holder (.bucket address) = none) :
      Step s t (.fetchLock address size) (took s t (.bucket address) (.fetchTest address size))
  | fetchSleep (address : Nat) (size : Int) (b : Mytbf) (live : s.mod.bucket address = some b)
      (empty : fetchtoken b size = none) :
      Step s t (.fetchTest address size) (unlock s t (.bucket address) (.fetchWait address size))
  | fetchTake (address : Nat) (size n : Int) (b c : Mytbf) (live : s.mod.bucket address = some b)
      (got : fetchtoken b size = some (n,c)) :
      Step s t (.fetchTest address size) (putBucket (goto s t (.fetchUnlock address)) address c)
  | fetchWoken (address : Nat) (size : Int) (free : s.holder (.bucket address) = none) :
      Step s t (.fetchWoken address size) (took s t (.bucket address) (.fetchTest address size))
  | fetchUnlock (address : Nat) : Step s t (.fetchUnlock address) (unlock s t (.bucket address) .outside)
  | returnAdd (address : Nat) (size : Int) (b c : Mytbf) (live : s.mod.bucket address = some b)
      (added : returntoken b size = some c) (free : s.holder (.bucket address) = none) :
      Step s t (.returnLock address size) (putBucket (took s t (.bucket address) (.returnUnlock address)) address c)
  | returnUnlock (address : Nat) : Step s t (.returnUnlock address) (unlock s t (.bucket address) .outside)
  | checkLock (address : Nat) (free : s.holder (.bucket address) = none) :
      Step s t (.checkLock address) (took s t (.bucket address) (.checkUnlock address))
  | checkUnlock (address : Nat) : Step s t (.checkUnlock address) (unlock s t (.bucket address) .outside)
  | destroyClear (address : Nat) (b : Mytbf) (live : s.mod.bucket address = some b) (free : s.holder .job = none) :
      Step s t (.destroyLock address) { took s t .job (.destroyUnlock address) with
        mod := { s.mod with job := update s.mod.job b.pos none } }
  | destroyUnlock (address : Nat) : Step s t (.destroyUnlock address) (unlock s t .job (.destroyFree address))
  | destroyFree (address : Nat) :
      Step s t (.destroyFree address) { goto s t .outside with mod := { s.mod with
        bucket := update s.mod.bucket address none
        frees := update s.mod.frees address (s.mod.frees address + 1) } }

inductive HandlerStep (s : State) (t : Nat) : Handler → State → Prop where
  | lockJob (free : s.holder .job = none) : HandlerStep s t .lockJob (handlerTook s t .job (.loop 0))
  | skip (i : Nat) (inside : i < mytbfMax) (empty : s.mod.job i = none) :
      HandlerStep s t (.loop i) (interrupt s t (some (.loop (i+1))))
  | slot (i address : Nat) (inside : i < mytbfMax) (registered : s.mod.job i = some address) :
      HandlerStep s t (.loop i) (interrupt s t (some (.lockBucket i address)))
  | done (i : Nat) (past : mytbfMax ≤ i) : HandlerStep s t (.loop i) (handlerUnlock s t .job none)
  | credit (i address : Nat) (b c : Mytbf) (free : s.holder (.bucket address) = none)
      (live : s.mod.bucket address = some b) (added : TokenBucket.credit b = some c) :
      HandlerStep s t (.lockBucket i address)
        (putBucket (handlerTook s t (.bucket address) (.unlockBucket i address)) address c)
  | unlockBucket (i address : Nat) :
      HandlerStep s t (.unlockBucket i address) (handlerUnlock s t (.bucket address) (some (.loop (i+1))))

theorem lockSound {s u : State} {t l pc} (h : lock s t l pc = some u) : s.holder l = none ∧ u = took s t l pc := by
  unfold lock at h
  split at h <;> try contradiction
  rename_i free
  exact ⟨free,(Option.some.inj h).symm⟩

theorem advanceSound {s u : State} {t : Nat} {pc : Pc} (h : advance s t pc = some u) : Step s t pc u := by
  cases pc with
  | outside => contradiction
  | initLock cps burst =>
    simp only [advance,Option.bind_eq_bind] at h
    obtain ⟨pos,found,h⟩ := Option.bind_eq_some_iff.mp h
    obtain ⟨v,locked,last⟩ := Option.bind_eq_some_iff.mp h
    obtain ⟨free,rfl⟩ := lockSound locked
    cases Option.some.inj last
    exact .initPlace cps burst pos free found
  | initUnlock => cases Option.some.inj h; exact .initUnlock
  | fetchLock address size =>
    obtain ⟨free,rfl⟩ := lockSound h
    exact .fetchLock address size free
  | fetchTest address size =>
    obtain ⟨b,live,h⟩ := Option.bind_eq_some_iff.mp h
    split at h
    · rename_i empty
      cases Option.some.inj h
      exact .fetchSleep address size b live empty
    · rename_i n c got
      cases Option.some.inj h
      exact .fetchTake address size n b c live got
  | fetchWait address size => contradiction
  | fetchWoken address size =>
    obtain ⟨free,rfl⟩ := lockSound h
    exact .fetchWoken address size free
  | fetchUnlock address => cases Option.some.inj h; exact .fetchUnlock address
  | returnLock address size =>
    obtain ⟨b,live,h⟩ := Option.bind_eq_some_iff.mp h
    obtain ⟨c,added,h⟩ := Option.bind_eq_some_iff.mp h
    obtain ⟨v,locked,last⟩ := Option.bind_eq_some_iff.mp h
    obtain ⟨free,rfl⟩ := lockSound locked
    cases Option.some.inj last
    exact .returnAdd address size b c live added free
  | returnUnlock address => cases Option.some.inj h; exact .returnUnlock address
  | checkLock address =>
    obtain ⟨free,rfl⟩ := lockSound h
    exact .checkLock address free
  | checkUnlock address => cases Option.some.inj h; exact .checkUnlock address
  | destroyLock address =>
    obtain ⟨b,live,h⟩ := Option.bind_eq_some_iff.mp h
    obtain ⟨v,locked,last⟩ := Option.bind_eq_some_iff.mp h
    obtain ⟨free,rfl⟩ := lockSound locked
    cases Option.some.inj last
    exact .destroyClear address b live free
  | destroyUnlock address => cases Option.some.inj h; exact .destroyUnlock address
  | destroyFree address => cases Option.some.inj h; exact .destroyFree address

theorem handleSound {s u : State} {t : Nat} {h : Handler} (made : handle s t h = some u) : HandlerStep s t h u := by
  cases h with
  | lockJob =>
    simp only [handle] at made
    split at made <;> try contradiction
    cases Option.some.inj made
    exact .lockJob (by assumption)
  | loop i =>
    simp only [handle] at made
    split at made
    · rename_i inside
      split at made <;> rename_i slot <;> cases Option.some.inj made
      · exact .skip i inside slot
      · exact .slot i _ inside slot
    · cases Option.some.inj made
      exact .done i (by omega)
  | lockBucket i address =>
    simp only [handle] at made
    split at made <;> try contradiction
    rename_i free
    obtain ⟨b,live,made⟩ := Option.bind_eq_some_iff.mp made
    obtain ⟨c,added,last⟩ := Option.bind_eq_some_iff.mp made
    cases Option.some.inj last
    exact .credit i address b c free live added
  | unlockBucket i address => cases Option.some.inj made; exact .unlockBucket i address

inductive Move (s : State) : Event → State → Prop where
  | initNull (t : Nat) (env : InitEnv) (cps burst : Int) (m : Module) (loaded : Loaded s.mod m) :
      Move s (.init t env cps burst) { s with mod := m }
  | init (t : Nat) (env : InitEnv) (cps burst : Int) (m : Module) (idle : free s t = true)
      (params : Params cps burst) (loaded : Loaded s.mod m) :
      Move s (.init t env cps burst) { goto s t (.initLock cps burst) with mod := m }
  | fetch (t address : Nat) (size : Int) (idle : free s t = true) (live : (s.mod.bucket address).isSome = true)
      (wanted : 1 ≤ size) : Move s (.fetch t address size) (goto s t (.fetchLock address size))
  | giveBack (t address : Nat) (size : Int) (b : Mytbf) (live : s.mod.bucket address = some b)
      (idle : free s t = true) (positive : 0 ≤ size) (small : size ≤ b.burst) :
      Move s (.giveBack t address size) (goto s t (.returnLock address size))
  | check (t address : Nat) (idle : free s t = true) (live : (s.mod.bucket address).isSome = true) :
      Move s (.check t address) (goto s t (.checkLock address))
  | destroy (t address : Nat) (idle : free s t = true) (live : (s.mod.bucket address).isSome = true) :
      Move s (.destroy t address) (goto s t (.destroyLock address))
  | wake (t address : Nat) (size : Int) (asleep : s.pc t = .fetchWait address size) (quiet : s.handler t = none) :
      Move s (.wake t) (goto s t (.fetchWoken address size))
  | step (t : Nat) (u : State) (quiet : s.handler t = none) (made : Step s t (s.pc t) u) : Move s (.step t) u
  | alarm (t : Nat) (quiet : s.handler t = none) : Move s (.alarm t) (interrupt s t (some .lockJob))
  | handle (t : Nat) (h : Handler) (u : State) (running : s.handler t = some h) (made : HandlerStep s t h u) :
      Move s (.handle t) u

theorem freeSound {s : State} {t : Nat} (idle : free s t = true) : s.pc t = .outside ∧ s.handler t = none := by
  simpa [free] using idle

theorem moveSound {s u : State} {e : Event} (h : next s e = some u) : Move s e u := by
  cases e with
  | init t env cps burst =>
    simp only [next,Option.bind_eq_bind] at h
    split at h <;> try contradiction
    rename_i guard
    obtain ⟨k,direct,h⟩ := Option.bind_eq_some_iff.mp h
    obtain ⟨m,once,h⟩ := Option.bind_eq_some_iff.mp h
    have loaded : Loaded s.mod m := loadsSound (Option.bind_eq_some_iff.mpr ⟨k,direct,once⟩)
    split at h <;> cases Option.some.inj h
    · exact .init t env cps burst m guard.1 guard.2 loaded
    · exact .initNull t env cps burst m loaded
  | fetch t address size =>
    simp only [next] at h
    split at h <;> try contradiction
    rename_i guard
    cases Option.some.inj h
    exact .fetch t address size guard.1 guard.2.1 guard.2.2
  | giveBack t address size =>
    obtain ⟨b,live,h⟩ := Option.bind_eq_some_iff.mp h
    split at h <;> try contradiction
    rename_i guard
    cases Option.some.inj h
    exact .giveBack t address size b live guard.1 guard.2.1 guard.2.2
  | check t address =>
    simp only [next] at h
    split at h <;> try contradiction
    rename_i guard
    cases Option.some.inj h
    exact .check t address guard.1 guard.2
  | destroy t address =>
    simp only [next] at h
    split at h <;> try contradiction
    rename_i guard
    cases Option.some.inj h
    exact .destroy t address guard.1 guard.2
  | wake t =>
    simp only [next] at h
    split at h <;> try contradiction
    rename_i address size asleep
    split at h <;> try contradiction
    cases Option.some.inj h
    exact .wake t address size asleep (by assumption)
  | step t =>
    simp only [next] at h
    split at h <;> try contradiction
    exact .step t u (by assumption) (advanceSound h)
  | alarm t =>
    simp only [next] at h
    split at h <;> try contradiction
    cases Option.some.inj h
    exact .alarm t (by assumption)
  | handle t =>
    obtain ⟨h',running,made⟩ := Option.bind_eq_some_iff.mp h
    exact .handle t h' u running (handleSound made)

end IPv4Media.TimerThreads
