import IPv4Media.AlarmLocks
import IPv4Media.MediaLibrary

/-! The channel threads while they are cancelled: thr_channel_destroy, and daemon_exit
(server.c) with thr_list_destroy and thr_channel_destroyall. Cancellation is deferred.
A thread that is in no call of mytbf comes to a cancellation point by itself (pread,
sendto, syslog); inside the calls there is one, pthread_cond_wait in mytbf_fetchtoken,
and a thread cancelled there takes the mutex again before it ends. No cleanup handler is
pushed anywhere, so a thread ends with the mutexes it holds. The signals that end the
server come to main. daemon_exit runs there, where alrm_handle may interrupt it; and as
signal() masks SIGALRM alone while alrm_handle runs, daemon_exit may interrupt
alrm_handle, which it then never goes back to. The buckets are those the scan has
registered. -/
namespace IPv4Media.Cancellation
open TokenBucket TimerModule TimerThreads AlarmLocks Execution Locking

inductive Exit
  | running
  | cancel (rest : List Nat)
  | join (thread : Nat) (rest : List Nat)
  | exited
  deriving DecidableEq, Repr

/- nested: daemon_exit runs on top of an alrm_handle. -/
structure Server where
  base : State
  cancelled : Nat → Bool
  dead : Nat → Bool
  exit : Exit
  nested : Bool

inductive Event
  | base (e : TimerThreads.Event)
  | cancel (thread : Nat)
  | terminate (thread : Nat)
  | daemonExit
  | exitStep
  deriving DecidableEq, Repr

def actor : TimerThreads.Event → Nat
  | .init t _ _ _ => t
  | .fetch t _ _ => t
  | .giveBack t _ _ => t
  | .check t _ => t
  | .destroy t _ => t
  | .wake t => t
  | .step t => t
  | .alarm t => t
  | .handle t => t

/- After the scan no bucket is made or destroyed. -/
def serving : TimerThreads.Event → Bool
  | .init _ _ _ _ => false
  | .destroy _ _ => false
  | _ => true

def liveNext (dead : Nat → Bool) (s : State) (e : TimerThreads.Event) : Option State :=
  if serving e ∧ dead (actor e) = false then TimerThreads.next s e else none

def ended (s : Server) (t : Nat) (base : State) : Server := { s with base, dead := update s.dead t true }

/- The thread acts on its cancellation. The mutex of the bucket it waited on is taken. -/
def terminated (s : Server) (t : Nat) : Pc → Option Server
  | .outside => some (ended s t s.base)
  | .fetchWait address size => (lock s.base t (.bucket address) (.fetchTest address size)).map (ended s t)
  | .fetchWoken address size => (lock s.base t (.bucket address) (.fetchTest address size)).map (ended s t)
  | _ => none

def main : Nat := 0

/- pthread_cancel and pthread_join of each thread, then the end of the process. -/
def exitStep (s : Server) : Option Server :=
  match s.exit with
  | .cancel [] => some { s with exit := .exited }
  | .cancel (t :: rest) => some { s with cancelled := update s.cancelled t true, exit := .join t rest }
  | .join t rest => if s.dead t = true then some { s with exit := .cancel rest } else none
  | _ => none

/- threads is what daemon_exit cancels: the list thread, then those in thr_channel[]. -/
def next (threads : List Nat) (s : Server) : Event → Option Server
  | .base e =>
    if s.nested = true ∧ actor e = main then none else (liveNext s.dead s.base e).map fun base => { s with base }
  | .cancel t => if t ∈ threads then some { s with cancelled := update s.cancelled t true } else none
  | .terminate t =>
    if s.cancelled t = true ∧ s.dead t = false ∧ s.base.handler t = none then terminated s t (s.base.pc t) else none
  | .daemonExit =>
    if s.exit = .running then
      some { s with exit := .cancel threads, nested := (s.base.handler main).isSome }
    else none
  | .exitStep => if s.base.handler main = none ∨ s.nested = true then exitStep s else none

inductive Burial (s : Server) (t : Nat) : Server → Prop where
  | outside (idle : s.base.pc t = .outside) : Burial s t (ended s t s.base)
  | waiting (address : Nat) (size : Int) (free : s.base.holder (.bucket address) = none)
      (stands : s.base.pc t = .fetchWait address size ∨ s.base.pc t = .fetchWoken address size) :
      Burial s t (ended s t (took s.base t (.bucket address) (.fetchTest address size)))

theorem burialSound {s u : Server} {t : Nat} (step : terminated s t (s.base.pc t) = some u) : Burial s t u := by
  cases at_ : s.base.pc t <;> rw [at_] at step <;> try contradiction
  case outside =>
    cases Option.some.inj step
    exact .outside at_
  case fetchWait address size =>
    obtain ⟨base,locked,last⟩ := Option.map_eq_some_iff.mp step
    obtain ⟨free,rfl⟩ := lockSound locked
    subst last
    exact .waiting address size free (.inl at_)
  case fetchWoken address size =>
    obtain ⟨base,locked,last⟩ := Option.map_eq_some_iff.mp step
    obtain ⟨free,rfl⟩ := lockSound locked
    subst last
    exact .waiting address size free (.inr at_)

inductive Deed (threads : List Nat) (s : Server) : Event → Server → Prop where
  | base (e : TimerThreads.Event) (v : State) (served : serving e = true) (alive : s.dead (actor e) = false)
      (top : s.nested = true → actor e ≠ main) (move : Move s.base e v) :
      Deed threads s (.base e) { s with base := v }
  | cancel (t : Nat) : Deed threads s (.cancel t) { s with cancelled := update s.cancelled t true }
  | terminate (t : Nat) (u : Server) (alive : s.dead t = false) (quiet : s.base.handler t = none)
      (burial : Burial s t u) : Deed threads s (.terminate t) u
  | daemonExit (running : s.exit = .running) :
      Deed threads s .daemonExit { s with exit := .cancel threads, nested := (s.base.handler main).isSome }
  | finish (last : s.exit = .cancel []) (turn : s.base.handler main = none ∨ s.nested = true) :
      Deed threads s .exitStep { s with exit := .exited }
  | ask (t : Nat) (rest : List Nat) (first : s.exit = .cancel (t :: rest))
      (turn : s.base.handler main = none ∨ s.nested = true) :
      Deed threads s .exitStep { s with cancelled := update s.cancelled t true, exit := .join t rest }
  | joined (t : Nat) (rest : List Nat) (waits : s.exit = .join t rest) (gone : s.dead t = true)
      (turn : s.base.handler main = none ∨ s.nested = true) : Deed threads s .exitStep { s with exit := .cancel rest }

theorem liveSound {dead : Nat → Bool} {s u : State} {e : TimerThreads.Event} (step : liveNext dead s e = some u) :
    serving e = true ∧ dead (actor e) = false ∧ Move s e u := by
  unfold liveNext at step
  split at step <;> try contradiction
  rename_i guard
  exact ⟨guard.1,guard.2,moveSound step⟩

theorem deedSound {threads : List Nat} {s u : Server} {e : Event} (step : next threads s e = some u) :
    Deed threads s e u := by
  cases e with
  | base e =>
    simp only [next] at step
    split at step <;> try contradiction
    rename_i top
    obtain ⟨v,live,last⟩ := Option.map_eq_some_iff.mp step
    subst last
    obtain ⟨served,alive,move⟩ := liveSound live
    exact .base e v served alive (fun nested mine => top ⟨nested,mine⟩) move
  | cancel t =>
    simp only [next] at step
    split at step <;> try contradiction
    cases Option.some.inj step
    exact .cancel t
  | terminate t =>
    simp only [next] at step
    split at step <;> try contradiction
    rename_i guard
    exact .terminate t u guard.2.1 guard.2.2 (burialSound step)
  | daemonExit =>
    simp only [next] at step
    split at step <;> try contradiction
    rename_i running
    cases Option.some.inj step
    exact .daemonExit running
  | exitStep =>
    simp only [next] at step
    split at step <;> try contradiction
    rename_i turn
    unfold exitStep at step
    split at step
    · rename_i last
      cases Option.some.inj step
      exact .finish last turn
    · rename_i t rest first
      cases Option.some.inj step
      exact .ask t rest first turn
    · rename_i t rest waits
      split at step <;> try contradiction
      rename_i gone
      cases Option.some.inj step
      exact .joined t rest waits gone turn
    · contradiction

/- path2entry's calls of mytbf_init. -/
def registerNext (m : Module) (env : InitEnv) : Option Module :=
  (mytbfInit m env MediaLibrary.tbfCps MediaLibrary.tbfBurst).map Prod.snd

def scanned (envs : List InitEnv) : Option Module := exec registerNext unloaded envs

def start (mod : Module) : Server := ⟨started mod,fun _ => false,fun _ => false,.running,false⟩

/- Cancellation does not act inside pthread_cond_wait, the alarm finds no thread that
holds a mutex, and no alrm_handle is under way on main when daemon_exit starts there. -/
structure Considerate (s : Server) (e : Event) (_ : Server) : Prop where
  awake : ∀ t, e = .terminate t → s.base.pc t = .outside
  spared : ∀ t, e = .base (.alarm t) → held (s.base.pc t) = []
  returned : e = .daemonExit → s.base.handler main = none

def Call (m : Module) : Pc → Prop
  | .outside => True
  | .fetchLock address size => (m.bucket address).isSome = true ∧ 1 ≤ size
  | .fetchTest address size => (m.bucket address).isSome = true ∧ 1 ≤ size
  | .fetchWait address size => (m.bucket address).isSome = true ∧ 1 ≤ size
  | .fetchWoken address size => (m.bucket address).isSome = true ∧ 1 ≤ size
  | .fetchUnlock address => (m.bucket address).isSome = true
  | .returnLock address size => ∃ b, m.bucket address = some b ∧ 0 ≤ size ∧ size ≤ b.burst
  | .returnUnlock address => (m.bucket address).isSome = true
  | .checkLock address => (m.bucket address).isSome = true
  | .checkUnlock address => (m.bucket address).isSome = true
  | _ => False

def Walk (m : Module) : Option Handler → Prop
  | some (.lockBucket i address) => i < mytbfMax ∧ m.job i = some address
  | some (.unlockBucket i _) => i < mytbfMax
  | _ => True

/- The buckets the scan leaves: tbfCps is positive, so that each has tokens to come. -/
structure Registered (m : Module) : Prop where
  table : Table m
  buckets : ∀ address b, m.bucket address = some b → Balanced b ∧ 1 ≤ b.cps

structure Settled (s : State) : Prop where
  known : Registered s.mod
  calls : ∀ t, Call s.mod (s.pc t)
  handlers : ∀ t, Walk s.mod (s.handler t)

structure Healthy (dead : Nat → Bool) (s : State) : Prop where
  settled : Settled s
  calm : Calm s
  buried : ∀ t, dead t = true → s.pc t = .outside ∧ s.handler t = none

structure Kept (m n : Module) : Prop where
  job : n.job = m.job
  bucket : ∀ address b, m.bucket address = some b → ∃ c, n.bucket address = some c ∧ c.burst = b.burst

theorem keptRefl (m : Module) : Kept m m := ⟨rfl,fun _ b live => ⟨b,live,rfl⟩⟩

theorem keptPut {m : Module} {address : Nat} {b c : Mytbf} (live : m.bucket address = some b)
    (same : c.burst = b.burst) : Kept m { m with bucket := update m.bucket address (some c) } := by
  refine ⟨rfl,fun other d found => ?_⟩
  by_cases here : other = address
  · subst here
    cases Option.some.inj (live.symm.trans found)
    exact ⟨c,updateSame _ _ _,same⟩
  · exact ⟨d,(updateOther _ _ here).trans found,rfl⟩

theorem keptSome {m n : Module} {address : Nat} (kept : Kept m n) (live : (m.bucket address).isSome = true) :
    (n.bucket address).isSome = true := by
  obtain ⟨b,found⟩ := Option.isSome_iff_exists.mp live
  obtain ⟨c,there,_⟩ := kept.bucket address b found
  rw [there]
  rfl

theorem keptCall {m n : Module} (kept : Kept m n) {pc : Pc} (call : Call m pc) : Call n pc := by
  cases pc with
  | returnLock address size =>
    obtain ⟨b,live,positive,small⟩ := call
    obtain ⟨c,there,same⟩ := kept.bucket address b live
    exact ⟨c,there,positive,by omega⟩
  | fetchLock address size => exact ⟨keptSome kept call.1,call.2⟩
  | fetchTest address size => exact ⟨keptSome kept call.1,call.2⟩
  | fetchWait address size => exact ⟨keptSome kept call.1,call.2⟩
  | fetchWoken address size => exact ⟨keptSome kept call.1,call.2⟩
  | fetchUnlock address => exact keptSome kept call
  | returnUnlock address => exact keptSome kept call
  | checkLock address => exact keptSome kept call
  | checkUnlock address => exact keptSome kept call
  | _ => exact call

theorem keptWalk {m n : Module} (kept : Kept m n) {h : Option Handler} (walk : Walk m h) : Walk n h := by
  cases h with
  | none => exact True.intro
  | some h =>
    cases h with
    | lockBucket i address => exact ⟨walk.1,by rw [kept.job]; exact walk.2⟩
    | unlockBucket i address => exact walk
    | _ => exact True.intro

inductive Spent (m : Module) : Module → Prop where
  | same : Spent m m
  | put (address : Nat) (b c : Mytbf) (live : m.bucket address = some b) (balanced : Balanced c) (rate : c.cps = b.cps)
      (depth : c.burst = b.burst) (slot : c.pos = b.pos) :
      Spent m { m with bucket := update m.bucket address (some c) }

theorem spentKept {m n : Module} (spent : Spent m n) : Kept m n := by
  cases spent with
  | same => exact keptRefl m
  | put address b c live balanced rate depth slot => exact keptPut live depth

theorem registeredSpent {m n : Module} (known : Registered m) (spent : Spent m n) : Registered n := by
  cases spent with
  | same => exact known
  | put address b c live balanced rate depth slot =>
    refine ⟨tablePut known.table live slot,updateSome ⟨balanced,?_⟩ fun other d _ => known.buckets other d⟩
    rw [rate]
    exact (known.buckets address b live).2

theorem stepSpent {s u : State} {t : Nat} (settled : Settled s) (step : Step s t (s.pc t) u) :
    Spent s.mod u.mod ∧ Call s.mod (u.pc t) := by
  have call := settled.calls t
  generalize s.pc t = pc at step call
  cases step with
  | initPlace cps burst pos free found => exact call.elim
  | initUnlock => exact call.elim
  | fetchLock address size free => exact ⟨.same,by simpa [Call] using call⟩
  | fetchSleep address size b live empty => exact ⟨.same,by simpa [Call] using call⟩
  | fetchTake address size n b c live got =>
    obtain ⟨_,_,_,_,balanced,rate,depth,slot⟩ := fetchSpec (settled.known.buckets address b live).1 call.2 got
    exact ⟨.put address b c live balanced rate depth slot,by simpa [Call] using call.1⟩
  | fetchWoken address size free => exact ⟨.same,by simpa [Call] using call⟩
  | fetchUnlock address => exact ⟨.same,by simp [Call]⟩
  | returnAdd address size b c live added free =>
    obtain ⟨d,found,positive,small⟩ := call
    cases Option.some.inj (live.symm.trans found)
    obtain ⟨e,made,balanced,rate,depth,slot,_⟩ := returnSpec (settled.known.buckets address b live).1 positive small
    cases Option.some.inj (added.symm.trans made)
    exact ⟨.put address b c live balanced rate depth slot,by simp [Call,live]⟩
  | returnUnlock address => exact ⟨.same,by simp [Call]⟩
  | checkLock address free => exact ⟨.same,by simpa [Call] using call⟩
  | checkUnlock address => exact ⟨.same,by simp [Call]⟩
  | destroyClear address b live free => exact call.elim
  | destroyUnlock address => exact call.elim
  | destroyFree address => exact call.elim

theorem handleSpent {s u : State} {t : Nat} {h : Handler} (settled : Settled s)
    (running : s.handler t = some h) (step : HandlerStep s t h u) :
    Spent s.mod u.mod ∧ Walk s.mod (u.handler t) := by
  have walk := settled.handlers t
  rw [running] at walk
  cases step with
  | lockJob free => exact ⟨.same,by simp [Walk]⟩
  | skip i inside empty => exact ⟨.same,by simp [Walk]⟩
  | slot i address inside registered => exact ⟨.same,by simpa [Walk] using ⟨inside,registered⟩⟩
  | done i past => exact ⟨.same,by simp [Walk]⟩
  | credit i address b c free live added =>
    obtain ⟨e,made,balanced,rate,depth,slot,_⟩ := creditSpec (settled.known.buckets address b live).1
    cases Option.some.inj (added.symm.trans made)
    exact ⟨.put address b c live balanced rate depth slot,by simpa [Walk] using walk.1⟩
  | unlockBucket i address => exact ⟨.same,by simp [Walk]⟩

theorem moveFrame {s u : State} {e : TimerThreads.Event} (move : Move s e u) {v : Nat} (other : v ≠ actor e) :
    u.pc v = s.pc v ∧ u.handler v = s.handler v := by
  cases move with
  | initNull t env cps burst m loaded => exact ⟨rfl,rfl⟩
  | step t u quiet made =>
    obtain ⟨handlers,calls⟩ := stepFrame made
    exact ⟨calls v other,by rw [handlers]⟩
  | handle t h u running made =>
    obtain ⟨calls,handlers⟩ := handlerFrame made
    exact ⟨by rw [calls],handlers v other⟩
  | alarm t quiet => exact ⟨rfl,updateOther _ _ other⟩
  | _ => exact ⟨updateOther _ _ other,rfl⟩

theorem moveSpent {s u : State} {e : TimerThreads.Event} (settled : Settled s) (served : serving e = true)
    (move : Move s e u) : Spent s.mod u.mod ∧ Call s.mod (u.pc (actor e)) ∧ Walk s.mod (u.handler (actor e)) := by
  cases move with
  | initNull t env cps burst m loaded => cases served
  | init t env cps burst m idle params loaded => cases served
  | destroy t address idle live => cases served
  | fetch t address size idle live wanted =>
    exact ⟨.same,by simpa [actor,Call] using ⟨live,wanted⟩,settled.handlers t⟩
  | giveBack t address size b live idle positive small =>
    exact ⟨.same,by simpa [actor,Call,live] using ⟨positive,small⟩,settled.handlers t⟩
  | check t address idle live => exact ⟨.same,by simpa [actor,Call] using live,settled.handlers t⟩
  | wake t address size asleep quiet =>
    have call := settled.calls t
    rw [asleep] at call
    exact ⟨.same,by simpa [actor,Call] using call,settled.handlers t⟩
  | step t u quiet made =>
    obtain ⟨spent,call⟩ := stepSpent settled made
    refine ⟨spent,call,?_⟩
    rw [(stepFrame made).1]
    exact settled.handlers t
  | alarm t quiet => exact ⟨.same,settled.calls t,by simp [actor,Walk]⟩
  | handle t h u running made =>
    obtain ⟨spent,walk⟩ := handleSpent settled running made
    refine ⟨spent,?_,walk⟩
    rw [(handlerFrame made).1]
    exact settled.calls t

theorem settledMove {s u : State} {e : TimerThreads.Event} (settled : Settled s) (served : serving e = true)
    (move : Move s e u) : Settled u := by
  obtain ⟨spent,call,walk⟩ := moveSpent settled served move
  have kept := spentKept spent
  refine ⟨registeredSpent settled.known spent,fun v => ?_,fun v => ?_⟩
  · by_cases mine : v = actor e
    · rw [mine]
      exact keptCall kept call
    · rw [(moveFrame move mine).1]
      exact keptCall kept (settled.calls v)
  · by_cases mine : v = actor e
    · rw [mine]
      exact keptWalk kept walk
    · rw [(moveFrame move mine).2]
      exact keptWalk kept (settled.handlers v)

theorem healthyMove {dead : Nat → Bool} {s u : State} {e : TimerThreads.Event} (healthy : Healthy dead s)
    (spared : Spared s e u) (served : serving e = true) (alive : dead (actor e) = false) (move : Move s e u) :
    Healthy dead u := by
  refine ⟨settledMove healthy.settled served move,calmMove healthy.calm spared move,fun v buried => ?_⟩
  have other : v ≠ actor e := by
    rintro rfl
    rw [alive] at buried
    contradiction
  obtain ⟨calls,handlers⟩ := moveFrame move other
  rw [calls,handlers]
  exact healthy.buried v buried

theorem registeredNext {m n : Module} {env : InitEnv} (known : Registered m) (step : registerNext m env = some n) :
    Registered n := by
  obtain ⟨⟨address,k⟩,made,last⟩ := Option.map_eq_some_iff.mp step
  simp only at last
  subst last
  have init := initSound made
  refine ⟨tableInit known.table init,?_⟩
  cases init with
  | null loaded =>
    rw [loaded.bucket]
    exact known.buckets
  | made loaded pos inside free =>
    have params : Params MediaLibrary.tbfCps MediaLibrary.tbfBurst := by decide
    have rate : 1 ≤ MediaLibrary.tbfCps := by decide
    have depth : 0 ≤ MediaLibrary.tbfBurst := by decide
    exact updateSome ⟨⟨params,Int.le_refl 0,depth⟩,rate⟩ fun other b _ => known.buckets other b

theorem registeredScan {envs : List InitEnv} {m : Module} (scan : scanned envs = some m) : Registered m := by
  have none_ : Registered unloaded := ⟨tableUnloaded,by simp [unloaded]⟩
  exact invariant none_ (fun _ _ _ known step => registeredNext known step) scan

theorem healthyStart {envs : List InitEnv} {m : Module} (scan : scanned envs = some m) :
    Healthy (start m).dead (start m).base := by
  have known := registeredScan scan
  exact ⟨⟨known,fun _ => True.intro,fun _ => True.intro⟩,calmStarted m,fun _ buried => by cases buried⟩

theorem healthyBurial {dead : Nat → Bool} {s : State} {t : Nat} (healthy : Healthy dead s) (idle : s.pc t = .outside)
    (quiet : s.handler t = none) : Healthy (update dead t true) s := by
  refine ⟨healthy.settled,healthy.calm,fun v buried => ?_⟩
  by_cases mine : v = t
  · rw [mine]
    exact ⟨idle,quiet⟩
  · rw [updateOther _ _ mine] at buried
    exact healthy.buried v buried

theorem healthyNext {threads : List Nat} {s u : Server} {e : Event} (healthy : Healthy s.dead s.base)
    (considerate : Considerate s e u) (step : next threads s e = some u) : Healthy u.dead u.base := by
  cases deedSound step with
  | base e v served alive top move =>
    refine healthyMove healthy ?_ served alive move
    rintro t rfl
    exact considerate.spared t rfl
  | terminate t u alive quiet burial =>
    have idle := considerate.awake t rfl
    cases burial with
    | outside _ => exact healthyBurial healthy idle quiet
    | waiting address size free stands =>
      rw [idle] at stands
      exact absurd stands (by simp)
  | _ => exact healthy

end IPv4Media.Cancellation
