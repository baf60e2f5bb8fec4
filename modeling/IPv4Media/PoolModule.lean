import IPv4Media.Library.CyclicStore
import IPv4Media.TimerLifeCycle

/-! The module state of the token pool design (mytbftokenpool.c) apart from the tokens:
its one load through pthread_once and its unloading at exit, and the fair queue. No
function of the file calls enqueue_tbf or dequeue_tbf; each is one critical section of
queue_mut, so calls of any threads come one after another. -/
namespace IPv4Media.PoolModule
open TokenBucket TimerModule Execution CyclicStore
open TimerLifeCycle (LifeCycle unloadEffect registeredOnce)

structure PoolEnv where
  once : Bool
  memory : Bool
  deriving DecidableEq, Repr

/- The bucket the call returns, none for NULL. exit leaves no module behind. -/
def mytbfInit (m : Module) (env : PoolEnv) (cps burst : Int) : Option (Option Nat × Module) := do
  let m ← pthreadOnce m env.once
  if env.memory then
    let pos ← getFreePosUnlocked m
    some (some m.allocated,{ m with
      job := update m.job pos (some m.allocated)
      bucket := update m.bucket m.allocated (some ⟨cps,burst,0,pos⟩)
      allocated := m.allocated + 1 })
  else some (none,m)

structure Call where
  env : PoolEnv
  cps : Int
  burst : Int
  deriving DecidableEq, Repr

def callNext (m : Module) (call : Call) : Option Module := (mytbfInit m call.env call.cps call.burst).map Prod.snd

structure Loaded (m : Module) : Prop where
  once : m.onceInit = true
  threads : m.threads = 1
  handlers : m.handlers = 1
  tid : m.tid = some 0
  quiet : ∀ t, m.cancels t = 0 ∧ m.joins t = 0
  frees : ∀ address, m.frees address = 0
  live : ∀ address, address < m.allocated → (m.bucket address).isSome = true
  table : Table m

def Lived (m : Module) : Prop := m = unloaded ∨ Loaded m

theorem onceLoads {m n : Module} {created : Bool} (lived : Lived m) (h : pthreadOnce m created = some n) : Loaded n := by
  rcases lived with fresh | loaded
  · subst fresh
    rw [pthreadOnce,if_neg (by simp [unloaded]),moduleLoad] at h
    obtain ⟨k,load,rfl⟩ := Option.map_eq_some_iff.mp h
    split at load <;> try contradiction
    cases Option.some.inj load
    refine ⟨rfl,rfl,rfl,rfl,fun _ => ⟨rfl,rfl⟩,fun _ => rfl,fun _ below => absurd below (Nat.not_lt_zero _),?_⟩
    exact ⟨tableUnloaded.slot,tableUnloaded.own,tableUnloaded.bound⟩
  · rw [pthreadOnce,if_pos loaded.once] at h
    cases Option.some.inj h
    exact loaded

theorem tableNew {m : Module} {pos : Nat} (table : Table m) (once : m.onceInit = true) (inside : pos < mytbfMax)
    (free : m.job pos = none) (cps burst : Int) : Table { m with
      job := update m.job pos (some m.allocated)
      bucket := update m.bucket m.allocated (some ⟨cps,burst,0,pos⟩)
      allocated := m.allocated + 1 } := by
  have loads : TimerModule.Loaded m
      { m with threads := m.threads + 1, handlers := m.handlers + 1, tid := some m.threads } :=
    ⟨rfl,rfl,rfl,rfl,rfl,rfl,once,by simp [once],by simp [once],by simp⟩
  have made := tableInit table (@InitStep.made m cps burst _ loads pos inside free)
  exact ⟨made.slot,made.own,made.bound⟩

theorem initLoaded {m n : Module} {env : PoolEnv} {cps burst : Int} {address : Option Nat} (lived : Lived m)
    (h : mytbfInit m env cps burst = some (address,n)) : Loaded n := by
  simp only [mytbfInit,Option.bind_eq_bind] at h
  obtain ⟨k,once,h⟩ := Option.bind_eq_some_iff.mp h
  have loaded := onceLoads lived once
  split at h
  · obtain ⟨pos,found,last⟩ := Option.bind_eq_some_iff.mp h
    obtain ⟨inside,free⟩ := getFreePosSound found
    obtain ⟨_,rfl⟩ := Prod.mk.inj (Option.some.inj last)
    refine ⟨loaded.once,loaded.threads,loaded.handlers,loaded.tid,loaded.quiet,loaded.frees,?_,
      tableNew loaded.table loaded.once inside free cps burst⟩
    intro address below
    simp only at below
    by_cases new : address = k.allocated
    · simp only [new,updateSame,Option.isSome_some]
    · simp only [updateOther _ _ new]
      exact loaded.live address (by omega)
  · obtain ⟨_,rfl⟩ := Prod.mk.inj (Option.some.inj h)
    exact loaded

theorem livedRun {calls : List Call} {m : Module} (run : exec callNext unloaded calls = some m) :
    calls = [] ∧ m = unloaded ∨ calls ≠ [] ∧ Loaded m := by
  refine history (I := fun calls m => calls = [] ∧ m = unloaded ∨ calls ≠ [] ∧ Loaded m) (.inl ⟨rfl,rfl⟩) ?_ run
  intro calls m call n lived step
  obtain ⟨⟨address,k⟩,made,rfl⟩ := Option.map_eq_some_iff.mp step
  exact .inr ⟨by simp,initLoaded (lived.imp And.right And.right) made⟩

/- Any calls of mytbf_init, then process exit: one alarm thread was created and is cancelled
and joined once, and every bucket is freed once. The other mytbf_init has this for no
history (TimerLifeCycle). -/
theorem poolLifeCycle {calls : List Call} {m : Module} (run : exec callNext unloaded calls = some m)
    (used : calls ≠ []) : LifeCycle m ∧ ∀ address, address < m.allocated → (processExit m).frees address = 1 := by
  have loaded : Loaded m := by
    rcases livedRun run with none_ | some_
    · exact absurd none_.1 used
    · exact some_.2
  obtain ⟨threads,stops,frees⟩ := unloadEffect m.handlers m
  have freed : ∀ i address, m.job i = some address → (processExit m).frees address = 1 := by
    intro i address slot
    rw [processExit,frees,registeredOnce loaded.table slot,loaded.frees,loaded.handlers]
  refine ⟨⟨threads.trans loaded.threads,?_,fun i _ => freed i,?_⟩,?_⟩
  · intro t below
    rw [processExit,threads,loaded.threads] at below
    obtain ⟨cancels,joins⟩ := stops t
    obtain ⟨noCancel,noJoin⟩ := loaded.quiet t
    have zero : t = 0 := by omega
    rw [processExit,cancels,joins,noCancel,noJoin,loaded.handlers,loaded.tid,zero]
    exact ⟨rfl,rfl⟩
  · intro address below gone
    have live := loaded.live address below
    rw [gone] at live
    contradiction
  · intro address below
    obtain ⟨b,live⟩ := Option.isSome_iff_exists.mp (loaded.live address below)
    exact freed b.pos address (loaded.table.own address b live).1

theorem threeBuckets : ∃ m, exec callNext unloaded
    [⟨⟨true,true⟩,5,10⟩,⟨⟨true,true⟩,7,70⟩,⟨⟨true,false⟩,1,1⟩,⟨⟨false,true⟩,9,90⟩] = some m ∧ m.allocated = 3 ∧
    LifeCycle m ∧ ∀ address, address < m.allocated → (processExit m).frees address = 1 :=
  ⟨_,rfl,rfl,@poolLifeCycle [⟨⟨true,true⟩,5,10⟩,⟨⟨true,true⟩,7,70⟩,⟨⟨true,false⟩,1,1⟩,⟨⟨false,true⟩,9,90⟩] _ rfl (by simp)⟩

/- A pointer is none for NULL. -/
structure FairQueue where
  fairQueue : Nat → Option Nat
  head : Nat
  tail : Nat
  size : Nat

def emptyQueue : FairQueue := ⟨fun _ => none,0,0,0⟩

def enqueueTbf (q : FairQueue) (tbf : Nat) : FairQueue :=
  if q.size < mytbfMax then
    ⟨update q.fairQueue q.tail (some tbf),q.head,(q.tail + 1) % mytbfMax,q.size + 1⟩
  else q

def dequeueTbf (q : FairQueue) : Option Nat × FairQueue :=
  if q.size > 0 then (q.fairQueue q.head,{ q with head := (q.head + 1) % mytbfMax, size := q.size - 1 })
  else (none,q)

inductive QueueCall where
  | enqueue (tbf : Nat)
  | dequeue
  deriving DecidableEq, Repr

structure Queued where
  queue : FairQueue
  returned : List (Option Nat)

def queueStart : Queued := ⟨emptyQueue,[]⟩

def queueNext (s : Queued) : QueueCall → Option Queued
  | .enqueue tbf => some { s with queue := enqueueTbf s.queue tbf }
  | .dequeue => some ⟨(dequeueTbf s.queue).2,s.returned ++ [(dequeueTbf s.queue).1]⟩

structure Line where
  waiting : List (Option Nat)
  returned : List (Option Nat)

def lineNext (s : Line) : QueueCall → Option Line
  | .enqueue tbf => some (if s.waiting.length < mytbfMax then { s with waiting := s.waiting ++ [some tbf] } else s)
  | .dequeue => some ⟨s.waiting.tail,s.returned ++ [s.waiting.head?.join]⟩

def waiting (q : FairQueue) : List (Option Nat) := window mytbfMax q.fairQueue q.head q.size

def lineOf (s : Queued) : Line := ⟨waiting s.queue,s.returned⟩

structure InRange (q : FairQueue) : Prop where
  head : q.head < mytbfMax
  size : q.size ≤ mytbfMax
  tail : q.tail = (q.head + q.size) % mytbfMax

theorem maxPositive : 0 < mytbfMax := by decide

theorem emptyInRange : InRange emptyQueue := ⟨maxPositive,Nat.zero_le _,(Nat.zero_mod _).symm⟩

theorem placeOne (data : Nat → Option Nat) (i : Nat) (v : Option Nat) : place data i [v] = update data i v := by
  funext j
  by_cases here : j = i
  · subst here
    simp [place]
  · rw [updateOther _ _ here]
    exact placeOutside data (by simp only [List.length_singleton]; omega)

theorem enqueueWaits {q : FairQueue} (range : InRange q) (tbf : Nat) (room : q.size < mytbfMax) :
    InRange (enqueueTbf q tbf) ∧ waiting (enqueueTbf q tbf) = waiting q ++ [some tbf] := by
  have head := range.head
  have inside : (q.head + q.size) % mytbfMax < mytbfMax := Nat.mod_lt _ maxPositive
  rw [enqueueTbf,if_pos room]
  refine ⟨⟨head,room,?_⟩,?_⟩
  · simp only [range.tail]
    rw [Nat.mod_add_mod]
    rfl
  · have appended := @appendStraight _ mytbfMax q.head q.size q.fairQueue [some tbf] head
      (by rw [List.length_singleton]; omega) (by rw [List.length_singleton]; omega)
    rw [placeOne,← range.tail] at appended
    exact appended

theorem dequeueWaits {q : FairQueue} (range : InRange q) (some_ : 0 < q.size) :
    InRange (dequeueTbf q).2 ∧ waiting q = (dequeueTbf q).1 :: waiting (dequeueTbf q).2 := by
  have head := range.head
  have size := range.size
  rw [dequeueTbf,if_pos some_]
  refine ⟨⟨Nat.mod_lt _ maxPositive,by simp only; omega,?_⟩,?_⟩
  · simp only [range.tail]
    rw [Nat.mod_add_mod]
    congr 1
    omega
  · exact @takeStraight _ mytbfMax q.head q.size 1 q.fairQueue some_ head

theorem queueKeeps {s t : Queued} {call : QueueCall} (range : InRange s.queue) (step : queueNext s call = some t) :
    InRange t.queue := by
  cases call with
  | enqueue tbf =>
    cases Option.some.inj step
    by_cases room : s.queue.size < mytbfMax
    · exact (enqueueWaits range tbf room).1
    · simp only [enqueueTbf,if_neg room]
      exact range
  | dequeue =>
    cases Option.some.inj step
    by_cases some_ : 0 < s.queue.size
    · exact (dequeueWaits range some_).1
    · have same : dequeueTbf s.queue = (none,s.queue) := if_neg some_
      rw [same]
      exact range

theorem queueLine (s : Queued) (call : QueueCall) (range : InRange s.queue) :
    (queueNext s call).map lineOf = lineNext (lineOf s) call := by
  have length : (waiting s.queue).length = s.queue.size := windowLength _ _ _ _
  cases call with
  | enqueue tbf =>
    by_cases room : s.queue.size < mytbfMax
    · have line := (enqueueWaits range tbf room).2
      simp only [queueNext,Option.map_some,lineOf,lineNext,length,if_pos room,line]
    · simp only [queueNext,Option.map_some,lineOf,lineNext,length,if_neg room,enqueueTbf]
  | dequeue =>
    by_cases some_ : 0 < s.queue.size
    · have line := (dequeueWaits range some_).2
      simp only [queueNext,Option.map_some,lineOf,lineNext,line,List.tail_cons,List.head?_cons,Option.join_some]
    · have none_ : waiting s.queue = [] := List.eq_nil_of_length_eq_zero (by omega)
      simp only [queueNext,dequeueTbf,gt_iff_lt,if_neg some_,Option.map_some,lineOf,lineNext,none_,List.tail_nil,
        List.head?_nil,Option.join_none]

def enqueued : QueueCall → Option Nat
  | .enqueue tbf => some tbf
  | .dequeue => none

def through (s : Queued) : List Nat := (s.returned ++ waiting s.queue).filterMap id

theorem throughStep {s t : Queued} {call : QueueCall} (range : InRange s.queue) (step : queueNext s call = some t) :
    (through t).Sublist (through s ++ (enqueued call).toList) := by
  cases call with
  | enqueue tbf =>
    cases Option.some.inj step
    by_cases room : s.queue.size < mytbfMax
    · have line := (enqueueWaits range tbf room).2
      simp [through,line,enqueued]
    · have same : enqueueTbf s.queue tbf = s.queue := if_neg room
      simp only [same]
      exact List.sublist_append_left _ _
  | dequeue =>
    cases Option.some.inj step
    by_cases some_ : 0 < s.queue.size
    · have line := (dequeueWaits range some_).2
      have same : (s.returned ++ [(dequeueTbf s.queue).1]) ++ waiting (dequeueTbf s.queue).2 =
          s.returned ++ waiting s.queue := by
        rw [List.append_assoc,List.singleton_append,← line]
      rw [through,same]
      exact List.sublist_append_left _ _
    · have same : dequeueTbf s.queue = (none,s.queue) := if_neg some_
      simp [through,same,enqueued]

/- Buckets come out in the order they went in, and only one for which the queue was full is
missing among them. -/
theorem fairQueueLine (calls : List QueueCall) :
    (exec queueNext queueStart calls).map lineOf = exec lineNext ⟨[],[]⟩ calls ∧
    ∀ s, exec queueNext queueStart calls = some s → InRange s.queue ∧ (through s).Sublist (calls.filterMap enqueued) := by
  constructor
  · exact execMap (I := fun s : Queued => InRange s.queue) (fun _ _ _ => queueKeeps) queueLine emptyInRange calls
  · intro s run
    refine history (I := fun calls s => InRange s.queue ∧ (through s).Sublist (calls.filterMap enqueued))
      ⟨emptyInRange,List.Sublist.refl _⟩ ?_ run
    intro calls s call t kept step
    refine ⟨queueKeeps kept.1 step,(throughStep kept.1 step).trans ?_⟩
    rw [List.filterMap_append,show [call].filterMap enqueued = (enqueued call).toList by cases call <;> rfl]
    exact kept.2.append (List.Sublist.refl _)

end IPv4Media.PoolModule
