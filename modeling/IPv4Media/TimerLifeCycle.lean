import Mathlib.Data.List.Nodup
import IPv4Media.Library.Execution
import IPv4Media.TimerModule

/-! Whole histories of mytbf_init and mytbf_destroy calls that return, closed by
process exit. mytbf_init loads the module by a direct call and again through
pthread_once, so each bucket brings one more thread and one more exit handler. -/
namespace IPv4Media.TimerLifeCycle
open TokenBucket TimerModule Execution

inductive Call where
  | init (env : InitEnv) (cps burst : Int)
  | destroy (address : Nat)
  deriving DecidableEq, Repr

def callNext (m : Module) : Call → Option Module
  | .init env cps burst => (mytbfInit m env cps burst).map Prod.snd
  | .destroy address => mytbfDestroy m address

def Call.isInit : Call → Bool
  | .init .. => true
  | .destroy _ => false

def inits (calls : List Call) : Nat := calls.countP Call.isInit

-- 0 before the first init, then one more than the number of inits.
def loads (calls : List Call) : Nat := if inits calls = 0 then 0 else inits calls + 1

structure Lived (calls : List Call) (m : Module) : Prop where
  table : Table m
  once : m.onceInit = decide (0 < inits calls)
  threads : m.threads = loads calls
  handlers : m.handlers = loads calls
  tid : 0 < loads calls → m.tid = some (loads calls - 1)
  quiet : ∀ t, m.cancels t = 0 ∧ m.joins t = 0
  live : ∀ address, m.bucket address ≠ none → m.frees address = 0
  dead : ∀ address < m.allocated, m.bucket address = none → m.frees address = 1
  future : ∀ address, m.allocated ≤ address → m.frees address = 0

theorem initsSnoc (calls : List Call) (c : Call) :
    inits (calls ++ [c]) = inits calls + if c.isInit then 1 else 0 := by
  simp [inits,List.countP_append]

theorem livedUnloaded : Lived [] unloaded :=
  ⟨tableUnloaded,rfl,rfl,rfl,by simp [loads,inits],fun _ => ⟨rfl,rfl⟩,fun _ _ => rfl,
    fun address h => by simp [unloaded] at h,fun _ _ => rfl⟩

theorem livedLoads {calls m n} (env : InitEnv) (cps burst : Int) (lived : Lived calls m) (loaded : Loaded m n) :
    n.threads = loads (calls ++ [.init env cps burst]) ∧
    n.handlers = loads (calls ++ [.init env cps burst]) ∧
    n.tid = some (loads (calls ++ [.init env cps burst]) - 1) := by
  have count : inits (calls ++ [.init env cps burst]) = inits calls + 1 := initsSnoc _ _
  have now : loads (calls ++ [.init env cps burst]) = inits calls + 2 := by simp [loads,count]
  have threads := loaded.threads
  have handlers := loaded.handlers
  have oldThreads := lived.threads
  have oldHandlers := lived.handlers
  simp only [loads] at oldThreads oldHandlers
  rw [lived.once] at threads handlers
  have both : n.threads = inits calls + 2 ∧ n.handlers = inits calls + 2 := by
    by_cases first : inits calls = 0
    · simp [first] at threads handlers oldThreads oldHandlers
      omega
    · simp [first,Nat.pos_of_ne_zero first] at threads handlers oldThreads oldHandlers
      omega
  rw [now]
  exact ⟨both.1,both.2,by rw [loaded.tid,both.1]⟩

theorem livedInit {calls m n env cps burst address} (lived : Lived calls m)
    (step : InitStep m cps burst address n) : Lived (calls ++ [.init env cps burst]) n := by
  have table := tableInit lived.table step
  have once : decide (0 < inits (calls ++ [.init env cps burst])) = true := by
    simp [initsSnoc,Call.isInit]
  cases step with
  | null loaded =>
    obtain ⟨threads,handlers,tid⟩ := livedLoads env cps burst lived loaded
    refine ⟨table,loaded.once.trans once.symm,threads,handlers,fun _ => tid,?_,?_,?_,?_⟩
    · rw [loaded.cancels,loaded.joins]; exact lived.quiet
    · rw [loaded.bucket,loaded.frees]; exact lived.live
    · rw [loaded.allocated,loaded.bucket,loaded.frees]; exact lived.dead
    · rw [loaded.allocated,loaded.frees]; exact lived.future
  | @made k loaded pos inside free =>
    obtain ⟨threads,handlers,tid⟩ := livedLoads env cps burst lived loaded
    refine ⟨table,loaded.once.trans once.symm,threads,handlers,fun _ => tid,?_,?_,?_,?_⟩
    · simp only [loaded.cancels,loaded.joins]; exact lived.quiet
    · intro address live
      simp only [loaded.frees]
      by_cases new : address = m.allocated
      · subst new
        exact lived.future _ (Nat.le_refl _)
      · simp only [updateOther _ _ new] at live
        exact lived.live address live
    · intro address below dead
      simp only [loaded.frees]
      by_cases new : address = m.allocated
      · subst new
        simp only [updateSame] at dead
        contradiction
      · simp only [updateOther _ _ new] at dead
        exact lived.dead address (by simp only at below; omega) dead
    · intro address past
      simp only [loaded.frees]
      exact lived.future address (by simp only at past; omega)

theorem livedDestroy {calls m n address} (lived : Lived calls m) (step : mytbfDestroy m address = some n) :
    Lived (calls ++ [.destroy address]) n := by
  have table := tableDestroy lived.table step
  have count : inits (calls ++ [.destroy address]) = inits calls := initsSnoc _ _
  have same : loads (calls ++ [.destroy address]) = loads calls := by simp only [loads,count]
  obtain ⟨b,found,rfl⟩ := destroySound step
  refine ⟨table,by rw [count]; exact lived.once,by rw [same]; exact lived.threads,
    by rw [same]; exact lived.handlers,by rw [same]; exact lived.tid,lived.quiet,?_,?_,?_⟩
  · intro other live
    obtain ⟨c,found⟩ := Option.ne_none_iff_exists'.mp live
    obtain ⟨apart,alive⟩ := updateNone found
    simp only [updateOther _ _ apart]
    exact lived.live other (by rw [alive]; simp)
  · intro other below dead
    by_cases gone : other = address
    · subst gone
      have zero := lived.live other (by rw [found]; simp)
      simp [zero]
    · simp only [updateOther _ _ gone] at dead ⊢
      exact lived.dead other below dead
  · intro other past
    have apart : other ≠ address := by
      rintro rfl
      rw [lived.table.bound _ past] at found
      contradiction
    simp only [updateOther _ _ apart]
    exact lived.future other past

theorem livedRun {calls m} (run : exec callNext unloaded calls = some m) : Lived calls m := by
  refine history (I := Lived) livedUnloaded ?_ run
  intro calls m call n lived step
  cases call with
  | init env cps burst =>
    obtain ⟨⟨address,k⟩,made,same⟩ := Option.map_eq_some_iff.mp step
    cases same
    exact livedInit lived (initSound made)
  | destroy address => exact livedDestroy lived step

theorem unloadEffect (k : Nat) (m : Module) :
    (unloadTimes k m).threads = m.threads ∧
    (∀ t, (unloadTimes k m).cancels t = m.cancels t + k * (if m.tid = some t then 1 else 0) ∧
      (unloadTimes k m).joins t = m.joins t + k * (if m.tid = some t then 1 else 0)) ∧
    ∀ address, (unloadTimes k m).frees address = m.frees address + k * registeredIn m.job address := by
  induction k generalizing m with
  | zero => simp [unloadTimes]
  | succ k ih =>
    obtain ⟨threads,stops,frees⟩ := ih (moduleUnload m)
    refine ⟨threads,?_,?_⟩
    · intro t
      obtain ⟨cancels,joins⟩ := stops t
      change _ = m.cancels t + _ + k * (if m.tid = some t then 1 else 0) at cancels
      change _ = m.joins t + _ + k * (if m.tid = some t then 1 else 0) at joins
      rw [unloadTimes,cancels,joins]
      by_cases last : m.tid = some t
      · simp only [if_pos last]
        omega
      · simp only [if_neg last]
        omega
    · intro address
      rw [unloadTimes,frees]
      simp only [moduleUnload,Nat.add_mul,Nat.one_mul]
      omega

theorem registeredOnce {m : Module} (table : Table m) {i address : Nat} (slot : m.job i = some address) :
    registeredIn m.job address = 1 := by
  obtain ⟨b,live,at_⟩ := table.slot i address slot
  have inside := (table.own address b live).2
  rw [at_] at inside
  have only : ∀ j ∈ List.range mytbfMax, (m.job j == some address) = true ↔ (j == i) = true := by
    intro j _
    simp only [beq_iff_eq]
    constructor
    · intro other
      obtain ⟨c,same,atOther⟩ := table.slot j address other
      rw [live] at same
      cases Option.some.inj same
      exact atOther.symm.trans at_
    · rintro rfl
      exact slot
  rw [registeredIn,List.countP_congr only]
  exact List.count_eq_one_of_mem List.nodup_range (List.mem_range.mpr inside)

/- What the code does at exit instead: the thread created last is cancelled and
joined once for every handler, no other thread is, and a bucket that is still
registered is freed once for every handler. -/
theorem exitEffect {calls m} (run : exec callNext unloaded calls = some m) :
    (processExit m).threads = loads calls ∧
    (∀ t, (processExit m).cancels t = (processExit m).joins t ∧
      (processExit m).joins t = if 0 < loads calls ∧ t + 1 = loads calls then loads calls else 0) ∧
    (∀ i address, m.job i = some address → (processExit m).frees address = loads calls) ∧
    ∀ address < m.allocated, m.bucket address = none → (processExit m).frees address = 1 := by
  have lived := livedRun run
  obtain ⟨threads,stops,frees⟩ := unloadEffect m.handlers m
  refine ⟨threads.trans lived.threads,?_,?_,?_⟩
  · intro t
    obtain ⟨cancels,joins⟩ := stops t
    obtain ⟨noCancel,noJoin⟩ := lived.quiet t
    rw [processExit,cancels,joins,noCancel,noJoin,lived.handlers]
    refine ⟨rfl,?_⟩
    by_cases some_ : 0 < loads calls
    · rw [lived.tid some_]
      by_cases last : t + 1 = loads calls
      · have same : loads calls - 1 = t := by omega
        simp [some_,last,same]
      · have other : loads calls - 1 ≠ t := by omega
        simp [last,other]
    · have none_ : loads calls = 0 := by omega
      simp [none_]
  · intro i address slot
    obtain ⟨b,live,_⟩ := lived.table.slot i address slot
    rw [processExit,frees,registeredOnce lived.table slot,lived.live address (by rw [live]; simp),
      lived.handlers]
    omega
  · intro address below dead
    have nowhere : registeredIn m.job address = 0 := by
      rw [registeredIn,List.countP_eq_zero]
      intro i _ slot
      obtain ⟨b,live,_⟩ := lived.table.slot i address (beq_iff_eq.mp slot)
      cases dead.symm.trans live
    rw [processExit,frees,nowhere,lived.dead address below dead]
    omega

structure LifeCycle (m : Module) : Prop where
  oneThread : (processExit m).threads = 1
  stopped : ∀ t < (processExit m).threads, (processExit m).cancels t = 1 ∧ (processExit m).joins t = 1
  registered : ∀ i < mytbfMax, ∀ address, m.job i = some address → (processExit m).frees address = 1
  destroyed : ∀ address < m.allocated, m.bucket address = none → (processExit m).frees address = 1

theorem lifeCycleNever {calls m} (run : exec callNext unloaded calls = some m)
    (used : ∃ call ∈ calls, call.isInit = true) : ¬ LifeCycle m := by
  intro cycle
  have threads := (exitEffect run).1
  have some_ : 0 < inits calls := List.countP_pos_iff.mpr used
  have one := cycle.oneThread
  rw [threads,loads,if_neg (by omega)] at one
  omega

def goodEnv : InitEnv := ⟨true,true,true⟩

theorem lifeCycleNeverOnce : ∃ m, exec callNext unloaded [.init goodEnv 40960 204800] = some m ∧ ¬ LifeCycle m :=
  ⟨_,rfl,@lifeCycleNever [.init goodEnv 40960 204800] _ rfl ⟨_,List.mem_singleton_self _,rfl⟩⟩

/- The first channel of the server: two threads and two handlers for one bucket. -/
theorem oneInitTwoThreads : ∃ m, exec callNext unloaded [.init goodEnv 40960 204800] = some m ∧
    (processExit m).threads = 2 ∧ (processExit m).joins 1 = 2 ∧ ¬ LifeCycle m := by
  refine ⟨_,rfl,rfl,rfl,?_⟩
  intro cycle
  exact absurd cycle.oneThread (by decide)

end IPv4Media.TimerLifeCycle
