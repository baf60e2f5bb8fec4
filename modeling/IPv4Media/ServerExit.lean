import IPv4Media.CleanExit
import IPv4Media.StartUp

/-! The server from main to exit(0), daemon_exit step by step among the threads that main
has started: one mutex operation, cancel or join at a time, and SIGALRM at any of them.
thr_list_destroy comes first, then thr_channel_destroyall slot by slot, and when
mlib_freechnlist frees the list nobody is left that could read it. -/
namespace IPv4Media.ServerExit
open ChannelIds ChannelRegistry MediaLibrary StartUp Execution Cancellation CleanExit
open TimerModule (InitEnv Module mytbfInit update updateSame updateOther)
open Proto (channum minchnid)

variable {φ : Type}

def named (s : Registry) (i : Nat) : Option Nat :=
  if (s.thrChannel i).chnid > 0 then (s.thrChannel i).tid else none

def destroyOrder (s : Registry) : List Nat := (List.range' 0 channum).filterMap (named s)

theorem namedSweep (s : Registry) {i j : Nat} (other : j ≠ i) : named (sweep s i) j = named s j := by
  have same : (sweep s i).thrChannel j = s.thrChannel j := by
    unfold sweep
    split
    · exact updateOther _ _ other
    · rfl
  rw [named,same,named]

theorem sweepJoins (s : Registry) (i t : Nat) :
    (sweep s i).joins t = s.joins t + if named s i = some t then 1 else 0 := by
  unfold sweep named
  split <;> rfl

theorem destroyJoined (n i : Nat) (s : Registry) (t : Nat) :
    (destroyallFrom n i s).joins t = s.joins t + ((List.range' i n).filterMap (named s)).count t := by
  induction n generalizing i s with
  | zero => rfl
  | succ n ih =>
    have later : (List.range' (i+1) n).filterMap (named (sweep s i)) = (List.range' (i+1) n).filterMap (named s) := by
      refine List.filterMap_congr fun j member => namedSweep s ?_
      have past := (List.mem_range'_1.mp member).1
      omega
    rw [destroyallNext,ih,later,sweepJoins,List.range'_succ,List.filterMap_cons,Nat.add_assoc]
    cases here : named s i with
    | none => simp
    | some u =>
      by_cases same : u = t
      · simp [same,Nat.add_comm]
      · simp [same]

/- Thread numbers: main has 0, the list thread 1, then come those of thr_channel[]. -/
def listThread : Nat := 1
def channelThread (t : Nat) : Nat := t + 2

/- What daemon_exit cancels and joins; none where thr_list_destroy would cancel a list
thread that was never made, which main does not check. -/
def exitOrder (s : Running φ) : Option (List Nat) :=
  if s.listThread then some (listThread :: (destroyOrder s.registry).map channelThread) else none

theorem rangeBelow (n m : Nat) :
    (List.range m).filterMap (fun i => if i < n then some i else none) = List.range (min m n) := by
  induction m with
  | zero => simp
  | succ m ih =>
    rw [List.range_succ,List.filterMap_append,ih]
    by_cases below : m < n
    · rw [Nat.min_eq_left (by omega),Nat.min_eq_left (by omega),List.range_succ]
      simp [below]
    · rw [Nat.min_eq_right (by omega),Nat.min_eq_right (by omega)]
      simp [below]

theorem startedOrder {entries : List MlibListentry} {s : Registry} (started : Started entries s) :
    destroyOrder s = List.range entries.length := by
  have size : s.threads.length = entries.length := by rw [started.threads,List.length_map]
  have room := started.registered.room
  have each : named s = fun i => if i < entries.length then some i else none := by
    funext i
    have used := slotUsed started.registered i
    rw [size] at used
    by_cases inside : i < entries.length
    · rw [named,if_pos inside,if_pos (used.mpr inside)]
      exact slotOwn started.registered i (used.mpr inside)
    · rw [named,if_neg inside,if_neg fun below => inside (used.mp below)]
  rw [destroyOrder,each,← List.range_eq_range',rangeBelow,Nat.min_eq_right (by omega)]

theorem entryRegisters {lib lib' : MediaLib φ} {d : MediaDir φ} {res : Option (Playlist.ChannelContext φ)}
    (h : path2entry lib d = some (res,lib')) : ∃ envs, exec registerNext lib.mod envs = some lib'.mod := by
  unfold path2entry at h
  split at h
  · cases Option.some.inj h
    exact ⟨[],rfl⟩
  · split at h
    · obtain ⟨⟨tbf,mod⟩,made,h⟩ := Option.bind_eq_some_iff.mp h
      have step : exec registerNext lib.mod [d.init] = some mod := by
        rw [execCons,registerNext,made]
        rfl
      refine ⟨[d.init],step.trans ?_⟩
      cases tbf with
      | none => cases Option.some.inj h; rfl
      | some tbf =>
        simp only at h
        split at h
        · cases Option.some.inj h; rfl
        · split at h <;> cases Option.some.inj h <;> rfl
    · cases Option.some.inj h
      exact ⟨[],rfl⟩

theorem scanRegisters {lib : MediaLib φ} {dirs : List (MediaDir φ)} {r : Scanned φ} (h : scan lib dirs = some r) :
    ∃ envs, exec registerNext lib.mod envs = some r.lib.mod := by
  induction dirs generalizing lib r with
  | nil =>
    cases Option.some.inj h
    exact ⟨[],rfl⟩
  | cons d dirs ih =>
    unfold scan at h
    obtain ⟨⟨res,mid⟩,entered,h⟩ := Option.bind_eq_some_iff.mp h
    obtain ⟨first,made⟩ := entryRegisters entered
    have rest : ∃ envs, exec registerNext mid.mod envs = some r.lib.mod := by
      cases res with
      | none => exact ih h
      | some me =>
        obtain ⟨tail,scanned,last⟩ := Option.bind_eq_some_iff.mp h
        cases Option.some.inj last
        have onward := ih scanned
        exact onward
    obtain ⟨envs,later⟩ := rest
    exact ⟨first ++ envs,by rw [execAppend,made]; exact later⟩

theorem mainScanned {w : World φ} {opts : List (Char × String)} {s : Running φ} {dirs : List (MediaDir φ)}
    (source : MainSource w opts s) (globbed : w.globbed s.conf.mediaDir = some dirs) :
    ∃ envs, scanned envs = some s.scanned.lib.mod := by
  have called := source.scan
  rw [globbed] at called
  obtain ⟨r,h,last⟩ := Option.bind_eq_some_iff.mp called
  obtain ⟨_,rfl⟩ := Prod.mk.inj (Option.some.inj last)
  exact scanRegisters h

section Joins

variable {threads joined : List Nat} {s u : Server}

def joinedNow (s : Server) (e : Cancellation.Event) (_ : Server) (joined : List Nat) : List Nat :=
  match e, s.exit with
  | .exitStep, .join t _ => joined ++ [t]
  | _, _ => joined

def joinedThreads (threads : List Nat) (s : Server) (events : List Cancellation.Event) : List Nat :=
  carry (Cancellation.next threads) joinedNow s events []

def Remaining (threads joined : List Nat) : Exit → Prop
  | .running => joined = []
  | .cancel rest => joined ++ rest = threads
  | .join t rest => joined ++ t :: rest = threads
  | .exited => joined = threads

structure Ordered (threads : List Nat) (s : Server) (joined : List Nat) : Prop where
  remaining : Remaining threads joined s.exit
  joining : Joining s
  gone : ∀ t ∈ joined, s.cancelled t = true ∧ s.dead t = true

theorem goneMore (gone : ∀ t ∈ joined, s.cancelled t = true ∧ s.dead t = true)
    (asked : ∀ t, s.cancelled t = true → u.cancelled t = true)
    (buried : ∀ t, s.dead t = true → u.dead t = true) :
    ∀ t ∈ joined, u.cancelled t = true ∧ u.dead t = true :=
  fun t member => ⟨asked t (gone t member).1,buried t (gone t member).2⟩

theorem updateMore {f : Nat → Bool} (t v : Nat) (on : f v = true) : update f t true v = true := by
  by_cases same : v = t
  · rw [same]
    exact updateSame _ _ _
  · rw [updateOther _ _ same]
    exact on

theorem orderedNext {e : Cancellation.Event} (ordered : Ordered threads s joined)
    (step : Cancellation.next threads s e = some u) : Ordered threads u (joinedNow s e u joined) := by
  have ⟨remaining,_,gone⟩ := ordered
  have joining := joiningNext ordered.joining step
  cases deedSound step with
  | base e v served alive top move => exact ⟨remaining,joining,gone⟩
  | cancel t => exact ⟨remaining,joining,goneMore gone (updateMore t) fun _ there => there⟩
  | terminate t u alive quiet burial =>
    cases burial with
    | outside idle => exact ⟨remaining,joining,goneMore gone (fun _ there => there) (updateMore t)⟩
    | waiting address size free stands =>
      exact ⟨remaining,joining,goneMore gone (fun _ there => there) (updateMore t)⟩
  | daemonExit running =>
    rw [running] at remaining
    obtain rfl : joined = [] := remaining
    exact ⟨rfl,joining,by simp [joinedNow]⟩
  | finish last turn =>
    rw [last] at remaining
    have all : joined = threads := (List.append_nil joined).symm.trans remaining
    simp only [joinedNow,last]
    exact ⟨all,joining,gone⟩
  | ask t rest first turn =>
    rw [first] at remaining
    simp only [joinedNow,first]
    exact ⟨remaining,joining,goneMore gone (updateMore t) fun _ there => there⟩
  | joined t rest waits dead turn =>
    have asked := ordered.joining t rest waits
    rw [waits] at remaining
    simp only [joinedNow,waits]
    refine ⟨?_,joining,?_⟩
    · rw [Remaining,List.append_assoc]
      exact remaining
    · intro v member
      rcases List.mem_append.mp member with before | now
      · exact gone v before
      · rw [List.mem_singleton.mp now]
        exact ⟨asked,dead⟩

theorem orderedRun {mod : Module} {events : List Cancellation.Event}
    (run : exec (Cancellation.next threads) (Cancellation.start mod) events = some s) :
    Ordered threads s (joinedThreads threads (Cancellation.start mod) events) := by
  have begun : Ordered threads (Cancellation.start mod) [] := ⟨rfl,fun v rest waits => (by cases waits),by simp⟩
  exact carryAlong (P := fun _ _ _ => True) begun (fun _ _ _ _ ordered _ step => orderedNext ordered step) run
    (alongReached (fun _ _ _ _ _ _ => True.intro) run)

theorem considerateEnds {envs : List InitEnv} {mod : Module} {events : List Cancellation.Event}
    (scan : scanned envs = some mod)
    (run : exec (Cancellation.next threads) (Cancellation.start mod) events = some s)
    (considerate : Along (Cancellation.next threads) Considerate (Cancellation.start mod) events) :
    CanReach (Cancellation.next threads) (fun u => u.exit = .exited) s := by
  have known : Healthy s.dead s.base ∧ Joining s ∧ s.nested = false := by
    refine invariantAlong (I := fun s => Healthy s.dead s.base ∧ Joining s ∧ s.nested = false)
      ⟨healthyStart scan,fun v rest waits => (by cases waits),rfl⟩ ?_ run considerate
    intro s e u known meets step
    exact ⟨healthyNext known.1 meets step,joiningNext known.2.1 step,topNext known.2.2 meets step⟩
  exact exitEnds known.1 known.2.2 known.2.1

end Joins

/- When main waits for a signal there is one thread for each channel of the list, in its
order, each with its own slot. daemon_exit then joins the list thread and each of these
once, in that order, and ends when all have ended; and as long as the run is considerate it
can always come to that end. -/
theorem serverTakenDown {w : World φ} {opts : List (Char × String)} {s : Running φ} {dirs : List (MediaDir φ)}
    (ran : main w opts = .ok s) (globbed : w.globbed s.conf.mediaDir = some dirs)
    (suffice_ : IdsSuffice (UInt8.ofNat minchnid) dirs) :
    s.conf.runmode = runForeground ∧ Registered s.registry ∧
    s.registry.threads = s.scanned.entries.map (fun e => e.chnid) ∧
    s.registry.subscripts = List.range s.scanned.entries.length ∧ s.scanned.entries.length ≤ channum ∧
    (∀ t, (thrChannelDestroyall s.registry).joins t = (destroyOrder s.registry).count t) ∧
    ∀ order, exitOrder s = some order →
      order = listThread :: (List.range s.scanned.entries.length).map channelThread ∧
      ∀ events u, exec (Cancellation.next order) (Cancellation.start s.scanned.lib.mod) events = some u →
        (u.exit = .exited → joinedThreads order (Cancellation.start s.scanned.lib.mod) events = order ∧
          ∀ t ∈ order, u.dead t = true) ∧
        (Along (Cancellation.next order) Considerate (Cancellation.start s.scanned.lib.mod) events →
          CanReach (Cancellation.next order) (fun v => v.exit = .exited) u) := by
  have source := mainSound ran
  have started := startedRun source globbed suffice_
  obtain ⟨envs,scan⟩ := mainScanned source globbed
  have size : s.registry.threads.length = s.scanned.entries.length := by rw [started.threads,List.length_map]
  have room := started.registered.room
  rw [size] at room
  refine ⟨setOptionsRunmode source.options,started.registered,started.threads,started.subscripts,room,?_,?_⟩
  · intro t
    have joined := destroyJoined channum 0 s.registry t
    rw [started.joins,Nat.zero_add] at joined
    exact joined
  · intro order listed
    unfold exitOrder at listed
    split at listed <;> try contradiction
    cases Option.some.inj listed
    refine ⟨by rw [startedOrder started],fun events u run => ⟨fun ended => ?_,considerateEnds scan run⟩⟩
    have ordered := orderedRun run
    have all := ordered.remaining
    rw [ended] at all
    refine ⟨all,fun t member => (ordered.gone t ?_).2⟩
    have joined : joinedThreads _ (Cancellation.start s.scanned.lib.mod) events = _ := all
    rw [joined]
    exact member

/- The channel's thread is asleep when the signal comes, a tick feeds its bucket, and it
ends behind its fetch. -/
def sampleExit : List Cancellation.Event :=
  [.base (.fetch 2 0 100),.base (.step 2),.base (.step 2),.daemonExit,.exitStep,.base (.alarm 3),.base (.handle 3),
    .base (.handle 3),.base (.handle 3),.base (.handle 3),.base (.wake 2),.base (.step 2),.base (.step 2),
    .base (.step 2),.terminate 1,.exitStep,.exitStep,.terminate 2,.exitStep,.exitStep]

def sampleOptions : List (Char × String) := [('F',""),('P',"1990")]
def sampleRunning : Running Playlist.Path := (main sampleWorld sampleOptions).toOption.get rfl

theorem sampleTakenDown : main sampleWorld sampleOptions = .ok sampleRunning ∧ ∃ u,
    exec (Cancellation.next [1,2]) (Cancellation.start sampleRunning.scanned.lib.mod) sampleExit = some u ∧
    u.exit = .exited ∧ joinedThreads [1,2] (Cancellation.start sampleRunning.scanned.lib.mod) sampleExit = [1,2] := by
  have ran : main sampleWorld sampleOptions = .ok sampleRunning := rfl
  have seen : (exec (Cancellation.next [1,2]) (Cancellation.start sampleRunning.scanned.lib.mod) sampleExit).map
      (fun u => u.exit) = some .exited := by decide +kernel
  obtain ⟨u,run,ended⟩ := Option.map_eq_some_iff.mp seen
  obtain ⟨_,_,_,_,_,_,each⟩ :=
    @serverTakenDown _ sampleWorld sampleOptions _ [plainDir,discDir] ran rfl ⟨by decide,by decide⟩
  have order : exitOrder sampleRunning = some [1,2] := by decide +kernel
  exact ⟨ran,u,run,ended,(((each _ order).2 sampleExit u run).1 ended).1⟩

end IPv4Media.ServerExit
