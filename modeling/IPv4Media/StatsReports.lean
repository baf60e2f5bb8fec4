import IPv4Media.ClientStream

/-! What stats_thread prints. In ClientThreads one step stands for all between two tests
of stop_flag; here each read of a counter is a step of its own, so the other threads move
between the numbers of one report. In the second printf the compiler chooses the order
of the three reads. A read gives a value the counter had. -/
namespace IPv4Media.StatsReports
open Octets Proto Socket Receiver ClientRing ClientThreads ClientStream Execution

inductive Item where
  | packetsReceived | packetsWritten | packetsDropped | bytesReceived | bytesWritten | usage
  deriving DecidableEq, Repr

def value (c : Client) : Item → Nat
  | .packetsReceived => c.packetsReceived
  | .packetsWritten => c.packetsWritten
  | .packetsDropped => c.packetsDropped
  | .bytesReceived => c.bytesReceived
  | .bytesWritten => c.bytesWritten
  | .usage => c.rb.count

def earlier : Item → List Item
  | .packetsReceived => []
  | .packetsWritten => [.packetsReceived]
  | .packetsDropped => [.packetsReceived,.packetsWritten]
  | _ => [.packetsReceived,.packetsWritten,.packetsDropped]

def items : List Item := [.packetsReceived,.packetsWritten,.packetsDropped,.bytesReceived,.bytesWritten,.usage]

structure Report where
  shown : Item → Nat
  receivedRate : Int
  writtenRate : Int

/- got holds what has been read since the sleep. -/
inductive Pc where
  | loopTest
  | sleeping
  | reading (got : Item → Option Nat)
  | left

structure State where
  client : Client
  pc : Pc
  lastReceived : Int
  lastWritten : Int
  reports : List Report

def start (heap : Bytes) : State := ⟨initial heap,.loopTest,0,0,[]⟩

inductive Event where
  | client (e : ClientThreads.Event)
  | loop
  | wake
  | read (item : Item)
  | print
  deriving DecidableEq, Repr

def coarse (e : ClientThreads.Event) : Bool := e == .statsLoop || e == .statsWake

def readable (got : Item → Option Nat) (item : Item) : Bool :=
  (got item).isNone && (earlier item).all fun before => (got before).isSome

def printed (s : State) (got : Item → Option Nat) : Report :=
  let shown := fun item => (got item).getD 0
  ⟨shown,((shown .packetsReceived : Int) - s.lastReceived).tdiv 5,((shown .packetsWritten : Int) - s.lastWritten).tdiv 5⟩

def next (se : Session) (s : State) : Event → Option State
  | .client e => if coarse e then none else (ClientThreads.next se s.client e).map fun client => { s with client }
  | .loop => match s.pc with
    | .loopTest => (ClientThreads.next se s.client .statsLoop).map fun client =>
        { s with client, pc := if s.client.stopFlag then .left else .sleeping }
    | _ => none
  | .wake => match s.pc with
    | .sleeping => some { s with pc := .reading fun _ => none }
    | _ => none
  | .read item => match s.pc with
    | .reading got =>
      if readable got item then some { s with pc := .reading (Function.update got item (some (value s.client item))) }
      else none
    | _ => none
  | .print => match s.pc with
    | .reading got =>
      if items.all fun item => (got item).isSome then
        (ClientThreads.next se s.client .statsWake).map fun client =>
          let report := printed s got
          { client
            pc := .loopTest
            lastReceived := report.shown .packetsReceived
            lastWritten := report.shown .packetsWritten
            reports := s.reports ++ [report] }
      else none
    | _ => none

inductive Step (se : Session) (s : State) : Event → State → Prop where
  | client (e : ClientThreads.Event) (c : Client) (other : coarse e = false)
      (moved : ClientThreads.next se s.client e = some c) : Step se s (.client e) { s with client := c }
  | loop (c : Client) (pc : s.pc = .loopTest) (moved : ClientThreads.next se s.client .statsLoop = some c) :
      Step se s .loop { s with client := c, pc := if s.client.stopFlag then .left else .sleeping }
  | wake (pc : s.pc = .sleeping) : Step se s .wake { s with pc := .reading fun _ => none }
  | read (item : Item) (got : Item → Option Nat) (pc : s.pc = .reading got) (turn : readable got item = true) :
      Step se s (.read item) { s with pc := .reading (Function.update got item (some (value s.client item))) }
  | print (c : Client) (got : Item → Option Nat) (pc : s.pc = .reading got) (all : ∀ item, (got item).isSome = true)
      (moved : ClientThreads.next se s.client .statsWake = some c) :
      Step se s .print {
        client := c
        pc := .loopTest
        lastReceived := (printed s got).shown .packetsReceived
        lastWritten := (printed s got).shown .packetsWritten
        reports := s.reports ++ [printed s got] }

theorem stepSound {se : Session} {s t : State} {e : Event} (h : next se s e = some t) : Step se s e t := by
  cases e with
  | client e =>
    simp only [next] at h
    split at h <;> try contradiction
    rename_i other
    obtain ⟨c,moved,rfl⟩ := Option.map_eq_some_iff.mp h
    exact .client e c (Bool.not_eq_true _ ▸ other) moved
  | loop =>
    simp only [next] at h
    split at h <;> try contradiction
    rename_i pc
    obtain ⟨c,moved,rfl⟩ := Option.map_eq_some_iff.mp h
    exact .loop c pc moved
  | wake =>
    simp only [next] at h
    split at h <;> try contradiction
    rename_i pc
    cases Option.some.inj h
    exact .wake pc
  | read item =>
    simp only [next] at h
    split at h <;> try contradiction
    rename_i got pc
    split at h <;> try contradiction
    rename_i turn
    cases Option.some.inj h
    exact .read item got pc turn
  | print =>
    simp only [next] at h
    split at h <;> try contradiction
    rename_i got pc
    split at h <;> try contradiction
    rename_i all
    obtain ⟨c,moved,rfl⟩ := Option.map_eq_some_iff.mp h
    refine .print c got pc (fun item => List.all_eq_true.mp all item ?_) moved
    cases item <;> simp [items]

theorem countersGrow {se : Session} {c d : Client} {e : ClientThreads.Event} (step : ClientThreads.next se c e = some d)
    {item : Item} (counter : item ≠ .usage) : value c item ≤ value d item := by
  rcases stepCases step with receiver | writer | stats
  · cases receiver <;> cases item <;> simp_all [value]
  · cases writer <;> cases item <;> simp_all [value]
  · cases stats <;> cases item <;> simp_all [value]

theorem flagStays {se : Session} {c d : Client} {e : ClientThreads.Event} (step : ClientThreads.next se c e = some d)
    (stop : c.stopFlag = true) : d.stopFlag = true := by
  rcases stepCases step with receiver | writer | stats
  · cases receiver <;> exact stop
  · cases writer <;> first | exact stop | rfl
  · cases stats <;> exact stop

def previous (before : List Report) (item : Item) : Nat := (before.getLast?.map fun r => r.shown item).getD 0

structure Follows (before : List Report) (r : Report) : Prop where
  counters : ∀ item, item ≠ .usage → ∀ b ∈ before, b.shown item ≤ r.shown item
  usage : r.shown .usage ≤ ringBufferSize
  receivedRate : r.receivedRate = ((r.shown .packetsReceived : Int) - previous before .packetsReceived) / 5
  writtenRate : r.writtenRate = ((r.shown .packetsWritten : Int) - previous before .packetsWritten) / 5

def Told (reports : List Report) : Prop := ∀ (k : Nat) (r : Report), reports[k]? = some r → Follows (reports.take k) r

theorem toldSnoc {reports : List Report} {r : Report} (told : Told reports) (follows : Follows reports r) :
    Told (reports ++ [r]) := by
  intro k x at_
  rcases Nat.lt_trichotomy k reports.length with inside | last | past
  · rw [List.getElem?_append_left inside] at at_
    rw [List.take_append_of_le_length (Nat.le_of_lt inside)]
    exact told k x at_
  · subst last
    rw [List.getElem?_concat_length] at at_
    cases Option.some.inj at_
    rw [List.take_left']
    · exact follows
    · rfl
  · rw [List.getElem?_eq_none (by simp only [List.length_append,List.length_singleton]; omega)] at at_
    contradiction

theorem previousSnoc (reports : List Report) (r : Report) (item : Item) : previous (reports ++ [r]) item = r.shown item := by
  simp [previous]

theorem previousBelow {reports : List Report} {item : Item} {n : Nat} (all : ∀ r ∈ reports, r.shown item ≤ n) :
    previous reports item ≤ n := by
  unfold previous
  cases last : reports.getLast? with
  | none => exact Nat.zero_le n
  | some r => exact all r (List.mem_of_getLast? last)

theorem ratesTelescope {reports : List Report} {rate : Report → Int} {item : Item} (told : Told reports)
    (divided : ∀ (before : List Report) (r : Report), Follows before r →
      rate r = ((r.shown item : Int) - previous before item) / 5) :
    5 * (reports.map rate).sum ≤ previous reports item ∧
      (previous reports item : Int) ≤ 5 * (reports.map rate).sum + 4 * reports.length := by
  induction reports using List.reverseRecOn with
  | nil => simp [previous]
  | append_singleton reports r ih =>
    have before : Told reports := by
      intro k x at_
      have inside := (List.getElem?_eq_some_iff.mp at_).1
      have follows := told k x (by rw [List.getElem?_append_left inside]; exact at_)
      rwa [List.take_append_of_le_length (Nat.le_of_lt inside)] at follows
    have last := told reports.length r List.getElem?_concat_length
    rw [List.take_left' rfl] at last
    have now := divided reports r last
    have rest := ih before
    rw [previousSnoc]
    simp only [List.map_append,List.map_cons,List.map_nil,List.sum_append,List.sum_cons,List.sum_nil,
      List.length_append,List.length_singleton]
    omega

structure Seen (c : Client) (reports : List Report) (item : Item) (v : Nat) : Prop where
  counter : item ≠ .usage → v ≤ value c item ∧ ∀ r ∈ reports, r.shown item ≤ v
  usage : item = .usage → v ≤ ringBufferSize

structure Kept (se : Session) (heap : Bytes) (s : State) : Prop where
  behind : ∃ trace, exec (ClientThreads.next se) (initial heap) trace = some s.client ∧
    trace.count .statsWake = s.reports.length
  received : s.lastReceived = previous s.reports .packetsReceived
  written : s.lastWritten = previous s.reports .packetsWritten
  current : ∀ r ∈ s.reports, ∀ item, item ≠ .usage → r.shown item ≤ value s.client item
  reading : ∀ got, s.pc = .reading got → ∀ item v, got item = some v → Seen s.client s.reports item v
  told : Told s.reports

theorem keptStart (se : Session) (heap : Bytes) : Kept se heap (start heap) where
  behind := ⟨[],rfl,rfl⟩
  received := rfl
  written := rfl
  current := by simp [start]
  reading := by simp [start]
  told := by simp [start,Told]

theorem countOther {e : ClientThreads.Event} (other : e ≠ .statsWake) (trace : List ClientThreads.Event) :
    (trace ++ [e]).count .statsWake = trace.count .statsWake := by
  rw [List.count_append,List.count_singleton,beq_eq_false_iff_ne.mpr other]
  rfl

theorem keptMoves {se : Session} {heap : Bytes} {s : State} {c : Client} {e : ClientThreads.Event} (kept : Kept se heap s)
    (moved : ClientThreads.next se s.client e = some c) (other : e ≠ .statsWake) : Kept se heap { s with client := c } where
  behind := by
    obtain ⟨trace,run,count⟩ := kept.behind
    exact ⟨trace ++ [e],execSnoc.mpr ⟨s.client,run,moved⟩,(countOther other trace).trans count⟩
  received := kept.received
  written := kept.written
  current := by
    intro r member item counter
    exact Nat.le_trans (kept.current r member item counter) (countersGrow moved counter)
  reading := by
    intro got pc item v seen
    have before := kept.reading got pc item v seen
    refine ⟨fun counter => ?_,before.usage⟩
    exact ⟨Nat.le_trans (before.counter counter).1 (countersGrow moved counter),(before.counter counter).2⟩
  told := kept.told

theorem rateOf {shown before : Nat} (grown : before ≤ shown) :
    ((shown : Int) - before).tdiv 5 = ((shown : Int) - before) / 5 :=
  Int.tdiv_eq_ediv_of_nonneg (by omega)

theorem keptNext {se : Session} {heap : Bytes} {s t : State} {e : Event} (kept : Kept se heap s)
    (step : Step se s e t) : Kept se heap t := by
  cases step with
  | client e c other moved =>
    refine keptMoves kept moved ?_
    intro same
    subst same
    contradiction
  | loop c pc moved =>
    have after := keptMoves kept moved (by simp)
    refine ⟨after.behind,after.received,after.written,after.current,?_,after.told⟩
    intro got reads
    simp only at reads
    split at reads <;> contradiction
  | wake pc =>
    refine ⟨kept.behind,kept.received,kept.written,kept.current,?_,kept.told⟩
    intro got reads item v seen
    cases reads
    contradiction
  | read item got pc turn =>
    refine ⟨kept.behind,kept.received,kept.written,kept.current,?_,kept.told⟩
    intro now reads other v seen
    cases reads
    by_cases here : other = item
    · subst here
      rw [Function.update_self] at seen
      cases Option.some.inj seen
      refine ⟨fun counter => ⟨Nat.le_refl _,fun r member => kept.current r member other counter⟩,fun usage => ?_⟩
      obtain ⟨trace,run,_⟩ := kept.behind
      subst usage
      exact (streamRun run).ring.count
    · rw [Function.update_of_ne here] at seen
      exact kept.reading got pc other v seen
  | print c got pc all moved =>
    have seen : ∀ item, Seen s.client s.reports item ((got item).getD 0) := by
      intro item
      obtain ⟨v,read⟩ := Option.isSome_iff_exists.mp (all item)
      rw [read]
      exact kept.reading got pc item v read
    have below := fun item counter => previousBelow ((seen item).counter counter).2
    have follows : Follows s.reports (printed s got) := by
      refine ⟨fun item counter => ((seen item).counter counter).2,(seen .usage).usage rfl,?_,?_⟩
      · rw [printed,kept.received]
        exact rateOf (below .packetsReceived (by simp))
      · rw [printed,kept.written]
        exact rateOf (below .packetsWritten (by simp))
    constructor
    · obtain ⟨trace,run,count⟩ := kept.behind
      refine ⟨trace ++ [.statsWake],execSnoc.mpr ⟨s.client,run,moved⟩,?_⟩
      rw [List.count_append,count,List.length_append]
      rfl
    · exact congrArg Int.ofNat (previousSnoc _ _ _).symm
    · exact congrArg Int.ofNat (previousSnoc _ _ _).symm
    · intro r member item counter
      refine Nat.le_trans ?_ (countersGrow moved counter)
      rcases List.mem_append.mp member with old | new
      · exact kept.current r old item counter
      · cases List.mem_singleton.mp new
        exact ((seen item).counter counter).1
    · intro got reads
      contradiction
    · exact toldSnoc kept.told follows

theorem keptRun {se : Session} {heap : Bytes} {es : List Event} {s : State} (run : exec (next se) (start heap) es = some s) :
    Kept se heap s :=
  invariant (keptStart se heap) (fun _ _ _ kept step => keptNext kept (stepSound step)) run

structure Reported (se : Session) (heap : Bytes) (s : State) : Prop where
  told : Told s.reports
  current : ∀ r ∈ s.reports, ∀ item, item ≠ .usage → r.shown item ≤ value s.client item
  received : 5 * (s.reports.map Report.receivedRate).sum ≤ previous s.reports .packetsReceived ∧
    (previous s.reports .packetsReceived : Int) ≤ 5 * (s.reports.map Report.receivedRate).sum + 4 * s.reports.length
  written : 5 * (s.reports.map Report.writtenRate).sum ≤ previous s.reports .packetsWritten ∧
    (previous s.reports .packetsWritten : Int) ≤ 5 * (s.reports.map Report.writtenRate).sum + 4 * s.reports.length
  behind : ∃ trace, exec (ClientThreads.next se) (initial heap) trace = some s.client ∧
    trace.count .statsWake = s.reports.length

/- Whatever the other threads do between two reads, and whatever order the compiler has
chosen: the counters of the reports never fall, the rates are the differences, rounded
down, and the client behind them is one of ClientThreads. -/
theorem statsReports {se : Session} {heap : Bytes} {es : List Event} {s : State}
    (run : exec (next se) (start heap) es = some s) : Reported se heap s := by
  have kept := keptRun run
  have received := ratesTelescope kept.told fun before r follows => follows.receivedRate
  have written := ratesTelescope kept.told fun before r follows => follows.writtenRate
  exact ⟨kept.told,kept.current,received,written,kept.behind⟩

def lateNews : Datagram := ⟨⟨1,1989⟩,[0,0,0,7,3,21],by decide⟩

/- The receiver and the writer move between the numbers of the first report: it has a
packet more written than received. -/
def busyEvening : List Event :=
  [.loop,.wake,.read .packetsReceived] ++
  [.receiverStart true,.receiverLoop,.recvfrom (.datagram lateNews),.ringWriteCopy,.account,
   .writerPoll,.writerLoop,.ringReadCopy,.pipeLoop,.pipeWrite (.wrote 1),.pipeLoop].map Event.client ++
  [.read .packetsWritten,.read .packetsDropped,.read .usage,.read .bytesWritten,.read .bytesReceived,.print,.loop,.wake]

def numbers (s : State) : List (List Nat × Int × Int) :=
  s.reports.map fun r => (items.map r.shown,r.receivedRate,r.writtenRate)

theorem busyReported : ∃ s, exec (next sampleSession) (start []) busyEvening = some s ∧
    numbers s = [([0,1,0,1,1,0],0,0)] ∧ Reported sampleSession [] s := by
  have ran : (exec (next sampleSession) (start []) busyEvening).map numbers = some [([0,1,0,1,1,0],0,0)] := by
    decide +kernel
  obtain ⟨s,run,shown⟩ := Option.map_eq_some_iff.mp ran
  exact ⟨s,run,shown,statsReports run⟩

def pending : Pc → Nat
  | .loopTest => 0
  | .sleeping => 1
  | .reading _ => 1
  | .left => 0

def gathered : Pc → Item → Option Nat
  | .reading got => got
  | _ => fun _ => none

structure Final (s t : State) (more : List Report) : Prop where
  stop : t.client.stopFlag = true
  reports : t.reports = s.reports ++ more
  count : more.length + pending t.pc = pending s.pc
  coming : ∀ item v, gathered s.pc item = some v → pending t.pc = 1 → gathered t.pc item = some v
  shown : ∀ r ∈ more, ∀ item v, gathered s.pc item = some v → r.shown item = v

theorem finalNext {se : Session} {s t u : State} {more : List Report} {e : Event} (final : Final s t more)
    (step : Step se t e u) : ∃ more, Final s u more := by
  have ⟨stop,reports,count,coming,shown⟩ := final
  cases step with
  | client e c other moved => exact ⟨more,flagStays moved stop,reports,count,coming,shown⟩
  | loop c pc moved =>
    rw [pc] at count
    refine ⟨more,flagStays moved stop,reports,?_,fun item v _ one => ?_,shown⟩
    · simp only [stop,if_true]
      exact count
    · simp only [stop,if_true,pending] at one
      contradiction
  | wake pc =>
    rw [pc] at count coming
    refine ⟨more,stop,reports,count,fun item v read one => ?_,shown⟩
    have none_ := coming item v read rfl
    contradiction
  | read item got pc turn =>
    rw [pc] at count coming
    refine ⟨more,stop,reports,count,fun other v read one => ?_,shown⟩
    have had : got other = some v := coming other v read rfl
    have apart : other ≠ item := by
      rintro rfl
      simp [readable,had] at turn
    simp only [gathered,Function.update_of_ne apart]
    exact had
  | print c got pc all moved =>
    rw [pc] at count coming
    refine ⟨more ++ [printed t got],flagStays moved stop,?_,?_,fun item v _ one => ?_,?_⟩
    · rw [← List.append_assoc,← reports]
    · rw [List.length_append,List.length_singleton]
      exact count
    · contradiction
    · intro r member item v read
      rcases List.mem_append.mp member with old | new
      · exact shown r old item v read
      · have had : got item = some v := coming item v read rfl
        rw [List.mem_singleton.mp new]
        simp only [printed,had,Option.getD_some]

theorem finalRun {se : Session} {s t : State} {es : List Event} (run : exec (next se) s es = some t)
    (stop : s.client.stopFlag = true) : ∃ more, Final s t more := by
  have here : Final s s [] := ⟨stop,by simp,by simp,fun _ _ read _ => read,by simp⟩
  refine invariant (I := fun u => ∃ more, Final s u more) ⟨[],here⟩ ?_ run
  rintro u e v ⟨more,final⟩ step
  exact finalNext final (stepSound step)

def standing : Pc → StatsPc
  | .loopTest => .loopTest
  | .sleeping => .sleeping
  | .reading _ => .sleeping
  | .left => .left

theorem statsKept {se : Session} {c d : Client} {e : ClientThreads.Event} (step : ClientThreads.next se c e = some d)
    (other : coarse e = false) : d.stats = c.stats := by
  rcases stepCases step with receiver | writer | stats
  · cases receiver <;> rfl
  · cases writer <;> rfl
  · cases stats <;> contradiction

theorem standingRun {se : Session} {heap : Bytes} {es : List Event} {s : State}
    (run : exec (next se) (start heap) es = some s) : s.client.stats = standing s.pc := by
  refine invariant (I := fun u => u.client.stats = standing u.pc) rfl ?_ run
  intro u e v before step
  cases stepSound step with
  | client e c other moved => exact (statsKept moved other).trans before
  | loop c pc moved =>
    rw [pc] at before
    have moved_ : c = { u.client with stats := if u.client.stopFlag then .left else .sleeping } := by
      simp only [ClientThreads.next,receiverNext,writerNext,statsNext,before,standing] at moved
      exact (Option.some.inj moved).symm
    subst moved_
    cases u.client.stopFlag <;> rfl
  | wake pc => rw [pc] at before; exact before
  | read item got pc turn => rw [pc] at before; exact before
  | print c got pc all moved =>
    rw [pc] at before
    simp only [ClientThreads.next,receiverNext,writerNext,statsNext,before,standing] at moved
    cases Option.some.inj moved
    rfl

theorem earlierFirst (item before : Item) (member : before ∈ earlier item) :
    before ∈ items.takeWhile fun other => other ≠ item := by
  cases item <;> cases before <;> simp_all [earlier,items]

theorem takeWhilePivot {α : Type} {p : α → Bool} {a : α} (stops : p a = false) (xs ys : List α) :
    (xs ++ a :: ys).takeWhile p = xs.takeWhile p := by
  induction xs with
  | nil => rw [List.nil_append,List.takeWhile_cons,stops]; rfl
  | cons x xs ih => rw [List.cons_append,List.takeWhile_cons,List.takeWhile_cons,ih]

theorem earlierDone {item before : Item} {done todo : List Item} (parts : items = done ++ item :: todo)
    (member : before ∈ earlier item) : before ∈ done := by
  have first := earlierFirst item before member
  rw [parts,takeWhilePivot (by simp)] at first
  exact (List.takeWhile_prefix _).subset first

def own : Event → Bool
  | .client _ => false
  | _ => true

def ownNext (se : Session) (s : State) (e : Event) : Option State := if own e = true then next se s e else none

theorem ownStep {se : Session} {s t : State} {e : Event} (mine : own e = true) (step : next se s e = some t) :
    ownNext se s e = some t := by
  rw [ownNext,if_pos mine,step]

theorem readsOn {se : Session} {s : State} {todo done : List Item} {got : Item → Option Nat} (parts : items = done ++ todo)
    (pc : s.pc = .reading got) (read : ∀ item ∈ done, (got item).isSome = true) :
    CanReach (ownNext se) (fun t => t.client = s.client ∧ t.reports = s.reports ∧
      ∃ got, t.pc = .reading got ∧ ∀ item, (got item).isSome = true) s := by
  induction todo generalizing s done got with
  | nil =>
    refine reachNow ⟨rfl,rfl,got,pc,fun item => read item ?_⟩
    rw [List.append_nil] at parts
    rw [← parts]
    cases item <;> simp [items]
  | cons item todo ih =>
    have whole : items = (done ++ [item]) ++ todo := by rw [parts,List.append_assoc,List.singleton_append]
    cases here : got item with
    | some v =>
      refine ih whole pc fun other member => ?_
      rcases List.mem_append.mp member with old | new
      · exact read other old
      · cases List.mem_singleton.mp new
        rw [here]
        rfl
    | none =>
      have turn : readable got item = true := by
        rw [readable,here,Option.isNone_none,Bool.true_and,List.all_eq_true]
        intro before member
        exact read before (earlierDone parts member)
      have step : next se s (.read item) =
          some { s with pc := .reading (Function.update got item (some (value s.client item))) } := by
        simp only [next,pc,turn,if_true]
      refine reachStep (ownStep rfl step) (ih whole rfl fun other member => ?_)
      by_cases same : other = item
      · rw [same,Function.update_self]
        rfl
      · rw [Function.update_of_ne same]
        rcases List.mem_append.mp member with old | new
        · exact read other old
        · exact absurd (List.mem_singleton.mp new) same

abbrev Leaves (se : Session) (s : State) : Prop := CanReach (ownNext se) (fun t => t.pc = .left) s

theorem loopLeaves {se : Session} {s : State} (pc : s.pc = .loopTest) (stats : s.client.stats = .loopTest)
    (stop : s.client.stopFlag = true) : Leaves se s := by
  have step : next se s .loop = some { s with client := { s.client with stats := .left }, pc := .left } := by
    simp [next,pc,ClientThreads.next,receiverNext,writerNext,statsNext,stats,stop]
  exact reachStep (ownStep rfl step) (reachNow rfl)

theorem readingLeaves {se : Session} {s : State} {got : Item → Option Nat} (pc : s.pc = .reading got)
    (stats : s.client.stats = .sleeping) (stop : s.client.stopFlag = true) : Leaves se s := by
  have reads := @readsOn se s items [] got rfl pc (by simp)
  refine reachThen reads fun t there => ?_
  obtain ⟨client,_,got,pc,all⟩ := there
  have step : next se t .print = some {
      client := { t.client with stats := .loopTest }
      pc := .loopTest
      lastReceived := (printed t got).shown .packetsReceived
      lastWritten := (printed t got).shown .packetsWritten
      reports := t.reports ++ [printed t got] } := by
    rw [← client] at stats
    simp [next,pc,all,ClientThreads.next,receiverNext,writerNext,statsNext,stats]
  refine reachStep (ownStep rfl step) (loopLeaves rfl rfl ?_)
  rw [← client] at stop
  exact stop

theorem statsLeave {se : Session} {s : State} (stats : s.client.stats = standing s.pc)
    (stop : s.client.stopFlag = true) : Leaves se s := by
  cases pc : s.pc with
  | loopTest =>
    rw [pc] at stats
    exact loopLeaves pc stats stop
  | sleeping =>
    rw [pc] at stats
    have step : next se s .wake = some { s with pc := .reading fun _ => none } := by simp only [next,pc]
    exact reachStep (ownStep rfl step) (readingLeaves rfl stats stop)
  | reading got =>
    rw [pc] at stats
    exact readingLeaves pc stats stop
  | left => exact reachNow pc

/- Once stop_flag is set the thread can come to its end by steps of its own. However it
comes to it, it prints the report that was to come, with what it has read for it, and no
more. -/
theorem statsLast {se : Session} {heap : Bytes} {es : List Event} {s : State}
    (run : exec (next se) (start heap) es = some s) (stop : s.client.stopFlag = true) :
    Leaves se s ∧ ∀ fs t, exec (next se) s fs = some t → t.pc = .left → ∃ more, t.reports = s.reports ++ more ∧
      more.length = pending s.pc ∧ ∀ r ∈ more, ∀ item v, gathered s.pc item = some v → r.shown item = v := by
  refine ⟨statsLeave (standingRun run) stop,?_⟩
  intro fs t later left
  obtain ⟨more,final⟩ := finalRun later stop
  have count := final.count
  rw [left] at count
  exact ⟨more,final.reports,count,final.shown⟩

/- The pipe breaks when the thread has read the first number of its report. -/
def brokenEvening : List Event :=
  [.loop,.client (.receiverStart true),.wake,.read .packetsReceived] ++ [.receiverLoop,.recvfrom (.datagram lateNews),
   .ringWriteCopy,.account,.writerPoll,.writerLoop,.ringReadCopy,.pipeLoop,.pipeWrite .fatal].map Event.client

theorem brokenLast : ∃ s, exec (next sampleSession) (start []) brokenEvening = some s ∧ Leaves sampleSession s ∧
    ∀ fs t, exec (next sampleSession) s fs = some t → t.pc = .left →
      ∃ r, t.reports = [r] ∧ r.shown .packetsReceived = 0 := by
  have ran : (exec (next sampleSession) (start []) brokenEvening).map
      (fun s => (s.client.stopFlag,s.reports.length,pending s.pc,gathered s.pc .packetsReceived)) =
      some (true,0,1,some 0) := by decide +kernel
  obtain ⟨s,run,seen⟩ := Option.map_eq_some_iff.mp ran
  simp only [Prod.mk.injEq] at seen
  obtain ⟨stop,none_,one,read⟩ := seen
  obtain ⟨leaves,each⟩ := statsLast run stop
  refine ⟨s,run,leaves,fun fs t later left => ?_⟩
  obtain ⟨more,reports,count,shown⟩ := each fs t later left
  obtain ⟨r,rfl⟩ := List.length_eq_one_iff.mp (count.trans one)
  rw [List.eq_nil_of_length_eq_zero none_,List.nil_append] at reports
  exact ⟨r,reports,shown r List.mem_cons_self _ _ read⟩

end IPv4Media.StatsReports
