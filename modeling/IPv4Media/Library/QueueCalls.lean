import IPv4Media.Library.Execution

/-! Calls on a bounded queue under one mutex: one thread that puts and gives up when its
wait expires, and one that takes and waits as long as it must. All that happens between
two waits is one step. A store says what the locked parts do; a store that refines
another one makes the same calls with the same results. -/
namespace QueueCalls
open Execution

structure Store (σ α : Type*) where
  full : σ → Nat → Bool
  empty : σ → Bool
  put : σ → List α → Option σ
  take : σ → Nat → Option (List α × σ)

inductive Producer (α : Type*)
  | idle
  | test (src : List α)
  | wait (src : List α)
  | expired (src : List α)

inductive Consumer
  | idle
  | test (maxLen : Nat)
  | wait (maxLen : Nat)

inductive Done (α : Type*)
  | put (src : List α) (ret : Int)
  | take (maxLen : Nat) (out : List α)

structure Calls (σ α : Type*) where
  store : σ
  producer : Producer α
  consumer : Consumer
  done : List (Done α)

inductive Event (α : Type*)
  | beginPut (src : List α)
  | put | sleepPut | wakePut | expire | giveUp
  | beginTake (maxLen : Nat)
  | take | sleepTake | wakeTake

variable {σ τ α : Type*}

def idle (store : σ) : Calls σ α := ⟨store,.idle,.idle,[]⟩

def signalProducer : Producer α → Producer α
  | .wait src => .test src
  | pc => pc

def signalConsumer : Consumer → Consumer
  | .wait maxLen => .test maxLen
  | pc => pc

def next (q : Store σ α) (most : Nat) (s : Calls σ α) : Event α → Option (Calls σ α)
  | .beginPut src => match s.producer with
    | .idle => if src.length ≤ most then some { s with producer := .test src } else none
    | _ => none
  | .put => match s.producer with
    | .test src =>
      if q.full s.store src.length then none
      else (q.put s.store src).map fun store =>
        { store, producer := .idle, consumer := signalConsumer s.consumer, done := s.done ++ [.put src 0] }
    | _ => none
  | .sleepPut => match s.producer with
    | .test src => if q.full s.store src.length then some { s with producer := .wait src } else none
    | _ => none
  | .wakePut => match s.producer with
    | .wait src => some { s with producer := .test src }
    | _ => none
  | .expire => match s.producer with
    | .wait src => some { s with producer := .expired src }
    | _ => none
  | .giveUp => match s.producer with
    | .expired src => some { s with producer := .idle, done := s.done ++ [.put src (-1)] }
    | _ => none
  | .beginTake maxLen => match s.consumer with
    | .idle => some { s with consumer := .test maxLen }
    | _ => none
  | .take => match s.consumer with
    | .test maxLen =>
      if q.empty s.store then none
      else (q.take s.store maxLen).map fun (out,store) =>
        { store, producer := signalProducer s.producer, consumer := .idle, done := s.done ++ [.take maxLen out] }
    | _ => none
  | .sleepTake => match s.consumer with
    | .test maxLen => if q.empty s.store then some { s with consumer := .wait maxLen } else none
    | _ => none
  | .wakeTake => match s.consumer with
    | .wait maxLen => some { s with consumer := .test maxLen }
    | _ => none

def bounded (α : Type*) (cap : Nat) : Store (List α) α where
  full items n := decide (items.length + n > cap)
  empty items := items.isEmpty
  put items src := if items.length + src.length ≤ cap then some (items ++ src) else none
  take items maxLen := some (items.take maxLen,items.drop maxLen)

structure Refines (c : Store σ α) (a : Store τ α) (I : σ → Prop) (f : σ → τ) : Prop where
  full : ∀ s n, I s → c.full s n = a.full (f s) n
  empty : ∀ s, I s → c.empty s = a.empty (f s)
  put : ∀ s src, I s → c.full s src.length = false →
    ∃ t, c.put s src = some t ∧ I t ∧ a.put (f s) src = some (f t)
  take : ∀ s maxLen, I s → ∃ out t, c.take s maxLen = some (out,t) ∧ I t ∧ a.take (f s) maxLen = some (out,f t)

def Calls.map (f : σ → τ) (s : Calls σ α) : Calls τ α := ⟨f s.store,s.producer,s.consumer,s.done⟩

variable {c : Store σ α} {a : Store τ α} {I : σ → Prop} {f : σ → τ} {most : Nat}

inductive Step (q : Store σ α) (most : Nat) (s : Calls σ α) : Event α → Calls σ α → Prop where
  | beginPut (src : List α) (pc : s.producer = .idle) (fits : src.length ≤ most) :
      Step q most s (.beginPut src) { s with producer := .test src }
  | put (src : List α) (store : σ) (pc : s.producer = .test src) (room : q.full s.store src.length = false)
      (stored : q.put s.store src = some store) : Step q most s .put
        { store, producer := .idle, consumer := signalConsumer s.consumer, done := s.done ++ [.put src 0] }
  | sleepPut (src : List α) (pc : s.producer = .test src) (full : q.full s.store src.length = true) :
      Step q most s .sleepPut { s with producer := .wait src }
  | wakePut (src : List α) (pc : s.producer = .wait src) : Step q most s .wakePut { s with producer := .test src }
  | expire (src : List α) (pc : s.producer = .wait src) : Step q most s .expire { s with producer := .expired src }
  | giveUp (src : List α) (pc : s.producer = .expired src) :
      Step q most s .giveUp { s with producer := .idle, done := s.done ++ [.put src (-1)] }
  | beginTake (maxLen : Nat) (pc : s.consumer = .idle) :
      Step q most s (.beginTake maxLen) { s with consumer := .test maxLen }
  | take (maxLen : Nat) (out : List α) (store : σ) (pc : s.consumer = .test maxLen)
      (filled : q.empty s.store = false) (taken : q.take s.store maxLen = some (out,store)) : Step q most s .take
        { store, producer := signalProducer s.producer, consumer := .idle, done := s.done ++ [.take maxLen out] }
  | sleepTake (maxLen : Nat) (pc : s.consumer = .test maxLen) (empty : q.empty s.store = true) :
      Step q most s .sleepTake { s with consumer := .wait maxLen }
  | wakeTake (maxLen : Nat) (pc : s.consumer = .wait maxLen) :
      Step q most s .wakeTake { s with consumer := .test maxLen }

theorem stepSound {q : Store σ α} {s t : Calls σ α} {e : Event α} (h : next q most s e = some t) :
    Step q most s e t := by
  cases e
  case put =>
    simp only [next] at h
    split at h <;> try contradiction
    rename_i src pc
    split at h <;> try contradiction
    rename_i room
    obtain ⟨store,stored,rfl⟩ := Option.map_eq_some_iff.mp h
    exact .put src store pc (Bool.eq_false_iff.mpr room) stored
  case take =>
    simp only [next] at h
    split at h <;> try contradiction
    rename_i maxLen pc
    split at h <;> try contradiction
    rename_i filled
    obtain ⟨⟨out,store⟩,taken,rfl⟩ := Option.map_eq_some_iff.mp h
    exact .take maxLen out store pc (Bool.eq_false_iff.mpr filled) taken
  case beginPut src =>
    simp only [next] at h
    split at h <;> try contradiction
    rename_i pc
    split at h <;> try contradiction
    cases Option.some.inj h
    exact .beginPut src pc (by assumption)
  case sleepPut =>
    simp only [next] at h
    split at h <;> try contradiction
    rename_i src pc
    split at h <;> try contradiction
    cases Option.some.inj h
    exact .sleepPut src pc (by assumption)
  case sleepTake =>
    simp only [next] at h
    split at h <;> try contradiction
    rename_i maxLen pc
    split at h <;> try contradiction
    cases Option.some.inj h
    exact .sleepTake maxLen pc (by assumption)
  all_goals
    simp only [next] at h
    split at h <;> try contradiction
    rename_i pc
    cases Option.some.inj h
    constructor
    exact pc

/- Giving up is right: there is no room for what was to be put. -/
def Decided (q : Store σ α) (s : Calls σ α) : Prop :=
  ∀ src, s.producer = .expired src → q.full s.store src.length = true

/- A take that makes room after the wait of the put expired. -/
def TakesLate (q : Store σ α) (s : Calls σ α) (e : Event α) (t : Calls σ α) : Prop :=
  e = .take ∧ ∃ src, s.producer = .expired src ∧ q.full t.store src.length = false

structure Waits (q : Store σ α) (s : Calls σ α) : Prop where
  asleep : ∀ src, s.producer = .wait src → q.full s.store src.length = true
  decided : Decided q s

theorem waitsAwake {q : Store σ α} {s : Calls σ α}
    (awake : ∀ src, s.producer ≠ .wait src ∧ s.producer ≠ .expired src) : Waits q s :=
  ⟨fun src pc => absurd pc (awake src).1,fun src pc => absurd pc (awake src).2⟩

theorem waitsIdle (q : Store σ α) (store : σ) : Waits q (idle store) := waitsAwake (by simp [idle])

theorem waitsStep {q : Store σ α} {s t : Calls σ α} {e : Event α} (waits : Waits q s)
    (onTime : ¬ TakesLate q s e t) (step : Step q most s e t) : Waits q t := by
  obtain ⟨asleep,decided⟩ := waits
  cases step with
  | sleepPut src pc full =>
    refine ⟨fun other same => ?_,fun _ other => ?_⟩
    · cases same
      exact full
    · cases other
  | expire src pc =>
    refine ⟨fun _ other => ?_,fun other same => ?_⟩
    · cases other
    · cases same
      exact asleep src pc
  | take maxLen out store pc filled taken =>
    cases producer : s.producer with
    | expired src =>
      refine ⟨fun _ other => ?_,fun other same => ?_⟩
      · simp [signalProducer] at other
      · have full := Bool.eq_true_of_not_eq_false fun room => onTime ⟨rfl,src,producer,room⟩
        simp only [signalProducer] at same
        cases same
        exact full
    | _ => exact waitsAwake (by simp [signalProducer])
  | beginPut src pc fits => exact waitsAwake (by simp)
  | put src store pc room stored => exact waitsAwake (by simp)
  | wakePut src pc => exact waitsAwake (by simp)
  | giveUp src pc => exact waitsAwake (by simp)
  | beginTake maxLen pc => exact ⟨asleep,decided⟩
  | sleepTake maxLen pc empty => exact ⟨asleep,decided⟩
  | wakeTake maxLen pc => exact ⟨asleep,decided⟩

theorem decidedIff {q : Store σ α} {s t : Calls σ α} {e : Event α} (waits : Waits q s) (step : Step q most s e t) :
    Decided q t ↔ ¬ TakesLate q s e t := by
  constructor
  · rintro decided ⟨rfl,src,pc,room⟩
    cases step with
    | take maxLen out store test filled taken =>
      have still : signalProducer s.producer = .expired src := by rw [pc]; rfl
      have full := decided src still
      rw [room] at full
      contradiction
  · intro onTime
    exact (waitsStep waits onTime step).decided

theorem refinesKeep (refines : Refines c a I f) {s t : Calls σ α} {e : Event α} (inv : I s.store)
    (step : next c most s e = some t) : I t.store := by
  cases stepSound step with
  | put src store pc room stored =>
    obtain ⟨u,same,kept,_⟩ := refines.put s.store src inv room
    cases Option.some.inj (stored.symm.trans same)
    exact kept
  | take maxLen out store pc filled taken =>
    obtain ⟨_,u,same,kept,_⟩ := refines.take s.store maxLen inv
    cases Option.some.inj (taken.symm.trans same)
    exact kept
  | _ => exact inv

theorem refinesStep (refines : Refines c a I f) {s : Calls σ α} (e : Event α) (inv : I s.store) :
    (next c most s e).map (Calls.map f) = next a most (s.map f) e := by
  obtain ⟨store,producer,consumer,done⟩ := s
  have full := fun n => refines.full store n inv
  have empty := refines.empty store inv
  cases e with
  | put =>
    cases producer with
    | test src =>
      by_cases room : c.full store src.length = false
      · obtain ⟨t,stored,_,other⟩ := refines.put store src inv room
        have same := room
        rw [full] at same
        simp [next,Calls.map,room,same,stored,other]
      · have filled := Bool.not_eq_false _ |>.mp room
        have same := filled
        rw [full] at same
        simp [next,Calls.map,filled,same]
    | _ => rfl
  | take =>
    cases consumer with
    | test maxLen =>
      obtain ⟨out,t,taken,_,other⟩ := refines.take store maxLen inv
      cases bare : c.empty store with
      | true =>
        have same := empty.symm.trans bare
        simp [next,Calls.map,bare,same]
      | false =>
        have same := empty.symm.trans bare
        simp [next,Calls.map,bare,same,taken,other]
    | _ => rfl
  | beginPut src =>
    cases producer with
    | idle => by_cases fits : src.length ≤ most <;> simp [next,Calls.map,fits]
    | _ => rfl
  | sleepPut =>
    cases producer with
    | test src =>
      cases same : a.full (f store) src.length <;> simp [next,Calls.map,full,same]
    | _ => rfl
  | sleepTake =>
    cases consumer with
    | test maxLen =>
      cases same : a.empty (f store) <;> simp [next,Calls.map,empty,same]
    | _ => rfl
  | wakePut => cases producer <;> rfl
  | expire => cases producer <;> rfl
  | giveUp => cases producer <;> rfl
  | beginTake maxLen => cases consumer <;> rfl
  | wakeTake => cases consumer <;> rfl

theorem refinesRun (refines : Refines c a I f) {s : Calls σ α} (inv : I s.store) (events : List (Event α)) :
    (exec (next c most) s events).map (Calls.map f) = exec (next a most) (s.map f) events ∧
    ∀ t, exec (next c most) s events = some t → I t.store := by
  have keep : ∀ s e t, I s.store → next c most s e = some t → I t.store :=
    fun _ _ _ inv step => refinesKeep refines inv step
  exact ⟨execMap (I := fun s : Calls σ α => I s.store) keep (fun _ e inv => refinesStep refines e inv) inv events,
    fun _ run => invariant (I := fun s : Calls σ α => I s.store) inv keep run⟩

end QueueCalls
