import Mathlib.Algebra.Order.BigOperators.Group.List
import Mathlib.Algebra.Ring.Int.Defs
import Mathlib.Data.List.Induction

/-! Executions of a partial labelled transition function. All nondeterminism is
in the labels, so an execution is a fold and can be evaluated. A label that the
state does not admit ends the execution with none. -/
namespace Execution

variable {σ ε : Type*} (next : σ → ε → Option σ)

def exec (s : σ) : List ε → Option σ
  | [] => some s
  | e :: es => (next s e).bind fun t => exec t es

variable {next}

@[simp] theorem execNil (s : σ) : exec next s [] = some s := rfl

@[simp] theorem execCons (s : σ) (e : ε) (es : List ε) :
    exec next s (e :: es) = (next s e).bind fun t => exec next t es := rfl

theorem execAppend (s : σ) (es fs : List ε) :
    exec next s (es ++ fs) = (exec next s es).bind fun t => exec next t fs := by
  induction es generalizing s with
  | nil => rfl
  | cons e es ih =>
    simp only [List.cons_append,execCons,Option.bind_assoc]
    congr 1
    funext t
    exact ih t

theorem execSnoc {s : σ} {es : List ε} {e : ε} {u : σ} :
    exec next s (es ++ [e]) = some u ↔ ∃ t, exec next s es = some t ∧ next t e = some u := by
  simp [execAppend,Option.bind_eq_some_iff]

theorem execSplit {s u : σ} {es fs : List ε} (run : exec next s (es ++ fs) = some u) :
    ∃ t, exec next s es = some t ∧ exec next t fs = some u := by
  rw [execAppend] at run
  exact Option.bind_eq_some_iff.mp run

/- The invariant may speak of the labels executed so far. The induction adds the
last label, so a step lemma sees the whole history before it. -/
theorem history {I : List ε → σ → Prop} {s : σ} (start : I [] s)
    (step : ∀ es t e u, I es t → next t e = some u → I (es ++ [e]) u)
    {es : List ε} {t : σ} (run : exec next s es = some t) : I es t := by
  induction es using List.reverseRecOn generalizing t with
  | nil => cases Option.some.inj run; exact start
  | append_singleton es e ih =>
    obtain ⟨middle,before,last⟩ := execSnoc.mp run
    exact step es middle e t (ih before) last

theorem invariant {I : σ → Prop} {s : σ} (start : I s)
    (step : ∀ t e u, I t → next t e = some u → I u)
    {es : List ε} {t : σ} (run : exec next s es = some t) : I t :=
  history (I := fun _ => I) start (fun _ => step) run

/- A map of states that commutes with every step from an invariant state commutes with
every execution: the two machines admit the same labels and stay related. -/
theorem execMap {τ : Type*} {next' : τ → ε → Option τ} {f : σ → τ} {I : σ → Prop}
    (keep : ∀ s e t, I s → next s e = some t → I t) (commutes : ∀ s e, I s → (next s e).map f = next' (f s) e)
    {s : σ} (start : I s) (es : List ε) : (exec next s es).map f = exec next' (f s) es := by
  induction es generalizing s with
  | nil => rfl
  | cons e es ih =>
    rw [execCons,execCons,← commutes s e start]
    cases step : next s e with
    | none => rfl
    | some t => exact ih (keep s e t start step)

/- Forward simulation: a step of the one machine keeps the related state of the other, or
goes along with a step of it. -/
theorem simulates {τ δ : Type*} {next' : τ → δ → Option τ} {R : σ → τ → Prop} {P : δ → Prop}
    (step : ∀ s a e t, R s a → next s e = some t → R t a ∨ ∃ d b, P d ∧ next' a d = some b ∧ R t b)
    {s t : σ} {a : τ} {es : List ε} (start : R s a) (run : exec next s es = some t) :
    ∃ ds b, (∀ d ∈ ds, P d) ∧ exec next' a ds = some b ∧ R t b := by
  induction es generalizing s a with
  | nil => cases Option.some.inj run; exact ⟨[],a,by simp,rfl,start⟩
  | cons e es ih =>
    obtain ⟨middle,first,rest⟩ := Option.bind_eq_some_iff.mp run
    rcases step s a e middle start first with same | ⟨d,c,meets,moved,related⟩
    · exact ih same rest
    · obtain ⟨ds,b,all,followed,last⟩ := ih related rest
      exact ⟨d :: ds,b,List.forall_mem_cons.mpr ⟨meets,all⟩,by rw [execCons,moved]; exact followed,last⟩

theorem execView {τ δ : Type*} {next' : τ → δ → Option τ} {f : σ → τ} {g : ε → Option δ}
    (shows_ : ∀ s e t d, next s e = some t → g e = some d → next' (f s) d = some (f t))
    (hides : ∀ s e t, next s e = some t → g e = none → f t = f s) {s t : σ} {es : List ε}
    (run : exec next s es = some t) : exec next' (f s) (es.filterMap g) = some (f t) := by
  induction es generalizing s with
  | nil => cases Option.some.inj run; rfl
  | cons e es ih =>
    obtain ⟨middle,first,rest⟩ := Option.bind_eq_some_iff.mp run
    have tail := ih rest
    cases seen : g e with
    | none =>
      rw [List.filterMap_cons_none seen,← hides s e middle first seen]
      exact tail
    | some d =>
      rw [List.filterMap_cons_some seen,execCons,shows_ s e middle d first seen]
      exact tail

variable (next) in
def deeds {δ : Type*} (see : σ → ε → Option δ) : σ → List ε → List δ
  | _, [] => []
  | s, e :: es => match next s e with
    | none => []
    | some t => (see s e).toList ++ deeds see t es

theorem deedFollowed {τ δ : Type*} {next' : τ → δ → Option τ} {a b : τ} {d : Option δ} {e : δ} (seen : d = some e)
    (followed : next' a e = some b) : exec next' a d.toList = some b := by
  rw [seen]
  exact (Option.bind_eq_some_iff.mpr ⟨b,followed,rfl⟩ : exec next' a [e] = some b)

theorem deedSilent {τ δ : Type*} {next' : τ → δ → Option τ} {a : τ} {d : Option δ} (seen : d = none) :
    exec next' a d.toList = some a := by
  rw [seen]
  rfl

/- Refinement with the deeds named: where every step is followed by what it is seen to do,
every execution is followed by its deeds. -/
theorem refines {τ δ : Type*} {next' : τ → δ → Option τ} {see : σ → ε → Option δ} {R : σ → τ → Prop}
    (step : ∀ s a e t, R s a → next s e = some t → ∃ b, exec next' a (see s e).toList = some b ∧ R t b)
    {s t : σ} {a : τ} {es : List ε} (start : R s a) (run : exec next s es = some t) :
    ∃ b, exec next' a (deeds next see s es) = some b ∧ R t b := by
  induction es generalizing s a with
  | nil => cases Option.some.inj run; exact ⟨a,rfl,start⟩
  | cons e es ih =>
    obtain ⟨middle,first,rest⟩ := Option.bind_eq_some_iff.mp run
    obtain ⟨c,followed,related⟩ := step s a e middle start first
    obtain ⟨b,later,last⟩ := ih related rest
    refine ⟨b,?_,last⟩
    rw [deeds,first,execAppend,followed]
    exact later

variable (next) in
/- Every step an execution takes satisfies P, which sees the state before, the label
and the state after. -/
def Along (P : σ → ε → σ → Prop) : σ → List ε → Prop
  | _, [] => True
  | s, e :: es => ∀ t, next s e = some t → P s e t ∧ Along P t es

theorem alongCons {P : σ → ε → σ → Prop} {s t : σ} {e : ε} {es : List ε} (step : next s e = some t) :
    Along next P s (e :: es) ↔ P s e t ∧ Along next P t es := by
  constructor
  · intro along
    exact along t step
  · rintro both u other
    cases Option.some.inj (step.symm.trans other)
    exact both

theorem alongCongr {P Q : σ → ε → σ → Prop} (agree : ∀ s e t, next s e = some t → (P s e t ↔ Q s e t)) {s : σ}
    {es : List ε} : Along next P s es ↔ Along next Q s es := by
  induction es generalizing s with
  | nil => exact Iff.rfl
  | cons e es ih => exact forall_congr' fun t => imp_congr_right fun step => and_congr (agree s e t step) ih

theorem alongSnoc {P : σ → ε → σ → Prop} {s t u : σ} {es : List ε} {e : ε} (run : exec next s es = some t)
    (step : next t e = some u) : Along next P s (es ++ [e]) ↔ Along next P s es ∧ P t e u := by
  induction es generalizing s with
  | nil =>
    cases Option.some.inj run
    rw [List.nil_append,alongCons step]
    exact ⟨fun both => ⟨True.intro,both.1⟩,fun both => ⟨both.2,True.intro⟩⟩
  | cons f es ih =>
    obtain ⟨middle,first,rest⟩ := Option.bind_eq_some_iff.mp run
    rw [List.cons_append,alongCons first,alongCons first,ih rest,and_assoc]

theorem alongReached {P : σ → ε → σ → Prop} {s t : σ} {es : List ε}
    (step : ∀ es t e u, exec next s es = some t → next t e = some u → P t e u) (run : exec next s es = some t) :
    Along next P s es := by
  have both : exec next s es = some t ∧ Along next P s es := by
    refine history (I := fun es t => exec next s es = some t ∧ Along next P s es) ⟨rfl,True.intro⟩ ?_ run
    intro es t e u before last
    exact ⟨execSnoc.mpr ⟨t,before.1,last⟩,(alongSnoc before.1 last).mpr ⟨before.2,step es t e u before.1 last⟩⟩
  exact both.2

variable (next) in
def check (p : σ → ε → Bool) : σ → List ε → Bool
  | _, [] => true
  | s, e :: es => p s e && (next s e).all fun t => check p t es

theorem checkMap {τ : Type*} {next' : τ → ε → Option τ} {f : σ → τ} {I : σ → Prop} {p : σ → ε → Bool} {q : τ → ε → Bool}
    (keep : ∀ s e t, I s → next s e = some t → I t) (commutes : ∀ s e, I s → (next s e).map f = next' (f s) e)
    (agree : ∀ s e, p s e = q (f s) e) {s : σ} (start : I s) (es : List ε) :
    check next p s es = check next' q (f s) es := by
  induction es generalizing s with
  | nil => rfl
  | cons e es ih =>
    rw [check,check,agree,← commutes s e start]
    cases step : next s e with
    | none => rfl
    | some t => exact congrArg (q (f s) e && ·) (ih (keep s e t start step))

theorem alongKept {I : σ → Prop} {p : σ → ε → Bool} {P : σ → ε → σ → Prop}
    (keep : ∀ s e t, I s → p s e = true → next s e = some t → I t) (sound : ∀ s e t, I s → p s e = true → P s e t)
    {s : σ} {es : List ε} (start : I s) (checked : check next p s es = true) : Along next P s es := by
  induction es generalizing s with
  | nil => exact True.intro
  | cons e es ih =>
    intro t step
    simp only [check,step,Option.all_some,Bool.and_eq_true] at checked
    exact ⟨sound s e t start checked.1,ih (keep s e t start checked.1 step) checked.2⟩

theorem alongChecked {p : σ → ε → Bool} {P : σ → ε → σ → Prop} (sound : ∀ s e t, p s e = true → P s e t) {s : σ}
    {es : List ε} (checked : check next p s es = true) : Along next P s es :=
  alongKept (I := fun _ => True) (fun _ _ _ _ _ _ => True.intro) (fun s e t _ now => sound s e t now) True.intro checked

theorem invariantAlong {I : σ → Prop} {P : σ → ε → σ → Prop} {s t : σ} {es : List ε} (start : I s)
    (step : ∀ s e t, I s → P s e t → next s e = some t → I t) (run : exec next s es = some t)
    (along : Along next P s es) : I t := by
  induction es generalizing s with
  | nil => cases Option.some.inj run; exact start
  | cons e es ih =>
    obtain ⟨middle,first,rest⟩ := Option.bind_eq_some_iff.mp run
    obtain ⟨here,later⟩ := along middle first
    exact ih (step s e middle start here first) rest later

theorem alongIff {I : σ → Prop} {P Q : σ → ε → σ → Prop} {s t : σ} {es : List ε} (start : I s)
    (agree : ∀ s e t, I s → next s e = some t → (P s e t ↔ Q s e t))
    (keep : ∀ s e t, I s → Q s e t → next s e = some t → I t) (run : exec next s es = some t) :
    Along next P s es ↔ Along next Q s es := by
  induction es generalizing s with
  | nil => exact Iff.rfl
  | cons e es ih =>
    obtain ⟨middle,first,rest⟩ := Option.bind_eq_some_iff.mp run
    rw [alongCons first,alongCons first,agree s e middle start first]
    constructor
    · rintro ⟨here,later⟩
      exact ⟨here,(ih (keep s e middle start here first) rest).mp later⟩
    · rintro ⟨here,later⟩
      exact ⟨here,(ih (keep s e middle start here first) rest).mpr later⟩

variable (next) in
def carry {β : Type*} (see : σ → ε → σ → β → β) : σ → List ε → β → β
  | _, [], b => b
  | s, e :: es, b => match next s e with
    | none => b
    | some t => carry see t es (see s e t b)

theorem carryAppend {β : Type*} {see : σ → ε → σ → β → β} {s t : σ} {es : List ε} (run : exec next s es = some t)
    (fs : List ε) (b : β) : carry next see s (es ++ fs) b = carry next see t fs (carry next see s es b) := by
  induction es generalizing s b with
  | nil => cases Option.some.inj run; rfl
  | cons e es ih =>
    obtain ⟨middle,first,rest⟩ := Option.bind_eq_some_iff.mp run
    rw [List.cons_append,carry,carry,first]
    exact ih rest (see s e middle b)

theorem carryAlong {β : Type*} {see : σ → ε → σ → β → β} {I : σ → β → Prop} {P : σ → ε → σ → Prop} {s t : σ} {b : β}
    {es : List ε} (start : I s b) (step : ∀ s b e t, I s b → P s e t → next s e = some t → I t (see s e t b))
    (run : exec next s es = some t) (along : Along next P s es) : I t (carry next see s es b) := by
  induction es generalizing s b with
  | nil => cases Option.some.inj run; exact start
  | cons e es ih =>
    obtain ⟨middle,first,rest⟩ := Option.bind_eq_some_iff.mp run
    obtain ⟨here,later⟩ := along middle first
    rw [carry,first]
    exact ih (step s b e middle start here first) rest later

variable (next) in
def CanReach (goal : σ → Prop) (s : σ) : Prop := ∃ es t, exec next s es = some t ∧ goal t

theorem reachNow {goal : σ → Prop} {s : σ} (here : goal s) : CanReach next goal s := ⟨[],s,rfl,here⟩

theorem reachStep {goal : σ → Prop} {s t : σ} {e : ε} (step : next s e = some t) (rest : CanReach next goal t) :
    CanReach next goal s := by
  obtain ⟨es,u,run,there⟩ := rest
  exact ⟨e :: es,u,by rw [execCons,step]; exact run,there⟩

theorem reachThen {middle goal : σ → Prop} {s : σ} (first : CanReach next middle s)
    (rest : ∀ t, middle t → CanReach next goal t) : CanReach next goal s := by
  obtain ⟨es,t,run,here⟩ := first
  obtain ⟨fs,u,later,there⟩ := rest t here
  exact ⟨es ++ fs,u,by rw [execAppend,run]; exact later,there⟩

variable (next) in
def Repeats (e : ε) (goal : σ → Prop) (s : σ) : Prop :=
  ∃ k t, exec next s (List.replicate k e) = some t ∧ goal t

theorem repeatsNow {e : ε} {goal : σ → Prop} {s : σ} (here : goal s) : Repeats next e goal s := ⟨0,s,rfl,here⟩

theorem repeatsStep {e : ε} {goal : σ → Prop} {s t : σ} (step : next s e = some t) (rest : Repeats next e goal t) :
    Repeats next e goal s := by
  obtain ⟨k,u,run,there⟩ := rest
  exact ⟨k+1,u,by rw [List.replicate_succ,execCons,step]; exact run,there⟩

theorem repeatsThen {e : ε} {middle goal : σ → Prop} {s : σ} (first : Repeats next e middle s)
    (rest : ∀ t, middle t → Repeats next e goal t) : Repeats next e goal s := by
  obtain ⟨k,t,run,here⟩ := first
  obtain ⟨l,u,later,there⟩ := rest t here
  refine ⟨k+l,u,?_,there⟩
  rw [List.replicate_add,execAppend,run]
  exact later

theorem neverReach {I goal : σ → Prop} {s : σ} (start : I s) (keep : ∀ s e t, I s → next s e = some t → I t)
    (avoid : ∀ t, I t → ¬ goal t) : ¬ CanReach next goal s := by
  rintro ⟨es,t,run,there⟩
  exact avoid t (invariant start keep run) there

/- Balance rule: a quantity that no step raises by more than its gain, less what
the step takes out, pays for everything taken out over a whole execution. -/
theorem balance {I : σ → Prop} {level : σ → Int} {gain loss : ε → Int}
    (keep : ∀ t e u, I t → next t e = some u → I u)
    (step : ∀ t e u, I t → next t e = some u → level u + loss e ≤ level t + gain e)
    {s t : σ} {es : List ε} (start : I s) (run : exec next s es = some t) :
    level t + (es.map loss).sum ≤ level s + (es.map gain).sum := by
  induction es generalizing s with
  | nil => cases Option.some.inj run; simp
  | cons e es ih =>
    obtain ⟨middle,first,rest⟩ := Option.bind_eq_some_iff.mp run
    have head := step s e middle start first
    have tail := ih (keep s e middle start first) rest
    simp only [List.map_cons,List.sum_cons]
    omega

theorem bindOk {α β δ : Type} {x : Except δ α} {f : α → Except δ β} {r : β} (h : x >>= f = .ok r) :
    ∃ a, x = .ok a ∧ f a = .ok r := by
  cases x with
  | error e => cases h
  | ok a => exact ⟨a,rfl,h⟩

end Execution
