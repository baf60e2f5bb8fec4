import Mathlib.Logic.Function.Basic
import Mathlib.Logic.Relation

/-! Non-recursive mutexes taken and released in nested sections, and waiting for them.
Each thread has the list of the mutexes it holds, the last one taken first. -/
namespace Locking

variable {T L : Type*}

def Agree (holder : L → Option T) (held : T → List L) : Prop := ∀ l t, holder l = some t ↔ l ∈ held t

section discipline
variable [DecidableEq L] {holder : L → Option T} {held held' : T → List L} {t : T} {l : L}

theorem agreeLock (agree : Agree holder held) (free : holder l = none) (now : held' t = l :: held t)
    (others : ∀ u, u ≠ t → held' u = held u) : Agree (Function.update holder l (some t)) held' := by
  intro m u
  by_cases same : m = l
  · subst same
    rw [Function.update_self]
    by_cases mine : u = t
    · subst mine
      simp [now]
    · have without : m ∉ held u := by
        intro has
        rw [(agree m u).mpr has] at free
        contradiction
      simp [others u mine,without,Ne.symm mine]
  · rw [Function.update_of_ne same,agree m u]
    by_cases mine : u = t
    · subst mine
      simp [now,same]
    · rw [others u mine]

theorem agreeUnlock (agree : Agree holder held) (before : held t = l :: held' t) (once : l ∉ held' t)
    (others : ∀ u, u ≠ t → held' u = held u) : Agree (Function.update holder l none) held' := by
  intro m u
  by_cases same : m = l
  · subst same
    rw [Function.update_self]
    by_cases mine : u = t
    · subst mine
      simp [once]
    · have owner : holder m = some t := (agree m t).mpr (by rw [before]; exact List.mem_cons_self)
      have without : m ∉ held u := by
        intro has
        rw [(agree m u).mpr has] at owner
        exact mine (Option.some.inj owner)
      simp [others u mine,without]
  · rw [Function.update_of_ne same,agree m u]
    by_cases mine : u = t
    · subst mine
      simp [before,same]
    · rw [others u mine]

omit [DecidableEq L] in
theorem agreeStay (agree : Agree holder held) (same : ∀ u, held' u = held u) : Agree holder held' := by
  intro m u
  rw [same u]
  exact agree m u

structure Disciplined (holder : L → Option T) (held : T → List L) : Prop where
  agree : Agree holder held
  once : ∀ t, (held t).Nodup

omit [DecidableEq L] in
theorem disciplinedStay (disciplined : Disciplined holder held) (same : ∀ u, held' u = held u) :
    Disciplined holder held' := by
  refine ⟨agreeStay disciplined.agree same,fun u => ?_⟩
  rw [same u]
  exact disciplined.once u

/- What one step of a thread does to the mutexes, and to the list of those it holds. -/
inductive LockStep (holder : L → Option T) (t : T) (before after : List L) : (L → Option T) → Prop where
  | stay (same : after = before) : LockStep holder t before after holder
  | took (l : L) (free : holder l = none) (now : after = l :: before) :
      LockStep holder t before after (Function.update holder l (some t))
  | gave (l : L) (had : before = l :: after) : LockStep holder t before after (Function.update holder l none)

theorem disciplinedStep {holder' : L → Option T} (disciplined : Disciplined holder held)
    (step : LockStep holder t (held t) (held' t) holder') (others : ∀ u, u ≠ t → held' u = held u) :
    Disciplined holder' held' := by
  have once : (held' t).Nodup := by
    have before := disciplined.once t
    cases step with
    | stay same =>
      rw [same]
      exact before
    | took l free now =>
      have without : l ∉ held t := by
        intro has
        rw [(disciplined.agree l t).mpr has] at free
        contradiction
      rw [now]
      exact List.nodup_cons.mpr ⟨without,before⟩
    | gave l had =>
      rw [had] at before
      exact (List.nodup_cons.mp before).2
  constructor
  · cases step with
    | stay same =>
      intro l u
      by_cases mine : u = t
      · rw [mine,same]
        exact disciplined.agree l t
      · rw [others u mine]
        exact disciplined.agree l u
    | took l free now => exact agreeLock disciplined.agree free now others
    | gave l had =>
      have before := disciplined.once t
      rw [had] at before
      exact agreeUnlock disciplined.agree had (List.nodup_cons.mp before).1 others
  · intro u
    by_cases mine : u = t
    · rw [mine]
      exact once
    · rw [others u mine]
      exact disciplined.once u

/- A handler works above what the thread it runs on holds. -/
theorem lockStepAbove {before after : List L} {holder' : L → Option T} (step : LockStep holder t before after holder')
    (below : List L) : LockStep holder t (before ++ below) (after ++ below) holder' := by
  cases step with
  | stay same => exact .stay (by rw [same])
  | took l free now => exact .took l free (by rw [now,List.cons_append])
  | gave l had => exact .gave l (by rw [had,List.cons_append])

omit [DecidableEq L] in
theorem oneHolder (agree : Agree holder held) {u : T} (mine : l ∈ held t) (theirs : l ∈ held u) : t = u := by
  have owner := (agree l t).mpr mine
  rw [(agree l u).mpr theirs] at owner
  exact (Option.some.inj owner).symm

end discipline

def Waits (holder : L → Option T) (wants : T → Option L) (t u : T) : Prop :=
  ∃ l, wants t = some l ∧ holder l = some u

def Deadlocked (holder : L → Option T) (wants : T → Option L) : Prop :=
  ∃ t, Relation.TransGen (Waits holder wants) t t

variable {holder : L → Option T} {wants : T → Option L}

theorem rankedFree (rank : T → Nat) (up : ∀ t u, Waits holder wants t u → rank t < rank u) :
    ¬ Deadlocked holder wants := by
  rintro ⟨t,cycle⟩
  have climbs : ∀ {u}, Relation.TransGen (Waits holder wants) t u → rank t < rank u := by
    intro u path
    induction path with
    | single edge => exact up _ _ edge
    | tail _ edge ih => exact Nat.lt_trans ih (up _ _ edge)
  exact Nat.lt_irrefl _ (climbs cycle)

theorem crossed {t u : T} (one : Waits holder wants t u) (two : Waits holder wants u t) : Deadlocked holder wants :=
  ⟨t,.tail (.single one) two⟩

end Locking
