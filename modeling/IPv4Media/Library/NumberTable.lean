import Mathlib.Data.List.Basic

/-! A table that hands out the lowest free number. Entry n is whom number n was given
to; numbers past the end are free. -/
namespace NumberTable

variable {α κ : Type*}

def holder (table : List (Option α)) (n : Nat) : Option α := table[n]?.join

def lowestFree (table : List (Option α)) : Nat := table.findIdx Option.isNone

def allot (table : List (Option α)) (a : α) : List (Option α) :=
  if lowestFree table < table.length then table.set (lowestFree table) (some a) else table ++ [some a]

def release (table : List (Option α)) (n : Nat) : List (Option α) := table.set n none

theorem holderPast {table : List (Option α)} {n : Nat} (past : table.length ≤ n) : holder table n = none := by
  rw [holder,List.getElem?_eq_none past]
  rfl

theorem lowestFreeIsFree (table : List (Option α)) : holder table (lowestFree table) = none := by
  by_cases inside : lowestFree table < table.length
  · have free : table[lowestFree table].isNone = true := List.findIdx_getElem
    rw [holder,List.getElem?_eq_getElem inside,Option.join_some]
    exact Option.isNone_iff_eq_none.mp free
  · exact holderPast (Nat.le_of_not_lt inside)

theorem holderAllot (table : List (Option α)) (a : α) (n : Nat) :
    holder (allot table a) n = if n = lowestFree table then some a else holder table n := by
  unfold allot
  split
  · rename_i inside
    rw [holder,List.getElem?_set]
    by_cases here : lowestFree table = n
    · rw [if_pos here,if_pos inside,if_pos here.symm]
      rfl
    · rw [if_neg here,if_neg (Ne.symm here)]
      rfl
  · rename_i full
    have last : lowestFree table = table.length :=
      Nat.le_antisymm List.findIdx_le_length (Nat.le_of_not_lt full)
    rw [last]
    rcases Nat.lt_trichotomy n table.length with before | at_ | past
    · rw [if_neg (by omega),holder,List.getElem?_append_left before]
      rfl
    · subst at_
      rw [if_pos rfl,holder,List.getElem?_concat_length]
      rfl
    · rw [if_neg (by omega),holderPast (Nat.le_of_lt past)]
      exact holderPast (by rw [List.length_append,List.length_singleton]; omega)

theorem holderRelease (table : List (Option α)) (n m : Nat) :
    holder (release table n) m = if m = n then none else holder table m := by
  rw [holder,release,List.getElem?_set]
  by_cases same : n = m
  · rw [if_pos same,if_pos same.symm]
    split <;> rfl
  · rw [if_neg same,if_neg (Ne.symm same)]
    rfl

def Exclusive (tag : κ → α) (table : List (Option α)) (held : κ → Option Nat) : Prop :=
  ∀ k n, holder table n = some (tag k) ↔ held k = some n

variable {tag : κ → α} {table : List (Option α)} {held held' : κ → Option Nat}

theorem exclusiveAllot (injective : Function.Injective tag) (agree : Exclusive tag table held) {k : κ}
    (without : held k = none) (now : held' k = some (lowestFree table))
    (others : ∀ j, j ≠ k → held' j = held j) : Exclusive tag (allot table (tag k)) held' := by
  intro j n
  rw [holderAllot]
  by_cases user : j = k
  · subst user
    rw [now]
    have before : holder table n ≠ some (tag j) := by
      intro there
      rw [(agree j n).mp there] at without
      contradiction
    by_cases here : n = lowestFree table
    · simp [here]
    · simp only [if_neg here,before,false_iff,Option.some.injEq]
      exact Ne.symm here
  · rw [others j user]
    by_cases here : n = lowestFree table
    · have free : held j ≠ some n := by
        intro knows
        have taken := (agree j n).mpr knows
        rw [here,lowestFreeIsFree] at taken
        contradiction
      rw [if_pos here,Option.some.injEq]
      simp only [free,iff_false]
      exact fun same => user (injective same).symm
    · rw [if_neg here]
      exact agree j n

theorem exclusiveRelease (injective : Function.Injective tag) (agree : Exclusive tag table held) {k : κ} {n : Nat}
    (before : held k = some n) (now : held' k = none) (others : ∀ j, j ≠ k → held' j = held j) :
    Exclusive tag (release table n) held' := by
  intro j m
  rw [holderRelease]
  by_cases user : j = k
  · subst user
    rw [now]
    by_cases here : m = n
    · simp [here]
    · rw [if_neg here,agree j m,before]
      simp [Ne.symm here]
  · rw [others j user,← agree j m]
    by_cases here : m = n
    · subst here
      have known : holder table m ≠ some (tag j) := by
        rw [(agree k m).mpr before]
        exact fun same => user (injective (Option.some.inj same)).symm
      simp [known]
    · rw [if_neg here]

theorem exclusiveSame (agree : Exclusive tag table held) (same : ∀ j, held' j = held j) :
    Exclusive tag table held' := by
  intro j n
  rw [same j]
  exact agree j n

theorem exclusiveAllotOther (agree : Exclusive tag table held) {a : α} (stranger : ∀ k, a ≠ tag k) :
    Exclusive tag (allot table a) held := by
  intro j n
  rw [holderAllot,← agree j n]
  by_cases here : n = lowestFree table
  · rw [if_pos here,here,lowestFreeIsFree]
    simp [stranger j]
  · rw [if_neg here]

theorem exclusiveReleaseOther (agree : Exclusive tag table held) {a : α} {n : Nat} (stranger : ∀ k, a ≠ tag k)
    (theirs : holder table n = some a) : Exclusive tag (release table n) held := by
  intro j m
  rw [holderRelease,← agree j m]
  by_cases here : m = n
  · rw [if_pos here,here,theirs]
    simp [stranger j]
  · rw [if_neg here]

end NumberTable
