import Mathlib.Order.Interval.Finset.Nat
import Mathlib.Data.Finset.Card
import Mathlib.Data.List.Nodup
import Mathlib.Tactic.Common

/-! Gaps in an increasing list of naturals: the numbers strictly between its first
and last element that it does not hold, and how they change when elements are left
out of the list. -/
namespace Gaps

def inner (l : List Nat) : Finset Nat :=
  match l.head?, l.getLast? with
  | some first, some last => Finset.Ioo first last
  | _, _ => ∅

def missing (l : List Nat) : Nat := ((inner l).filter fun i => i ∉ l).card

abbrev Increasing (l : List Nat) : Prop := l.Pairwise (fun a b => a < b)

theorem innerCons (a : Nat) (l : List Nat) :
    inner (a::l) = Finset.Ioo a ((a::l).getLast (List.cons_ne_nil a l)) := by
  simp only [inner,List.head?_cons,List.getLast?_eq_some_getLast (List.cons_ne_nil a l)]

theorem headLeast {a x : Nat} {l : List Nat} (inc : Increasing (a::l)) (member : x ∈ a::l) : a ≤ x := by
  rcases List.mem_cons.mp member with rfl | later
  · exact Nat.le_refl _
  · exact Nat.le_of_lt ((List.pairwise_cons.mp inc).1 x later)

theorem lastGreatest {x : Nat} {l : List Nat} (inc : Increasing l) (some_ : l ≠ []) (member : x ∈ l) :
    x ≤ l.getLast some_ := by
  rw [← List.dropLast_append_getLast some_] at inc member
  rcases List.mem_append.mp member with before | last
  · exact Nat.le_of_lt ((List.pairwise_append.mp inc).2.2 x before _ (List.mem_singleton_self _))
  · exact Nat.le_of_eq (List.mem_singleton.mp last)

theorem missingCount {a : Nat} {l : List Nat} (inc : Increasing (a::l)) :
    missing (a::l) + l.length = (a::l).getLast (List.cons_ne_nil a l) - a := by
  have above := (List.pairwise_cons.mp inc).1
  have tail := (List.pairwise_cons.mp inc).2
  have ends := List.getLast_mem (List.cons_ne_nil a l)
  generalize hlast : (a::l).getLast (List.cons_ne_nil a l) = last at *
  have shift : (inner (a::l)).filter (fun i => i ∉ a::l) = Finset.Ioc a last \ l.toFinset := by
    rw [innerCons,hlast]
    ext i
    simp only [Finset.mem_filter,Finset.mem_Ioo,Finset.mem_sdiff,Finset.mem_Ioc,List.mem_toFinset,List.mem_cons]
    constructor
    · rintro ⟨⟨low,high⟩,out⟩
      exact ⟨⟨low,Nat.le_of_lt high⟩,fun inside => out (.inr inside)⟩
    · rintro ⟨⟨low,high⟩,out⟩
      have before : i ≠ last := by
        rintro rfl
        rcases List.mem_cons.mp ends with same | inside
        · omega
        · exact out inside
      exact ⟨⟨low,by omega⟩,fun either => either.elim (by omega) out⟩
  have inside : l.toFinset ⊆ Finset.Ioc a last := by
    intro x member
    rw [List.mem_toFinset] at member
    have most := lastGreatest inc (List.cons_ne_nil a l) (List.mem_cons_of_mem a member)
    rw [hlast] at most
    exact Finset.mem_Ioc.mpr ⟨above x member,most⟩
  have distinct : l.Nodup := tail.imp (fun below => Nat.ne_of_lt below)
  have count := Finset.card_sdiff_add_card_eq_card inside
  rw [List.toFinset_card_of_nodup distinct,Nat.card_Ioc] at count
  rw [missing,shift,count]

theorem innerSublist {part l : List Nat} (sub : part.Sublist l) (inc : Increasing l) : inner part ⊆ inner l := by
  cases part with
  | nil => simp [inner]
  | cons b part =>
    cases l with
    | nil => cases sub
    | cons a l =>
      have first := headLeast inc (sub.subset (List.mem_cons_self))
      have last := lastGreatest inc (List.cons_ne_nil a l) (sub.subset (List.getLast_mem (List.cons_ne_nil b part)))
      rw [innerCons,innerCons]
      exact Finset.Ioo_subset_Ioo first last

theorem innerFront {part rest : List Nat} (inc : Increasing (part ++ rest)) {i : Nat} (inside : i ∈ inner part)
    (member : i ∈ part ++ rest) : i ∈ part := by
  cases part with
  | nil => simp [inner] at inside
  | cons a part =>
    rcases List.mem_append.mp member with here | later
    · exact here
    · rw [innerCons,Finset.mem_Ioo] at inside
      have last := List.getLast_mem (List.cons_ne_nil a part)
      have below := (List.pairwise_append.mp inc).2.2 _ last i later
      omega

theorem flattenGaps {α : Type*} {f : Nat → List α} {a : Nat} {l : List Nat} (inc : Increasing (a::l))
    (silent : ∀ i ∈ inner (a::l), i ∉ a::l → f i = []) :
    ∃ n, ((a::l).map f).flatten = ((List.range' a n).map f).flatten := by
  induction l generalizing a with
  | nil => exact ⟨1,rfl⟩
  | cons b l ih =>
    have above := (List.pairwise_cons.mp inc).1 b List.mem_cons_self
    have tail := (List.pairwise_cons.mp inc).2
    have first : ∀ i ∈ b::l, b ≤ i := fun i member => headLeast tail member
    have last : (a::b::l).getLast (List.cons_ne_nil a (b::l)) = (b::l).getLast (List.cons_ne_nil b l) :=
      List.getLast_cons (List.cons_ne_nil b l)
    have most := lastGreatest tail (List.cons_ne_nil b l) List.mem_cons_self
    rw [innerCons,last] at silent
    obtain ⟨n,shown⟩ := ih tail fun i inside absent => by
      rw [innerCons,Finset.mem_Ioo] at inside
      refine silent i (Finset.mem_Ioo.mpr ⟨by omega,inside.2⟩) fun member => ?_
      rcases List.mem_cons.mp member with same | later
      · omega
      · exact absent later
    have between : ((List.range' (a+1) (b-(a+1))).map f).flatten = [] := by
      rw [List.flatten_eq_nil_iff]
      intro shows member
      obtain ⟨i,inside,rfl⟩ := List.mem_map.mp member
      obtain ⟨low,high⟩ := List.mem_range'_1.mp inside
      refine silent i (Finset.mem_Ioo.mpr ⟨by omega,by omega⟩) fun among => ?_
      rcases List.mem_cons.mp among with same | later
      · omega
      · have least := first i later
        omega
    refine ⟨(b-(a+1)) + n + 1,?_⟩
    have joined : a + 1 + (b-(a+1)) = b := by omega
    have split : List.range' a (b - (a+1) + n + 1) = a :: (List.range' (a+1) (b-(a+1)) ++ List.range' b n) := by
      rw [List.range'_succ,← List.range'_append_1,joined]
    calc ((a::b::l).map f).flatten = f a ++ ((b::l).map f).flatten := rfl
      _ = f a ++ (((List.range' (a+1) (b-(a+1))).map f).flatten ++ ((List.range' b n).map f).flatten) := by
        rw [between,shown,List.nil_append]
      _ = ((List.range' a (b - (a+1) + n + 1)).map f).flatten := by
        rw [split,List.map_cons,List.flatten_cons,List.map_append,List.flatten_append]

/- Leaving elements out of a list turns those inside the rest into gaps, and no longer
counts the gaps outside the rest. -/
def added (part l : List Nat) : Nat := ((inner part).filter fun i => i ∈ l ∧ i ∉ part).card
def forgotten (part l : List Nat) : Nat := ((inner l).filter fun i => i ∉ l ∧ i ∉ inner part).card

theorem missingSublist {part l : List Nat} (sub : part.Sublist l) (inc : Increasing l) :
    missing part + forgotten part l = missing l + added part l := by
  have outer : missing l = ((inner part).filter fun i => i ∉ l).card + forgotten part l := by
    have split := Finset.card_filter_add_card_filter_not (s := (inner l).filter fun i => i ∉ l)
      (fun i => i ∈ inner part)
    rw [Finset.filter_filter,Finset.filter_filter] at split
    have same : (inner l).filter (fun i => i ∉ l ∧ i ∈ inner part) = (inner part).filter fun i => i ∉ l := by
      ext i
      simp only [Finset.mem_filter]
      exact ⟨fun h => ⟨h.2.2,h.2.1⟩,fun h => ⟨innerSublist sub inc h.1,h.2,h.1⟩⟩
    rw [same] at split
    exact split.symm
  have inside : missing part = ((inner part).filter fun i => i ∉ l).card + added part l := by
    have split := Finset.card_filter_add_card_filter_not (s := (inner part).filter fun i => i ∉ part)
      (fun i => i ∉ l)
    rw [Finset.filter_filter,Finset.filter_filter] at split
    have away : (inner part).filter (fun i => i ∉ part ∧ i ∉ l) = (inner part).filter fun i => i ∉ l := by
      ext i
      simp only [Finset.mem_filter]
      exact ⟨fun h => ⟨h.1,h.2.2⟩,fun h => ⟨h.1,fun member => h.2 (sub.subset member),h.2⟩⟩
    have dropped : (inner part).filter (fun i => i ∉ part ∧ ¬ i ∉ l) =
        (inner part).filter fun i => i ∈ l ∧ i ∉ part := by
      ext i
      simp only [Finset.mem_filter,not_not]
      exact ⟨fun h => ⟨h.1,h.2.2,h.2.1⟩,fun h => ⟨h.1,h.2.2,h.2.1⟩⟩
    rw [away,dropped] at split
    exact split.symm
  omega

end Gaps
