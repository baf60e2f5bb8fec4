import IPv4Media.Library.Execution
import Mathlib.Algebra.BigOperators.Fin
import Mathlib.Logic.Function.Basic

/-! Machines side by side, in any order of their steps. A label names the machine that
moves, and what a machine keeps a history of goes to one log that they share. An
execution of them all is an execution of each, and the log holds each history. -/
namespace Interleaving
open Execution

variable {ι : Type*} [DecidableEq ι] {σ ε : ι → Type*} {β : Type*}

structure Joint (σ : ι → Type*) (β : Type*) where
  part : ∀ i, σ i
  log : List (ι × β)

def ofMachine (i : ι) (log : List (ι × β)) : List β :=
  log.filterMap fun entry => if entry.1 = i then some entry.2 else none

def own (i : ι) : List (Sigma ε) → List (ε i)
  | [] => []
  | e :: es => if here : e.1 = i then (here ▸ e.2) :: own i es else own i es

section
variable (next : ∀ i, σ i → ε i → Option (σ i)) (history : ∀ i, σ i → List β)

def put (s : Joint σ β) (i : ι) (t : σ i) : Joint σ β where
  part := Function.update s.part i t
  log := s.log ++ ((history i t).drop (history i (s.part i)).length).map fun b => (i,b)

def joint (s : Joint σ β) (e : Sigma ε) : Option (Joint σ β) :=
  (next e.1 (s.part e.1) e.2).map (put history s e.1)

end

variable {next : ∀ i, σ i → ε i → Option (σ i)} {history : ∀ i, σ i → List β}

theorem ofMachineAppend (i : ι) (log more : List (ι × β)) :
    ofMachine i (log ++ more) = ofMachine i log ++ ofMachine i more := List.filterMap_append

theorem ofMachineOwn (i : ι) (bs : List β) : ofMachine i (bs.map fun b => (i,b)) = bs := by
  simp [ofMachine,List.filterMap_map]

theorem ofMachineOther {i j : ι} (other : j ≠ i) (bs : List β) : ofMachine i (bs.map fun b => (j,b)) = [] := by
  simp [ofMachine,List.filterMap_map,other]

theorem ownSame (i : ι) (e : ε i) (es : List (Sigma ε)) : own i (⟨i,e⟩ :: es) = e :: own i es := by
  rw [own,dif_pos rfl]

theorem ownOther {i j : ι} (other : j ≠ i) (e : ε j) (es : List (Sigma ε)) : own i (⟨j,e⟩ :: es) = own i es := by
  rw [own,dif_neg other]

theorem jointSound {s u : Joint σ β} {e : Sigma ε} (step : joint next history s e = some u) :
    ∃ t, next e.1 (s.part e.1) e.2 = some t ∧ u = put history s e.1 t := by
  obtain ⟨t,moved,last⟩ := Option.map_eq_some_iff.mp step
  exact ⟨t,moved,last.symm⟩

@[simp] theorem putPart (s : Joint σ β) (i : ι) (t : σ i) : (put history s i t).part i = t := Function.update_self ..

theorem putOther (s : Joint σ β) {i j : ι} (other : j ≠ i) (t : σ i) : (put history s i t).part j = s.part j :=
  Function.update_of_ne other _ _

theorem jointOwn {s u : Joint σ β} {es : List (Sigma ε)} (run : exec (joint next history) s es = some u) (i : ι) :
    exec (next i) (s.part i) (own i es) = some (u.part i) := by
  induction es generalizing s with
  | nil => cases Option.some.inj run; rfl
  | cons e es ih =>
    obtain ⟨middle,step,rest⟩ := Option.bind_eq_some_iff.mp run
    obtain ⟨t,moved,rfl⟩ := jointSound step
    have tail := ih rest
    obtain ⟨j,e⟩ := e
    by_cases here : j = i
    · subst here
      rw [putPart] at tail
      rw [ownSame,execCons,moved]
      exact tail
    · rw [putOther s (Ne.symm here)] at tail
      rw [ownOther here]
      exact tail

def Logged (history : ∀ i, σ i → List β) (s : Joint σ β) : Prop := ∀ i, ofMachine i s.log = history i (s.part i)

theorem loggedStep (grows : ∀ i (s t : σ i) e, next i s e = some t → history i s <+: history i t)
    {s u : Joint σ β} {e : Sigma ε} (logged : Logged history s) (step : joint next history s e = some u) :
    Logged history u := by
  obtain ⟨t,moved,rfl⟩ := jointSound step
  obtain ⟨j,e⟩ := e
  intro i
  rw [put,ofMachineAppend,logged]
  by_cases here : j = i
  · subst here
    obtain ⟨more,whole⟩ := grows j _ _ _ moved
    simp only [ofMachineOwn,Function.update_self,← whole,List.drop_left]
  · simp only [ofMachineOther here,List.append_nil]
    rw [Function.update_of_ne (Ne.symm here)]

theorem loggedRun (grows : ∀ i (s t : σ i) e, next i s e = some t → history i s <+: history i t)
    {s u : Joint σ β} {es : List (Sigma ε)} (logged : Logged history s)
    (run : exec (joint next history) s es = some u) : Logged history u :=
  invariant logged (fun _ _ _ before step => loggedStep grows before step) run

theorem logGrows {s u : Joint σ β} {es : List (Sigma ε)} (run : exec (joint next history) s es = some u) :
    s.log <+: u.log := by
  refine invariant (I := fun u => s.log <+: u.log) (List.prefix_refl _) ?_ run
  intro t e u before step
  obtain ⟨_,_,rfl⟩ := jointSound step
  exact before.trans (List.prefix_append _ _)

theorem logSum [Fintype ι] (weight : ι → β → Nat) (log : List (ι × β)) :
    (log.map fun entry => weight entry.1 entry.2).sum = ∑ i, ((ofMachine i log).map (weight i)).sum := by
  induction log with
  | nil => simp [ofMachine]
  | cons entry log ih =>
    obtain ⟨j,b⟩ := entry
    have head : ∀ i, ((ofMachine i ((j,b) :: log)).map (weight i)).sum =
        (if j = i then weight i b else 0) + ((ofMachine i log).map (weight i)).sum := by
      intro i
      by_cases here : j = i
      · simp [ofMachine,here]
      · simp [ofMachine,here]
    simp only [List.map_cons,List.sum_cons,ih,head,Finset.sum_add_distrib,Finset.sum_ite_eq,Finset.mem_univ,if_true]

def rank (i : ι) (log : List (ι × β)) (k : Nat) : Nat := (ofMachine i (log.take k)).length

theorem rankEntry {i : ι} {log : List (ι × β)} {k : Nat} {b : β} (there : log[k]? = some (i,b)) :
    (ofMachine i log)[rank i log k]? = some b := by
  obtain ⟨inside,here⟩ := List.getElem?_eq_some_iff.mp there
  have split : ofMachine i log = ofMachine i (log.take k) ++ b :: ofMachine i (log.drop (k+1)) := by
    conv_lhs => rw [← List.take_append_drop k log,List.drop_eq_getElem_cons inside,here,ofMachineAppend]
    simp [ofMachine]
  rw [split,rank,List.getElem?_append_right (Nat.le_refl _),Nat.sub_self]
  rfl

theorem entryOf {i : ι} {log : List (ι × β)} {b : β} (member : b ∈ ofMachine i log) :
    ∃ k : Nat, log[k]? = some (i,b) := by
  obtain ⟨entry,inside,mine⟩ := List.mem_filterMap.mp member
  split at mine <;> try contradiction
  rename_i here
  obtain ⟨k,below,there⟩ := List.getElem_of_mem inside
  refine ⟨k,List.getElem?_eq_some_iff.mpr ⟨below,?_⟩⟩
  rw [there,← here,← Option.some.inj mine]

theorem rankIncreases {i : ι} {log : List (ι × β)} {k l : Nat} {b : β} (there : log[k]? = some (i,b)) (later : k < l) :
    rank i log k < rank i log l := by
  obtain ⟨inside,here⟩ := List.getElem?_eq_some_iff.mp there
  obtain ⟨m,rfl⟩ := Nat.exists_eq_add_of_lt later
  have split : log.take (k+m+1) = log.take k ++ (i,b) :: (log.drop (k+1)).take m := by
    rw [show k+m+1 = k+(m+1) by omega,List.take_add,List.drop_eq_getElem_cons inside,here]
    rfl
  rw [rank,rank,split,ofMachineAppend]
  simp [ofMachine]

end Interleaving
