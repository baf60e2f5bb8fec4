import Mathlib.Data.List.Rotate
import Mathlib.Data.Nat.Find
import Mathlib.Tactic.Common

/-! A search around a ring of m positions: move on, wrapping at m, and stop at the
first position that answers. A position may answer differently at each attempt.
Below it, what a reader has put out who reads the blocks at those positions in turn. -/
namespace CyclicSearch

variable {β : Type*}

def next (m pos : Nat) : Nat := if pos + 1 = m then 0 else pos + 1

/- At most n attempts, counted from i. The position comes back in either case. -/
def seek (hit : Nat → Nat → Option β) (m : Nat) : Nat → Nat → Nat → Nat × Option β
  | 0, _, pos => (pos,none)
  | n+1, i, pos =>
    match hit i (next m pos) with
    | some b => (next m pos,some b)
    | none => seek hit m n (i+1) (next m pos)

theorem nextMod {m pos : Nat} (inside : pos < m) : next m pos = (pos+1) % m := by
  unfold next
  split
  · rename_i last
    rw [last,Nat.mod_self]
  · exact (Nat.mod_eq_of_lt (by omega)).symm

theorem nextBelow {m pos : Nat} (inside : pos < m) : next m pos < m := by
  rw [nextMod inside]
  exact Nat.mod_lt _ (by omega)

theorem aroundNext {m pos : Nat} (inside : pos < m) (d : Nat) : (next m pos + d) % m = (pos + (d+1)) % m := by
  rw [nextMod inside,Nat.mod_add_mod]
  congr 1
  omega

theorem seekHit {hit : Nat → Nat → Option β} {m n i pos d : Nat} {b : β} (inside : pos < m) (within : d < n)
    (silent : ∀ e < d, hit (i+e) ((pos+(e+1)) % m) = none)
    (answer : hit (i+d) ((pos+(d+1)) % m) = some b) :
    seek hit m n i pos = ((pos+(d+1)) % m,some b) := by
  induction d generalizing n i pos with
  | zero =>
    obtain ⟨n,rfl⟩ := Nat.exists_eq_succ_of_ne_zero (by omega : n ≠ 0)
    rw [Nat.add_zero,Nat.zero_add,← nextMod inside] at answer
    rw [Nat.zero_add,← nextMod inside,seek,answer]
  | succ d ih =>
    obtain ⟨n,rfl⟩ := Nat.exists_eq_succ_of_ne_zero (by omega : n ≠ 0)
    have first := silent 0 (by omega)
    rw [Nat.add_zero,Nat.zero_add,← nextMod inside] at first
    rw [seek,first]
    have rest := ih (nextBelow inside) (by omega : d < n) (i := i+1) ?_ ?_
    · rw [rest,aroundNext inside]
    · intro e below
      rw [aroundNext inside,Nat.add_assoc,Nat.add_comm 1 e]
      exact silent (e+1) (by omega)
    · rw [aroundNext inside,Nat.add_assoc,Nat.add_comm 1 d]
      exact answer

theorem seekMiss {hit : Nat → Nat → Option β} {m n i pos : Nat} (inside : pos < m)
    (silent : ∀ e < n, hit (i+e) ((pos+(e+1)) % m) = none) :
    seek hit m n i pos = ((pos+n) % m,none) := by
  induction n generalizing i pos with
  | zero => rw [seek,Nat.add_zero,Nat.mod_eq_of_lt inside]
  | succ n ih =>
    have first := silent 0 (by omega)
    rw [Nat.add_zero,Nat.zero_add,← nextMod inside] at first
    rw [seek,first]
    have rest := ih (nextBelow inside) (i := i+1) ?_
    · rw [rest,aroundNext inside]
    · intro e below
      rw [aroundNext inside,Nat.add_assoc,Nat.add_comm 1 e]
      exact silent (e+1) (by omega)

theorem firstAnswer (hit : Nat → Nat → Option β) (m n i pos : Nat) :
    (∀ e < n, hit (i+e) ((pos+(e+1)) % m) = none) ∨
    ∃ d < n, ∃ b, (∀ e < d, hit (i+e) ((pos+(e+1)) % m) = none) ∧ hit (i+d) ((pos+(d+1)) % m) = some b := by
  by_cases some_ : ∃ d, d < n ∧ (hit (i+d) ((pos+(d+1)) % m)).isSome = true
  · right
    classical
    obtain ⟨within,answer⟩ := Nat.find_spec some_
    obtain ⟨b,value⟩ := Option.isSome_iff_exists.mp answer
    refine ⟨Nat.find some_,within,b,?_,value⟩
    intro e before
    have silent := Nat.find_min some_ before
    cases early : hit (i+e) ((pos+(e+1)) % m) with
    | none => rfl
    | some c => exact absurd ⟨by omega,by rw [early]; rfl⟩ silent
  · left
    intro e below
    cases answer : hit (i+e) ((pos+(e+1)) % m) with
    | none => rfl
    | some b => exact absurd ⟨e,below,by rw [answer]; rfl⟩ some_

theorem distance {m pos target : Nat} (inside : pos < m) (there : target < m) :
    ∃ d < m, (pos+(d+1)) % m = target := by
  by_cases ahead : pos < target
  · refine ⟨target-pos-1,by omega,?_⟩
    rw [show pos + (target-pos-1+1) = target by omega]
    exact Nat.mod_eq_of_lt there
  · refine ⟨m-1-(pos-target),by omega,?_⟩
    rw [show pos + (m-1-(pos-target)+1) = target + m by omega,Nat.add_mod_right]
    exact Nat.mod_eq_of_lt there

def tried (hit : Nat → Nat → Option β) (m : Nat) : Nat → Nat → Nat → List Nat
  | 0, _, _ => []
  | n+1, i, pos => next m pos :: match hit i (next m pos) with
    | some _ => []
    | none => tried hit m n (i+1) (next m pos)

theorem triedMiss {hit : Nat → Nat → Option β} {m n i pos : Nat} (inside : pos < m)
    (silent : ∀ e < n, hit (i+e) ((pos+(e+1)) % m) = none) :
    tried hit m n i pos = (List.range n).map fun e => (pos+(e+1)) % m := by
  induction n generalizing i pos with
  | zero => rfl
  | succ n ih =>
    have first := silent 0 (by omega)
    rw [Nat.add_zero,Nat.zero_add,← nextMod inside] at first
    have rest := ih (nextBelow inside) (i := i+1) ?_
    · rw [tried,first,List.range_succ_eq_map,List.map_cons,List.map_map,Nat.zero_add,← nextMod inside]
      simp only [rest]
      congr 1
      refine List.map_congr_left fun e _ => ?_
      rw [aroundNext inside]
      rfl
    · intro e below
      rw [aroundNext inside,Nat.add_assoc,Nat.add_comm 1 e]
      exact silent (e+1) (by omega)

theorem turnPerm (m pos : Nat) : ((List.range m).map fun e => (pos+(e+1)) % m).Perm (List.range m) := by
  have turned : ((List.range m).map fun e => (pos+(e+1)) % m) = (List.range m).rotate (pos+1) := by
    apply List.ext_getElem (by simp)
    intro e below _
    simp only [List.getElem_map,List.getElem_range,List.getElem_rotate,List.length_range]
    congr 1
    omega
  rw [turned]
  exact List.rotate_perm _ _

def ahead (accepts : Nat → Bool) (m : Nat) : Nat → Nat → Nat
  | 0, _ => 0
  | n+1, pos => if accepts (next m pos) then 0 else ahead accepts m n (next m pos) + 1

variable {accepts : Nat → Bool} {m n pos d target : Nat}

theorem aheadHit (inside : pos < m) (within : d < n) (silent : ∀ e < d, accepts ((pos+(e+1)) % m) = false)
    (answer : accepts ((pos+(d+1)) % m) = true) : ahead accepts m n pos = d := by
  induction d generalizing n pos with
  | zero =>
    obtain ⟨n,rfl⟩ := Nat.exists_eq_succ_of_ne_zero (by omega : n ≠ 0)
    rw [Nat.zero_add,← nextMod inside] at answer
    rw [ahead,if_pos answer]
  | succ d ih =>
    obtain ⟨n,rfl⟩ := Nat.exists_eq_succ_of_ne_zero (by omega : n ≠ 0)
    have first := silent 0 (by omega)
    rw [Nat.zero_add,← nextMod inside] at first
    rw [ahead,first,if_neg Bool.false_ne_true,ih (nextBelow inside) (by omega) ?_ ?_]
    · intro e below
      rw [aroundNext inside]
      exact silent (e+1) (by omega)
    · rw [aroundNext inside]
      exact answer

theorem aheadFound (inside : pos < m) (there : target < m) (accepted : accepts target = true) :
    ∃ d < m, (∀ e < d, accepts ((pos+(e+1)) % m) = false) ∧ accepts ((pos+(d+1)) % m) = true := by
  rcases firstAnswer (fun _ p => if accepts p then some () else none) m m 0 pos with silent | ⟨d,within,_,silent,answer⟩
  · obtain ⟨d,within,lands⟩ := distance inside there
    have refused := silent d within
    rw [lands,if_pos accepted] at refused
    contradiction
  · refine ⟨d,within,?_,by simpa using answer⟩
    intro e before
    simpa using silent e before

theorem aheadBelow (inside : pos < m) (there : target < m) (accepted : accepts target = true) :
    ahead accepts m m pos < m := by
  obtain ⟨d,within,silent,answer⟩ := aheadFound inside there accepted
  rw [aheadHit inside within silent answer]
  exact within

theorem aheadNext (inside : pos < m) (there : target < m) (accepted : accepts target = true)
    (refused : accepts (next m pos) = false) :
    ahead accepts m m pos = ahead accepts m m (next m pos) + 1 := by
  obtain ⟨d,within,silent,answer⟩ := aheadFound inside there accepted
  obtain ⟨d,rfl⟩ : ∃ k, d = k+1 := by
    refine Nat.exists_eq_succ_of_ne_zero ?_
    rintro rfl
    rw [Nat.zero_add,← nextMod inside,refused] at answer
    contradiction
  rw [aheadHit inside within silent answer,aheadHit (d := d) (nextBelow inside) (by omega) ?_ ?_]
  · intro e before
    rw [aroundNext inside]
    exact silent (e+1) (by omega)
  · rw [aroundNext inside]
    exact answer

variable {α : Type*}

/- The reader is offset elements into the block at pos. -/
def Reached (blocks : List (List α)) (pos offset : Nat) (out : List α) : Prop :=
  ∃ laps, out = (List.replicate laps blocks.flatten).flatten ++ (blocks.take pos).flatten ++
    (blocks.getD pos []).take offset

theorem reachedStart (blocks : List (List α)) : Reached blocks 0 0 [] := ⟨0,by simp⟩

theorem reachedRead {blocks : List (List α)} {pos offset : Nat} {out piece : List α}
    (here : Reached blocks pos offset out) (read : piece <+: (blocks.getD pos []).drop offset) :
    Reached blocks pos (offset+piece.length) (out++piece) := by
  obtain ⟨laps,rfl⟩ := here
  have taken := List.prefix_iff_eq_take.mp read
  exact ⟨laps,by rw [List.append_assoc,List.take_add,← taken]⟩

theorem flattenTakeNext {blocks : List (List α)} {pos : Nat} (inside : pos < blocks.length) :
    (blocks.take (pos+1)).flatten = (blocks.take pos).flatten ++ blocks[pos] := by
  rw [List.take_succ_eq_append_getElem inside,List.flatten_append,List.flatten_singleton]

theorem reachedTurn {blocks : List (List α)} {pos offset : Nat} {out : List α}
    (here : Reached blocks pos offset out) (inside : pos < blocks.length)
    (ended : (blocks.getD pos []).length ≤ offset) : Reached blocks (next blocks.length pos) 0 out := by
  obtain ⟨laps,rfl⟩ := here
  have block : blocks.getD pos [] = blocks[pos] := by simp [List.getD,inside]
  have whole : (blocks.take pos).flatten ++ (blocks.getD pos []).take offset =
      (blocks.take (pos+1)).flatten := by
    rw [List.take_of_length_le ended,block,flattenTakeNext inside]
  rw [List.append_assoc,whole]
  unfold next
  split
  · rename_i last
    refine ⟨laps+1,?_⟩
    rw [last,List.take_length,List.replicate_succ']
    simp
  · exact ⟨laps,by simp⟩

theorem reachedPrefix {blocks : List (List α)} {pos offset : Nat} {out : List α}
    (here : Reached blocks pos offset out) (inside : pos < blocks.length) :
    ∃ laps, out <+: (List.replicate laps blocks.flatten).flatten := by
  obtain ⟨laps,rfl⟩ := here
  have block : blocks.getD pos [] = blocks[pos] := by simp [List.getD,inside]
  have lap : (blocks.take pos).flatten ++ (blocks.getD pos []).take offset <+: blocks.flatten := by
    have split : (blocks.take pos).flatten ++ blocks[pos] <+: blocks.flatten := by
      refine ⟨(blocks.drop (pos+1)).flatten,?_⟩
      rw [← flattenTakeNext inside,← List.flatten_append,List.take_append_drop]
    rw [block]
    exact ((List.prefix_append_right_inj _).mpr (List.take_prefix offset _)).trans split
  refine ⟨laps+1,?_⟩
  rw [List.replicate_succ',List.flatten_append,List.append_assoc,List.prefix_append_right_inj]
  simpa using lap

end CyclicSearch
