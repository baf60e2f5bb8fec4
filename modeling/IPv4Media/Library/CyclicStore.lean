import Mathlib.Data.Nat.Basic
import Mathlib.Tactic.Common

/-! A sequence laid out in a cyclic store: count cells from head, indices taken
modulo the capacity. A store is a function on indices; segment reads and place
writes a stretch of consecutive cells. The rules say what one straight stretch, or
two stretches around the end, do to the sequence. -/
namespace CyclicStore

variable {α : Type*}

def segment (data : Nat → α) (start : Nat) : Nat → List α
  | 0 => []
  | n+1 => data start :: segment data (start+1) n

def place (data : Nat → α) (start : Nat) (src : List α) : Nat → α :=
  fun i => if start ≤ i then (src[i - start]?).getD (data i) else data i

def window (cap : Nat) (data : Nat → α) (head : Nat) : Nat → List α
  | 0 => []
  | n+1 => data (head % cap) :: window cap data (head+1) n

@[simp] theorem segmentLength (data : Nat → α) (start n : Nat) :
    (segment data start n).length = n := by
  induction n generalizing start with
  | zero => rfl
  | succ n ih => simp [segment,ih]

@[simp] theorem windowLength (cap : Nat) (data : Nat → α) (head n : Nat) :
    (window cap data head n).length = n := by
  induction n generalizing head with
  | zero => rfl
  | succ n ih => simp [window,ih]

theorem segmentGet (data : Nat → α) (start n : Nat) {k : Nat} (h : k < (segment data start n).length) :
    (segment data start n)[k] = data (start+k) := by
  induction n generalizing start k with
  | zero => simp [segment] at h
  | succ n ih =>
    cases k with
    | zero => rfl
    | succ k =>
      simp only [segment,List.getElem_cons_succ]
      rw [ih (start+1) (by simpa using h),show start + 1 + k = start + (k+1) by omega]

theorem placeOutside (data : Nat → α) {start i : Nat} {src : List α}
    (outside : i < start ∨ start + src.length ≤ i) : place data start src i = data i := by
  unfold place
  split
  · have past : src.length ≤ i - start := by omega
    rw [List.getElem?_eq_none past]
    rfl
  · rfl

theorem placeAt (data : Nat → α) (start : Nat) (src : List α) {k : Nat} (inside : k < src.length) :
    place data start src (start+k) = src[k] := by
  have same : start + k - start = k := by omega
  simp [place,same,inside]

theorem segmentCongr {data other : Nat → α} {start n : Nat}
    (agree : ∀ k < n, data (start+k) = other (start+k)) :
    segment data start n = segment other start n := by
  induction n generalizing start with
  | zero => rfl
  | succ n ih =>
    have first := agree 0 (by omega)
    have rest : ∀ k < n, data (start+1+k) = other (start+1+k) := by
      intro k hk
      have h := agree (k+1) (by omega)
      rwa [show start + (k+1) = start + 1 + k by omega] at h
    simp only [Nat.add_zero] at first
    simp only [segment,first,ih rest]

theorem segmentPlace (data : Nat → α) (start : Nat) (src : List α) :
    segment (place data start src) start src.length = src := by
  apply List.ext_getElem (by simp)
  intro i hi hs
  rw [segmentGet,placeAt data start src hs]

@[simp] theorem placeNil (data : Nat → α) (start : Nat) : place data start [] = data := by
  funext i
  simp [place]

theorem placeNext (data : Nat → α) (start : Nat) (src : List α) {k : Nat} (inside : k < src.length) :
    Function.update (place data start (src.take k)) (start+k) src[k] = place data start (src.take (k+1)) := by
  funext i
  by_cases here : i = start + k
  · subst here
    have last : k < (src.take (k+1)).length := by rw [List.length_take]; omega
    rw [Function.update_self,placeAt data start _ last,List.getElem_take]
  · rw [Function.update_of_ne here]
    unfold place
    split
    · have apart : i - start ≠ k := by omega
      by_cases before : i - start < k
      · rw [List.getElem?_take_of_lt before,List.getElem?_take_of_lt (by omega)]
      · rw [List.getElem?_take_eq_none (by omega),List.getElem?_take_eq_none (by omega)]
    · rfl

theorem segmentNext (data : Nat → α) (start n : Nat) :
    segment data start n ++ [data (start+n)] = segment data start (n+1) := by
  induction n generalizing start with
  | zero => rfl
  | succ n ih =>
    rw [segment,List.cons_append,show start + (n+1) = start + 1 + n by omega,ih (start+1)]
    rfl

theorem segmentOutside (data : Nat → α) {start n other : Nat} {src : List α}
    (apart : start + n ≤ other ∨ other + src.length ≤ start) :
    segment (place data other src) start n = segment data start n :=
  segmentCongr fun k hk => placeOutside data (by omega)

theorem windowCongr {cap : Nat} {data other : Nat → α} {head n : Nat}
    (agree : ∀ k < n, data ((head+k) % cap) = other ((head+k) % cap)) :
    window cap data head n = window cap other head n := by
  induction n generalizing head with
  | zero => rfl
  | succ n ih =>
    have first := agree 0 (by omega)
    have rest : ∀ k < n, data ((head+1+k) % cap) = other ((head+1+k) % cap) := by
      intro k hk
      have h := agree (k+1) (by omega)
      rwa [show head + (k+1) = head + 1 + k by omega] at h
    simp only [Nat.add_zero] at first
    simp only [window,first,ih rest]

theorem windowAdd (cap : Nat) (data : Nat → α) (head m n : Nat) :
    window cap data head (m+n) = window cap data head m ++ window cap data (head+m) n := by
  induction m generalizing head with
  | zero => simp [window]
  | succ m ih =>
    rw [show m + 1 + n = (m + n) + 1 by omega]
    simp only [window,ih,List.cons_append,show head + 1 + m = head + (m+1) by omega]

theorem windowMod (cap : Nat) (data : Nat → α) (head n : Nat) :
    window cap data (head % cap) n = window cap data head n := by
  induction n generalizing head with
  | zero => rfl
  | succ n ih =>
    have next : window cap data (head % cap + 1) n = window cap data (head + 1) n := by
      rw [← ih (head % cap + 1),← ih (head+1)]
      simp [Nat.add_mod]
    simp only [window,Nat.mod_mod,next]

theorem windowSegment {cap : Nat} {data : Nat → α} {head n : Nat} (inside : head + n ≤ cap) :
    window cap data head n = segment data head n := by
  induction n generalizing head with
  | zero => rfl
  | succ n ih =>
    simp only [window,segment,Nat.mod_eq_of_lt (by omega : head < cap),
      ih (by omega : head + 1 + n ≤ cap)]

-- A window that runs over the end of the store is read in two stretches.
theorem windowWrapped {cap : Nat} {data : Nat → α} {head n : Nat} (start : head ≤ cap)
    (wraps : cap - head ≤ n) (once : n ≤ cap) :
    window cap data head n = segment data head (cap-head) ++ segment data 0 (n-(cap-head)) := by
  have split := windowAdd cap data head (cap-head) (n-(cap-head))
  rw [show cap - head + (n - (cap - head)) = n by omega,show head + (cap - head) = cap by omega] at split
  rw [split,windowSegment (by omega : head + (cap-head) ≤ cap),← windowMod cap data cap,Nat.mod_self,
    windowSegment (by omega : 0 + (n-(cap-head)) ≤ cap)]

theorem modOnce {cap x : Nat} (below : x < 2*cap) : x % cap = if x < cap then x else x - cap := by
  split
  · exact Nat.mod_eq_of_lt (by assumption)
  · rename_i past
    rw [Nat.mod_eq_sub_mod (by omega),Nat.mod_eq_of_lt (by omega)]

-- Writing one stretch right behind the window appends it.
theorem appendStraight {cap head count : Nat} (data : Nat → α) {src : List α} (inside : head < cap)
    (room : count + src.length ≤ cap) (straight : (head+count) % cap + src.length ≤ cap) :
    window cap (place data ((head+count) % cap) src) head (count+src.length) =
      window cap data head count ++ src := by
  have old : window cap (place data ((head+count) % cap) src) head count = window cap data head count := by
    apply windowCongr
    intro k hk
    apply placeOutside
    rw [modOnce (by omega : head + count < 2*cap)] at straight ⊢
    rw [modOnce (by omega : head + k < 2*cap)]
    split <;> split at straight <;> split <;> omega
  rw [windowAdd,old,← windowMod cap _ (head+count),windowSegment straight,segmentPlace]

-- Writing around the end: the first stretch fills the store, the rest starts at 0.
theorem appendWrapped {cap head count : Nat} (data : Nat → α) {src : List α} (inside : head < cap)
    (room : count + src.length ≤ cap) (wraps : cap - (head+count) % cap ≤ src.length) :
    let tail := (head+count) % cap
    window cap (place (place data tail (src.take (cap-tail))) 0 (src.drop (cap-tail))) head
        (count+src.length) = window cap data head count ++ src := by
  intro tail
  have tailLt : tail < cap := Nat.mod_lt _ (by omega)
  have once : tail = if head + count < cap then head + count else head + count - cap :=
    modOnce (by omega)
  have firstLength : (src.take (cap-tail)).length = cap - tail := by
    simp only [List.length_take]
    omega
  have lastLength : (src.drop (cap-tail)).length = src.length - (cap-tail) := List.length_drop
  have old : window cap (place (place data tail (src.take (cap-tail))) 0 (src.drop (cap-tail))) head
      count = window cap data head count := by
    apply windowCongr
    intro k hk
    have index := modOnce (by omega : head + k < 2*cap)
    rw [placeOutside _ (by rw [lastLength,index]; split at once <;> split <;> omega),
      placeOutside _ (by rw [firstLength,index]; split at once <;> split <;> omega)]
  rw [windowAdd,old,← windowMod cap _ (head+count)]
  congr 1
  change window cap _ tail src.length = src
  have first := segmentPlace data tail (src.take (cap-tail))
  have last := segmentPlace (place data tail (src.take (cap-tail))) 0 (src.drop (cap-tail))
  rw [firstLength] at first
  rw [lastLength] at last
  rw [windowWrapped (by omega) wraps (by omega),segmentOutside _ (by rw [lastLength]; omega),first,last,
    List.take_append_drop]

-- Reading the first stretch of a window and moving its head on splits the window.
theorem takeStraight {cap head count n : Nat} (data : Nat → α) (within : n ≤ count)
    (straight : head + n ≤ cap) :
    window cap data head count = segment data head n ++ window cap data ((head+n) % cap) (count-n) := by
  have split := windowAdd cap data head n (count-n)
  rw [show n + (count-n) = count by omega] at split
  rw [split,windowSegment straight,windowMod]

theorem takeWrapped {cap head count n : Nat} (data : Nat → α) (start : head ≤ cap) (within : n ≤ count)
    (room : count ≤ cap) (wraps : cap - head ≤ n) :
    window cap data head count =
      (segment data head (cap-head) ++ segment data 0 (n-(cap-head))) ++
        window cap data (n-(cap-head)) (count-n) := by
  have split := windowAdd cap data head n (count-n)
  rw [show n + (count-n) = count by omega] at split
  have moved : window cap data (head+n) (count-n) = window cap data (n-(cap-head)) (count-n) := by
    rw [← windowMod,show head + n = (n-(cap-head)) + cap by omega,Nat.add_mod_right,windowMod]
  rw [split,windowWrapped start wraps (by omega),moved]

end CyclicStore
