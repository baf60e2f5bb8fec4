import Mathlib.Data.Nat.Basic
import Mathlib.Tactic.Ring
import Mathlib.Tactic.Common

/-! Octet images of naturals of a fixed width, in either byte order, and a checked
memory of cells that are empty until they are written. -/
namespace Octets

abbrev Bytes := List UInt8

inductive ByteOrder where | little | big deriving DecidableEq, Repr

def littleImage : Nat → Nat → Bytes
  | 0, _ => []
  | w+1, n => UInt8.ofNat n :: littleImage w (n/256)

def littleValue : Bytes → Nat
  | [] => 0
  | b::bs => b.toNat + 256 * littleValue bs

def image : ByteOrder → Nat → Nat → Bytes
  | .little, w, n => littleImage w n
  | .big, w, n => (littleImage w n).reverse

def value : ByteOrder → Bytes → Nat
  | .little, bs => littleValue bs
  | .big, bs => littleValue bs.reverse

theorem littleImageLength (w n : Nat) : (littleImage w n).length = w := by
  induction w generalizing n with
  | zero => rfl
  | succ w ih => simp [littleImage,ih]

@[simp] theorem imageLength (o : ByteOrder) (w n : Nat) : (image o w n).length = w := by
  cases o <;> simp [image,littleImageLength]

theorem littleValueImage (w n : Nat) : littleValue (littleImage w n) = n % 256^w := by
  induction w generalizing n with
  | zero => simp [littleImage,littleValue,Nat.mod_one]
  | succ w ih =>
    have low : (UInt8.ofNat n).toNat = n % 256 := by simp
    rw [littleImage,littleValue,ih,low,pow_succ',Nat.mod_mul]

theorem littleImageValue (bs : Bytes) : littleImage bs.length (littleValue bs) = bs := by
  induction bs with
  | nil => rfl
  | cons b bs ih =>
    have small : b.toNat < 256 := b.toNat_lt
    have low : UInt8.ofNat (b.toNat + 256 * littleValue bs) = b := by
      apply UInt8.toNat_inj.mp
      simp
    have high : (b.toNat + 256 * littleValue bs) / 256 = littleValue bs := by omega
    rw [List.length_cons,littleValue,littleImage,low,high,ih]

theorem valueImage (o : ByteOrder) (w n : Nat) : value o (image o w n) = n % 256^w := by
  cases o <;> simp [value,image,littleValueImage]

theorem imageValue (o : ByteOrder) {bs : Bytes} {w : Nat} (width : bs.length = w) :
    image o w (value o bs) = bs := by
  subst width
  cases o with
  | little => exact littleImageValue bs
  | big =>
    have h := littleImageValue bs.reverse
    rw [List.length_reverse] at h
    simp [image,value,h]

/- The host value whose octets in memory are the big-endian image of n. The same
function takes a network value back to a host value. -/
def swapped (o : ByteOrder) (w n : Nat) : Nat := value o (image .big w n)

theorem imageSwapped (o : ByteOrder) (w n : Nat) : image o w (swapped o w n) = image .big w n :=
  imageValue o (imageLength .big w n)

theorem swappedValue (o : ByteOrder) {bs : Bytes} {w : Nat} (width : bs.length = w) :
    swapped o w (value o bs) = value .big bs := by
  cases o with
  | little =>
    subst width
    simp [swapped,value,image,littleImageValue]
  | big =>
    have same := imageValue .big width
    rw [swapped,same]

def cString (mem : Bytes) (start : Nat) : Option Bytes :=
  if 0 ∈ mem.drop start then some ((mem.drop start).takeWhile (fun b => b ≠ 0)) else none

theorem cStringTerminated {before s after : Bytes} (nulFree : (0 : UInt8) ∉ s) :
    cString (before ++ (s ++ 0 :: after)) before.length = some s := by
  have here : (before ++ (s ++ 0 :: after)).drop before.length = s ++ 0 :: after := List.drop_left
  have stops : (s ++ 0 :: after).takeWhile (fun b => b ≠ 0) = s := by
    rw [List.takeWhile_append_of_pos]
    · simp
    · intro b member
      have other : b ≠ 0 := by
        rintro rfl
        exact nulFree member
      simp [other]
  rw [cString,here,stops]
  simp

/- Memory of a fixed number of cells. A store past the end is no store at all: it
returns none, and nothing after it is defined. -/
abbrev Cells := List (Option UInt8)

def fresh (size : Nat) : Cells := List.replicate size none

def store (m : Cells) (at_ : Nat) (bs : Bytes) : Option Cells :=
  if at_ + bs.length ≤ m.length then
    some (m.take at_ ++ bs.map some ++ m.drop (at_ + bs.length))
  else none

-- Cells of which the first ones hold done and the remaining ones are untouched.
def filled (done : Bytes) (rest : Nat) : Cells := done.map some ++ fresh rest

@[simp] theorem filledLength (done : Bytes) (rest : Nat) :
    (filled done rest).length = done.length + rest := by simp [filled,fresh]

theorem storeNext {done bs : Bytes} {rest start : Nat} (here : start = done.length) (room : bs.length ≤ rest) :
    store (filled done rest) start bs = some (filled (done ++ bs) (rest - bs.length)) := by
  subst here
  have inside : done.length + bs.length ≤ (filled done rest).length := by
    rw [filledLength]
    omega
  have kept : (filled done rest).take done.length = done.map some := by
    simp [filled]
  have left : (filled done rest).drop (done.length + bs.length) = fresh (rest - bs.length) := by
    simp [filled,fresh,List.drop_append]
  simp only [store,if_pos inside,kept,left]
  simp [filled,List.append_assoc]

end Octets
