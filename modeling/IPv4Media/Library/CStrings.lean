import IPv4Media.Library.Octets

/-! C strings in a buffer of a fixed size, with strcat, strncpy, strncat and snprintf as
they write it. A string is given by its octets; a call that would read or write behind the
buffer has no result. -/
namespace CStrings
open Octets

def writeAt (mem : Bytes) (at_ : Nat) (bs : Bytes) : Option Bytes :=
  if at_ + bs.length ≤ mem.length then some (mem.take at_ ++ bs ++ mem.drop (at_ + bs.length)) else none

def strcat (mem src : Bytes) : Option Bytes := do
  let dest ← cString mem 0
  writeAt mem dest.length (src ++ [0])

/- Always n octets, zeros behind a short src and no zero behind a long one. -/
def strncpy (mem src : Bytes) (n : Nat) : Option Bytes :=
  writeAt mem 0 (src.take n ++ List.replicate (n - src.length) 0)

/- n bounds what is taken of src, and not what is written. -/
def strncat (mem src : Bytes) (n : Nat) : Option Bytes := strcat mem (src.take n)

def snprintf (size : Nat) (text : Bytes) : Bytes := text.take (size - 1)

structure Holds (size : Nat) (mem s : Bytes) : Prop where
  length : mem.length = size
  plain : (0 : UInt8) ∉ s
  front : ∃ after, mem = s ++ 0 :: after

variable {size : Nat} {mem s src : Bytes}

theorem holdsZeros (some_ : 0 < size) : Holds size (List.replicate size 0) [] := by
  obtain ⟨n,rfl⟩ := Nat.exists_eq_succ_of_ne_zero (by omega : size ≠ 0)
  exact ⟨List.length_replicate,List.not_mem_nil,_,List.replicate_succ⟩

theorem holdsString (holds : Holds size mem s) : cString mem 0 = some s := by
  obtain ⟨after,rfl⟩ := holds.front
  exact @cStringTerminated [] s after holds.plain

theorem strcatHolds (holds : Holds size mem s) (plain : (0 : UInt8) ∉ src) (room : s.length + src.length < size) :
    ∃ next, strcat mem src = some next ∧ Holds size next (s ++ src) := by
  have length := holds.length
  obtain ⟨after,whole⟩ := holds.front
  have inside : s.length + (src ++ [0]).length ≤ mem.length := by
    rw [length,List.length_append,List.length_singleton]
    omega
  have kept : mem.take s.length = s := by
    rw [whole,List.take_left]
  refine ⟨s ++ (src ++ [0]) ++ mem.drop (s.length + (src ++ [0]).length),?_,?_,?_,
    mem.drop (s.length + (src ++ [0]).length),?_⟩
  · simp only [strcat,holdsString holds,Option.bind_eq_bind,Option.bind_some,writeAt,if_pos inside,kept]
  · simp only [List.length_append,List.length_drop,List.length_singleton] at inside ⊢
    omega
  · rw [List.mem_append,not_or]
    exact ⟨holds.plain,plain⟩
  · simp only [List.append_assoc,List.cons_append,List.nil_append]

theorem strcatBehind (holds : Holds size mem s) (long : size ≤ s.length + src.length) : strcat mem src = none := by
  have length := holds.length
  have behind : ¬ s.length + (src ++ [0]).length ≤ mem.length := by
    rw [length,List.length_append,List.length_singleton]
    omega
  simp only [strcat,holdsString holds,Option.bind_eq_bind,Option.bind_some,writeAt,if_neg behind]

theorem strncpyHolds (length : mem.length = size) (plain : (0 : UInt8) ∉ src) (room : src.length < size) :
    ∃ next, strncpy mem src size = some next ∧ Holds size next src := by
  have padded : (src.take size ++ List.replicate (size - src.length) (0 : UInt8)).length = size := by
    rw [List.length_append,List.length_take,List.length_replicate]
    omega
  have zeros : List.replicate (size - src.length) (0 : UInt8) = 0 :: List.replicate (size - src.length - 1) 0 := by
    rw [← List.replicate_succ]
    congr 1
    omega
  have nothing : mem.drop (0 + size) = [] := List.drop_eq_nil_of_le (by omega)
  refine ⟨src.take size ++ List.replicate (size - src.length) 0,?_,padded,plain,List.replicate (size - src.length - 1) 0,?_⟩
  · rw [strncpy,writeAt,padded,if_pos (by omega),nothing,List.take_zero,List.nil_append,List.append_nil]
  · rw [List.take_of_length_le (by omega),zeros]

theorem strncatHolds {n : Nat} (holds : Holds size mem s) (plain : (0 : UInt8) ∉ src) (all : src.length ≤ n)
    (room : s.length + src.length < size) : ∃ next, strncat mem src n = some next ∧ Holds size next (s ++ src) := by
  rw [strncat,List.take_of_length_le all]
  exact strcatHolds holds plain room

end CStrings
