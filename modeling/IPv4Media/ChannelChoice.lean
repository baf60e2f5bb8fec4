import IPv4Media.Library.Octets
import Mathlib.Data.List.TakeWhile

/-! The listener's choice (client.c): the loop around scanf in the client's main and the
loops around getchar that throw the rest of a line away. Standard input is all that ever
comes on it, and getchar goes on answering EOF at its end. -/
namespace IPv4Media.ChannelChoice
open Octets

def isSpace (c : UInt8) : Bool := decide (c = 32 ∨ 9 ≤ c ∧ c ≤ 13)
def isDigit (c : UInt8) : Bool := decide (48 ≤ c ∧ c ≤ 57)

def newline : UInt8 := 10

def digitsValue (digits : Bytes) : Nat := digits.foldl (fun n c => 10 * n + (c.toNat - 48)) 0

/- The sign belongs to the number even where no digit follows it. -/
def afterSign : Bytes → Bool × Bytes
  | 45 :: input => (true,input)
  | 43 :: input => (false,input)
  | input => (false,input)

/- What %d stores. For a number that is no int it is not defined, so beyond stands for it. -/
def stored (beyond : Int → Int) (n : Int) : Int := if -2^31 ≤ n ∧ n < 2^31 then n else beyond n

/- scanf("%d"): the number, if there is one, and what is left to read. -/
def scanfInt (beyond : Int → Int) (input : Bytes) : Option Int × Bytes :=
  let (minus,input) := afterSign (input.dropWhile isSpace)
  let digits := input.takeWhile isDigit
  if digits = [] then (none,input)
  else (some (stored beyond (if minus then -digitsValue digits else digitsValue digits)),input.dropWhile isDigit)

/- while (getchar() != '\\n'); none when it never ends. -/
def skipLine : Bytes → Option Bytes
  | [] => none
  | c :: input => if c = newline then some input else skipLine input

inductive Choice where
  | chosen (chosenid : Int) (input : Bytes)
  | stuck
  deriving DecidableEq, Repr

def chooseLoop (beyond : Int → Int) : Nat → Bytes → Option Choice
  | 0, _ => none
  | n+1, input =>
    match scanfInt beyond input with
    | (some chosenid,rest) =>
      match skipLine rest with
      | none => some .stuck
      | some rest => some (.chosen chosenid rest)
    | (none,rest) =>
      match skipLine rest with
      | none => some .stuck
      | some rest => chooseLoop beyond n rest

variable {beyond : Int → Int}

def lineNumber (beyond : Int → Int) (line : Bytes) : Option Int := (scanfInt beyond line).1

inductive Chosen (beyond : Int → Int) : Bytes → Int → Bytes → Prop where
  | here (line rest : Bytes) (n : Int) (whole : newline ∉ line) (number : lineNumber beyond line = some n) :
      Chosen beyond (line ++ newline :: rest) n rest
  | later (line input rest : Bytes) (n : Int) (whole : newline ∉ line) (other : lineNumber beyond line = none)
      (chosen : Chosen beyond input n rest) : Chosen beyond (line ++ newline :: input) n rest

theorem newlineSpace : isSpace newline = true := by decide

theorem newlineDigit : isDigit newline = false := by decide

theorem skipLineWhole {line : Bytes} (whole : newline ∉ line) (rest : Bytes) :
    skipLine (line ++ newline :: rest) = some rest := by
  induction line with
  | nil => simp [skipLine]
  | cons c line ih =>
    simp only [List.mem_cons,not_or] at whole
    rw [List.cons_append,skipLine,if_neg (Ne.symm whole.1)]
    exact ih whole.2

theorem skipLineNone {input : Bytes} (endless : newline ∉ input) : skipLine input = none := by
  induction input with
  | nil => rfl
  | cons c input ih =>
    simp only [List.mem_cons,not_or] at endless
    rw [skipLine,if_neg (Ne.symm endless.1)]
    exact ih endless.2

theorem lineCases (input : Bytes) :
    newline ∉ input ∨ ∃ line rest, input = line ++ newline :: rest ∧ newline ∉ line := by
  induction input with
  | nil => exact .inl (by simp)
  | cons c input ih =>
    by_cases ends : c = newline
    · exact .inr ⟨[],input,by rw [ends,List.nil_append],by simp⟩
    · rcases ih with endless | ⟨line,rest,rfl,whole⟩
      · exact .inl (by simp [Ne.symm ends,endless])
      · exact .inr ⟨c :: line,rest,rfl,by simp [Ne.symm ends,whole]⟩

theorem lineUnique {a b s t : Bytes} (wholeA : newline ∉ a) (wholeB : newline ∉ b)
    (same : a ++ newline :: s = b ++ newline :: t) : a = b ∧ s = t := by
  induction a generalizing b with
  | nil =>
    cases b with
    | nil => exact ⟨rfl,(List.cons.inj same).2⟩
    | cons c b =>
      obtain ⟨rfl,_⟩ := List.cons.inj same
      exact absurd List.mem_cons_self wholeB
  | cons c a ih =>
    cases b with
    | nil =>
      obtain ⟨rfl,_⟩ := List.cons.inj same
      exact absurd List.mem_cons_self wholeA
    | cons d b =>
      obtain ⟨rfl,rest⟩ := List.cons.inj same
      simp only [List.mem_cons,not_or] at wholeA wholeB
      obtain ⟨rfl,more⟩ := ih wholeA.2 wholeB.2 rest
      exact ⟨rfl,more⟩

theorem afterSignLeft (input : Bytes) : (afterSign input).2 <:+ input := by
  unfold afterSign
  split
  · exact List.suffix_cons _ _
  · exact List.suffix_cons _ _
  · exact List.suffix_refl _

theorem scanfLeft (input : Bytes) : (scanfInt beyond input).2 <:+ input := by
  have front := (afterSignLeft (input.dropWhile isSpace)).trans (List.dropWhile_suffix _)
  unfold scanfInt
  simp only
  split
  · exact front
  · exact (List.dropWhile_suffix _).trans front

theorem dropSpaces {line : Bytes} (rest : Bytes) :
    (line ++ newline :: rest).dropWhile isSpace =
      if line.dropWhile isSpace = [] then rest.dropWhile isSpace else line.dropWhile isSpace ++ newline :: rest := by
  rw [List.dropWhile_append]
  cases blank : line.dropWhile isSpace with
  | nil => simp [newlineSpace]
  | cons c more => simp

theorem scanfBlank {line : Bytes} (blank : line.dropWhile isSpace = []) (rest : Bytes) :
    scanfInt beyond (line ++ newline :: rest) = scanfInt beyond rest := by
  rw [scanfInt,scanfInt,dropSpaces,if_pos blank]

theorem blankNumber {line : Bytes} (blank : line.dropWhile isSpace = []) : lineNumber beyond line = none := by
  rw [lineNumber,scanfInt,blank]
  rfl

theorem afterSignLine {line : Bytes} (some_ : line ≠ []) (rest : Bytes) :
    afterSign (line ++ rest) = ((afterSign line).1,(afterSign line).2 ++ rest) := by
  cases line with
  | nil => exact absurd rfl some_
  | cons c line =>
    rw [List.cons_append]
    unfold afterSign
    split <;> split <;> simp_all

theorem scanfLine {line : Bytes} (text : line.dropWhile isSpace ≠ []) (rest : Bytes) :
    scanfInt beyond (line ++ newline :: rest) =
      (lineNumber beyond line,(scanfInt beyond line).2 ++ newline :: rest) := by
  have digits : ∀ more : Bytes, (more ++ newline :: rest).takeWhile isDigit = more.takeWhile isDigit := by
    intro more
    induction more with
    | nil => simp [newlineDigit]
    | cons c more ih => simp only [List.cons_append,List.takeWhile_cons,ih]
  have left : ∀ more : Bytes, (more ++ newline :: rest).dropWhile isDigit = more.dropWhile isDigit ++ newline :: rest := by
    intro more
    rw [List.dropWhile_append]
    cases more.dropWhile isDigit with
    | nil => simp [newlineDigit]
    | cons c l => simp
  rw [lineNumber,scanfInt,scanfInt,dropSpaces,if_neg text,afterSignLine text]
  simp only [digits,left]
  split <;> rfl

theorem chosenLine {line input rest : Bytes} {n : Int} (whole : newline ∉ line) :
    Chosen beyond (line ++ newline :: input) n rest ↔
      lineNumber beyond line = some n ∧ input = rest ∨ lineNumber beyond line = none ∧ Chosen beyond input n rest := by
  constructor
  · intro chosen
    generalize same : line ++ newline :: input = all at chosen
    cases chosen with
    | here first rest n whole' number =>
      obtain ⟨rfl,rfl⟩ := lineUnique whole whole' same
      exact .inl ⟨number,rfl⟩
    | later first more rest n whole' other chosen =>
      obtain ⟨rfl,rfl⟩ := lineUnique whole whole' same
      exact .inr ⟨other,chosen⟩
  · rintro (⟨number,rfl⟩ | ⟨other,chosen⟩)
    · exact .here line _ n whole number
    · exact .later line _ rest n whole other chosen

theorem chosenEndless {input rest : Bytes} {n : Int} (endless : newline ∉ input) : ¬ Chosen beyond input n rest := by
  intro chosen
  cases chosen with
  | here line rest n whole number => simp at endless
  | later line more rest n whole other chosen => simp at endless

def Decided (beyond : Int → Int) (input : Bytes) (c : Choice) : Prop :=
  (∀ n rest, c = .chosen n rest ↔ Chosen beyond input n rest) ∧ (c = .stuck ↔ ∀ n rest, ¬ Chosen beyond input n rest)

theorem decidedChosen {input rest : Bytes} {n : Int} (only : ∀ m more, Chosen beyond input m more ↔ n = m ∧ rest = more) :
    Decided beyond input (.chosen n rest) := by
  constructor
  · intro m more
    rw [only]
    simp
  · refine iff_of_false (by simp) fun never => never n rest ((only n rest).mpr ⟨rfl,rfl⟩)

theorem decidedStuck {input : Bytes} (never : ∀ n rest, ¬ Chosen beyond input n rest) : Decided beyond input .stuck :=
  ⟨fun n rest => iff_of_false (by simp) (never n rest),iff_of_true rfl never⟩

theorem decidedSame {input rest : Bytes} {c : Choice}
    (same : ∀ n more, Chosen beyond input n more ↔ Chosen beyond rest n more) (decided : Decided beyond rest c) : Decided beyond input c := by
  simp only [Decided,same]
  exact decided

theorem chooseDecided (beyond : Int → Int) (input : Bytes) {n : Nat} (enough : input.length < n) :
    ∃ c, chooseLoop beyond n input = some c ∧ Decided beyond input c := by
  induction size : input.length using Nat.strong_induction_on generalizing input n with
  | _ len ih =>
  obtain ⟨n,rfl⟩ := Nat.exists_eq_succ_of_ne_zero (by omega : n ≠ 0)
  rcases lineCases input with endless | ⟨line,rest,rfl,whole⟩
  · have left := (@scanfLeft beyond input).subset
    refine ⟨.stuck,?_,decidedStuck fun m more => chosenEndless endless⟩
    rw [chooseLoop]
    split
    · rename_i m more read
      rw [read] at left
      rw [skipLineNone fun there => endless (left there)]
    · rename_i more read
      rw [read] at left
      rw [skipLineNone fun there => endless (left there)]
  · simp only [List.length_append,List.length_cons] at enough size
    by_cases blank : line.dropWhile isSpace = []
    · obtain ⟨c,looped,decided⟩ := ih rest.length (by omega) rest (n := n+1) (by omega) rfl
      refine ⟨c,?_,decidedSame (fun m more => ?_) decided⟩
      · rw [← looped,chooseLoop,chooseLoop,scanfBlank blank]
      · rw [chosenLine whole,blankNumber blank]
        simp
    · have left : newline ∉ (scanfInt beyond line).2 := fun there => whole ((scanfLeft line).subset there)
      rw [chooseLoop,scanfLine blank]
      cases number : lineNumber beyond line with
      | some m =>
        refine ⟨.chosen m rest,by simp only [skipLineWhole left],decidedChosen fun k more => ?_⟩
        rw [chosenLine whole,number]
        simp
      | none =>
        obtain ⟨c,looped,decided⟩ := ih rest.length (by omega) rest (n := n) (by omega) rfl
        refine ⟨c,by simp only [skipLineWhole left]; exact looped,decidedSame (fun m more => ?_) decided⟩
        rw [chosenLine whole,number]
        simp

end IPv4Media.ChannelChoice
