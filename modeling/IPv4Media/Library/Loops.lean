import Mathlib.Data.Nat.Basic
import Mathlib.Tactic.Common

/-! while loops over a state. loop runs one with a bound on its iterations, Tested
holds of the states the test is made in, and Ends says that some bound is enough. -/
namespace Loops

variable {σ : Type*} (test : σ → Bool) (body : σ → σ)

def loop : Nat → σ → Option σ
  | 0, _ => none
  | n+1, s => if test s then loop n (body s) else some s

inductive Tested (s : σ) : σ → Prop where
  | first : Tested s s
  | again {t} (before : Tested s t) (passed : test t = true) : Tested s (body t)

def Ends (s : σ) : Prop := ∃ n t, loop test body n s = some t

variable {test body} {s t : σ}

theorem endsNow (failed : test s = false) : Ends test body s := ⟨1,s,by rw [loop,failed]; rfl⟩

theorem endsStep (passed : test s = true) : Ends test body s ↔ Ends test body (body s) := by
  constructor
  · rintro ⟨n,t,looped⟩
    cases n with
    | zero => simp [loop] at looped
    | succ n =>
      rw [loop,if_pos passed] at looped
      exact ⟨n,t,looped⟩
  · rintro ⟨n,t,looped⟩
    exact ⟨n+1,t,by rw [loop,if_pos passed]; exact looped⟩

theorem endsTested (ends : Ends test body s) (tested : Tested test body s t) : Ends test body t := by
  induction tested with
  | first => exact ends
  | again before passed ih => exact (endsStep passed).mp ih

theorem staysForever (passed : test s = true) (same : body s = s) : ¬ Ends test body s := by
  rintro ⟨n,t,looped⟩
  induction n with
  | zero => simp [loop] at looped
  | succ n ih =>
    rw [loop,if_pos passed,same] at looped
    exact ih looped

theorem endsBelow {measure : σ → Nat}
    (falls : ∀ t, Tested test body s t → test t = true → measure (body t) < measure t) : Ends test body s := by
  suffices all : ∀ n t, measure t = n → Tested test body s t → Ends test body t from all _ s rfl .first
  intro n
  induction n using Nat.strong_induction_on with
  | _ n ih =>
    intro t size tested
    cases passed : test t with
    | false => exact endsNow passed
    | true =>
      have less := falls t tested passed
      exact (endsStep passed).mpr (ih _ (by omega) _ rfl (.again tested passed))

end Loops
