import Mathlib.Algebra.Ring.Int.Defs
import Mathlib.Tactic.Common

/-! The token bucket of mytbf.c: struct mytbf_st, the credit alrm_handle gives one
bucket, and the locked part of mytbf_fetchtoken, mytbf_returntoken and
mytbf_checktoken. An int addition out of range has no result; a fetch without
tokens has none either, because the caller waits. -/
namespace IPv4Media.TokenBucket

def intMin : Int := -2^31
def intMax : Int := 2^31 - 1

def addInt (a b : Int) : Option Int :=
  if intMin ≤ a + b ∧ a + b ≤ intMax then some (a + b) else none

structure Mytbf where
  cps : Int
  burst : Int
  token : Int
  pos : Nat
  deriving DecidableEq, Repr

def credit (b : Mytbf) : Option Mytbf := do
  let token ← addInt b.token b.cps
  some { b with token := if token > b.burst then b.burst else token }

-- The subtraction stays in range: the fetch takes at most the positive balance.
def fetchtoken (b : Mytbf) (size : Int) : Option (Int × Mytbf) :=
  if b.token ≤ 0 then none
  else
    let n := if b.token < size then b.token else size
    some (n,{ b with token := b.token - n })

def returntoken (b : Mytbf) (size : Int) : Option Mytbf := do
  let token ← addInt b.token size
  some { b with token := if token > b.burst then b.burst else token }

def checktoken (b : Mytbf) : Int := b.token

/- What a caller of mytbf_init promises. -/
structure Params (cps burst : Int) : Prop where
  rate : 0 ≤ cps
  depth : 1 ≤ burst
  creditFits : cps + burst ≤ intMax
  refundFits : 2 * burst ≤ intMax
instance (cps burst) : Decidable (Params cps burst) :=
  decidable_of_iff (0 ≤ cps ∧ 1 ≤ burst ∧ cps + burst ≤ intMax ∧ 2 * burst ≤ intMax)
    ⟨fun h => ⟨h.1,h.2.1,h.2.2.1,h.2.2.2⟩,fun h => ⟨h.rate,h.depth,h.creditFits,h.refundFits⟩⟩

structure Balanced (b : Mytbf) : Prop where
  params : Params b.cps b.burst
  low : 0 ≤ b.token
  high : b.token ≤ b.burst

theorem addIntInside {a b : Int} (low : 0 ≤ a + b) (high : a + b ≤ intMax) : addInt a b = some (a + b) := by
  have negative : intMin ≤ 0 := by decide
  exact if_pos ⟨by omega,high⟩

theorem addIntSum {a b sum : Int} (added : addInt a b = some sum) : sum = a + b := by
  unfold addInt at added
  split at added <;> try contradiction
  exact (Option.some.inj added).symm

theorem cappedMin (token burst : Int) : (if token > burst then burst else token) = min burst token := by
  split <;> omega

theorem creditSum {b c : Mytbf} (added : credit b = some c) :
    c = { b with token := min b.burst (b.token + b.cps) } := by
  obtain ⟨sum,paid,last⟩ := Option.bind_eq_some_iff.mp added
  cases addIntSum paid
  rw [← cappedMin]
  exact (Option.some.inj last).symm

theorem returnSum {b c : Mytbf} {size : Int} (added : returntoken b size = some c) :
    c = { b with token := min b.burst (b.token + size) } := by
  obtain ⟨sum,paid,last⟩ := Option.bind_eq_some_iff.mp added
  cases addIntSum paid
  rw [← cappedMin]
  exact (Option.some.inj last).symm

/- The credit and the refund are the same capped addition. -/
theorem cappedAddition {b : Mytbf} (balanced : Balanced b) {add : Int} (positive : 0 ≤ add)
    (fits : b.token + add ≤ intMax) :
    ∃ token, addInt b.token add = some token ∧
      (if token > b.burst then b.burst else token) ≤ b.token + add ∧
      b.token ≤ (if token > b.burst then b.burst else token) ∧
      (if token > b.burst then b.burst else token) ≤ b.burst := by
  have low := balanced.low
  have high := balanced.high
  refine ⟨b.token + add,addIntInside (by omega) fits,?_⟩
  split <;> omega

theorem creditSpec {b : Mytbf} (balanced : Balanced b) :
    ∃ c, credit b = some c ∧ Balanced c ∧ c.cps = b.cps ∧ c.burst = b.burst ∧ c.pos = b.pos ∧
      c.token ≤ b.token + b.cps ∧ b.token ≤ c.token := by
  have high := balanced.high
  have fits := balanced.params.creditFits
  obtain ⟨token,sum,most,least,cap⟩ := cappedAddition balanced balanced.params.rate (by omega)
  have low := balanced.low
  simp only [credit,sum,Option.bind_eq_bind,Option.bind_some]
  exact ⟨_,rfl,⟨balanced.params,by simp only; omega,cap⟩,rfl,rfl,rfl,most,least⟩

theorem creditPositive {b c : Mytbf} (balanced : Balanced b) (rate : 1 ≤ b.cps) (added : credit b = some c) :
    1 ≤ c.token := by
  have low := balanced.low
  have high := balanced.high
  have depth := balanced.params.depth
  rw [creditSum added]
  simp only
  omega

theorem returnSpec {b : Mytbf} (balanced : Balanced b) {size : Int} (positive : 0 ≤ size)
    (small : size ≤ b.burst) :
    ∃ c, returntoken b size = some c ∧ Balanced c ∧ c.cps = b.cps ∧ c.burst = b.burst ∧ c.pos = b.pos ∧
      c.token ≤ b.token + size ∧ b.token ≤ c.token := by
  have high := balanced.high
  have fits := balanced.params.refundFits
  obtain ⟨token,sum,most,least,cap⟩ := cappedAddition balanced positive (by omega)
  have low := balanced.low
  simp only [returntoken,sum,Option.bind_eq_bind,Option.bind_some]
  exact ⟨_,rfl,⟨balanced.params,by simp only; omega,cap⟩,rfl,rfl,rfl,most,least⟩

theorem fetchGrant {b c : Mytbf} {size n : Int} (balanced : Balanced b) (least : 0 ≤ size)
    (got : fetchtoken b size = some (n,c)) :
    0 < b.token ∧ n = min b.token size ∧ c.token = b.token - n ∧ Balanced c ∧
      c.cps = b.cps ∧ c.burst = b.burst ∧ c.pos = b.pos := by
  have high := balanced.high
  unfold fetchtoken at got
  split at got <;> try contradiction
  rename_i filled
  obtain ⟨rfl,rfl⟩ := Prod.mk.inj (Option.some.inj got)
  have grant : (if b.token < size then b.token else size) = min b.token size := by split <;> omega
  rw [grant]
  exact ⟨Int.not_le.mp filled,rfl,rfl,⟨balanced.params,by simp only; omega,by simp only; omega⟩,rfl,rfl,rfl⟩

theorem fetchSpec {b c : Mytbf} {size n : Int} (balanced : Balanced b) (wanted : 1 ≤ size)
    (got : fetchtoken b size = some (n,c)) :
    1 ≤ n ∧ n ≤ size ∧ n ≤ b.burst ∧ c.token = b.token - n ∧ Balanced c ∧
      c.cps = b.cps ∧ c.burst = b.burst ∧ c.pos = b.pos := by
  have high := balanced.high
  obtain ⟨filled,grant,spent,kept,rate,depth,slot⟩ := fetchGrant balanced (by omega) got
  exact ⟨by omega,by omega,by omega,spent,kept,rate,depth,slot⟩

end IPv4Media.TokenBucket
