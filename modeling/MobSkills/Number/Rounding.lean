import MobSkills.Number.Binary64

/-!
# Rounding a quotient to binary64

A quotient of natural numbers goes to the nearest magnitude, and a tie to the
even significand. A quotient beyond the largest magnitude has no answer here;
whoever asks decides between infinity and an error.
-/
namespace MobSkills

-- Powers are those of core, so that they mean the same beside other libraries; a
-- numeral as exponent has its type written for that reason.
attribute [local instance (high)] instPowNat instNatPowNat

/-- The natural number nearest to `num / den`, a tie going to the even one. -/
def roundDiv (num den : Nat) : Nat :=
  let quotient := num / den
  let twice := 2 * (num % den)
  if twice < den then quotient
  else if den < twice then quotient + 1
  else if quotient % 2 = 0 then quotient
  else quotient + 1

namespace Magnitude

/-- A rounded significand with its exponent. A carry out of 53 bits moves to the
next exponent, and an exponent above the largest has no magnitude. -/
def ofRounded? (significand exponent : Nat) : Option Magnitude :=
  if h : significand < 2 ^ (53 : Nat) ∧ exponent ≤ 2045 ∧ (exponent = 0 ∨ 2 ^ (52 : Nat) ≤ significand) then
    some ⟨significand, exponent, h.1, h.2.1, h.2.2⟩
  else if h : significand = 2 ^ (53 : Nat) ∧ exponent + 1 ≤ 2045 then
    some ⟨2 ^ (52 : Nat), exponent + 1, by decide, h.2, .inr (Nat.le_refl _)⟩
  else none

/-- The magnitude nearest to `num / den`. The exponent is the one that leaves 53
bits before the point, or zero where the value has fewer. -/
def nearest? (num den : Nat) : Option Magnitude :=
  let units := num * 2 ^ (1074 : Nat)
  let exponent := (units / den).log2 - 52
  ofRounded? (roundDiv units (den * 2 ^ exponent)) exponent

end Magnitude

namespace Binary64

/-- The nearest value of a sign and a quotient, infinite beyond the largest. -/
def ofRatio (negative : Bool) (num den : Nat) : Binary64 :=
  match Magnitude.nearest? num den with
  | some m => .finite negative m
  | none => .infinity negative

/-- An integer as a value; zero has no sign. -/
def ofInt (i : Int) : Binary64 :=
  ofRatio (decide (i < 0)) i.natAbs 1

end Binary64
end MobSkills
