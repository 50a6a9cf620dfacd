import MobSkills.Number.Decimal

/-!
# The fewest digits that read back

A value is written with the fewest decimal digits that read back to it and, of
those, with the number nearest to it. For 1, 2, … 17 digits the two neighbours
of the value on that decimal grid are read back in turn; the exact expansion,
which always reads back, stands behind them. Where both neighbours are equally
near, the format that is written decides.
-/
namespace MobSkills

-- Powers are those of core, so that they mean the same beside other libraries; a
-- numeral as exponent has its type written for that reason.
attribute [local instance (high)] instPowNat instNatPowNat

/-- Which of two equally near decimals is written: the larger one, or the one whose
last digit is even. -/
inductive TieRule where
  | upward
  | toEven
deriving DecidableEq

/-- Whether a tie goes to the lower neighbour, which ends in the given coefficient. -/
def TieRule.prefersLower (tie : TieRule) (lower : Nat) : Bool :=
  match tie with
  | .upward => false
  | .toEven => lower % 2 == 0

namespace Decimal

/-- The number without trailing zeros in its coefficient. -/
def trimZeros (coefficient : Nat) (exponent : Int) : Decimal :=
  if coefficient = 0 then ⟨0, 0⟩
  else if coefficient % 10 = 0 then trimZeros (coefficient / 10) (exponent + 1)
  else ⟨coefficient, exponent⟩
termination_by coefficient
decreasing_by omega

end Decimal

namespace Magnitude

/-- The `k` with `10 ^ (k - 1) ≤ value < 10 ^ k`, where the value is not zero. -/
def decimalSize (m : Magnitude) : Int :=
  let estimate : Int := digitCount m.units - digitCount (2 ^ (1074 : Nat))
  let (num, den) := Decimal.ratio ⟨2 ^ (1074 : Nat), estimate⟩
  if num ≤ m.units * den then estimate + 1 else estimate

/-- The two neighbours of the value on the grid of ten to the `grid`, the nearer
first. -/
def neighbours (tie : TieRule) (m : Magnitude) (grid : Int) : List Decimal :=
  let (num, den) :=
    if 0 ≤ grid then (m.units, 2 ^ (1074 : Nat) * 10 ^ grid.toNat)
    else (m.units * 10 ^ (-grid).toNat, 2 ^ (1074 : Nat))
  let lower := num / den
  let rest := num % den
  if 2 * rest < den || (2 * rest == den && tie.prefersLower lower) then
    [⟨lower, grid⟩, ⟨lower + 1, grid⟩]
  else [⟨lower + 1, grid⟩, ⟨lower, grid⟩]

/-- The value itself, which is a decimal because its unit is one. -/
def exactDecimal (m : Magnitude) : Decimal :=
  ⟨m.units * 5 ^ (1074 : Nat), -1074⟩

/-- The shortest decimal that reads back to the value, nearest to it. -/
def shortest (tie : TieRule) (m : Magnitude) : Decimal :=
  if m.significand = 0 then ⟨0, 0⟩
  else
    let size := m.decimalSize
    let found := (List.range 17).findSome? fun n =>
      (m.neighbours tie (size - (n + 1 : Nat))).find? fun d => d.nearest? = some m
    let d := found.getD m.exactDecimal
    Decimal.trimZeros d.coefficient d.exponent

end Magnitude

namespace Decimal

/-- Positional notation: never an exponent, and no point in a whole number. -/
def plain (d : Decimal) : List Char :=
  let digits := Nat.toDigits 10 d.coefficient
  if 0 ≤ d.exponent then digits ++ List.replicate d.exponent.toNat '0'
  else
    let places := (-d.exponent).toNat
    if places < digits.length then
      digits.take (digits.length - places) ++ '.' :: digits.drop (digits.length - places)
    else '0' :: '.' :: List.replicate (places - digits.length) '0' ++ digits

end Decimal

namespace Binary64

/-- The text of a value in positional notation, in which a tie goes upward. -/
def plain : Binary64 → List Char
  | .nan => "NaN".toList
  | .infinity negative => if negative then "-inf".toList else "inf".toList
  | .finite negative m =>
    let digits := (m.shortest .upward).plain
    if negative then '-' :: digits else digits

/-- Positional notation in which a finite value always has a point. -/
def pointed (x : Binary64) : List Char :=
  if x.isFinite && !x.plain.contains '.' then x.plain ++ ".0".toList else x.plain

/-- Positional notation as a text. -/
def text (x : Binary64) : String :=
  String.ofList x.plain

end Binary64
end MobSkills
