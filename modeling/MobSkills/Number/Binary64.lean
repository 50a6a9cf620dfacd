/-!
# Binary floating point

The values of the IEEE binary64 format as exact data: a finite value is a sign
and a natural number of units of two to the power minus 1074. Comparison follows
the standard, so that zero has no sign and a NaN compares with nothing. There is
no arithmetic here; values come from rounding and go to text.
-/
namespace MobSkills

-- Powers are those of core, so that they mean the same beside other libraries; a
-- numeral as exponent has its type written for that reason.
attribute [local instance (high)] instPowNat instNatPowNat Int.instNatPow

/-- A finite absolute value, `significand * 2 ^ exponent` units, in the form with
the least exponent. -/
structure Magnitude where
  significand : Nat
  exponent : Nat
  significand_lt : significand < 2 ^ (53 : Nat)
  exponent_le : exponent ≤ 2045
  canonical : exponent = 0 ∨ 2 ^ (52 : Nat) ≤ significand
deriving DecidableEq

namespace Magnitude

/-- The count of units of two to the power minus 1074. -/
def units (m : Magnitude) : Nat :=
  m.significand * 2 ^ m.exponent

def zero : Magnitude :=
  ⟨0, 0, by decide, by decide, .inl rfl⟩

end Magnitude

inductive Binary64 where
  | nan
  | infinity (negative : Bool)
  | finite (negative : Bool) (magnitude : Magnitude)
deriving DecidableEq

namespace Binary64

/-- A key that orders all values but NaN; both zeros have the key zero. -/
def orderKey? : Binary64 → Option Int
  | .nan => none
  | .infinity negative => some (if negative then -2 ^ (2100 : Nat) else 2 ^ (2100 : Nat))
  | .finite negative m => some (if negative then -m.units else m.units)

def lt (a b : Binary64) : Bool :=
  match a.orderKey?, b.orderKey? with
  | some x, some y => x < y
  | _, _ => false

def le (a b : Binary64) : Bool :=
  match a.orderKey?, b.orderKey? with
  | some x, some y => x ≤ y
  | _, _ => false

/-- Equality of numbers: the zeros are equal, and a NaN equals nothing. -/
def same (a b : Binary64) : Bool :=
  match a.orderKey?, b.orderKey? with
  | some x, some y => x = y
  | _, _ => false

def isFinite : Binary64 → Bool
  | .finite _ _ => true
  | _ => false

def zero : Binary64 :=
  .finite false .zero

end Binary64
end MobSkills
