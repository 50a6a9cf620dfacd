import MobSkills.Number.Rounding

/-!
# Decimal literals

A literal is an optional sign and then an infinity, a NaN, or digits with an
optional point and exponent. It stands for the nearest value, infinite where it
is too large. An exponent far out of range is decided by the count of digits, so
that no power of ten of that size is formed.
-/
namespace MobSkills

-- Powers are those of core, so that they mean the same beside other libraries; a
-- numeral as exponent has its type written for that reason.
attribute [local instance (high)] instPowNat instNatPowNat Int.instNatPow

/-- The number `coefficient * 10 ^ exponent`. -/
structure Decimal where
  coefficient : Nat
  exponent : Int
deriving DecidableEq

/-- The value of a list of decimal digits. -/
def digitsValue (digits : List Char) : Nat :=
  digits.foldl (fun n c => 10 * n + (c.toNat - '0'.toNat)) 0

/-- How many decimal digits a number has; zero has one. -/
def digitCount (n : Nat) : Nat :=
  (Nat.toDigits 10 n).length

namespace Decimal

/-- The number as a quotient. -/
def ratio (d : Decimal) : Nat × Nat :=
  if 0 ≤ d.exponent then (d.coefficient * 10 ^ d.exponent.toNat, 1)
  else (d.coefficient, 10 ^ (-d.exponent).toNat)

/-- The nearest magnitude. Above ten to the 310 there is none, and below ten to
the minus 330 it is zero. -/
def nearest? (d : Decimal) : Option Magnitude :=
  let size : Int := digitCount d.coefficient + d.exponent
  if d.coefficient = 0 then some .zero
  else if 310 < size then none
  else if size < -330 then some .zero
  else Magnitude.nearest? d.ratio.1 d.ratio.2

def toBinary64 (negative : Bool) (d : Decimal) : Binary64 :=
  match d.nearest? with
  | some m => .finite negative m
  | none => .infinity negative

/-- An exponent: an optional sign and at least one digit, to the end. -/
def readExponent? (s : List Char) : Option Int :=
  let (negative, digits) := match s with
    | '-' :: r => (true, r)
    | '+' :: r => (false, r)
    | r => (false, r)
  if digits.isEmpty || !digits.all Char.isDigit then none
  else some (if negative then -digitsValue digits else digitsValue digits)

/-- Digits with an optional point, at least one digit on either side, and an
optional exponent. -/
def read? (s : List Char) : Option Decimal :=
  let whole := s.takeWhile Char.isDigit
  let (fraction, rest) := match s.dropWhile Char.isDigit with
    | '.' :: r => (r.takeWhile Char.isDigit, r.dropWhile Char.isDigit)
    | r => ([], r)
  if whole.isEmpty && fraction.isEmpty then none
  else
    let exponent? := match rest with
      | [] => some 0
      | c :: r => if c = 'e' || c = 'E' then readExponent? r else none
    exponent?.map fun e => ⟨digitsValue (whole ++ fraction), e - fraction.length⟩

end Decimal

namespace Binary64

/-- An infinity or a NaN in any case, or digits, after the sign. -/
def readUnsigned? (negative : Bool) (s : List Char) : Option Binary64 :=
  let word := String.ofList (s.map Char.toLower)
  if word = "inf" || word = "infinity" then some (.infinity negative)
  else if word = "nan" then some .nan
  else (Decimal.read? s).map (Decimal.toBinary64 negative)

def read? : List Char → Option Binary64
  | '-' :: r => readUnsigned? true r
  | '+' :: r => readUnsigned? false r
  | s => readUnsigned? false s

end Binary64

/-- An integer: an optional sign and at least one digit, to the end. -/
def readInt? (s : List Char) : Option Int :=
  Decimal.readExponent? s

/-- An integer literal that fits in 64 bits. -/
def readInt64? (s : List Char) : Option Int64 :=
  match readInt? s with
  | some i => if -2 ^ (63 : Nat) ≤ i ∧ i < 2 ^ (63 : Nat) then some (Int64.ofInt i) else none
  | none => none

/-- A natural number that fits in 64 bits: an optional plus and digits. -/
def readWord? (s : List Char) : Option Nat :=
  let digits := match s with
    | '+' :: r => r
    | r => r
  if digits.isEmpty || !digits.all Char.isDigit then none
  else if digitsValue digits < 2 ^ (64 : Nat) then some (digitsValue digits)
  else none

end MobSkills
