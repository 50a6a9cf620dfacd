import MobSkills.Number.Shortest

/-!
# JSON values

A value keeps what its text decides and no more. Numbers are kept digit by digit,
because an integer, a real and a number that is too large are told apart only by
whoever asks for them. A string whose escapes name half a surrogate pair has no
text, which matters only where the text is needed.
-/
namespace MobSkills

-- Powers are those of core, so that they mean the same beside other libraries; a
-- numeral as exponent has its type written for that reason.
attribute [local instance (high)] instPowNat instNatPowNat Int.instNatPow

/-- A number as written. The fraction is empty where there is no point. -/
structure JsonNumber where
  negative : Bool
  whole : List Char
  fraction : List Char := []
  exponent : Option Int := none
deriving DecidableEq

inductive Json where
  | null
  | boolean (value : Bool)
  | number (value : JsonNumber)
  | string (text : Option String)
  | array (items : List Json)
  | object (entries : List (Option String × Json))

namespace JsonNumber

/-- Digits gathered into `start` as long as the result fits in 64 bits, and the
digits that are left. -/
def gather (start : Nat) : List Char → Nat × List Char
  | [] => (start, [])
  | c :: r =>
    let next := 10 * start + (c.toNat - '0'.toNat)
    if next < 2 ^ (64 : Nat) then gather next r else (start, c :: r)

/-- Ten to the `k`, rounded. -/
def power (k : Nat) : Magnitude :=
  (Magnitude.nearest? (10 ^ k) 1).getD .zero

/-- The product of two magnitudes, rounded. -/
def times (a b : Magnitude) : Option Magnitude :=
  Magnitude.nearest? (a.units * b.units) (2 ^ (1074 : Nat) * 2 ^ (1074 : Nat))

/-- The quotient of two magnitudes, rounded. -/
def dividedBy (a b : Magnitude) : Option Magnitude :=
  Magnitude.nearest? a.units b.units

/-- A magnitude times ten to the `exponent`. The power and the result are rounded
one after the other, in steps of at most ten to the 308. -/
def scale (m : Magnitude) (exponent : Int) : Option Magnitude :=
  if exponent.natAbs ≤ 308 then
    let p := power exponent.natAbs
    if 0 ≤ exponent then times m p else dividedBy m p
  else if m.significand = 0 then some m
  else if 0 < exponent then none
  else (dividedBy m (power 308)).bind fun m => scale m (exponent + 308)
termination_by exponent.natAbs
decreasing_by omega

/-- The magnitude of a number with a point or an exponent, or of an integer that
is too large. Its leading digits are rounded as an integer and then scaled, so a
long number is rounded more than once. -/
def magnitude? (n : JsonNumber) : Option Magnitude :=
  let (significand, left) := gather 0 n.whole
  let (significand, dropped) := gather significand n.fraction
  let shift : Int := left.length - ((n.fraction.length - dropped.length : Nat) : Int)
  (Magnitude.nearest? significand 1).bind fun m => scale m (shift + n.exponent.getD 0)

/-- The integer that a number is, if it has neither point nor exponent. -/
def integer? (n : JsonNumber) : Option Int :=
  if n.fraction.isEmpty && n.exponent.isNone then
    some (if n.negative then -digitsValue n.whole else digitsValue n.whole)
  else none

/-- The number as an integer of 64 bits. Minus zero is not one. -/
def toInt64? (n : JsonNumber) : Option Int64 :=
  match n.integer? with
  | some i =>
    if -2 ^ (63 : Nat) ≤ i ∧ i < 2 ^ (63 : Nat) ∧ ¬ (n.negative ∧ i = 0) then some (Int64.ofInt i)
    else none
  | none => none

/-- The number as a real, unless it is too large for one. -/
def toBinary64? (n : JsonNumber) : Option Binary64 :=
  n.magnitude?.map (.finite n.negative)

/-- An integer as a number. -/
def ofInt (i : Int) : JsonNumber :=
  ⟨decide (i < 0), Nat.toDigits 10 i.natAbs, [], none⟩

/-- A finite real as a number: in positional notation with at least one place from
ten to the minus 5 up to ten to the 16, and with an exponent otherwise. A tie goes
to the even digit. -/
def ofFinite (negative : Bool) (m : Magnitude) : JsonNumber :=
  let d := m.shortest .toEven
  let digits := Nat.toDigits 10 d.coefficient
  let scientific : Int := digits.length - 1 + d.exponent
  if d.coefficient = 0 then ⟨negative, ['0'], ['0'], none⟩
  else if -5 ≤ scientific ∧ scientific < 16 then
    if 0 ≤ d.exponent then
      ⟨negative, digits ++ List.replicate d.exponent.toNat '0', ['0'], none⟩
    else
      let places := (-d.exponent).toNat
      if places < digits.length then
        ⟨negative, digits.take (digits.length - places), digits.drop (digits.length - places),
          none⟩
      else
        ⟨negative, ['0'], List.replicate (places - digits.length) '0' ++ digits, none⟩
  else ⟨negative, digits.take 1, digits.drop 1, some scientific⟩

end JsonNumber

namespace Json

/-- A real as a value; what is not finite has no number. -/
def ofReal : Binary64 → Json
  | .finite negative m => .number (.ofFinite negative m)
  | _ => .null

def ofInt (i : Int) : Json :=
  .number (.ofInt i)

def ofString (s : String) : Json :=
  .string (some s)

def ofStrings (items : List String) : Json :=
  .array (items.map ofString)

/-- An object with the given keys, in order. -/
def ofEntries (entries : List (String × Json)) : Json :=
  .object (entries.map fun (key, value) => (some key, value))

/-- A value that is null where it is absent. -/
def ofOption {α : Type} (encode : α → Json) : Option α → Json
  | some a => encode a
  | none => .null

end Json
end MobSkills
