import MobSkills.Toml.Text

/-!
# Numbers and dates of TOML

Underscores may stand between digits. Integers have to fit in 64 bits, and a real
must not round to positive infinity. Dates and times are checked and then kept as
they are written.
-/
namespace MobSkills.Toml.Read

open MobSkills.Text (Reader)

-- Powers are those of core, so that they mean the same beside other libraries; a
-- numeral as exponent has its type written for that reason.
attribute [local instance (high)] instPowNat instNatPowNat Int.instNatPow

/-- A digit that an underscore may precede. -/
def groupedDigit (p : Char → Bool) : Reader Char
  | '_' :: c :: r => if p c then some (c, r) else none
  | c :: r => if p c then some (c, r) else none
  | [] => none

/-- Digits of a class with single underscores between them. -/
def digitGroups (p : Char → Bool) : Reader (List Char)
  | c :: r =>
    if p c then
      let (more, rest) := Reader.many (groupedDigit p) r
      some (c :: more, rest)
    else none
  | [] => none

/-- Whether a minus comes first, and what follows a sign. -/
def sign : List Char → Bool × List Char
  | '-' :: r => (true, r)
  | '+' :: r => (false, r)
  | s => (false, s)

/-- A decimal integer without a sign and without leading zeros. -/
def decimalDigits : Reader (List Char)
  | '0' :: r => some (['0'], r)
  | s => digitGroups Char.isDigit s

def integer? (i : Int) : Option Toml :=
  if -2 ^ (63 : Nat) ≤ i ∧ i < 2 ^ (63 : Nat) then some (.integer (Int64.ofInt i)) else none

/-- A fraction where a point comes first. -/
def fraction : Reader (Option (List Char))
  | '.' :: r => (digitGroups Char.isDigit r).map fun (ds, rest) => (some ds, rest)
  | s => some (none, s)

/-- An exponent where its letter comes first. -/
def exponent : Reader (Option Int)
  | c :: r =>
    if c = 'e' || c = 'E' then
      let (negative, r) := sign r
      (digitGroups Char.isDigit r).map fun (ds, rest) =>
        (some (if negative then -(digitsValue ds : Int) else digitsValue ds), rest)
    else some (none, c :: r)
  | [] => some (none, [])

/-- A decimal integer, or a real where a fraction or an exponent follows. -/
def decimalNumber : Reader Toml := fun s => do
  let (negative, s) := sign s
  let (whole, s) ← decimalDigits s
  let (fraction, s) ← fraction s
  let (exponent, s) ← exponent s
  if fraction.isNone && exponent.isNone then
    let i ← integer? (if negative then -digitsValue whole else digitsValue whole)
    return (i, s)
  else
    let places := fraction.getD []
    let x := Decimal.toBinary64 negative
      ⟨digitsValue (whole ++ places), exponent.getD 0 - places.length⟩
    if x = .infinity false then none else some (.real x, s)

/-- An infinity or a NaN after an optional sign. -/
def specialNumber : Reader Toml := fun s =>
  let (negative, s) := sign s
  match Reader.word "inf".toList s with
  | some (_, rest) => some (.real (.infinity negative), rest)
  | none => (Reader.word "nan".toList s).map fun (_, rest) => (.real .nan, rest)

def digitsInBase (base : Nat) (digits : List Char) : Nat :=
  digits.foldl (fun n c => base * n + (Text.hexDigit? c).getD 0) 0

/-- An integer after its base mark. -/
def basedInteger (base : Nat) : Reader Toml := fun s => do
  let (digits, rest) ← digitGroups (fun c => (Text.hexDigit? c).any (· < base)) s
  let i ← integer? (digitsInBase base digits)
  return (i, rest)

/-- A number of exactly `width` digits between two limits. -/
def field (width low high : Nat) : Reader Nat := fun s =>
  let digits := s.take width
  if digits.length = width && digits.all Char.isDigit then
    let n := digitsValue digits
    if low ≤ n ∧ n ≤ high then some (n, s.drop width) else none
  else none

def daysInMonth (year month : Nat) : Nat :=
  if month = 2 then
    if year % 4 = 0 ∧ (year % 100 ≠ 0 ∨ year % 400 = 0) then 29 else 28
  else if month = 4 ∨ month = 6 ∨ month = 9 ∨ month = 11 then 30
  else 31

def date : Reader Unit := fun s => do
  let (year, s) ← field 4 0 9999 s
  let (_, s) ← Reader.char '-' s
  let (month, s) ← field 2 1 12 s
  let (_, s) ← Reader.char '-' s
  let (_, s) ← field 2 1 (daysInMonth year month) s
  return ((), s)

/-- A time of day, to the second or to a fraction of it. -/
def time : Reader Unit := fun s => do
  let (_, s) ← field 2 0 23 s
  let (_, s) ← Reader.char ':' s
  let (_, s) ← field 2 0 59 s
  let (_, s) ← Reader.char ':' s
  let (_, s) ← field 2 0 60 s
  match s with
  | '.' :: c :: r => if c.isDigit then some ((), r.dropWhile Char.isDigit) else none
  | s => some ((), s)

/-- The distance from universal time, where it is given. -/
def skipOffset (s : List Char) : List Char :=
  match s with
  | c :: r =>
    if c = 'Z' || c = 'z' then r
    else if c = '+' || c = '-' then
      let offset? := do
        let (_, r) ← field 2 0 23 r
        let (_, r) ← Reader.char ':' r
        let (_, r) ← field 2 0 59 r
        return r
      offset?.getD s
    else s
  | [] => []

/-- A date with or without a time and an offset, or a time alone. -/
def datetime : Reader Toml := fun s =>
  let rest? : Option (List Char) := match date s with
    | some (_, rest) =>
      match rest with
      | c :: r =>
        if c = 'T' || c = 't' || c = ' ' then
          match time r with
          | some (_, left) => some (skipOffset left)
          | none => some rest
        else some rest
      | [] => some rest
    | none => (time s).map Prod.snd
  rest?.map fun rest => (.datetime (String.ofList (Reader.taken s rest)), rest)

/-- A value that is neither a string nor nested. -/
def scalar : Reader Toml := fun s =>
  match s with
  | 't' :: _ => (Reader.word "true".toList s).map fun (_, rest) => (.boolean true, rest)
  | 'f' :: _ => (Reader.word "false".toList s).map fun (_, rest) => (.boolean false, rest)
  | '0' :: 'x' :: r => basedInteger 16 r
  | '0' :: 'o' :: r => basedInteger 8 r
  | '0' :: 'b' :: r => basedInteger 2 r
  | _ => ((datetime s).or (specialNumber s)).or (decimalNumber s)

end MobSkills.Toml.Read
