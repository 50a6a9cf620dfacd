import MobSkills.Json.Basic
import MobSkills.Text.Reader

/-!
# Reading JSON

The grammar of RFC 8259 without extensions. Nesting is bounded by the length of
the text, which is what the reader counts down.
-/
namespace MobSkills.Json.Read

open MobSkills.Text (Reader)

def isSpace (c : Char) : Bool :=
  c == ' ' || c == '\t' || c == '\n' || c == '\r'

def skipSpaces (s : List Char) : List Char :=
  s.dropWhile isSpace

/-- One or more digits. -/
def digits : Reader (List Char) := fun s =>
  let taken := s.takeWhile Char.isDigit
  if taken.isEmpty then none else some (taken, s.dropWhile Char.isDigit)

/-- The whole part of a number: zero, or digits that do not start with zero. -/
def wholePart : Reader (List Char)
  | '0' :: r => some (['0'], r)
  | s => digits s

/-- A fraction where a point comes first, which at least one digit follows. -/
def fractionPart : Reader (List Char)
  | '.' :: r => digits r
  | s => some ([], s)

def exponentDigits (negative : Bool) : Reader (Option Int) := fun s =>
  (digits s).map fun (ds, rest) =>
    (some (if negative then -(digitsValue ds : Int) else digitsValue ds), rest)

/-- An exponent where its letter comes first. -/
def exponentPart : Reader (Option Int)
  | c :: r =>
    if c = 'e' || c = 'E' then
      match r with
      | '-' :: r => exponentDigits true r
      | '+' :: r => exponentDigits false r
      | r => exponentDigits false r
    else some (none, c :: r)
  | [] => some (none, [])

def number (negative : Bool) : Reader Json := fun s => do
  let (whole, s) ← wholePart s
  let (fraction, s) ← fractionPart s
  let (exponent, s) ← exponentPart s
  return (.number ⟨negative, whole, fraction, exponent⟩, s)

/-- The code unit of an escape after its backslash. -/
def escape : Reader Nat
  | 'u' :: r => Text.readHex 4 r
  | c :: r =>
    let unit? : Option Char := match c with
      | '"' => some '"'
      | '\\' => some '\\'
      | '/' => some '/'
      | 'b' => some '\x08'
      | 'f' => some '\x0c'
      | 'n' => some '\n'
      | 'r' => some '\r'
      | 't' => some '\t'
      | _ => none
    unit?.map fun u => (u.toNat, r)
  | [] => none

/-- One character of a string or one escape, as a code unit or code point. -/
def unit : Reader Nat
  | [] => none
  | c :: r =>
    if c = '\\' then escape r
    else if c = '"' || c.toNat < 0x20 then none
    else some (c.toNat, r)

/-- The text of code units, in which surrogates have to come in pairs. -/
def ofUnits : List Nat → Option (List Char)
  | [] => some []
  | n :: r =>
    if 0xD800 ≤ n ∧ n < 0xDC00 then
      match r with
      | low :: r =>
        if 0xDC00 ≤ low ∧ low < 0xE000 then
          (ofUnits r).map (Char.ofNat (0x10000 + (n - 0xD800) * 0x400 + (low - 0xDC00)) :: ·)
        else none
      | [] => none
    else if 0xDC00 ≤ n ∧ n < 0xE000 then none
    else (ofUnits r).map (Char.ofNat n :: ·)

/-- A string after its opening quote. -/
def stringBody : Reader (Option String) := fun s =>
  let (units, rest) := Reader.many unit s
  (Reader.char '"' rest).map fun (_, rest) => ((ofUnits units).map String.ofList, rest)

/-- A comma with the blanks around it. -/
def comma : Reader Unit := fun s =>
  (Reader.char ',' (skipSpaces s)).map fun (_, r) => ((), skipSpaces r)

/-- Items up to a closing character, blanks allowed around each. -/
def upTo {α : Type} (close : Char) (item : Reader α) : Reader (List α) := fun s =>
  let s := skipSpaces s
  match Reader.char close s with
  | some (_, rest) => some ([], rest)
  | none => do
    let (items, rest) ← Reader.separated comma item s
    let (_, rest) ← Reader.char close (skipSpaces rest)
    return (items, rest)

/-- A key, a colon and a value read by `value`. -/
def member (value : Reader Json) : Reader (Option String × Json) := fun s => do
  let (_, s) ← Reader.char '"' s
  let (key, s) ← stringBody s
  let (_, s) ← Reader.char ':' (skipSpaces s)
  let (v, s) ← value (skipSpaces s)
  return ((key, v), s)

/-- A value nested at most `depth` deep. -/
def value (depth : Nat) : Reader Json := fun s =>
  match depth, s with
  | 0, _ => none
  | _, [] => none
  | depth + 1, c :: r =>
    match c with
    | 'n' => (Reader.word "null".toList s).map fun (_, rest) => (.null, rest)
    | 't' => (Reader.word "true".toList s).map fun (_, rest) => (.boolean true, rest)
    | 'f' => (Reader.word "false".toList s).map fun (_, rest) => (.boolean false, rest)
    | '"' => (stringBody r).map fun (text, rest) => (.string text, rest)
    | '[' => (upTo ']' (value depth) r).map fun (items, rest) => (.array items, rest)
    | '\x7b' =>
      (upTo '\x7d' (member (value depth)) r).map fun (entries, rest) => (.object entries, rest)
    | '-' => number true r
    | _ => number false s

end MobSkills.Json.Read

namespace MobSkills.Json

/-- The value that a text consists of, apart from blanks around it. -/
def parse? (text : String) : Option Json :=
  match Read.value (text.toList.length + 1) (Read.skipSpaces text.toList) with
  | some (v, rest) => if (Read.skipSpaces rest).isEmpty then some v else none
  | none => none

end MobSkills.Json
