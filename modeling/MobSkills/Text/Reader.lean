/-!
# Readers of text

A reader takes a value from the front of the characters and answers it with the
rest, or answers nothing. Readers here are plain functions; what is shared is the
repetition, which stops as soon as a reader fails.
-/
namespace MobSkills.Text

abbrev Reader (α : Type) := List Char → Option (α × List Char)

namespace Reader

variable {α : Type}

/-- One character, which has to be `c`. -/
def char (c : Char) : Reader Unit
  | [] => none
  | d :: r => if d = c then some ((), r) else none

/-- The characters of a word, which has to stand first. -/
def word (w : List Char) : Reader Unit := fun s =>
  if w.isPrefixOf s then some ((), s.drop w.length) else none

/-- Values as long as the reader finds them, at most `count`, and the rest. -/
def atMost (count : Nat) (read : Reader α) (s : List Char) : List α × List Char :=
  match count with
  | 0 => ([], s)
  | count + 1 =>
    match read s with
    | none => ([], s)
    | some (a, rest) =>
      let (more, left) := atMost count read rest
      (a :: more, left)

/-- Values as long as the reader finds them, and the rest. A reader that takes a
character each time finds no more values than there are characters. -/
def many (read : Reader α) (s : List Char) : List α × List Char :=
  atMost s.length read s

/-- One value or more, with a separator before each but the first. -/
def separated (separator : Reader Unit) (read : Reader α) : Reader (List α) := fun s => do
  let (first, rest) ← read s
  let (more, left) := many (fun s => do
    let (_, rest) ← separator s
    read rest) rest
  return (first :: more, left)

/-- The characters a reader took from the front, given what it left. -/
def taken (s rest : List Char) : List Char :=
  s.take (s.length - rest.length)

end Reader

/-- The value of a hexadecimal digit. -/
def hexDigit? (c : Char) : Option Nat :=
  if c.isDigit then some (c.toNat - '0'.toNat)
  else if 'a' ≤ c ∧ c ≤ 'f' then some (c.toNat - 'a'.toNat + 10)
  else if 'A' ≤ c ∧ c ≤ 'F' then some (c.toNat - 'A'.toNat + 10)
  else none

/-- The value of hexadecimal digits, if all of them are. -/
def hexValue? (digits : List Char) : Option Nat :=
  digits.foldlM (fun n c => (hexDigit? c).map (16 * n + ·)) 0

/-- A number of exactly `count` hexadecimal digits. -/
def readHex (count : Nat) : Reader Nat := fun s =>
  if s.length < count then none
  else (hexValue? (s.take count)).map fun n => (n, s.drop count)

/-- The lower-case hexadecimal digits of a number, without leading zeros. -/
def lowerHex (n : Nat) : List Char :=
  Nat.toDigits 16 n

/-- Digits with zeros before them up to a width. -/
def padZeros (width : Nat) (digits : List Char) : List Char :=
  List.replicate (width - digits.length) '0' ++ digits

end MobSkills.Text
