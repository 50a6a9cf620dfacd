import MobSkills.Json.Basic
import MobSkills.Text.Reader

/-!
# Writing JSON

Strings escape the double quote, the backslash and control characters below the
space, and nothing else. Values are written without blanks, or indented by two
spaces a level.
-/
namespace MobSkills.Json

def escapeChar (c : Char) : List Char :=
  match c with
  | '"' => ['\\', '"']
  | '\\' => ['\\', '\\']
  | '\x08' => ['\\', 'b']
  | '\t' => ['\\', 't']
  | '\n' => ['\\', 'n']
  | '\x0c' => ['\\', 'f']
  | '\r' => ['\\', 'r']
  | c => if c.toNat < 0x20 then '\\' :: 'u' :: Text.padZeros 4 (Text.lowerHex c.toNat) else [c]

def writeString (s : String) : List Char :=
  '"' :: s.toList.flatMap escapeChar ++ ['"']

/-- Digits, a fraction where there is one, and an exponent with its sign. -/
def writeNumber (n : JsonNumber) : List Char :=
  (if n.negative then ['-'] else []) ++ n.whole ++
    (if n.fraction.isEmpty then [] else '.' :: n.fraction) ++
    match n.exponent with
    | none => []
    | some e => 'e' :: (if e < 0 then '-' else '+') :: Nat.toDigits 10 e.natAbs

/-- How the parts of an array or object are set out. -/
structure Layout where
  /-- What comes before an item or a closing character at a level of nesting. -/
  lineBreak : Nat → List Char
  colon : List Char

def compactLayout : Layout :=
  ⟨fun _ => [], [':']⟩

def indentedLayout : Layout :=
  ⟨fun level => '\n' :: List.replicate (2 * level) ' ', [':', ' ']⟩

/-- Written items between an opening and a closing character; nothing is between
them where there is no item. -/
def enclose (layout : Layout) (level : Nat) (opening closing : Char) (items : List (List Char)) :
    List Char :=
  if items.isEmpty then [opening, closing]
  else
    opening :: List.flatten ((items.map (layout.lineBreak (level + 1) ++ ·)).intersperse [',']) ++
      layout.lineBreak level ++ [closing]

mutual

/-- A value at a level of nesting. -/
def write (layout : Layout) (level : Nat) : Json → List Char
  | .null => "null".toList
  | .boolean b => if b then "true".toList else "false".toList
  | .number n => writeNumber n
  | .string s => writeString (s.getD "")
  | .array items => enclose layout level '[' ']' (writeItems layout (level + 1) items)
  | .object entries =>
    enclose layout level '\x7b' '\x7d' (writeEntries layout (level + 1) entries)

def writeItems (layout : Layout) (level : Nat) : List Json → List (List Char)
  | [] => []
  | item :: rest => write layout level item :: writeItems layout level rest

def writeEntries (layout : Layout) (level : Nat) :
    List (Option String × Json) → List (List Char)
  | [] => []
  | (key, value) :: rest =>
    (writeString (key.getD "") ++ layout.colon ++ write layout level value) ::
      writeEntries layout level rest

end

/-- The text without blanks. -/
def compact (j : Json) : String :=
  String.ofList (write compactLayout 0 j)

/-- The text with one item a line. -/
def indented (j : Json) : String :=
  String.ofList (write indentedLayout 0 j)

end MobSkills.Json
