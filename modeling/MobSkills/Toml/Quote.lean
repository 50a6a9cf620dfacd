import MobSkills.Text.Reader
import MobSkills.Toml.Basic

/-!
# Writing TOML strings

A text with a backslash is written as it is between single quotes where that is
possible, and any other text with escapes between double quotes. A text of many
lines starts on a line of its own.
-/
namespace MobSkills.Toml

/-- Characters that no string holds as they are. -/
def isControl (c : Char) : Bool :=
  (c.toNat < 0x20 && c != '\t' && c != '\n') || c.toNat == 0x7F

/-- Whether three single quotes stand in a row somewhere. -/
def hasTripleQuote : List Char → Bool
  | [] => false
  | c :: r => List.isPrefixOf ['\'', '\'', '\''] (c :: r) || hasTripleQuote r

/-- Whether a text is written without escapes. -/
def isLiteral (s : List Char) : Bool :=
  s.contains '\\' && !hasTripleQuote s && !s.any isControl && s.getLast? != some '\''

def upperHex (n : Nat) : List Char :=
  (Nat.toDigits 16 n).map Char.toUpper

def escapeChar (c : Char) : List Char :=
  match c with
  | '"' => ['\\', '"']
  | '\\' => ['\\', '\\']
  | '\x08' => ['\\', 'b']
  | '\t' => ['\\', 't']
  | '\x0c' => ['\\', 'f']
  | '\r' => ['\\', 'r']
  | c => if isControl c then '\\' :: 'u' :: Text.padZeros 4 (upperHex c.toNat) else [c]

/-- A text between quotes, three on each side and a line break first where it has
many lines. -/
def enquote (quote : Char) (triple : Bool) (s body : List Char) : List Char :=
  if s.contains '\n' then [quote, quote, quote, '\n'] ++ body ++ [quote, quote, quote]
  else if triple then [quote, quote, quote] ++ body ++ [quote, quote, quote]
  else quote :: body ++ [quote]

/-- The source of a string. -/
def quote (text : String) : String :=
  let s := text.toList
  String.ofList
    (if isLiteral s then enquote '\'' (s.contains '\'') s s
    else enquote '"' false s (s.flatMap escapeChar))

end MobSkills.Toml
