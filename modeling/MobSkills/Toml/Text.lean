import MobSkills.Text.Reader
import MobSkills.Toml.Basic

/-!
# Blanks, keys and strings of TOML

Control characters are refused everywhere but for the tab and line breaks, and a
carriage return counts only before a line feed. A line break in a string is a
line feed.
-/
namespace MobSkills.Toml.Read

open MobSkills.Text (Reader)

def isSpace (c : Char) : Bool :=
  c == ' ' || c == '\t'

/-- Spaces and tabs, and what follows them. -/
def spaces (s : List Char) : List Char × List Char :=
  (s.takeWhile isSpace, s.dropWhile isSpace)

/-- The characters of comments and, quotes and backslashes apart, of strings. -/
def isTextChar (c : Char) : Bool :=
  c == '\t' || (0x20 ≤ c.toNat && c.toNat != 0x7F)

/-- A comment where one comes first, and what follows it. -/
def comment : List Char → List Char × List Char
  | '#' :: r => ('#' :: r.takeWhile isTextChar, r.dropWhile isTextChar)
  | s => ([], s)

def newline : Reader (List Char)
  | '\n' :: r => some (['\n'], r)
  | '\r' :: '\n' :: r => some (['\r', '\n'], r)
  | _ => none

/-- What follows a line break, or the end of the text. -/
def lineEnd : Reader (List Char)
  | [] => some ([], [])
  | s => newline s

theorem length_newline {s lineBreak rest : List Char} (h : newline s = some (lineBreak, rest)) :
    rest.length < s.length := by
  unfold newline at h
  split at h <;> cases h
  · exact Nat.lt_succ_self _
  · exact Nat.lt_succ_of_lt (Nat.lt_succ_self _)

theorem length_comment (s : List Char) : (comment s).2.length ≤ s.length := by
  unfold comment
  split
  · exact Nat.le_succ_of_le (List.dropWhile_sublist _).length_le
  · exact Nat.le_refl _

theorem length_spaces (s : List Char) : (spaces s).2.length ≤ s.length :=
  (List.dropWhile_sublist _).length_le

/-- Blanks, line breaks and comments, and what follows them. -/
def blanks (s : List Char) : List Char × List Char :=
  match hs : spaces s with
  | (space, afterSpace) =>
    match hc : comment afterSpace with
    | (remark, afterRemark) =>
      match hn : newline afterRemark with
      | none => (space ++ remark, afterRemark)
      | some (lineBreak, rest) =>
        have : rest.length < s.length := by
          have hspace := length_spaces s
          have hremark := length_comment afterSpace
          rw [hs] at hspace
          rw [hc] at hremark
          exact Nat.lt_of_lt_of_le (length_newline hn) (Nat.le_trans hremark hspace)
        let (more, left) := blanks rest
        (space ++ remark ++ lineBreak ++ more, left)
termination_by s.length

def isBareChar (c : Char) : Bool :=
  c.isAlphanum || c == '_' || c == '-'

/-- A character with a code point, unless the number is not one. -/
def scalar? (n : Nat) : Option Char :=
  if n < 0xD800 ∨ (0xE000 ≤ n ∧ n < 0x110000) then some (Char.ofNat n) else none

def codePoint (width : Nat) : Reader (List Char) := fun s => do
  let (n, rest) ← Text.readHex width s
  let c ← scalar? n
  return ([c], rest)

/-- An escape after its backslash. -/
def escape : Reader (List Char)
  | 'u' :: r => codePoint 4 r
  | 'U' :: r => codePoint 8 r
  | c :: r =>
    let plain? : Option Char := match c with
      | '"' => some '"'
      | '\\' => some '\\'
      | 'b' => some '\x08'
      | 'f' => some '\x0c'
      | 'n' => some '\n'
      | 'r' => some '\r'
      | 't' => some '\t'
      | _ => none
    plain?.map fun u => ([u], r)
  | [] => none

/-- Blanks, a line break, and all blanks and line breaks after it. -/
def continuation : Reader (List Char) := fun s => do
  let (_, rest) ← newline (spaces s).2
  let (_, rest) := Reader.many (fun s => match s with
    | c :: r => if isSpace c then some ([c], r) else newline (c :: r)
    | [] => none) rest
  return ([], rest)

/-- A character of a string between quotes. -/
def basicUnit : Reader (List Char)
  | [] => none
  | c :: r =>
    if c = '\\' then escape r
    else if c = '"' || !isTextChar c then none
    else some ([c], r)

def literalUnit : Reader (List Char)
  | [] => none
  | c :: r => if c = '\'' || !isTextChar c then none else some ([c], r)

/-- Whether three quotes stand first. -/
def closes (quote : Char) (s : List Char) : Bool :=
  List.isPrefixOf [quote, quote, quote] s

/-- A character of a string of many lines: also a line break, or a quote that does
not begin the closing ones. -/
def multilineUnit (quote : Char) (inLine : Reader (List Char)) : Reader (List Char) := fun s =>
  match newline s with
  | some (_, rest) => some (['\n'], rest)
  | none =>
    match s with
    | [] => none
    | c :: r =>
      if c = quote then (if closes quote s then none else some ([c], r))
      else if c = '\\' && quote = '"' then (continuation r).or (escape r)
      else inLine s

/-- The rest of a string of one line after its opening quote. -/
def singleLine (quote : Char) (unit : Reader (List Char)) : Reader (List Char) := fun s =>
  let (units, rest) := Reader.many unit s
  (Reader.char quote rest).map fun (_, rest) => (units.flatten, rest)

/-- The rest of a string of many lines after its opening quotes. A line break right
after them is not part of it, and up to two quotes right before the closing ones
are. -/
def multiline (quote : Char) (unit : Reader (List Char)) : Reader (List Char) := fun s =>
  let s := match newline s with
    | some (_, rest) => rest
    | none => s
  let (units, rest) := Reader.many (multilineUnit quote unit) s
  if closes quote rest then
    let extra := ((rest.drop 3).take 2).takeWhile (· = quote)
    some (units.flatten ++ extra, rest.drop (3 + extra.length))
  else none

/-- A string of any of the four forms. -/
def string : Reader (List Char)
  | '"' :: r =>
    if closes '"' ('"' :: r) then multiline '"' basicUnit (r.drop 2)
    else singleLine '"' basicUnit r
  | '\'' :: r =>
    if closes '\'' ('\'' :: r) then multiline '\'' literalUnit (r.drop 2)
    else singleLine '\'' literalUnit r
  | _ => none

/-- The text that a reader took, given what it left. -/
def takenText (s rest : List Char) : String :=
  String.ofList (Reader.taken s rest)

/-- The name and the spelling of one part of a key: bare, or a string of one line. -/
def simpleKey : Reader (String × String) := fun s =>
  match s with
  | '"' :: r => quoted s (singleLine '"' basicUnit r)
  | '\'' :: r => quoted s (singleLine '\'' literalUnit r)
  | s =>
    let bare := s.takeWhile isBareChar
    if bare.isEmpty then none
    else some ((String.ofList bare, String.ofList bare), s.dropWhile isBareChar)
where
  quoted (s : List Char) :
      Option (List Char × List Char) → Option ((String × String) × List Char) :=
    Option.map fun (text, rest) => ((String.ofList text, takenText s rest), rest)

/-- A part of a key with the blanks around it. -/
def keyPart : Reader Key := fun s => do
  let (before, s) := spaces s
  let ((name, source), s) ← simpleKey s
  let (after, s) := spaces s
  return (⟨name, source, ⟨String.ofList before, String.ofList after⟩⟩, s)

/-- The parts of a dotted key, fewer than a limit. -/
def key (limit : Nat) : Reader (List Key) := fun s => do
  let (path, rest) ← Reader.separated (Reader.char '.') keyPart s
  if path.length < limit then some (path, rest) else none

end MobSkills.Toml.Read
