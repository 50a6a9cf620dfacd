import MobSkills.Line.Token
import MobSkills.Text.Ascii
import MobSkills.Text.Blank
import MobSkills.Validation.Skill

/-!
# The place under the cursor

Which part of the grammar is being typed, judged from the text between the last
line feed and the cursor alone. The query is always the end of that text, so a
choice can be put in its place.
-/
namespace MobSkills

inductive Slot where
  | none
  | mechanic
  | parameter (mechanic : String)
  | parameterValue (mechanic parameter : String)
  | metaskill
  | targeter
  | targeterOption (targeter : String)
  | trigger
  | condition
deriving DecidableEq

structure CompletionContext where
  slot : Slot
  /-- The part of the word that is typed already. -/
  query : String
  /-- The byte offset at which the query starts. -/
  start : Nat
  cursor : Nat
deriving DecidableEq

namespace Completion

/-- The characters of a name in progress: letters, digits and underscores. -/
def isNameChar (c : Char) : Bool :=
  c.isAlphanum || c == '_'

def isTriggerChar (c : Char) : Bool :=
  isNameChar c || c == ':'

/-- The text after blanks, a list marker and blanks again. -/
def afterMarker (line : List Char) : List Char :=
  match Text.trimLeft line with
  | '-' :: r => Text.trimLeft r
  | s => s

/-- A word, an opening brace, and what follows without a closing brace. -/
def openGroup? (s : List Char) : Option (List Char × List Char) :=
  match s with
  | c :: r =>
    if c.isAlpha then
      match r.dropWhile Token.isWordChar with
      | '\x7b' :: block =>
        if block.contains '\x7d' then none else some (c :: r.takeWhile Token.isWordChar, block)
      | _ => none
    else none
  | [] => none

/-- The first targeter of a line whose group is still open at its end. -/
def openTargeter? : List Char → Option (List Char × List Char)
  | [] => none
  | c :: r => (if c = '@' then openGroup? r else none).or (openTargeter? r)

/-- The entry of a group that is being typed, without blanks before it. -/
def lastEntry (block : List Char) : List Char :=
  Text.trimLeft (Text.afterLast ';' block)

/-- The characters of one class at the end of a line, and what stands before. -/
def splitTail (p : Char → Bool) (line : List Char) : List Char × List Char :=
  ((line.reverse.dropWhile p).reverse, (line.reverse.takeWhile p).reverse)

/-- The name at the end of a line, if `sign` stands right before it. -/
def signed? (sign : Char) (p : Char → Bool) (line : List Char) : Option (List Char) :=
  let (before, name) := splitTail p line
  if before.getLast? = some sign then some name else none

/-- The condition name at the end of a line, after a question mark that a bang
may follow. -/
def condition? (line : List Char) : Option (List Char) :=
  let (before, name) := splitTail isNameChar line
  let before := if before.getLast? = some '!' then before.dropLast else before
  if before.getLast? = some '?' then some name else none

/-- Whether a parameter of a mechanic, both as written, names a metaskill. -/
def namesMetaskill (mechanic parameter : String) : Bool :=
  Text.eqIgnoreCase mechanic "skill" && invocationKeys.any (Text.eqIgnoreCase · parameter)

/-- The slot at the end of a line in an open group of parameters. -/
def parameterSlot (mechanic : String) (block : List Char) : Slot × List Char :=
  let entry := lastEntry block
  match Text.splitOnce '=' entry with
  | none => (.parameter mechanic, entry)
  | some (key, value) =>
    let key := String.ofList (Text.trim key)
    if namesMetaskill mechanic key then (.metaskill, value)
    else (.parameterValue mechanic key, value)

/-- The slot at the end of a line and the query, which the line ends with. -/
def slotOf (line : List Char) : Slot × List Char :=
  let head := afterMarker line
  if head.all isTriggerChar then (.mechanic, head)
  else match openGroup? head with
    | some (mechanic, block) => parameterSlot (String.ofList mechanic) block
    | none =>
      match openTargeter? line with
      | some (targeter, block) =>
        let entry := lastEntry block
        if entry.contains '=' then (.none, [])
        else (.targeterOption (String.ofList targeter), entry)
      | none =>
        match signed? '@' isNameChar line with
        | some name => (.targeter, name)
        | none =>
          match signed? '~' isTriggerChar line with
          | some name => (.trigger, name)
          | none =>
            match condition? line with
            | some name => (.condition, name)
            | none => (.none, [])

/-- The context of a cursor, given as a byte offset. An offset past the end or
inside a character counts as the nearest boundary before it. -/
def contextAt (text : String) (cursor : Nat) : CompletionContext :=
  let before := (Text.splitAtByte cursor text.toList).1
  let (slot, query) := slotOf (Text.afterLast '\n' before)
  let cursor := Text.byteLength before
  ⟨slot, String.ofList query, cursor - Text.byteLength query, cursor⟩

/-- What is typed along with a choice: mechanics open their group, and names of
parameters and options take their equals sign. -/
def suffixOf : Slot → String
  | .mechanic => "\x7b"
  | .parameter _ | .targeterOption _ => "="
  | _ => ""

/-- The text with the query of a context replaced by a choice, and the cursor
after it. Offsets that do not fit the text are pulled back. -/
def applyChoice (text : String) (context : CompletionContext) (choice : String) : String × Nat :=
  let s := text.toList
  let start := Text.clampOffset s context.start
  let finish := max (Text.clampOffset s context.cursor) start
  let inserted := (Text.splitAtByte start s).1 ++ choice.toList ++ (suffixOf context.slot).toList
  (String.ofList (inserted ++ (Text.splitAtByte finish s).2), Text.byteLength inserted)

end Completion
end MobSkills
