import MobSkills.Line.Basic
import MobSkills.Text.Printable
import MobSkills.Text.Reader

/-!
# Listings of skill lines

A listing shows the parts of a line as nested records, one field or item a line
and four spaces a level. Absent parts are left out. A health gate has no listing,
because the sign of its comparison is not a name.
-/
namespace MobSkills

namespace Listing

/-- A character in a quoted text. -/
def escapeChar (c : Char) : List Char :=
  match c with
  | '"' => ['\\', '"']
  | '\'' => ['\\', '\'']
  | '\\' => ['\\', '\\']
  | '\n' => ['\\', 'n']
  | '\r' => ['\\', 'r']
  | '\t' => ['\\', 't']
  | '\x00' => ['\\', '0']
  | c =>
    if Text.isPrintable c then [c]
    else ['\\', 'u', '\x7b'] ++ Text.lowerHex c.toNat ++ ['\x7d']

def quoted (s : String) : List Char :=
  '"' :: s.toList.flatMap escapeChar ++ ['"']

def indent (level : Nat) : List Char :=
  List.replicate (4 * level) ' '

/-- Written items between an opening and a closing character, one a line, each with
a comma; nothing is between them where there is no item. -/
def enclose (level : Nat) (opening closing : Char) (items : List (List Char)) : List Char :=
  if items.isEmpty then [opening, closing]
  else
    [opening, '\n'] ++ items.flatMap (fun item => indent (level + 1) ++ item ++ [',', '\n']) ++
      indent level ++ [closing]

/-- A field of a record. -/
def field (name : String) (value : List Char) : List Char :=
  name.toList ++ ':' :: ' ' :: value

/-- A field for a part that is there. -/
def someField {α : Type} (name : String) (write : α → List Char) (part : Option α) :
    List (List Char) :=
  (part.map fun a => field name ("Some(".toList ++ write a ++ [')'])).toList

def value (level : Nat) : Value → List Char
  | .boolean b => if b then "true".toList else "false".toList
  | .integer i => (toString i.toInt).toList
  | .real x => x.pointed
  | .text s => quoted s
  | .list items => enclose level '[' ']' (items.map quoted)

def params (level : Nat) (p : Params) : List Char :=
  enclose level '\x7b' '\x7d'
    (p.entries.map fun (key, v) => quoted key ++ ':' :: ' ' :: value (level + 1) v)

def targeter (level : Nat) (t : Targeter) : List Char :=
  enclose level '(' ')'
    (field "type" (quoted t.kind) :: someField "options" (params (level + 1)) t.options)

def trigger (level : Nat) (t : Trigger) : List Char :=
  enclose level '(' ')' (field "name" (quoted t.name) :: someField "value" quoted t.value)

def condition (level : Nat) (c : Condition) : List Char :=
  enclose level '(' ')'
    (field "negated" (if c.negated then "true".toList else "false".toList) ::
      field "name" (quoted c.name) :: someField "params" quoted c.group)

def conditions (level : Nat) (cs : List Condition) : List (List Char) :=
  if cs.isEmpty then []
  else [field "inline_conditions" (enclose level '[' ']' (cs.map (condition (level + 1))))]

end Listing

/-- The listing of a line, or the comparison that stands in its way. -/
def SkillLine.listing (line : SkillLine) : Except Comparison String :=
  match line.health with
  | some gate => .error gate.comparison
  | none =>
    .ok (String.ofList (Listing.enclose 0 '(' ')'
      (Listing.field "mechanic" (Listing.quoted line.mechanic) ::
        Listing.someField "parameters" (Listing.params 1) line.parameters ++
        Listing.someField "targeter" (Listing.targeter 1) line.targeter ++
        Listing.someField "trigger" (Listing.trigger 1) line.trigger ++
        Listing.conditions 1 line.conditions ++
        Listing.someField "chance" Binary64.pointed line.chance)))

end MobSkills
