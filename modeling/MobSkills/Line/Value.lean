import MobSkills.Number.Shortest
import MobSkills.Text.Ascii
import MobSkills.Text.Blank

/-!
# Parameter values

A value keeps its kind: text that looks like a number stays text. The numeric
and truth views let quoted text stand for a number or a truth value where a
schema asks for one.
-/
namespace MobSkills

inductive Value where
  | boolean (value : Bool)
  | integer (value : Int64)
  | real (value : Binary64)
  | text (value : String)
  /-- The words of a bracketed group, as written. -/
  | list (items : List String)
deriving DecidableEq

namespace Value

/-- The numeric view. Text counts when it is a finite number apart from blanks
around it; a percentage is not a number. -/
def number? : Value → Option Binary64
  | .integer i => some (.ofInt i.toInt)
  | .real x => some x
  | .text s => (Binary64.read? (Text.trim s.toList)).filter Binary64.isFinite
  | .boolean _ | .list _ => none

/-- The truth view: a truth value, or its word in any case. -/
def truth? : Value → Option Bool
  | .boolean b => some b
  | .text s =>
    if Text.eqIgnoreCase s "true" then some true
    else if Text.eqIgnoreCase s "false" then some false
    else none
  | _ => none

def text? : Value → Option String
  | .text s => some s
  | _ => none

/-- Blank text counts as a value that was not given. -/
def isBlank : Value → Bool
  | .text s => Text.allBlank s
  | _ => false

/-- The value as a message shows it, without quotes. -/
def display : Value → String
  | .boolean b => if b then "true" else "false"
  | .integer i => toString i.toInt
  | .real x => x.text
  | .text s => s
  | .list items => "[" ++ " ".intercalate items ++ "]"

/-- Equality in which reals compare as numbers. -/
def same : Value → Value → Bool
  | .real x, .real y => x.same y
  | a, b => a == b

end Value
end MobSkills
