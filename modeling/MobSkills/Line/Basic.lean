import MobSkills.Line.Params

/-!
# Skill lines

The structure of one skill line. Every part but the mechanic may be absent, and
the parts are independent of each other; their order in the text is fixed.
-/
namespace MobSkills

/-- `@kind{options}`: whom the mechanic is aimed at. -/
structure Targeter where
  kind : String
  options : Option Params := none
deriving DecidableEq

/-- `~name` or `~name:value`: what sets the line off. -/
structure Trigger where
  name : String
  value : Option String := none
deriving DecidableEq

namespace Trigger

/-- A trigger from one word, split at its first colon; an empty value is none. -/
def ofWord (word : String) : Trigger :=
  match Text.splitOnce ':' word.toList with
  | none => ⟨word, none⟩
  | some (name, []) => ⟨String.ofList name, none⟩
  | some (name, value) => ⟨String.ofList name, some (String.ofList value)⟩

def display (t : Trigger) : String :=
  match t.value with
  | some value => t.name ++ ":" ++ value
  | none => t.name

end Trigger

/-- `?name{…}`: a condition on the line, with its braces kept as text. -/
structure Condition where
  negated : Bool := false
  name : String
  group : Option String := none
deriving DecidableEq

/-- The condition as written after its question mark. -/
def Condition.display (c : Condition) : String :=
  (if c.negated then "!" else "") ++ c.name ++ c.group.getD ""

/-- How a health gate compares. -/
inductive Comparison where
  | below
  | equal
  | above
deriving DecidableEq

namespace Comparison

def symbol : Comparison → Char
  | .below => '<'
  | .equal => '='
  | .above => '>'

def ofSymbol? : Char → Option Comparison
  | '<' => some .below
  | '=' => some .equal
  | '>' => some .above
  | _ => none

theorem ofSymbol?_symbol (c : Comparison) : ofSymbol? c.symbol = some c := by
  cases c <;> rfl

end Comparison

/-- `<50%`, `>100` or `=30%-50%`: the health at which the line applies. -/
structure HealthGate where
  comparison : Comparison
  value : String
deriving DecidableEq

structure SkillLine where
  mechanic : String := ""
  parameters : Option Params := none
  targeter : Option Targeter := none
  trigger : Option Trigger := none
  conditions : List Condition := []
  health : Option HealthGate := none
  chance : Option Binary64 := none
deriving DecidableEq

/-- Whether two optional parts are both absent or both present and related. -/
def sameOption {α : Type} (same : α → α → Bool) : Option α → Option α → Bool
  | none, none => true
  | some a, some b => same a b
  | _, _ => false

def Targeter.same (a b : Targeter) : Bool :=
  a.kind == b.kind && sameOption Params.same a.options b.options

namespace SkillLine

/-- Equality in which reals compare as numbers: a NaN differs from itself. -/
def same (a b : SkillLine) : Bool :=
  a.mechanic == b.mechanic && sameOption Params.same a.parameters b.parameters &&
    sameOption Targeter.same a.targeter b.targeter && a.trigger == b.trigger &&
    a.conditions == b.conditions && a.health == b.health &&
    sameOption Binary64.same a.chance b.chance

/-- The parameter under the first of the names that is given, in any case. -/
def parameterOf? (line : SkillLine) (names : List String) : Option (String × Value) :=
  line.parameters.bind fun p => names.findSome? p.findIgnoreCase?

end SkillLine
end MobSkills
