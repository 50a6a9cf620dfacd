/-!
# Issues

One finding with the dotted path of the field it is about. Errors stop an export;
warnings and information do not.
-/
namespace MobSkills

inductive Severity where
  | error
  | warning
  | info
deriving DecidableEq

def Severity.label : Severity → String
  | .error => "error"
  | .warning => "warning"
  | .info => "info"

structure Issue where
  severity : Severity
  field : String
  message : String
  suggestion : Option String := none
  /-- The skill line the issue was found on, such as `skills[2]`. -/
  path : Option String := none
deriving DecidableEq

namespace Issue

def error (field message suggestion : String) : Issue :=
  ⟨.error, field, message, some suggestion, none⟩

def warning (field message suggestion : String) : Issue :=
  ⟨.warning, field, message, some suggestion, none⟩

def info (field message suggestion : String) : Issue :=
  ⟨.info, field, message, some suggestion, none⟩

/-- The name of a skill line within its owner. -/
def skillPath (index : Nat) : String :=
  "skills[" ++ toString index ++ "]"

/-- An issue of one skill line as an issue of the definition that holds it. -/
def underSkill (index : Nat) (i : Issue) : Issue :=
  { i with field := skillPath index ++ "." ++ i.field, path := some (skillPath index) }

def display (i : Issue) : String :=
  i.severity.label ++ ": " ++ i.field ++ ": " ++ i.message ++
    match i.suggestion with
    | some s => " (" ++ s ++ ")"
    | none => ""

end Issue

/-- How many issues of a severity there are. -/
def countSeverity (severity : Severity) (issues : List Issue) : Nat :=
  issues.countP (·.severity = severity)

/-- Whether no issue is an error. -/
def isValid (issues : List Issue) : Bool :=
  issues.all (·.severity != .error)

end MobSkills
