import MobSkills.Line.Value

/-!
# Schemas of catalog entries

What a catalog knows about a mechanic, a targeter, a condition or a trigger. A
parameter answers to its name and to its aliases in any letter case.
-/
namespace MobSkills

inductive ParameterType where
  | string
  | number
  | boolean
  | enum
  | list
deriving DecidableEq

def ParameterType.label : ParameterType → String
  | .string => "string"
  | .number => "number"
  | .boolean => "boolean"
  | .enum => "enum"
  | .list => "list"

structure ParameterSchema where
  type : ParameterType := .string
  required : Bool := false
  default : Option Value := none
  description : String := ""
  /-- The values an enumeration admits; with none, it admits all. -/
  values : List String := []
  min : Option Binary64 := none
  max : Option Binary64 := none
  aliases : List String := []
deriving DecidableEq

/-- Whether a key names this parameter, whose name is `name`. -/
def ParameterSchema.answersTo (p : ParameterSchema) (name key : String) : Bool :=
  Text.eqIgnoreCase name key || p.aliases.any (Text.eqIgnoreCase · key)

/-- Parameters under their names, sorted by name. -/
abbrev ParameterTable := List (String × ParameterSchema)

namespace ParameterTable

/-- Whether a name does not come after another in the order of code points. -/
def nameLe (a b : String × ParameterSchema) : Bool :=
  !decide (b.1 < a.1)

def ofList (parameters : List (String × ParameterSchema)) : ParameterTable :=
  parameters.mergeSort nameLe

/-- The first parameter a key refers to, by name or alias. -/
def find? (table : ParameterTable) (key : String) : Option (String × ParameterSchema) :=
  List.find? (fun (name, p) => p.answersTo name key) table

end ParameterTable

/-- Whether and how a trigger takes a value after a colon. -/
structure TriggerForm where
  takesValue : Bool := false
  valueType : Option ParameterType := none
deriving DecidableEq

/-- A named entry of a catalog; `detail` is what its kind adds. -/
structure Entry (δ : Type) where
  name : String
  aliases : List String := []
  category : String := ""
  description : String := ""
  detail : δ
deriving DecidableEq

inductive EntryKind where
  | mechanic
  | targeter
  | condition
  | trigger
deriving DecidableEq

namespace EntryKind

def label : EntryKind → String
  | .mechanic => "mechanic"
  | .targeter => "targeter"
  | .condition => "condition"
  | .trigger => "trigger"

/-- The sign before a name of this kind in a skill line. -/
def sigil : EntryKind → String
  | .mechanic => ""
  | .targeter => "@"
  | .condition => "?"
  | .trigger => "~"

end EntryKind
end MobSkills
