import MobSkills.Json.Basic
import MobSkills.Line.Parse

/-!
# Skill lines as JSON

A record is an object with its fields by name, or an array of its fields in
order. Fields of other names are ignored, but a field must not be given twice.
Absent parts of a line are not written.

Decoding leaves open how a number is read as a real. The reader that runs may round
more than once, so that not every written real is read back.
-/
namespace MobSkills.Json

/-- The fields of a record in the order of `names`, each if it is given. -/
def fields? (names : List String) : Json → Option (List (Option Json))
  | .array items =>
    if items.length ≤ names.length then
      some (items.map some ++ List.replicate (names.length - items.length) none)
    else none
  | .object entries =>
    if entries.all (fun (key, _) => key.isSome) &&
        names.all (fun name => (entries.filter fun (key, _) => key == some name).length ≤ 1) then
      some (names.map fun name => entries.lookup (some name))
    else none
  | _ => none

/-- A field that may be absent or null. -/
def optional {α : Type} (decode : Json → Option α) : Option Json → Option (Option α)
  | none | some .null => some none
  | some j => (decode j).map some

/-- A field that may be absent, and is not null. -/
def withDefault {α : Type} (default : α) (decode : Json → Option α) : Option Json → Option α
  | none => some default
  | some j => decode j

def toBool? : Json → Option Bool
  | .boolean b => some b
  | _ => none

def toText? : Json → Option String
  | .string s => s
  | _ => none

def toList? {α : Type} (decode : Json → Option α) : Json → Option (List α)
  | .array items => items.mapM decode
  | _ => none

def toTexts? : Json → Option (List String) :=
  toList? toText?

section
variable (real? : JsonNumber → Option Binary64)

/-- A number as a real; an integer of 64 bits counts as one. -/
def toRealWith? : Json → Option Binary64
  | .number n =>
    match n.toInt64? with
    | some i => some (.ofInt i.toInt)
    | none => real? n
  | _ => none

/-- A parameter value: its kind is decided by the value alone. -/
def toValueWith? : Json → Option Value
  | .boolean b => some (.boolean b)
  | .number n =>
    match n.toInt64? with
    | some i => some (.integer i)
    | none => (real? n).map .real
  | .string s => s.map .text
  | .array items => (items.mapM toText?).map .list
  | .null | .object _ => none

/-- A member of an object as a parameter. -/
def toParameterWith? (entry : Option String × Json) : Option (String × Value) := do
  let key ← entry.1
  let value ← toValueWith? real? entry.2
  return (key, value)

/-- Parameters in the order of the object; a repeated key replaces in place. -/
def toParamsWith? : Json → Option Params
  | .object entries =>
    (entries.mapM (toParameterWith? real?)).map Params.ofList
  | _ => none

def toTargeterWith? (j : Json) : Option Targeter :=
  match fields? ["type", "options"] j with
  | some [kind, options] => do
    let kind ← kind.bind toText?
    let options ← optional (toParamsWith? real?) options
    return ⟨kind, options⟩
  | _ => none

end

def toValue? : Json → Option Value :=
  toValueWith? JsonNumber.toBinary64?

def toParams? : Json → Option Params :=
  toParamsWith? JsonNumber.toBinary64?

def ofValue : Value → Json
  | .boolean b => .boolean b
  | .integer i => ofInt i.toInt
  | .real x => ofReal x
  | .text s => ofString s
  | .list items => ofStrings items

def ofParams (p : Params) : Json :=
  ofEntries (p.entries.map fun (key, value) => (key, ofValue value))

/-- A list of one entry for a part that is there. -/
def present {α : Type} (name : String) (encode : α → Json) (part : Option α) :
    List (String × Json) :=
  (part.map fun a => (name, encode a)).toList

def ofTargeter (t : Targeter) : Json :=
  ofEntries (("type", ofString t.kind) :: present "options" ofParams t.options)

def toTrigger? (j : Json) : Option Trigger :=
  match fields? ["name", "value"] j with
  | some [name, value] => do
    let name ← name.bind toText?
    let value ← optional toText? value
    return ⟨name, value⟩
  | _ => none

def ofTrigger (t : Trigger) : Json :=
  ofEntries (("name", ofString t.name) :: present "value" ofString t.value)

def toCondition? (j : Json) : Option Condition :=
  match fields? ["negated", "name", "params"] j with
  | some [negated, name, group] => do
    let negated ← withDefault false toBool? negated
    let name ← name.bind toText?
    let group ← optional toText? group
    return ⟨negated, name, group⟩
  | _ => none

def ofCondition (c : Condition) : Json :=
  ofEntries
    (("negated", .boolean c.negated) :: ("name", ofString c.name) ::
      present "params" ofString c.group)

def comparisonOf? (name : String) : Option Comparison :=
  match name.toList with
  | [c] => Comparison.ofSymbol? c
  | _ => none

/-- A comparison: its symbol, or an object with the symbol as its key and null. -/
def toComparison? : Json → Option Comparison
  | .string (some name) => comparisonOf? name
  | .object [(some name, .null)] => comparisonOf? name
  | _ => none

def toHealthGate? (j : Json) : Option HealthGate :=
  match fields? ["operator", "value"] j with
  | some [comparison, value] => do
    let comparison ← comparison.bind toComparison?
    let value ← value.bind toText?
    return ⟨comparison, value⟩
  | _ => none

def ofHealthGate (h : HealthGate) : Json :=
  ofEntries
    [("operator", ofString (String.singleton h.comparison.symbol)), ("value", ofString h.value)]

def toSkillLineWith? (real? : JsonNumber → Option Binary64) (j : Json) : Option SkillLine :=
  match fields? ["mechanic", "parameters", "targeter", "trigger", "inline_conditions",
      "health_modifier", "chance"] j with
  | some [mechanic, parameters, targeter, trigger, conditions, health, chance] => do
    let mechanic ← mechanic.bind toText?
    let parameters ← optional (toParamsWith? real?) parameters
    let targeter ← optional (toTargeterWith? real?) targeter
    let trigger ← optional toTrigger? trigger
    let conditions ← withDefault [] (toList? toCondition?) conditions
    let health ← optional toHealthGate? health
    let chance ← optional (toRealWith? real?) chance
    return ⟨mechanic, parameters, targeter, trigger, conditions, health, chance⟩
  | _ => none

def toSkillLine? : Json → Option SkillLine :=
  toSkillLineWith? JsonNumber.toBinary64?

def ofSkillLine (line : SkillLine) : Json :=
  ofEntries
    (("mechanic", ofString line.mechanic) :: present "parameters" ofParams line.parameters ++
      present "targeter" ofTargeter line.targeter ++ present "trigger" ofTrigger line.trigger ++
      (if line.conditions.isEmpty then []
        else [("inline_conditions", .array (line.conditions.map ofCondition))]) ++
      present "health_modifier" ofHealthGate line.health ++ present "chance" ofReal line.chance)

def ofProblem (p : Problem) : Json :=
  ofEntries
    [("message", ofString p.message), ("position", ofInt p.position),
      ("token", ofOption ofString p.token)]

def ofOutcome (o : Outcome) : Json :=
  ofEntries
    [("ast", ofSkillLine o.line), ("errors", .array (o.errors.map ofProblem)),
      ("warnings", .array (o.warnings.map ofProblem))]

end MobSkills.Json
