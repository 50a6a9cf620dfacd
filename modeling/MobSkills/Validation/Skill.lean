import MobSkills.Catalog.Registry
import MobSkills.Line.Parse
import MobSkills.Validation.Issue

/-!
# Checks of one skill line

A line is checked against the registry and against the names of the metaskills it
may invoke. Names that the registry lacks are only warned about; a blank value
counts as one that was not given.
-/
namespace MobSkills

/-- The parameter names under which a line names the metaskill it invokes, in the
order in which they are looked for. -/
def invocationKeys : List String :=
  ["s", "skill", "spell", "metaskill"]

/-- What is wrong with the kind of a value, if anything. -/
def ParameterSchema.mismatch? (p : ParameterSchema) (v : Value) : Option String :=
  match p.type with
  | .number => if v.number?.isNone then some "should be a number" else none
  | .boolean => if v.truth?.isNone then some "should be true or false" else none
  | .enum =>
    if p.values.isEmpty || p.values.any (Text.eqIgnoreCase · v.display) then none
    else some "has an invalid value"
  | _ => none

namespace Validation

/-- The field of a parameter: what it belongs to and its name. -/
def fieldOf (place name : String) : String :=
  place ++ "." ++ name

/-- Warnings about a number outside the limits of its parameter. -/
def limitIssues (place name : String) (p : ParameterSchema) (x : Binary64) : List Issue :=
  let below := match p.min with
    | some low =>
      if x.lt low then
        [Issue.warning (fieldOf place name) ("Parameter \"" ++ name ++ "\" is below minimum value")
          ("Minimum value is " ++ low.text ++ ", you have " ++ x.text)]
      else []
    | none => []
  let above := match p.max with
    | some high =>
      if high.lt x then
        [Issue.warning (fieldOf place name) ("Parameter \"" ++ name ++ "\" exceeds maximum value")
          ("Maximum value is " ++ high.text ++ ", you have " ++ x.text)]
      else []
    | none => []
  below ++ above

/-- Issues of a value that was given for a parameter. -/
def valueIssues (place name : String) (p : ParameterSchema) (v : Value) : List Issue :=
  match p.mismatch? v with
  | some problem =>
    [.error (fieldOf place name) ("Parameter \"" ++ name ++ "\" " ++ problem)
      (if p.values.isEmpty then "Current value \"" ++ v.display ++ "\" is not valid"
        else "Valid values: " ++ ", ".intercalate p.values)]
  | none =>
    if p.type = .number then
      match v.number? with
      | some x => limitIssues place name p x
      | none => []
    else []

/-- The first value given under a key that the parameter answers to. -/
def givenValue? (given : List (String × Value)) (name : String) (p : ParameterSchema) :
    Option Value :=
  (given.find? fun (key, _) => p.answersTo name key).map (·.2)

/-- Issues of one parameter of a schema. -/
def parameterIssues (place : String) (given : List (String × Value))
    (parameter : String × ParameterSchema) : List Issue :=
  let (name, p) := parameter
  match (givenValue? given name p).filter (!·.isBlank) with
  | some v => valueIssues place name p v
  | none =>
    if p.required then
      [.error (fieldOf place name) ("Required parameter \"" ++ name ++ "\" is missing")
        (if p.description.isEmpty then "Add the " ++ name ++ " parameter" else p.description)]
    else []

/-- Information about the keys no parameter of the schema answers to. -/
def unknownIssues (place owner : String) (table : ParameterTable)
    (given : List (String × Value)) : List Issue :=
  (given.filter fun (key, _) => (table.find? key).isNone).map fun (key, _) =>
    .info (fieldOf place key) ("Unknown parameter \"" ++ key ++ "\" for " ++ owner)
      "This parameter may not be recognized"

/-- Issues of a group of parameters against the schema of its owner. -/
def groupIssues (place owner : String) (table : ParameterTable) (group : Option Params) :
    List Issue :=
  let given := (group.map Params.entries).getD []
  table.flatMap (parameterIssues place given) ++ unknownIssues place owner table given

def mechanicIssues (r : Registry) (line : SkillLine) : List Issue :=
  match r.mechanic? line.mechanic with
  | none =>
    [.warning "mechanic" ("Unknown mechanic: " ++ line.mechanic)
      "Check the mechanic name or add it to a schema file"]
  | some e => groupIssues "parameters" line.mechanic e.detail line.parameters

/-- Whether a mechanic runs a metaskill: by its own name, or by the name of the
entry it is an alias of. -/
def isInvocation (r : Registry) (mechanic : String) : Bool :=
  Text.eqIgnoreCase mechanic "skill" ||
    (r.mechanic? mechanic).any fun e => Text.eqIgnoreCase e.name "skill"

/-- The name of the metaskill a line invokes, if it invokes one. -/
def invoked? (r : Registry) (line : SkillLine) : Option String :=
  if isInvocation r line.mechanic then
    ((line.parameterOf? invocationKeys).map (·.2.display)).filter (!Text.allBlank ·)
  else none

/-- An error about an invoked name that is not known. -/
def referenceIssues (r : Registry) (known : List String) (line : SkillLine) : List Issue :=
  if isInvocation r line.mechanic then
    match line.parameterOf? invocationKeys with
    | some (key, v) =>
      if v.isBlank || known.contains v.display then []
      else
        [.error ("parameters." ++ key)
          ("Referenced metaskill \"" ++ v.display ++ "\" does not exist")
          "Create the metaskill or fix the reference"]
    | none => []
  else []

def targeterIssues (r : Registry) (t : Targeter) : List Issue :=
  match r.targeter? t.kind with
  | none =>
    [.warning "targeter" ("Unknown targeter: @" ++ t.kind)
      "Check the targeter name or add it to a schema file"]
  | some e => groupIssues "targeter.options" ("@" ++ e.name) e.detail t.options

def triggerIssues (r : Registry) (t : Trigger) : List Issue :=
  match r.trigger? t.name with
  | none =>
    [.warning "trigger" ("Unknown trigger: ~" ++ t.name)
      "Check the trigger name or add it to a schema file"]
  | some e =>
    if e.detail.takesValue && t.value.isNone then
      [.warning "trigger" ("Trigger ~" ++ e.name ++ " expects a value")
        ("Write it as ~" ++ e.name ++ ":<value>")]
    else []

def conditionIssues (r : Registry) (conditions : List Condition) : List Issue :=
  conditions.zipIdx.flatMap fun (c, index) =>
    if (r.condition? c.name).isNone then
      [.warning ("inline_conditions[" ++ toString index ++ "]") ("Unknown condition: " ++ c.name)
        "Check the condition name or add it to a schema file"]
    else []

def healthIssues (gate : HealthGate) : List Issue :=
  if Text.allBlank gate.value then
    [.warning "health_modifier" "Health modifier has no value"
      "Use a number, a percentage, or a range such as 30%-50%"]
  else []

def chanceIssues (chance : Binary64) : List Issue :=
  if Reading.inUnitRange chance then []
  else
    [.error "chance" "Chance should be between 0.0 and 1.0"
      "Use 0.5 for 50% chance, 1.0 for 100% chance"]

/-- The issues found by a check of a part, none where the part is absent. -/
def ofOption {α : Type} (check : α → List Issue) (part : Option α) : List Issue :=
  (part.map check).getD []

/-- The issues of a skill line. A line without a mechanic has that one alone. -/
def skillIssues (r : Registry) (known : List String) (line : SkillLine) : List Issue :=
  if Text.allBlank line.mechanic then
    [.error "mechanic" "Skill has no mechanic" "Specify what action this skill performs"]
  else
    mechanicIssues r line ++ referenceIssues r known line ++
      ofOption (targeterIssues r) line.targeter ++ ofOption (triggerIssues r) line.trigger ++
      conditionIssues r line.conditions ++ ofOption healthIssues line.health ++
      ofOption chanceIssues line.chance

end Validation
end MobSkills
