import MobSkills.Validation.Cycles
import MobSkills.Validation.Definition

/-!
# Checks of a whole project

Every definition is checked against the names of the project; then duplicate
names and invocation cycles are looked for. A cycle is reported at the first
metaskill of the name it starts with.
-/
namespace MobSkills

-- Zero is that of core, so that sums mean the same beside other libraries.
attribute [local instance (high)] Zero.ofOfNat0

/-- The issues of a project and of its definitions, in project order. -/
structure Report where
  mobs : List (String × List Issue)
  metaskills : List (String × List Issue)
  project : List Issue
deriving DecidableEq

namespace Report

/-- Every list of issues with the label of its owner. -/
def all (report : Report) : List (String × List Issue) :=
  ("project", report.project) ::
    report.mobs.map (fun (name, issues) => ("mob " ++ name, issues)) ++
    report.metaskills.map (fun (name, issues) => ("metaskill " ++ name, issues))

/-- Whether nothing in the report is an error. -/
def canExport (report : Report) : Bool :=
  isValid report.project && report.mobs.all (isValid ·.2) && report.metaskills.all (isValid ·.2)

def count (severity : Severity) (report : Report) : Nat :=
  (report.all.map fun (_, issues) => countSeverity severity issues).sum

end Report

namespace Validation

/-- An error for each name that stands earlier in the list, empty names apart. -/
def duplicateIssues (list : String) (names : List String) : List Issue :=
  names.zipIdx.flatMap fun (name, index) =>
    if !name.isEmpty && (names.take index).contains name then
      [.error (list ++ "[" ++ toString index ++ "].internal_name")
        ("Duplicate internal name '" ++ name ++ "'")
        "Internal names must be unique within a project"]
    else []

def cycleIssue (cycle : List String) : Issue :=
  .error "skills" ("Indirect invocation cycle: " ++ " -> ".intercalate cycle)
    "Break the cycle so the metaskills cannot call each other forever"

/-- The results with an issue added to the first one of a name. -/
def addIssue (name : String) (issue : Issue) :
    List (String × List Issue) → List (String × List Issue)
  | [] => []
  | (owner, issues) :: rest =>
    if owner = name then (owner, issues ++ [issue]) :: rest
    else (owner, issues) :: addIssue name issue rest

def addCycle (results : List (String × List Issue)) (cycle : List String) :
    List (String × List Issue) :=
  match cycle with
  | [] => results
  | first :: _ => addIssue first (cycleIssue cycle) results

def projectReport (r : Registry) (p : Project) : Report where
  mobs := p.mobs.map fun m => (m.name, mobIssues r p.mobNames p.metaskillNames m)
  metaskills :=
    (invocationCycles r p).foldl addCycle
      (p.metaskills.map fun m => (m.name, metaskillIssues r p.metaskillNames m))
  project := duplicateIssues "mobs" p.mobNames ++ duplicateIssues "metaskills" p.metaskillNames

end Validation
end MobSkills
