import MobSkills.Completion.Context
import MobSkills.Definition

/-!
# Suggestions for a place

Candidates come from the registry and from the metaskills at hand, in catalog
order, as far as their name or an alias contains the query in any letter case.
-/
namespace MobSkills

structure Suggestion where
  text : String
  description : Option String := none
  category : Option String := none
deriving DecidableEq

namespace Completion

/-- A text unless it is empty. -/
def nonEmpty? (s : String) : Option String :=
  if s.isEmpty then none else some s

def entryHits {δ : Type} (entries : List (Entry δ)) (query : String) (limit : Nat) :
    List Suggestion :=
  ((entries.filter fun e =>
    Text.matchesFolded query e.name || e.aliases.any (Text.matchesFolded query)).take limit).map
      fun e => ⟨e.name, nonEmpty? e.description, nonEmpty? e.category⟩

def metaskillHits (metaskills : List Metaskill) (query : String) (limit : Nat) :
    List Suggestion :=
  ((metaskills.filter fun m => Text.matchesFolded query m.name).take limit).map fun m =>
    ⟨m.name, some ("Metaskill with " ++ toString m.skills.length ++ " skill(s)"),
      some "metaskill"⟩

def parameterHits (table : ParameterTable) (query : String) (limit : Nat) : List Suggestion :=
  ((table.filter fun (name, p) =>
    Text.matchesFolded query name || p.aliases.any (Text.matchesFolded query)).take limit).map
      fun (name, p) =>
        ⟨name, nonEmpty? p.description,
          some (if p.required then p.type.label ++ " (required)" else p.type.label)⟩

/-- The values that a parameter admits, where they can be listed. -/
def listedValues (p : ParameterSchema) : List String :=
  match p.type with
  | .enum => p.values
  | .boolean => ["true", "false"]
  | _ => []

def valueHits (p : ParameterSchema) (query : String) (limit : Nat) : List Suggestion :=
  (((listedValues p).filter (Text.matchesFolded query)).take limit).map fun v =>
    ⟨v, none, some "value"⟩

/-- At most `limit` candidates for a context. -/
def suggestions (r : Registry) (context : CompletionContext) (metaskills : List Metaskill)
    (limit : Nat) : List Suggestion :=
  let query := Text.foldCase context.query
  match context.slot with
  | .none => []
  | .mechanic => entryHits r.mechanics.entries query limit
  | .targeter => entryHits r.targeters.entries query limit
  | .trigger => entryHits r.triggers.entries query limit
  | .condition => entryHits r.conditions.entries query limit
  | .metaskill => metaskillHits metaskills query limit
  | .parameter mechanic =>
    match r.mechanic? mechanic with
    | some e => parameterHits e.detail query limit
    | none => []
  | .targeterOption targeter =>
    match r.targeter? targeter with
    | some e => parameterHits e.detail query limit
    | none => []
  | .parameterValue mechanic parameter =>
    match r.mechanic? mechanic with
    | none => []
    | some e =>
      if namesMetaskill e.name parameter then metaskillHits metaskills query limit
      else match e.detail.find? parameter with
        | some (_, p) => valueHits p query limit
        | none => []

end Completion
end MobSkills
