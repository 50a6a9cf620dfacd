import MobSkills.Catalog.Basic

/-!
# The registry

One catalog for each kind of entry. An overlay is a set of entries that is merged
into the registry entry by entry; nothing is ever removed. Lookups ignore the
sign that a name carries in a skill line.
-/
namespace MobSkills

/-- Entries of every kind, as a schema file lists them. -/
structure Overlay where
  mechanics : List (Entry ParameterTable) := []
  targeters : List (Entry ParameterTable) := []
  conditions : List (Entry ParameterTable) := []
  triggers : List (Entry TriggerForm) := []
deriving DecidableEq

namespace Overlay

def size (o : Overlay) : Nat :=
  o.mechanics.length + o.targeters.length + o.conditions.length + o.triggers.length

def isEmpty (o : Overlay) : Bool :=
  o.size == 0

end Overlay

structure Registry where
  mechanics : Catalog ParameterTable
  targeters : Catalog ParameterTable
  conditions : Catalog ParameterTable
  triggers : Catalog TriggerForm

namespace Registry

def empty : Registry :=
  ⟨.empty, .empty, .empty, .empty⟩

def merge (r : Registry) (o : Overlay) : Registry where
  mechanics := r.mechanics.insertAll o.mechanics
  targeters := r.targeters.insertAll o.targeters
  conditions := r.conditions.insertAll o.conditions
  triggers := r.triggers.insertAll o.triggers

def ofOverlay (o : Overlay) : Registry :=
  empty.merge o

def isEmpty (r : Registry) : Bool :=
  r.mechanics.entries.isEmpty && r.targeters.entries.isEmpty &&
    r.conditions.entries.isEmpty && r.triggers.entries.isEmpty

def mechanic? (r : Registry) (name : String) : Option (Entry ParameterTable) :=
  r.mechanics.get? name

/-- A targeter; an at sign before the name is ignored. -/
def targeter? (r : Registry) (name : String) : Option (Entry ParameterTable) :=
  r.targeters.get? (Text.dropLeading '@' name)

/-- A condition; a question mark and then a bang before the name are ignored. -/
def condition? (r : Registry) (name : String) : Option (Entry ParameterTable) :=
  r.conditions.get? (Text.dropLeading '!' (Text.dropLeading '?' name))

/-- A trigger; a tilde before the name and anything from its first colon on are
ignored. -/
def trigger? (r : Registry) (name : String) : Option (Entry TriggerForm) :=
  let name := Text.dropLeading '~' name
  r.triggers.get? (String.ofList (name.toList.takeWhile (· != ':')))

def names (r : Registry) : EntryKind → List String
  | .mechanic => r.mechanics.names
  | .targeter => r.targeters.names
  | .condition => r.conditions.names
  | .trigger => r.triggers.names

def categories (r : Registry) : EntryKind → List String
  | .mechanic => r.mechanics.categories
  | .targeter => r.targeters.categories
  | .condition => r.conditions.categories
  | .trigger => r.triggers.categories

def namesByCategory (r : Registry) (category : String) : EntryKind → List String
  | .mechanic => (r.mechanics.byCategory category).map (·.name)
  | .targeter => (r.targeters.byCategory category).map (·.name)
  | .condition => (r.conditions.byCategory category).map (·.name)
  | .trigger => (r.triggers.byCategory category).map (·.name)

/-- Every name and alias of a kind with its sign, except that conditions are
listed bare. -/
def completions (r : Registry) : EntryKind → List String
  | .mechanic => r.mechanics.completions ""
  | .targeter => r.targeters.completions "@"
  | .condition => r.conditions.completions ""
  | .trigger => r.triggers.completions "~"

end Registry
end MobSkills
