import MobSkills.Catalog.Schema

/-!
# Catalogs

Entries in the order of their first introduction, with an index from folded names
and aliases to positions. A later entry of a name replaces the earlier one and
brings its own aliases. An alias never takes a key that is the name of an entry.
-/
namespace MobSkills

structure Catalog (δ : Type) where
  entries : List (Entry δ)
  index : List (String × Nat)

namespace Catalog

variable {δ : Type}

def empty : Catalog δ := ⟨[], []⟩

/-- The index with a key set to a position, whatever it was before. -/
def setKey (index : List (String × Nat)) (key : String) (i : Nat) : List (String × Nat) :=
  (key, i) :: index.filter (·.1 != key)

/-- Whether a folded key is the name of the entry it leads to. -/
def isNameKey (entries : List (Entry δ)) (index : List (String × Nat)) (key : String) : Bool :=
  ((index.lookup key).bind (entries[·]?)).any fun e => Text.eqIgnoreCase e.name key

/-- The index with an alias set to a position, unless the alias is a name. -/
def addAlias (entries : List (Entry δ)) (i : Nat) (index : List (String × Nat))
    (key : String) : List (String × Nat) :=
  let key := Text.foldCase key
  if isNameKey entries index key then index else setKey index key i

/-- The entry at a position becomes reachable by its name and aliases. -/
def register (entries : List (Entry δ)) (index : List (String × Nat)) (i : Nat)
    (e : Entry δ) : Catalog δ :=
  ⟨entries, e.aliases.foldl (addAlias entries i) (setKey index (Text.foldCase e.name) i)⟩

/-- The position of the entry that has this name, in any case. -/
def position? (c : Catalog δ) (name : String) : Option Nat :=
  (c.index.lookup (Text.foldCase name)).filter fun i =>
    (c.entries[i]?).any fun e => Text.eqIgnoreCase e.name name

/-- Add an entry, or replace the one of its name; the keys of a replaced entry
are forgotten. -/
def insert (c : Catalog δ) (e : Entry δ) : Catalog δ :=
  match c.position? e.name with
  | some i => register (c.entries.set i e) (c.index.filter (·.2 != i)) i e
  | none => register (c.entries ++ [e]) c.index c.entries.length e

def insertAll (c : Catalog δ) (entries : List (Entry δ)) : Catalog δ :=
  entries.foldl insert c

/-- The entry under a name or alias, in any case. -/
def get? (c : Catalog δ) (key : String) : Option (Entry δ) :=
  (c.index.lookup (Text.foldCase key)).bind (c.entries[·]?)

def names (c : Catalog δ) : List String :=
  c.entries.map (·.name)

def byCategory (c : Catalog δ) (category : String) : List (Entry δ) :=
  c.entries.filter fun e => Text.eqIgnoreCase e.category category

/-- The categories that are not empty, each once, as first seen. -/
def categories (c : Catalog δ) : List String :=
  c.entries.foldl (fun seen e =>
    if e.category.isEmpty || seen.contains e.category then seen else seen ++ [e.category]) []

/-- Every name and after it its aliases, with a sign in front of each. -/
def completions (c : Catalog δ) (sign : String) : List String :=
  c.entries.flatMap fun e => (e.name :: e.aliases).map (sign ++ ·)

end Catalog
end MobSkills
