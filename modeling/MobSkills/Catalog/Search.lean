import MobSkills.Catalog.Registry

/-!
# Search over the registry

Every entry that contains the query anywhere is a hit. A hit scores points for
each place that contains the query, and hits of equal score keep the order of
the catalogs.
-/
namespace MobSkills

structure SearchHit where
  kind : EntryKind
  name : String
  score : Nat
  category : String
  description : String
deriving DecidableEq

namespace Entry

variable {δ : Type}

/-- Ten points for the name, eight for an alias, five for the description and
three for the category, where a folded query occurs in it. -/
def relevance (e : Entry δ) (query : String) : Nat :=
  (if Text.matchesFolded query e.name then 10 else 0) +
    (if e.aliases.any (Text.matchesFolded query) then 8 else 0) +
    (if Text.matchesFolded query e.description then 5 else 0) +
    (if Text.matchesFolded query e.category then 3 else 0)

def hit (kind : EntryKind) (query : String) (e : Entry δ) : SearchHit :=
  ⟨kind, e.name, e.relevance query, e.category, e.description⟩

end Entry

namespace Registry

/-- Every entry as a hit for a folded query, with its score, in catalog order. -/
def scored (r : Registry) (query : String) : List SearchHit :=
  r.mechanics.entries.map (Entry.hit .mechanic query) ++
    r.targeters.entries.map (Entry.hit .targeter query) ++
    r.conditions.entries.map (Entry.hit .condition query) ++
    r.triggers.entries.map (Entry.hit .trigger query)

/-- The hits for a query, the best first. A blank query finds nothing. -/
def search (r : Registry) (query : String) : List SearchHit :=
  let query := Text.foldCase (String.ofList (Text.trim query.toList))
  if query.isEmpty then []
  else ((r.scored query).filter (0 < ·.score)).mergeSort fun a b => b.score ≤ a.score

end Registry
end MobSkills
