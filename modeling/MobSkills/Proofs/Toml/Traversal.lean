import MobSkills.Toml.Tables

/-!
# Parts of documents

A traversal names the parts of one kind in a whole and can change them. The parts inside
other parts are reached by composition, so the skill strings of a document are described
step by step from the document down to the string.
-/
namespace MobSkills.Toml

/-- Parts of a whole that can be changed while the rest of it stays as it is. -/
structure Traversal (α β : Type) where
  parts : α → List β
  map : (β → β) → α → α
  parts_map : ∀ f a, parts (map f a) = (parts a).map f
  map_map : ∀ f g a, map g (map f a) = map (fun b => g (f b)) a
  /-- Nothing but the parts is looked at. -/
  map_congr : ∀ f g a, (∀ b ∈ parts a, f b = g b) → map f a = map g a

namespace Traversal
variable {α β γ : Type}

/-- The parts of the parts. -/
def comp (outer : Traversal α β) (inner : Traversal β γ) : Traversal α γ where
  parts a := (outer.parts a).flatMap inner.parts
  map f := outer.map (inner.map f)
  parts_map f a := by
    simp only [outer.parts_map, inner.parts_map, List.flatMap_map, List.map_flatMap]
  map_map f g a := by
    simp only [outer.map_map, inner.map_map]
  map_congr f g a h := by
    refine outer.map_congr _ _ a fun b hb => inner.map_congr f g b fun c hc => ?_
    exact h c (List.mem_flatMap.2 ⟨b, hb, hc⟩)

def each : Traversal (List α) α where
  parts l := l
  map := List.map
  parts_map _ _ := rfl
  map_map _ _ _ := List.map_map
  map_congr _ _ _ h := List.map_congr_left h

/-- A part that a whole may have: `view?` finds it, and tells how another one is put in its
place. -/
def focus (view? : α → Option (β × (β → α)))
    (h : ∀ a b put, view? a = some (b, put) → ∀ b', view? (put b') = some (b', put)) :
    Traversal α β where
  parts a := ((view? a).map Prod.fst).toList
  map f a := (view? a).elim a fun (b, put) => put (f b)
  parts_map f a := by
    cases hview : view? a with
    | none => simp [hview]
    | some x => simp [h a x.1 x.2 hview]
  map_map f g a := by
    cases hview : view? a with
    | none => simp [hview]
    | some x => simp [h a x.1 x.2 hview]
  map_congr f g a hparts := by
    cases hview : view? a with
    | none => rfl
    | some x => simp [hparts x.1 (by simp [hview])]

def second : Traversal (α × β) β :=
  focus (fun p => some (p.2, (p.1, ·))) fun _ _ _ h _ => by cases h; rfl

@[simp] theorem comp_map (outer : Traversal α β) (inner : Traversal β γ) (f : γ → γ) (a : α) :
    (outer.comp inner).map f a = outer.map (inner.map f) a := rfl

@[simp] theorem comp_parts (outer : Traversal α β) (inner : Traversal β γ) (a : α) :
    (outer.comp inner).parts a = (outer.parts a).flatMap inner.parts := rfl

@[simp] theorem each_map (f : α → α) (l : List α) : each.map f l = l.map f := rfl

@[simp] theorem each_parts (l : List α) : each.parts l = l := rfl

@[simp] theorem second_parts (p : α × β) : second.parts p = [p.2] := rfl

/-- After one change, another one that forgets what it is given leaves no trace of it. -/
theorem map_const_map (t : Traversal α β) (f : β → β) (b : β) (a : α) :
    t.map (fun _ => b) (t.map f a) = t.map (fun _ => b) a :=
  t.map_map f (fun _ => b) a

end Traversal

/-- A string as it is spelled, and its text. -/
structure Spelling where
  source : String
  text : String
deriving DecidableEq

open Traversal

def Written.string : Traversal Written Spelling :=
  focus
    (fun
      | .plain source (.string text) => some (⟨source, text⟩, fun s => .plain s.source (.string s.text))
      | _ => none)
    (by intro w s put h; split at h <;> cases h; exact fun _ => rfl)

namespace Node

/-- The items of an array that stands under a key of its own. -/
def arrayItems : Traversal Node (List (Margin × Written)) :=
  focus
    (fun
      | .leaf margin (.array items close) => some (items, fun items => .leaf margin (.array items close))
      | _ => none)
    (by intro node items put h; split at h <;> cases h; exact fun _ => rfl)

/-- The tables of a list of tables with headers of their own. -/
def headedTables : Traversal Node (List (Header × List (Key × Node))) :=
  focus
    (fun
      | .tables items => some (items, .tables)
      | _ => none)
    (by intro node items put h; split at h <;> cases h; exact fun _ => rfl)

/-- The node of an entry whose name is one of the names. -/
def named (names : List String) : Traversal (Key × Node) Node :=
  focus (fun e => if names.contains e.1.name then some (e.2, (e.1, ·)) else none)
    (by
      intro e node put h
      split at h
      · cases h
        exact fun _ => if_pos ‹_›
      · cases h)

@[simp] theorem named_map (names : List String) (f : Node → Node) (e : Key × Node) :
    (named names).map f e = (e.1, if names.contains e.1.name then f e.2 else e.2) := by
  by_cases h : names.contains e.1.name = true <;> simp only [named, focus, h] <;> rfl

@[simp] theorem named_parts (names : List String) (e : Key × Node) :
    (named names).parts e = if names.contains e.1.name then [e.2] else [] := by
  by_cases h : names.contains e.1.name = true <;> simp only [named, focus, h] <;> rfl

/-- The nodes under the names in a table. -/
def under (names : List String) : Traversal (List (Key × Node)) Node :=
  each.comp (named names)

/-- The strings in an array. -/
def strings : Traversal Node Spelling :=
  arrayItems.comp (each.comp (second.comp Written.string))

/-- The strings in the `skills` arrays of a list of tables. -/
def ownedStrings : Traversal Node Spelling :=
  headedTables.comp (each.comp (second.comp ((under ["skills"]).comp strings)))

end Node

namespace Document

def top : Traversal Document (List (Key × Node)) :=
  focus (fun d => some (d.entries, (⟨·, d.ending⟩))) fun _ _ _ h _ => by cases h; rfl

/-- The strings in the `skills` arrays of `[[mobs]]` and `[[metaskills]]`, as they are
written. -/
def skillStrings : Traversal Document Spelling :=
  top.comp ((Node.under ["mobs", "metaskills"]).comp Node.ownedStrings)

end Document
end MobSkills.Toml
