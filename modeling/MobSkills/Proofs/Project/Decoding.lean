import MobSkills.Project.Source
import MobSkills.Proofs.Toml.Itemized
import MobSkills.Proofs.Toml.Traversal

/-!
# What a project file says when its skill strings change

The lines of a project are read from a document by the names of its fields, and the skill
strings are found in it by the shape of its parts. Where the `skills` of an owner are read
at all they are strings of one array, so a change of the skill strings is a change of the
lines and of nothing else, in those sections that are lists of tables with headers.
-/
namespace MobSkills

/-- The source with its lines in another form. -/
def Source.mapLines {α : Type} (form : String → String) (s : Source α) : Source α :=
  { s with lines := s.lines.map form }

/-- The project with the lines of the sections that are meant in another form. -/
def ProjectSource.mapLines (form : String → String) (isMeant : String → Bool)
    (p : ProjectSource) : ProjectSource where
  mobs := if isMeant "mobs" then p.mobs.map (Source.mapLines form) else p.mobs
  metaskills :=
    if isMeant "metaskills" then p.metaskills.map (Source.mapLines form) else p.metaskills

namespace Toml

def Node.isTables : Node → Bool
  | .tables _ => true
  | .leaf _ _ | .table _ _ => false

/-- Whether the name stands for a list of tables with headers of their own. -/
def Document.isTabled (d : Document) (name : String) : Bool :=
  (Node.lookup name d.entries).any Node.isTables

theorem itemValues_eq_map (items : List (Margin × Written)) :
    itemValues items = items.map (·.2.toToml) := by
  induction items with
  | nil => rfl
  | cons i items ih => rw [itemValues, ih, List.map_cons]

theorem tableValues_eq_map (items : List (Header × List (Key × Node))) :
    tableValues items = items.map (.table <| entryValues ·.2) := by
  induction items with
  | nil => rfl
  | cons i items ih => rw [tableValues, ih, List.map_cons]

theorem lookup_entryValues (name : String) (entries : List (Key × Node)) :
    (entryValues entries).lookup name = (Node.lookup name entries).map Node.toToml := by
  induction entries with
  | nil => rfl
  | cons e entries ih =>
    obtain ⟨key, node⟩ := e
    rw [entryValues, Node.lookup, List.lookup_cons]
    by_cases h : key.name = name
    · simp [h]
    · rw [beq_false_of_ne (Ne.symm h), if_neg h, ih]

/-- A change of the nodes under some names is seen under those names only. -/
theorem lookup_under (names : List String) (change : Node → Node) (name : String)
    (entries : List (Key × Node)) :
    Node.lookup name ((Node.under names).map change entries) =
      (Node.lookup name entries).map fun node =>
        if names.contains name then change node else node := by
  induction entries with
  | nil => rfl
  | cons e entries ih =>
    obtain ⟨key, node⟩ := e
    simp only [Node.under, Traversal.comp_map, Traversal.each_map, List.map_cons, Node.named_map,
      Node.lookup] at ih ⊢
    by_cases h : key.name = name
    · simp [h]
    · rw [if_neg h, if_neg h, ih]

theorem mapM_map_comm {α β : Type} {read read' : α → Option β} {form : β → β} {l : List α}
    (h : ∀ a ∈ l, read' a = (read a).map form) : l.mapM read' = (l.mapM read).map (List.map form) := by
  induction l with
  | nil => rfl
  | cons a l ih =>
    obtain ⟨hfirst, hrest⟩ := List.forall_mem_cons.1 h
    rw [List.mapM_cons, List.mapM_cons, hfirst, ih hrest]
    cases read a <;> cases l.mapM read <;> rfl

section
variable {f : Spelling → Spelling} {form : String → String}

theorem toText?_string (hf : ∀ s, (f s).text = form s.text) (w : Written) :
    toText? (Written.string.map f w).toToml = (toText? w.toToml).map form := by
  cases w with
  | array | inline => rfl
  | plain source value =>
    cases value with
    | string text => exact congrArg some (hf ⟨source, text⟩)
    | _ => rfl

/-- An array of texts is one that holds its items apart, so all of its texts are changed. -/
theorem toTexts?_strings (hf : ∀ s, (f s).text = form s.text) {node : Node} (h : node.IsItemized) :
    toTexts? (Node.strings.map f node).toToml = (toTexts? node.toToml).map (List.map form) := by
  cases h with
  | table => rfl
  | @tables items _ =>
    cases items <;> rfl
  | @leaf margin value hvalue =>
    cases value with
    | inline => rfl
    | plain source value =>
      cases value with
      | array items => exact absurd rfl (hvalue items)
      | _ => rfl
    | array items close =>
      change (itemValues (items.map fun i => (i.1, Written.string.map f i.2))).mapM toText? =
        ((itemValues items).mapM toText?).map (List.map form)
      rw [itemValues_eq_map, itemValues_eq_map, List.map_map, List.mapM_map, List.mapM_map]
      exact mapM_map_comm fun i _ => toText?_string hf i.2

/-- The texts under a name, which are none where the name is not given. -/
theorem withDefault_strings (hf : ∀ s, (f s).text = form s.text) {entries : List (Key × Node)}
    (h : Itemized entries) (name : String) :
    withDefault [] toTexts?
        ((Node.lookup name entries).map fun node => (Node.strings.map f node).toToml) =
      (withDefault [] toTexts? ((Node.lookup name entries).map Node.toToml)).map (List.map form) := by
  cases hnode : Node.lookup name entries with
  | none => rfl
  | some node => exact toTexts?_strings hf (Node.isItemized_of_lookup h hnode)

end

end Toml

namespace ProjectSource

open Toml

/-- A change of the strings in the `skills` of a table is for the reader a change of the
lines in what it reads. -/
def ReadsLines {α : Type} (f : Spelling → Spelling) (form : String → String)
    (read : Toml → Option (Source α)) : Prop :=
  ∀ entries, Itemized entries →
    read (.table (entryValues ((Node.under ["skills"]).map (Node.strings.map f) entries))) =
      (read (.table (entryValues entries))).map (Source.mapLines form)

theorem lookup_skills (change : Node → Node) (name : String) (entries : List (Key × Node)) :
    Node.lookup name ((Node.under ["skills"]).map change entries) =
      (Node.lookup name entries).map fun node => if name = "skills" then change node else node := by
  simp only [lookup_under, List.contains_eq_mem, List.mem_singleton, decide_eq_true_eq]

/-- What is read after a field that stays. -/
theorem bind_map_comm {α β : Type} {field : Option α} {read read' : α → Option β} {form : β → β}
    (h : ∀ a, read' a = (read a).map form) : field.bind read' = (field.bind read).map form := by
  cases field with
  | none => rfl
  | some a => exact h a

theorem bind_map_lines {α : Type} (form : String → String) (definition : α)
    (lines : Option (List String)) :
    ((lines.map (List.map form)).bind fun lines => some (Source.mk definition lines)) =
      (lines.bind fun lines => some (Source.mk definition lines)).map (Source.mapLines form) := by
  cases lines <;> rfl

section
variable {f : Spelling → Spelling} {form : String → String}

theorem toMob?_readsLines (hf : ∀ s, (f s).text = form s.text) : ReadsLines f form toMob? := by
  intro entries h
  have hskills := withDefault_strings hf h "skills"
  simp only [toMob?, fields?, List.map_cons, List.map_nil, lookup_entryValues, lookup_skills,
    String.reduceEq, reduceIte, Option.map_map, Function.comp_def, hskills]
  -- The ten fields before the lines are read from nodes that stay.
  iterate 10 refine bind_map_comm fun _ => ?_
  exact bind_map_lines _ _ _

theorem toMetaskill?_readsLines (hf : ∀ s, (f s).text = form s.text) :
    ReadsLines f form toMetaskill? := by
  intro entries h
  have hskills := withDefault_strings hf h "skills"
  simp only [toMetaskill?, fields?, List.map_cons, List.map_nil, lookup_entryValues, lookup_skills,
    String.reduceEq, reduceIte, Option.map_map, Function.comp_def, hskills]
  iterate 5 refine bind_map_comm fun _ => ?_
  exact bind_map_lines _ _ _

section
variable {α : Type} {read : Toml → Option (Source α)}

/-- In a list of tables with headers the lines change; any other list stays as it is. -/
theorem toList?_ownedStrings (hread : ReadsLines f form read) {node : Node} (h : node.IsItemized) :
    toList? read (Node.ownedStrings.map f node).toToml =
      (toList? read node.toToml).map fun owners =>
        if node.isTables then owners.map (Source.mapLines form) else owners := by
  cases h with
  | leaf => exact Option.map_id'.symm
  | table => exact Option.map_id'.symm
  | @tables items hitems =>
    change (tableValues (items.map fun i =>
        (i.1, (Node.under ["skills"]).map (Node.strings.map f) i.2))).mapM read =
      ((tableValues items).mapM read).map (List.map (Source.mapLines form))
    rw [tableValues_eq_map, tableValues_eq_map, List.map_map, List.mapM_map, List.mapM_map]
    exact mapM_map_comm fun i hi => hread i.2 (hitems i hi)

theorem withDefault_ownedStrings (hread : ReadsLines f form read) {d : Document}
    (h : Itemized d.entries) (name : String) :
    withDefault [] (toList? read)
        ((Node.lookup name d.entries).map fun node => (Node.ownedStrings.map f node).toToml) =
      (withDefault [] (toList? read) ((Node.lookup name d.entries).map Node.toToml)).map
        fun owners => if d.isTabled name then owners.map (Source.mapLines form) else owners := by
  cases hnode : Node.lookup name d.entries with
  | none => simp [withDefault, Document.isTabled, hnode]
  | some node =>
    simpa [withDefault, Document.isTabled, hnode] using
      toList?_ownedStrings hread (Node.isItemized_of_lookup h hnode)

end

/-- A change of the skill strings of a document changes the lines of the project that it
describes, in the sections that are lists of tables with headers. -/
theorem ofToml?_skillStrings (hf : ∀ s, (f s).text = form s.text) {d : Document}
    (h : Itemized d.entries) :
    ofToml? (Document.skillStrings.map f d).toToml =
      (ofToml? d.toToml).map (ProjectSource.mapLines form d.isTabled) := by
  have hmobs := withDefault_ownedStrings (toMob?_readsLines hf) h "mobs"
  have hmetaskills := withDefault_ownedStrings (toMetaskill?_readsLines hf) h "metaskills"
  have hentries : (Document.skillStrings.map f d).entries =
      (Node.under ["mobs", "metaskills"]).map (Node.ownedStrings.map f) d.entries := rfl
  simp only [hentries, Document.toToml, ofToml?, fields?, List.map_cons, List.map_nil,
    lookup_entryValues, lookup_under, List.contains_eq_mem, List.mem_cons, List.not_mem_nil,
    or_false, or_true, true_or, decide_true, reduceIte, Option.map_map, Function.comp_def, hmobs,
    hmetaskills]
  cases withDefault [] (toList? toMob?) ((Node.lookup "mobs" d.entries).map Node.toToml) <;>
    cases withDefault [] (toList? toMetaskill?)
      ((Node.lookup "metaskills" d.entries).map Node.toToml) <;> rfl

end
end ProjectSource
end MobSkills
