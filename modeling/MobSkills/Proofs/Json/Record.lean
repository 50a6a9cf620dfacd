import Mathlib.Data.List.Nodup
import MobSkills.Json.Line
import MobSkills.Proofs.Text.Keyed

/-!
# Records with their fields by name

An object that is written for a record has some of the names of the record as its keys, each
once. So every field is found under its name, or is absent where the record does not write
it; an absent part and a part that is null are read as the same.
-/
namespace MobSkills.Json

/-! ## Fields -/

theorem lookup_ofEntries (name : String) (entries : List (String × Json)) :
    (entries.map fun (key, j) => (some key, j)).lookup (some name) = entries.lookup name := by
  induction entries with
  | nil => rfl
  | cons e entries ih =>
    obtain ⟨key, j⟩ := e
    by_cases h : name = key
    · simp [h]
    · simpa [List.lookup_cons, beq_false_of_ne h] using ih

theorem length_filter_ofEntries (name : String) (entries : List (String × Json)) :
    ((entries.map fun (key, j) => (some key, j)).filter fun (key, _) => key == some name).length =
      (entries.map (·.1)).count name := by
  induction entries with
  | nil => rfl
  | cons e entries ih =>
    by_cases h : e.1 = name
    · simpa [h] using ih
    · simpa [h] using ih

/-- A record whose keys are among its names, in their order. -/
theorem fields?_ofEntries {names : List String} {entries : List (String × Json)}
    (hk : (entries.map (·.1)).Sublist names) (hn : names.Nodup) :
    fields? names (ofEntries entries) = some (names.map fun name => entries.lookup name) := by
  have hsome : (entries.map fun (key, j) => (some key, j)).all (fun (key, _) => key.isSome) :=
    List.all_eq_true.2 fun e he => by
      obtain ⟨d, -, rfl⟩ := List.mem_map.1 he
      rfl
  have honce : names.all fun name => ((entries.map fun (key, j) => (some key, j)).filter
      fun (key, _) => key == some name).length ≤ 1 :=
    List.all_eq_true.2 fun name _ => by
      rw [length_filter_ofEntries, decide_eq_true_eq]
      exact List.nodup_iff_count_le_one.1 (hn.sublist hk) name
  simp only [fields?, ofEntries, hsome, honce, Bool.and_self, ↓reduceIte, lookup_ofEntries]

/-- A record with all of its names. -/
theorem fields?_ofAll {names : List String} {entries : List (String × Json)}
    (hk : entries.map (·.1) = names) (hn : names.Nodup) :
    fields? names (ofEntries entries) = some (entries.map fun e => some e.2) := by
  subst hk
  rw [fields?_ofEntries (List.Sublist.refl _) hn, List.map_map]
  exact congrArg some (List.map_congr_left fun e he => (mem_iff_lookup hn).1 he)

/-! ## Parts that may be absent -/

section
variable {α : Type} {decode : Json → Option α} {encode : α → Json}

theorem sublist_present (name : String) (encode : α → Json) (part : Option α) :
    ((present name encode part).map (·.1)).Sublist [name] := by
  cases part with
  | none => exact List.nil_sublist _
  | some a => exact List.Sublist.refl _

theorem lookup_present (name other : String) (encode : α → Json) (part : Option α) :
    (present name encode part).lookup other = if other = name then part.map encode else none := by
  cases part with
  | none => simp [present]
  | some a => simp [present, lookup_cons_entry, eq_comm]

/-- A part that is written only where it is there. -/
theorem optional_map {part : Option α} (hnull : decode .null = none)
    (h : ∀ a ∈ part, decode (encode a) = some a) :
    optional decode (part.map encode) = some part := by
  cases part with
  | none => rfl
  | some a =>
    have hread := h a rfl
    rw [Option.map_some]
    unfold optional
    split
    · rename_i heq
      cases heq
    · rename_i heq
      rw [Option.some.inj heq, hnull] at hread
      cases hread
    · rename_i j _ heq
      rw [← Option.some.inj heq, hread]
      rfl

/-- A part that is written as null where it is not there. -/
theorem optional_ofOption {part : Option α} (hnull : decode .null = none)
    (h : ∀ a ∈ part, decode (encode a) = some a) :
    optional decode (some (ofOption encode part)) = some part := by
  cases part with
  | none => rfl
  | some a => exact optional_map hnull h

/-! ## Lists -/

theorem mapM_map_eq_some {β : Type} {read : β → Option α} {write : α → β} {as : List α}
    (h : ∀ a ∈ as, read (write a) = some a) : (as.map write).mapM read = some as := by
  induction as with
  | nil => rfl
  | cons a as ih =>
    rw [List.map_cons, List.mapM_cons, h a (List.mem_cons_self ..),
      ih fun a ha => h a (List.mem_cons_of_mem _ ha)]
    rfl

theorem toList?_map {as : List α} (h : ∀ a ∈ as, decode (encode a) = some a) :
    toList? decode (.array (as.map encode)) = some as :=
  mapM_map_eq_some h

end

/-! ## Texts -/

@[simp] theorem toText?_ofString (s : String) : toText? (ofString s) = some s :=
  rfl

theorem optional_map_ofString (part : Option String) :
    optional toText? (part.map ofString) = some part :=
  optional_map rfl fun s _ => toText?_ofString s

theorem optional_ofOption_ofString (part : Option String) :
    optional toText? (some (ofOption ofString part)) = some part :=
  optional_ofOption rfl fun s _ => toText?_ofString s

theorem toTexts?_ofStrings (items : List String) : toTexts? (ofStrings items) = some items :=
  toList?_map fun s _ => toText?_ofString s

end MobSkills.Json
