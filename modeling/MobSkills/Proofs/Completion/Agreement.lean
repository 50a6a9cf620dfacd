import MobSkills.Completion.Suggestion
import MobSkills.Proofs.Completion.Choice
import MobSkills.Proofs.Validation.Reference

/-!
# Names that are offered and names that are checked

The value of a parameter can name a metaskill. The validator asks whether the mechanic is an
invocation and the key one of those that it looks for. The completer asks twice: once for
the mechanic as it is written, when the slot is found, and once for the entry that the
mechanic resolves to, when the slot is filled. Together these are the question of the
validator, so metaskills are offered exactly where one would be looked up. What is offered is
told by what could be: every metaskill, or every value that the schema of the parameter has,
and of these the first that contain what is typed.
-/
namespace MobSkills

namespace Validation

/-- A line with one parameter. -/
def lineWith (mechanic key : String) (v : Value) : SkillLine :=
  { mechanic, parameters := some ⟨[(key, v)]⟩ }

theorem findSome?_ite {α β : Type} (c : α → Bool) (b : β) (l : List α) :
    l.findSome? (fun a => if c a then some b else none) = if l.any c then some b else none := by
  induction l with
  | nil => rfl
  | cons a l ih => cases h : c a <;> simp [h, ih]

/-- The one parameter is found under every name that its key is equal to but for the case. -/
theorem parameterOf?_lineWith (mechanic key : String) (v : Value) (names : List String) :
    (lineWith mechanic key v).parameterOf? names =
      if names.any (Text.eqIgnoreCase · key) then some (key, v) else none := by
  have hfind : (⟨[(key, v)]⟩ : Params).findIgnoreCase? =
      fun name => if Text.eqIgnoreCase name key then some (key, v) else none := by
    funext name
    have hsymm : Text.eqIgnoreCase key name = Text.eqIgnoreCase name key := Bool.beq_comm
    cases hname : Text.eqIgnoreCase name key <;>
      simp [Params.findIgnoreCase?, hsymm, hname]
  rw [SkillLine.parameterOf?, lineWith, Option.bind_some, hfind]
  exact findSome?_ite _ _ names

/-- A line with one parameter that is not blank names a metaskill by its value or not at all. -/
theorem invoked?_lineWith (r : Registry) (mechanic key : String) {v : Value}
    (hv : v.isBlank = false) :
    invoked? r (lineWith mechanic key v) =
      if isInvocation r mechanic && invocationKeys.any (Text.eqIgnoreCase · key) then some v.display
      else none := by
  have hnotBlank : Text.allBlank v.display = false := v.allBlank_display.trans hv
  unfold invoked?
  rw [parameterOf?_lineWith]
  show (if isInvocation r mechanic then _ else _) = _
  cases isInvocation r mechanic <;>
    cases invocationKeys.any (Text.eqIgnoreCase · key) <;> simp [Option.filter, hnotBlank]

end Validation

/-! ## Candidates -/

/-- The query stands in the text that is offered, in any letter case. -/
def Suggestion.Contains (s : Suggestion) (query : String) : Prop :=
  (Text.foldCase query).toList <:+: (Text.foldCase s.text).toList

instance (s : Suggestion) (query : String) : Decidable (s.Contains query) :=
  decidable_of_iff _ Text.matchesFolded_iff

/-- A value as it is offered: the value alone. -/
def Suggestion.ofValue (v : String) : Suggestion :=
  ⟨v, none, some "value"⟩

/-- A metaskill as it is offered: by its name, with the number of its lines. -/
def Metaskill.suggestion (m : Metaskill) : Suggestion :=
  ⟨m.name, some ("Metaskill with " ++ toString m.skills.length ++ " skill(s)"), some "metaskill"⟩

namespace ParameterSchema

/-- The values that can be listed: those of an enumeration, or the two of a Boolean. -/
def choices (p : ParameterSchema) : List String :=
  if p.type = .enum then p.values
  else if p.type = .boolean then ["true", "false"]
  else []

/-- A key is the name of a parameter or an alias, in any letter case. -/
def IsCalled (p : ParameterSchema) (name key : String) : Prop :=
  ∃ a ∈ name :: p.aliases, Text.foldCase a = Text.foldCase key

instance (p : ParameterSchema) (name key : String) : Decidable (p.IsCalled name key) :=
  inferInstanceAs (Decidable (∃ a ∈ _, _))

end ParameterSchema

/-- A key refers to the first parameter that it is a name of. -/
theorem ParameterTable.find?_eq (table : ParameterTable) (key : String) :
    table.find? key = List.find? (fun p => p.2.IsCalled p.1 key) table := by
  have hanswers : (fun p : String × ParameterSchema => p.2.answersTo p.1 key) =
      fun p => decide (p.2.IsCalled p.1 key) := by
    funext p
    rw [Bool.eq_iff_iff, decide_eq_true_iff]
    simp [ParameterSchema.answersTo, ParameterSchema.IsCalled, Text.eqIgnoreCase_iff]
  exact congrArg (List.find? · table) hanswers

namespace Completion

open Text (byteLength)
open Token (IsWord)
open Validation (isInvocation invoked? lineWith invoked?_lineWith)

variable {r : Registry} {mechanic key query : String} {v : Value}

/-- The first of the candidates that contain the query, in their order and up to the limit. -/
def firstMatches (candidates : List Suggestion) (query : String) (limit : Nat) :
    List Suggestion :=
  (candidates.filter (·.Contains query)).take limit

/-- The parameter of a mechanic that a key refers to, with its name. -/
def parameterFor? (r : Registry) (mechanic key : String) : Option (String × ParameterSchema) :=
  (r.mechanic? mechanic).bind fun e => List.find? (fun p => p.2.IsCalled p.1 key) e.detail

/-- The values that the schema lists for the parameter of a mechanic that a key refers to. -/
def valuesFor (r : Registry) (mechanic key : String) : List String :=
  (parameterFor? r mechanic key).elim [] fun p => p.2.choices

theorem valuesFor_eq (r : Registry) (mechanic key : String) :
    valuesFor r mechanic key =
      ((r.mechanic? mechanic).bind (·.detail.find? key)).elim [] fun p => p.2.choices := by
  simp only [valuesFor, parameterFor?, ParameterTable.find?_eq]

/-- What is shown of the items that match is what matches of all that could be shown. -/
theorem map_take_filter {α : Type} (items : List α) (suggest : α → Suggestion) (query : String)
    (limit : Nat) :
    ((items.filter fun a => Text.matchesFolded (Text.foldCase query) (suggest a).text).take
      limit).map suggest = firstMatches (items.map suggest) query limit := by
  have hcontains : (fun a => Text.matchesFolded (Text.foldCase query) (suggest a).text) =
      (fun s : Suggestion => decide (s.Contains query)) ∘ suggest := by
    funext a
    rw [Bool.eq_iff_iff, Text.matchesFolded_iff, Function.comp_apply, decide_eq_true_iff]
    rfl
  rw [firstMatches, List.filter_map, ← hcontains, List.map_take]

theorem metaskillHits_eq (metaskills : List Metaskill) (query : String) (limit : Nat) :
    metaskillHits metaskills (Text.foldCase query) limit =
      firstMatches (metaskills.map Metaskill.suggestion) query limit :=
  map_take_filter metaskills Metaskill.suggestion query limit

theorem valueHits_eq (p : ParameterSchema) (query : String) (limit : Nat) :
    valueHits p (Text.foldCase query) limit =
      firstMatches (p.choices.map Suggestion.ofValue) query limit := by
  have hlisted : listedValues p = p.choices := by
    unfold listedValues ParameterSchema.choices
    cases p.type <;> rfl
  rw [valueHits, hlisted]
  exact map_take_filter p.choices Suggestion.ofValue query limit

/-- A text that ends in the value of a parameter. -/
def entryText (mechanic key query : String) : String :=
  mechanic ++ "\x7b" ++ key ++ "=" ++ query

/-- Whether a parameter names a metaskill, by the mechanic as written or by its entry. -/
def offersMetaskills (r : Registry) (mechanic key : String) : Bool :=
  namesMetaskill mechanic key || (r.mechanic? mechanic).any fun e => namesMetaskill e.name key

theorem isSome_invoked?_lineWith (hv : v.isBlank = false) :
    (invoked? r (lineWith mechanic key v)).isSome = offersMetaskills r mechanic key := by
  have hsome (c : Bool) : (if c then some v.display else none).isSome = c := by cases c <;> rfl
  rw [invoked?_lineWith r mechanic key hv, hsome]
  unfold isInvocation offersMetaskills namesMetaskill
  cases invocationKeys.any (Text.eqIgnoreCase · key) <;> cases r.mechanic? mechanic <;> simp

/-- The slot of a value is filled with metaskills or with values of the schema. -/
theorem suggestions_of_valueSlot {context : CompletionContext}
    (h : context.slot = valueSlot mechanic key) (metaskills : List Metaskill) (limit : Nat) :
    suggestions r context metaskills limit =
      if offersMetaskills r mechanic key then
        firstMatches (metaskills.map Metaskill.suggestion) context.query limit
      else
        firstMatches ((valuesFor r mechanic key).map Suggestion.ofValue) context.query limit := by
  rw [valuesFor_eq, ← metaskillHits_eq]
  unfold offersMetaskills
  cases hwritten : namesMetaskill mechanic key with
  | true => simp [suggestions, h, valueSlot, hwritten]
  | false =>
    cases hentry : r.mechanic? mechanic with
    | none => simp [suggestions, h, valueSlot, hwritten, hentry, firstMatches]
    | some e =>
      cases hname : namesMetaskill e.name key with
      | true => simp [suggestions, h, valueSlot, hwritten, hentry, hname]
      | false =>
        simp only [suggestions, h, valueSlot, hwritten, hentry, hname, Option.any_some,
          Option.bind_some, Bool.or_false, Bool.false_eq_true, if_false]
        cases e.detail.find? key with
        | none => simp [firstMatches]
        | some found => exact valueHits_eq found.2 context.query limit

/-- At the end of a value metaskills are offered exactly where the validator finds the name
of one; elsewhere the values that the schema of the parameter lists are. Of either, those
are offered that contain what is typed, in their order and up to the limit. -/
theorem suggestions_entryText (hmechanic : IsWord mechanic.toList)
    (htrim : Text.trim key.toList = key.toList) (heq : '=' ∉ key.toList)
    (hkey : ';' ∉ key.toList ∧ '\x7d' ∉ key.toList ∧ '\n' ∉ key.toList)
    (hquery : ';' ∉ query.toList ∧ '\x7d' ∉ query.toList ∧ '\n' ∉ query.toList)
    (hv : v.isBlank = false) (r : Registry) (metaskills : List Metaskill) (limit : Nat) :
    let text := entryText mechanic key query
    suggestions r (contextAt text (byteLength text.toList)) metaskills limit =
      if (invoked? r (lineWith mechanic key v)).isSome then
        firstMatches (metaskills.map Metaskill.suggestion) query limit
      else firstMatches ((valuesFor r mechanic key).map Suggestion.ofValue) query limit := by
  intro text
  have htext : text.toList =
      mechanic.toList ++ '\x7b' :: (key.toList ++ '=' :: query.toList) := by
    simp [text, entryText, String.toList_append]
  obtain ⟨hslot, hasked⟩ :=
    contextAfter_entry hmechanic (Text.isBlank_head_of_trim htrim) heq hkey hquery
  rw [← htext, htrim, String.ofList_toList, String.ofList_toList] at hslot
  rw [← htext, String.ofList_toList] at hasked
  rw [contextAt_end, suggestions_of_valueSlot hslot, hasked, isSome_invoked?_lineWith hv]

/-- A mechanic that takes one of some postures. -/
def poseRegistry : Registry :=
  .ofOverlay { mechanics := [{
    name := "stance"
    aliases := ["pose"]
    detail := [
      ("posture", { type := .enum, aliases := ["p", "type"],
                    values := ["STANDING", "SNEAKING", "GLIDING", "SLEEPING", "SWIMMING"] }),
      ("silent", { type := .boolean })] }] }

/-- The entry that invokes has `meta` as an alias in the standard catalog; another mechanic
calls its posture `type` as well. -/
theorem suggestions_entryText_meta :
    let reference := entryText "meta" "Spell" "bu"
    let posture := entryText "Pose" "Type" "s"
    ((invoked? .standard (lineWith "meta" "Spell" (.integer 7))).isSome = true ∧
      suggestions .standard (contextAt reference (byteLength reference.toList))
        [{ name := "Storm" }, { name := "FireBurst" }] 5 =
          [⟨"FireBurst", some "Metaskill with 0 skill(s)", some "metaskill"⟩]) ∧
    ((invoked? poseRegistry (lineWith "Pose" "Type" (.integer 7))).isSome = false ∧
      suggestions poseRegistry (contextAt posture (byteLength posture.toList))
        [{ name := "Storm" }] 3 =
          [⟨"STANDING", none, some "value"⟩, ⟨"SNEAKING", none, some "value"⟩,
            ⟨"SLEEPING", none, some "value"⟩]) := by
  have hv : (Value.integer 7).isBlank = false := rfl
  constructor
  · have hmechanic : IsWord "meta".toList := by decide
    have htrim : Text.trim "Spell".toList = "Spell".toList := by decide
    have hquery : ';' ∉ "bu".toList ∧ '\x7d' ∉ "bu".toList ∧ '\n' ∉ "bu".toList := by decide
    have hinvoked : (invoked? .standard (lineWith "meta" "Spell" (.integer 7))).isSome = true := by
      decide +kernel
    have hoffered := suggestions_entryText hmechanic htrim (by decide) (by decide) hquery hv
      .standard [{ name := "Storm" }, { name := "FireBurst" }] 5
    rw [if_pos hinvoked] at hoffered
    exact ⟨hinvoked, hoffered.trans (by decide +kernel)⟩
  · have hmechanic : IsWord "Pose".toList := by decide
    have htrim : Text.trim "Type".toList = "Type".toList := by decide
    have hquery : ';' ∉ "s".toList ∧ '\x7d' ∉ "s".toList ∧ '\n' ∉ "s".toList := by decide
    have hnot : (invoked? poseRegistry (lineWith "Pose" "Type" (.integer 7))).isSome = false := by
      decide +kernel
    have hoffered := suggestions_entryText hmechanic htrim (by decide) (by decide) hquery hv
      poseRegistry [{ name := "Storm" }] 3
    rw [if_neg (Bool.eq_false_iff.1 hnot)] at hoffered
    exact ⟨hnot, hoffered.trans (by decide +kernel)⟩

end Completion
end MobSkills
