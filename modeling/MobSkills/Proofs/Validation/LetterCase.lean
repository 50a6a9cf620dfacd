import Mathlib.Data.List.Forall2
import MobSkills.Proofs.Catalog.Index
import MobSkills.Proofs.Validation.Parts

/-!
# Lines with their names in other letters

Names and keys are compared over the letters A to Z in any case, wherever they are looked
for: in the catalogs, among the keys of a parameter, among the invocation keys. So a line
whose names are spelled in other letters has as many issues, as severe and in the same
order, and invokes the same metaskill. The texts of the issues repeat the names as written,
and nothing is said of them; values are never compared in another case.
-/
namespace MobSkills

/-! ## Texts in other letters -/

namespace Text

/-- A character is lowered to itself, or it is a letter and lowered to one. -/
theorem toLower_cases (c : Char) :
    c.toLower = c ∨ c.isAlpha = true ∧ c.toLower.isAlpha = true := by
  by_cases h : c.val ≥ 'A'.val ∧ c.val ≤ 'Z'.val
  · have hval : c.toLower.val = c.val + ('a'.val - 'A'.val) := congrArg Char.val (dif_pos h)
    right
    unfold Char.isAlpha Char.isUpper Char.isLower
    simp only [hval, Bool.or_eq_true, Bool.and_eq_true, decide_eq_true_eq]
    grind
  · exact .inl (dif_neg h)

/-- Nothing but itself is lowered to a character that is not a letter. -/
theorem toLower_eq_iff {c d : Char} (h : c.isAlpha = false) : d.toLower = c ↔ d = c := by
  constructor
  · rintro rfl
    rcases toLower_cases d with hd | ⟨-, halpha⟩
    · exact hd.symm
    · rw [h] at halpha
      cases halpha
  · rintro rfl
    rcases toLower_cases d with hd | ⟨halpha, -⟩
    · exact hd
    · rw [h] at halpha
      cases halpha

theorem isBlank_toLower (c : Char) : isBlank c.toLower = isBlank c := by
  rcases toLower_cases c with h | ⟨hword, hlower⟩
  · rw [h]
  · have halphanum {d : Char} (hd : d.isAlpha = true) : d.isAlphanum = true := by
      rw [Char.isAlphanum, hd, Bool.true_or]
    rw [isBlank_of_isAlphanum (halphanum hword), isBlank_of_isAlphanum (halphanum hlower)]

theorem allBlank_foldCase (s : String) : allBlank (foldCase s) = allBlank s := by
  simp [allBlank, foldCase, Function.comp_def, isBlank_toLower]

/-- A sign that is no letter is dropped in any case of the rest. -/
theorem foldCase_dropLeading {c : Char} (h : c.isAlpha = false) (s : String) :
    foldCase (dropLeading c s) = dropLeading c (foldCase s) := by
  unfold dropLeading
  cases hs : s.toList with
  | nil => simp [foldCase, hs]
  | cons d r =>
    have hfold : (foldCase s).toList = d.toLower :: r.map Char.toLower := by simp [foldCase, hs]
    simp only [hfold, toLower_eq_iff h]
    split
    · simp [foldCase]
    · rfl

theorem foldCase_takeWhile {c : Char} (h : c.isAlpha = false) (s : String) :
    foldCase (String.ofList (s.toList.takeWhile (· != c))) =
      String.ofList ((foldCase s).toList.takeWhile (· != c)) := by
  have hsame : ((· != c) : Char → Bool) ∘ Char.toLower = (· != c) := by
    funext d
    rw [Function.comp_apply, Bool.eq_iff_iff, bne_iff_ne, bne_iff_ne, ne_eq, ne_eq,
      toLower_eq_iff h]
  simp only [foldCase, String.toList_ofList, List.takeWhile_map, hsame]

variable {s t u : String}

theorem eqIgnoreCase_congr_left (h : eqIgnoreCase s t = true) :
    eqIgnoreCase s u = eqIgnoreCase t u := by
  rw [eqIgnoreCase, eqIgnoreCase, eqIgnoreCase_iff.1 h]

theorem eqIgnoreCase_congr_right (h : eqIgnoreCase s t = true) :
    eqIgnoreCase u s = eqIgnoreCase u t := by
  rw [eqIgnoreCase, eqIgnoreCase, eqIgnoreCase_iff.1 h]

theorem allBlank_congr (h : eqIgnoreCase s t = true) : allBlank s = allBlank t := by
  rw [← allBlank_foldCase s, eqIgnoreCase_iff.1 h, allBlank_foldCase]

end Text

/-! ## Names that are looked for -/

theorem Catalog.get?_congr {δ : Type} (c : Catalog δ) {s t : String}
    (h : Text.foldCase s = Text.foldCase t) : c.get? s = c.get? t := by
  rw [get?, get?, h]

namespace Registry

variable (r : Registry) {s t : String}

theorem mechanic?_congr (h : Text.eqIgnoreCase s t = true) : r.mechanic? s = r.mechanic? t :=
  r.mechanics.get?_congr (Text.eqIgnoreCase_iff.1 h)

theorem targeter?_congr (h : Text.eqIgnoreCase s t = true) : r.targeter? s = r.targeter? t := by
  apply r.targeters.get?_congr
  rw [Text.foldCase_dropLeading (by decide), Text.foldCase_dropLeading (by decide),
    Text.eqIgnoreCase_iff.1 h]

theorem condition?_congr (h : Text.eqIgnoreCase s t = true) : r.condition? s = r.condition? t := by
  apply r.conditions.get?_congr
  iterate 4 rw [Text.foldCase_dropLeading (by decide)]
  rw [Text.eqIgnoreCase_iff.1 h]

theorem trigger?_congr (h : Text.eqIgnoreCase s t = true) : r.trigger? s = r.trigger? t := by
  apply r.triggers.get?_congr
  rw [Text.foldCase_takeWhile (by decide), Text.foldCase_takeWhile (by decide),
    Text.foldCase_dropLeading (by decide), Text.foldCase_dropLeading (by decide),
    Text.eqIgnoreCase_iff.1 h]

end Registry

theorem ParameterSchema.answersTo_congr (p : ParameterSchema) (name : String) {s t : String}
    (h : Text.eqIgnoreCase s t = true) : p.answersTo name s = p.answersTo name t := by
  simp only [answersTo, Text.eqIgnoreCase_congr_right h]

theorem ParameterTable.find?_congr (table : ParameterTable) {s t : String}
    (h : Text.eqIgnoreCase s t = true) : table.find? s = table.find? t := by
  simp only [find?, ParameterSchema.answersTo_congr _ _ h]

/-! ## Lines in other letters -/

/-- The same entries under keys in other letters, place by place. -/
def Params.RecasedEntries : List (String × Value) → List (String × Value) → Prop :=
  List.Forall₂ fun x y => Text.eqIgnoreCase x.1 y.1 = true ∧ x.2 = y.2

def Params.Recased : Option Params → Option Params → Prop :=
  Option.Rel fun p q => RecasedEntries p.entries q.entries

def Targeter.Recased (s t : Targeter) : Prop :=
  Text.eqIgnoreCase s.kind t.kind = true ∧ Params.Recased s.options t.options

def Trigger.Recased (s t : Trigger) : Prop :=
  Text.eqIgnoreCase s.name t.name = true ∧ s.value = t.value

def Condition.Recased (c d : Condition) : Prop :=
  Text.eqIgnoreCase c.name d.name = true ∧ c.negated = d.negated ∧ c.group = d.group

/-- The same line but for the case of its names and of the keys of its groups. -/
structure SkillLine.Recased (a b : SkillLine) : Prop where
  mechanic : Text.eqIgnoreCase a.mechanic b.mechanic = true
  parameters : Params.Recased a.parameters b.parameters
  targeter : Option.Rel Targeter.Recased a.targeter b.targeter
  trigger : Option.Rel Trigger.Recased a.trigger b.trigger
  conditions : List.Forall₂ Condition.Recased a.conditions b.conditions
  health_eq : a.health = b.health
  chance_eq : a.chance = b.chance

namespace Validation

/-- As many issues, as severe and in the same order. -/
def SameSeverities (a b : List Issue) : Prop :=
  a.map (·.severity) = b.map (·.severity)

theorem piecewise_sameSeverities : Piecewise SameSeverities where
  refl _ := rfl
  append h h' := by
    unfold SameSeverities at *
    rw [List.map_append, List.map_append, h, h']

section Entries

variable {es fs : List (String × Value)}

theorem find?_recased {ofClass : String → Bool}
    (hclass : ∀ s t, Text.eqIgnoreCase s t = true → ofClass s = ofClass t)
    (h : Params.RecasedEntries es fs) :
    (es.find? fun e => ofClass e.1).map (·.2) = (fs.find? fun e => ofClass e.1).map (·.2) := by
  induction h with
  | nil => rfl
  | cons hxy _ ih =>
    simp only [List.find?_cons, hclass _ _ hxy.1]
    split
    · simp [hxy.2]
    · exact ih

/-- Keys that are unknown are so in any case. -/
theorem unknownIssues_recased {place owner other : String} {table : ParameterTable}
    (h : Params.RecasedEntries es fs) :
    SameSeverities (unknownIssues place owner table es) (unknownIssues place other table fs) := by
  unfold SameSeverities unknownIssues
  induction h with
  | nil => rfl
  | cons hxy _ ih =>
    simp only [List.filter_cons, table.find?_congr hxy.1]
    split
    · simp only [List.map_cons, ih]
      rfl
    · exact ih

theorem entriesOf_recased {s t : Option Params} (h : Params.Recased s t) :
    Params.RecasedEntries (entriesOf s) (entriesOf t) :=
  entriesOf_related h .nil

end Entries

/-! ## Parts of a line -/

theorem groupIssues_recased {place owner other : String} {table : ParameterTable}
    {s t : Option Params} (h : Params.Recased s t) :
    SameSeverities (groupIssues place owner table s) (groupIssues place other table t) := by
  have hentries := entriesOf_recased h
  refine piecewise_sameSeverities.groupIssues (fun q _ => ?_) (unknownIssues_recased hentries)
  exact find?_recased (fun s t hst => q.2.answersTo_congr q.1 hst) hentries

variable {r : Registry} {known : List String} {a b : SkillLine}

theorem mechanicIssues_recased (h : a.Recased b) :
    SameSeverities (mechanicIssues r a) (mechanicIssues r b) := by
  rw [mechanicIssues, mechanicIssues, r.mechanic?_congr h.mechanic]
  cases r.mechanic? b.mechanic with
  | none => rfl
  | some e => exact groupIssues_recased h.parameters

theorem targeterIssues_recased {s t : Targeter} (h : s.Recased t) :
    SameSeverities (targeterIssues r s) (targeterIssues r t) := by
  rw [targeterIssues, targeterIssues, r.targeter?_congr h.1]
  cases r.targeter? t.kind with
  | none => rfl
  | some e => exact groupIssues_recased h.2

theorem triggerIssues_recased {s t : Trigger} (h : s.Recased t) :
    SameSeverities (triggerIssues r s) (triggerIssues r t) := by
  rw [triggerIssues, triggerIssues, r.trigger?_congr h.1, h.2]
  cases r.trigger? t.name <;> rfl

theorem conditionIssues_recased {cs ds : List Condition}
    (h : List.Forall₂ Condition.Recased cs ds) :
    SameSeverities (conditionIssues r cs) (conditionIssues r ds) := by
  -- The places of the conditions stand in the issues, so the induction is on any first place.
  unfold conditionIssues
  generalize 0 = first
  induction h generalizing first with
  | nil => rfl
  | cons hcd _ ih =>
    simp only [List.zipIdx_cons, List.flatMap_cons, r.condition?_congr hcd.1]
    refine piecewise_sameSeverities.append ?_ (ih (first + 1))
    split <;> rfl

theorem isInvocation_recased (h : a.Recased b) :
    isInvocation r a.mechanic = isInvocation r b.mechanic := by
  rw [isInvocation, isInvocation, r.mechanic?_congr h.mechanic,
    Text.eqIgnoreCase_congr_left h.mechanic]

/-- The preferred value is the same, under a key that may be spelled otherwise. -/
theorem parameterOf?_recased (h : a.Recased b) (names : List String) :
    (a.parameterOf? names).map (·.2) = (b.parameterOf? names).map (·.2) := by
  rw [SkillLine.parameterOf?_eq, SkillLine.parameterOf?_eq, List.map_findSome?, List.map_findSome?]
  congr 1
  funext name
  exact find?_recased (fun s t hst => Text.eqIgnoreCase_congr_left hst)
    (entriesOf_recased h.parameters)

theorem referenceIssues_recased (h : a.Recased b) :
    SameSeverities (referenceIssues r known a) (referenceIssues r known b) := by
  have hvalue := parameterOf?_recased h invocationKeys
  rw [referenceIssues, referenceIssues, isInvocation_recased h]
  split
  · cases ha : a.parameterOf? invocationKeys with
    | none =>
      rw [ha, Option.map_none, eq_comm, Option.map_eq_none_iff] at hvalue
      rw [hvalue]
      rfl
    | some x =>
      rw [ha, Option.map_some, eq_comm, Option.map_eq_some_iff] at hvalue
      obtain ⟨y, hb, hxy⟩ := hvalue
      rw [hb]
      simp only [← hxy]
      split <;> rfl
  · rfl

/-- The case of names and keys changes neither how many issues there are nor how severe they
are nor what the line invokes. -/
theorem skillIssues_recased (h : a.Recased b) :
    SameSeverities (skillIssues r known a) (skillIssues r known b) ∧
      invoked? r a = invoked? r b := by
  constructor
  · apply piecewise_sameSeverities.skillIssues
    case hblank => exact Text.allBlank_congr h.mechanic
    case mechanic => exact mechanicIssues_recased h
    case reference => exact referenceIssues_recased h
    case targeter =>
      exact piecewise_sameSeverities.ofOption h.targeter fun _ _ _ => targeterIssues_recased
    case trigger =>
      exact piecewise_sameSeverities.ofOption h.trigger fun _ _ _ => triggerIssues_recased
    case conditions => exact conditionIssues_recased h.conditions
    case hhealth => exact h.health_eq
    case hchance => exact h.chance_eq
  · exact invoked?_congr (isInvocation_recased h) (parameterOf?_recased h invocationKeys)

def burstLine : SkillLine :=
  { mechanic := "skill",
    parameters := some ⟨[("s", .text "Burst"), ("S", .text "Other"), ("wait", .integer 2)]⟩,
    targeter := some ⟨"@PlayersInRadius", some ⟨[("r", .integer 5)]⟩⟩,
    trigger := some ⟨"onTimer", some "100"⟩,
    conditions := [{ name := "raining", negated := true }] }

/-- Two keys of the line differ in case alone, before and after. -/
def burstLineRecased : SkillLine :=
  { mechanic := "Skill",
    parameters := some ⟨[("S", .text "Burst"), ("s", .text "Other"), ("Wait", .integer 2)]⟩,
    targeter := some ⟨"@playersinradius", some ⟨[("R", .integer 5)]⟩⟩,
    trigger := some ⟨"ONTIMER", some "100"⟩,
    conditions := [{ name := "Raining", negated := true }] }

theorem burstLine_recased : burstLine.Recased burstLineRecased where
  mechanic := by decide
  parameters := .some (.cons (by decide) (.cons (by decide) (.cons (by decide) .nil)))
  targeter := .some ⟨by decide, .some (.cons (by decide) .nil)⟩
  trigger := .some ⟨by decide, rfl⟩
  conditions := .cons ⟨by decide, rfl, rfl⟩ .nil
  health_eq := rfl
  chance_eq := rfl

theorem skillIssues_recased_burstLine :
    burstLine.Recased burstLineRecased ∧
      SameSeverities (skillIssues Registry.standard [] burstLine)
        (skillIssues Registry.standard [] burstLineRecased) ∧
      invoked? Registry.standard burstLine = invoked? Registry.standard burstLineRecased :=
  ⟨burstLine_recased, skillIssues_recased burstLine_recased⟩

end Validation
end MobSkills
