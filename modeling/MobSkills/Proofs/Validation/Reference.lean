import MobSkills.Catalog.Standard
import MobSkills.Proofs.Number.ReadBack
import MobSkills.Proofs.Validation.Export

/-!
# References of lines without errors

A line of the standard `skill` mechanic names the metaskill it runs under one of four
keys. The check of the parameters asks for the key that is written first, the check of the
reference for the key that is preferred. A line without errors has a name that is not
blank under some key; where the preferred key holds a blank, that name is not looked at,
and the line invokes nothing.
-/
namespace MobSkills

/-! ## Blank values -/

theorem exists_mem_toDigits (n : Nat) : ∃ c ∈ Nat.toDigits 10 n, Text.isBlank c = false := by
  obtain ⟨c, hc⟩ := List.exists_mem_of_ne_nil (Nat.toDigits 10 n) Nat.toDigits_ne_nil
  exact ⟨c, hc, Text.isBlank_of_isAlphanum (by simp [Char.isAlphanum, AllDigits.toDigits n c hc])⟩

/-- The text of a decimal shows a digit or a point. -/
theorem Decimal.exists_mem_plain (d : Decimal) : ∃ c ∈ d.plain, Text.isBlank c = false := by
  obtain ⟨c, hc, hblank⟩ := exists_mem_toDigits d.coefficient
  unfold plain
  split
  · exact ⟨c, List.mem_append_left _ hc, hblank⟩
  · refine ⟨'.', ?_, by decide⟩
    dsimp only
    split <;> simp

theorem Binary64.exists_mem_plain (x : Binary64) : ∃ c ∈ x.plain, Text.isBlank c = false := by
  cases x with
  | nan => exact ⟨'N', by decide, by decide⟩
  | infinity negative => cases negative <;> exact ⟨'i', by decide, by decide⟩
  | finite negative m =>
    obtain ⟨c, hc, hblank⟩ := (m.shortest .upward).exists_mem_plain
    refine ⟨c, ?_, hblank⟩
    cases negative with
    | false => exact hc
    | true => exact List.mem_cons_of_mem _ hc

/-- Only text can be blank. -/
theorem Value.allBlank_display (v : Value) : Text.allBlank v.display = v.isBlank := by
  cases v with
  | boolean b => cases b <;> decide
  | integer i =>
    obtain ⟨c, hc, hblank⟩ := exists_mem_toDigits i.toInt.natAbs
    refine Text.allBlank_eq_false (c := c) ?_ hblank
    rw [display, toList_toString_int]
    exact List.mem_append_right _ hc
  | real x =>
    obtain ⟨c, hc, hblank⟩ := x.exists_mem_plain
    exact Text.allBlank_eq_false (by simpa [display, Binary64.text] using hc) hblank
  | text s => rfl
  | list items =>
    exact Text.allBlank_eq_false (c := '[') (by simp [display, String.toList_append]) (by decide)

/-! ## The two choices of a key -/

namespace Validation

/-- The entry is the one of the standard catalog that runs a metaskill. -/
def IsStandardInvocation (e : Entry ParameterTable) : Prop :=
  e ∈ Standard.mechanics ∧ e.name = "skill"

/-- The standard entry asks for one parameter, under the invocation keys alone. -/
theorem exists_detail {e : Entry ParameterTable} (he : IsStandardInvocation e) :
    ∃ p : ParameterSchema, e.detail = [("skill", p)] ∧ p.required = true ∧
      p.aliases = ["s", "spell", "metaskill"] := by
  have hall : ∀ e ∈ Standard.mechanics, e.name = "skill" →
      e.detail.map (fun q => (q.1, q.2.required, q.2.aliases)) =
        [("skill", true, ["s", "spell", "metaskill"])] := by
    decide +kernel
  obtain ⟨⟨name, p⟩, hdetail, hp⟩ := List.map_eq_singleton_iff.1 (hall e he.1 he.2)
  obtain ⟨rfl, hrequired, haliases⟩ := by simpa using hp
  exact ⟨p, hdetail, hrequired, haliases⟩

/-- Whether a key, in any case, can name the metaskill that a line invokes. -/
def isInvocationKey (key : String) : Bool :=
  invocationKeys.any (Text.eqIgnoreCase key)

/-- The parameters of a line in the order in which they are written. -/
def given (line : SkillLine) : List (String × Value) :=
  (line.parameters.map Params.entries).getD []

theorem answersTo_iff_isInvocationKey {p : ParameterSchema} {key : String}
    (hp : p.aliases = ["s", "spell", "metaskill"]) :
    p.answersTo "skill" key = isInvocationKey key := by
  simp only [ParameterSchema.answersTo, hp, isInvocationKey, invocationKeys, List.any_cons,
    List.any_nil, Bool.or_false, Text.eqIgnoreCase]
  grind

/-- A parameter that is required is given by a value that is not blank. -/
theorem exists_given_of_required {place name : String} {entries : List (String × Value)}
    {p : ParameterSchema} (h : isValid (parameterIssues place entries (name, p)) = true)
    (hp : p.required = true) :
    ∃ e ∈ entries, p.answersTo name e.1 = true ∧ e.2.isBlank = false := by
  simp only [parameterIssues] at h
  split at h
  · rename_i v hv
    obtain ⟨hfound, hblank⟩ := Option.filter_eq_some_iff.1 hv
    obtain ⟨e, he, rfl⟩ := Option.map_eq_some_iff.1 hfound
    exact ⟨e, List.mem_of_find?_eq_some he, by simpa using List.find?_some he, by simpa using hblank⟩
  · rw [if_pos hp] at h
    exact absurd (List.mem_singleton_self _) (not_mem_of_isValid h rfl)

/-- A line that gives some invocation key gives a preferred one. -/
theorem exists_parameterOf? {line : SkillLine} {e : String × Value} (he : e ∈ given line)
    (hkey : isInvocationKey e.1 = true) :
    ∃ key v, line.parameterOf? invocationKeys = some (key, v) := by
  obtain ⟨p, hp, he⟩ : ∃ p, line.parameters = some p ∧ e ∈ p.entries := by
    unfold given at he
    cases hp : line.parameters with
    | none => simp [hp] at he
    | some p => exact ⟨p, rfl, by simpa [hp] using he⟩
  obtain ⟨name, hname, hequal⟩ := List.any_eq_true.1 hkey
  have hfound : line.parameterOf? invocationKeys ≠ none := by
    intro hnone
    rw [SkillLine.parameterOf?, hp, Option.bind_some, List.findSome?_eq_none_iff] at hnone
    have hmiss := List.find?_eq_none.1 (hnone name hname) e he
    exact hmiss hequal
  obtain ⟨⟨key, v⟩, hv⟩ := Option.ne_none_iff_exists'.1 hfound
  exact ⟨key, v, hv⟩

/-- The line invokes the value of its preferred key, unless that is blank. -/
theorem invoked?_of_parameterOf? {r : Registry} {line : SkillLine} {key : String} {v : Value}
    (hinvocation : isInvocation r line.mechanic = true)
    (hkey : line.parameterOf? invocationKeys = some (key, v)) :
    invoked? r line = if v.isBlank then none else some v.display := by
  rw [invoked?, if_pos hinvocation, hkey]
  cases hblank : v.isBlank <;> simp [Option.filter, v.allBlank_display, hblank]

theorem parameterIssues_of_skillIssues {r : Registry} {known : List String} {line : SkillLine}
    {e : Entry ParameterTable} (h : isValid (skillIssues r known line) = true)
    (hentry : r.mechanic? line.mechanic = some e) :
    ∀ q ∈ e.detail, isValid (parameterIssues "parameters" (given line) q) = true := by
  unfold skillIssues at h
  split at h
  · exact absurd (List.mem_singleton_self _) (not_mem_of_isValid h rfl)
  · simp only [isValid_append, Bool.and_eq_true, mechanicIssues, hentry, groupIssues] at h
    exact isValid_flatMap.1 h.1.1.1.1.1.1.1

/-- A line without errors names a metaskill, and it invokes one that is known unless the
key that is preferred holds a blank. The name is looked for under that key alone: a blank
there hides a name under another key. -/
theorem reference_of_isValid {r : Registry} {known : List String} {line : SkillLine}
    {e : Entry ParameterTable} (he : IsStandardInvocation e)
    (hentry : r.mechanic? line.mechanic = some e)
    (h : isValid (skillIssues r known line) = true) :
    (∃ q ∈ given line, isInvocationKey q.1 = true ∧ q.2.isBlank = false) ∧
      ∃ key v, line.parameterOf? invocationKeys = some (key, v) ∧
        invoked? r line = (if v.isBlank then none else some v.display) ∧
        ((∃ name ∈ known, invoked? r line = some name) ↔ v.isBlank = false) := by
  obtain ⟨p, hdetail, hrequired, haliases⟩ := exists_detail he
  have hparameter := parameterIssues_of_skillIssues h hentry ("skill", p) (by simp [hdetail])
  -- `q` is given under the key that is written first, `v` below under the preferred one.
  obtain ⟨q, hq, hanswers, hblank⟩ := exists_given_of_required hparameter hrequired
  rw [answersTo_iff_isInvocationKey haliases] at hanswers
  obtain ⟨key, v, hkey⟩ := exists_parameterOf? hq hanswers
  have hinvocation : isInvocation r line.mechanic = true := by
    have hsame : Text.eqIgnoreCase "skill" "skill" = true := by decide
    simp [isInvocation, hentry, he.2, hsame]
  have hinvoked := invoked?_of_parameterOf? hinvocation hkey
  refine ⟨⟨q, hq, hanswers, hblank⟩, key, v, hkey, hinvoked, ?_⟩
  constructor
  · rintro ⟨name, -, hname⟩
    by_contra hv
    simp [hinvoked, hv] at hname
  · intro hv
    have hname : invoked? r line = some v.display := by simp [hinvoked, hv]
    exact ⟨v.display, mem_of_skillIssues h hname, hname⟩

/-- A catalog of the invocation alone. -/
def invocationRegistry : Registry :=
  .ofOverlay { mechanics := Standard.mechanics.filter (·.name == "skill") }

/-- The check of the parameters reads `Other`, the check of the reference `Burst`. -/
def aliasLine : SkillLine :=
  { mechanic := "meta",
    parameters := some ⟨[("Spell", .text "Other"), ("SKILL", .text "Burst")]⟩ }

theorem reference_aliasLine :
    ∃ e, IsStandardInvocation e ∧ invocationRegistry.mechanic? aliasLine.mechanic = some e ∧
      isValid (skillIssues invocationRegistry ["Burst"] aliasLine) = true ∧
      ∃ key v, aliasLine.parameterOf? invocationKeys = some (key, v) ∧
        invoked? invocationRegistry aliasLine = (if v.isBlank then none else some v.display) := by
  have hfacts : ∃ e ∈ Standard.mechanics, e.name = "skill" ∧
      invocationRegistry.mechanic? aliasLine.mechanic = some e ∧
      isValid (skillIssues invocationRegistry ["Burst"] aliasLine) = true := by
    decide +kernel
  obtain ⟨e, he, hname, hentry, hvalid⟩ := hfacts
  obtain ⟨-, key, v, hkey, hinvoked, -⟩ := reference_of_isValid ⟨he, hname⟩ hentry hvalid
  exact ⟨e, ⟨he, hname⟩, hentry, hvalid, key, v, hkey, hinvoked⟩

/-- The blank under `s` hides the name under `skill`. -/
def hiddenLine : SkillLine :=
  { mechanic := "skill", parameters := some ⟨[("skill", .text "Burst"), ("s", .text " ")]⟩ }

theorem invoked?_hiddenLine :
    ∃ e ∈ Standard.mechanics, e.name = "skill" ∧
      Registry.standard.mechanic? hiddenLine.mechanic = some e ∧
      isValid (skillIssues Registry.standard ["Burst"] hiddenLine) = true ∧
      invoked? Registry.standard hiddenLine = none := by
  decide +kernel

end Validation
end MobSkills
