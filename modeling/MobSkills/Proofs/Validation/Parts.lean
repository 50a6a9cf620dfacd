import Mathlib.Data.List.Forall2
import MobSkills.Proofs.Validation.Reference

/-!
# Issues of a line, part by part

The issues of a line are those of its parts in a fixed order, and each part reads little of
the line: the catalogs are asked for a name, a parameter for the first value under its keys,
the reference for the first of the invocation keys that is given. Two lines are compared by
comparing their parts. A relation that can be compared so is one that goes through lists put
together; nothing is said of relations that look across parts.
-/
namespace MobSkills

/-- A group that is absent has no entries. -/
def entriesOf (group : Option Params) : List (String × Value) :=
  (group.map Params.entries).getD []

/-- Groups with related entries, or both absent, have related entries. -/
theorem entriesOf_related {E : List (String × Value) → List (String × Value) → Prop}
    {s t : Option Params} (h : Option.Rel (fun p q => E p.entries q.entries) s t)
    (hempty : E [] []) : E (entriesOf s) (entriesOf t) := by
  cases h with
  | none => exact hempty
  | some h => exact h

/-- The parameter that a line prefers among names, found in the written entries. -/
theorem SkillLine.parameterOf?_eq (line : SkillLine) (names : List String) :
    line.parameterOf? names = names.findSome? fun name =>
      (entriesOf line.parameters).find? fun e => Text.eqIgnoreCase e.1 name := by
  cases h : line.parameters with
  | none =>
    have hnone : names.findSome? (fun _ => (none : Option (String × Value))) = none :=
      List.findSome?_eq_none_iff.2 fun _ _ => rfl
    simp [parameterOf?, entriesOf, h, hnone]
  | some p =>
    simp [parameterOf?, entriesOf, h]
    rfl

namespace Validation

/-- Relations between lists of issues that lists put together inherit from their parts. -/
structure Piecewise (R : List Issue → List Issue → Prop) : Prop where
  refl : ∀ a, R a a
  append : ∀ {a b c d}, R a b → R c d → R (a ++ c) (b ++ d)

variable {R : List Issue → List Issue → Prop} {r : Registry} {a b : SkillLine}

theorem Piecewise.ofOption {α : Type} {check : α → List Issue} {Q : α → α → Prop}
    {s t : Option α} (hR : Piecewise R) (h : Option.Rel Q s t)
    (hcheck : ∀ x ∈ s, ∀ y, Q x y → R (check x) (check y)) :
    R (Validation.ofOption check s) (Validation.ofOption check t) := by
  cases h with
  | none => exact hR.refl []
  | some h => exact hcheck _ rfl _ h

/-- Lines with related parts have related issues. -/
theorem Piecewise.skillIssues (hR : Piecewise R) {known : List String}
    (hblank : Text.allBlank a.mechanic = Text.allBlank b.mechanic)
    (mechanic : R (mechanicIssues r a) (mechanicIssues r b))
    (reference : R (referenceIssues r known a) (referenceIssues r known b))
    (targeter : R (Validation.ofOption (targeterIssues r) a.targeter)
      (Validation.ofOption (targeterIssues r) b.targeter))
    (trigger : R (Validation.ofOption (triggerIssues r) a.trigger)
      (Validation.ofOption (triggerIssues r) b.trigger))
    (conditions : R (conditionIssues r a.conditions) (conditionIssues r b.conditions))
    (hhealth : a.health = b.health) (hchance : a.chance = b.chance) :
    R (Validation.skillIssues r known a) (Validation.skillIssues r known b) := by
  unfold Validation.skillIssues
  rw [hblank, hhealth, hchance]
  split
  · exact hR.refl _
  · exact hR.append (hR.append (hR.append (hR.append (hR.append (hR.append mechanic reference)
      targeter) trigger) conditions) (hR.refl _)) (hR.refl _)

theorem givenValue?_eq (entries : List (String × Value)) (name : String) (p : ParameterSchema) :
    givenValue? entries name p = (entries.find? fun e => p.answersTo name e.1).map (·.2) :=
  rfl

/-- The issues of a parameter depend on the first value under its keys alone, and on that
only if it is not blank. -/
theorem parameterIssues_congr {place name : String} {p : ParameterSchema}
    {es fs : List (String × Value)}
    (h : (givenValue? es name p).filter (!·.isBlank) =
      (givenValue? fs name p).filter (!·.isBlank)) :
    parameterIssues place es (name, p) = parameterIssues place fs (name, p) := by
  rw [parameterIssues, parameterIssues, h]

theorem groupIssues_eq (place owner : String) (table : ParameterTable) (s : Option Params) :
    groupIssues place owner table s = table.flatMap (parameterIssues place (entriesOf s)) ++
      unknownIssues place owner table (entriesOf s) :=
  rfl

/-- Groups that give every parameter the same value differ in unknown keys alone. -/
theorem Piecewise.groupIssues (hR : Piecewise R) {place owner other : String}
    {table : ParameterTable} {s t : Option Params}
    (hvalue : ∀ q ∈ table,
      givenValue? (entriesOf s) q.1 q.2 = givenValue? (entriesOf t) q.1 q.2)
    (hunknown : R (unknownIssues place owner table (entriesOf s))
      (unknownIssues place other table (entriesOf t))) :
    R (Validation.groupIssues place owner table s) (Validation.groupIssues place other table t) := by
  have hsame : table.flatMap (parameterIssues place (entriesOf s)) =
      table.flatMap (parameterIssues place (entriesOf t)) :=
    List.flatMap_congr fun q hq => parameterIssues_congr (by rw [hvalue q hq])
  rw [groupIssues_eq, groupIssues_eq, hsame]
  exact hR.append (hR.refl _) hunknown

/-- What a line invokes depends on its mechanic and the preferred value alone. -/
theorem invoked?_congr (hmechanic : isInvocation r a.mechanic = isInvocation r b.mechanic)
    (hvalue : (a.parameterOf? invocationKeys).map (·.2) =
      (b.parameterOf? invocationKeys).map (·.2)) : invoked? r a = invoked? r b := by
  have hname : (a.parameterOf? invocationKeys).map (·.2.display) =
      (b.parameterOf? invocationKeys).map (·.2.display) := by
    simpa only [Option.map_map, Function.comp_def] using congrArg (Option.map Value.display) hvalue
  rw [invoked?, invoked?, hmechanic, hname]

end Validation
end MobSkills
