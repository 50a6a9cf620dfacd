import MobSkills.Proofs.Catalog.Index
import MobSkills.Proofs.Validation.Parts

/-!
# Lines with their parameters in another order

The checks look for the first key of a class: the keys that a parameter answers to, or the
spellings of an invocation key. Where no class has two keys, the first is the only one and
the order of the entries settles nothing but the order of what is said of unknown keys.
Nothing is claimed of lines in which a parameter is given twice: there the first value counts.
-/
namespace MobSkills

/-- The same entries in some order; an absent group stays absent. -/
def Params.Reordered : Option Params → Option Params → Prop :=
  Option.Rel fun p q => p.entries.Perm q.entries

/-- The same line but for the order of its parameters and of the options of its targeter. -/
structure SkillLine.Reordered (a b : SkillLine) : Prop where
  mechanic_eq : a.mechanic = b.mechanic
  parameters : Params.Reordered a.parameters b.parameters
  targeter : Option.Rel (fun s t => s.kind = t.kind ∧ Params.Reordered s.options t.options)
    a.targeter b.targeter
  trigger_eq : a.trigger = b.trigger
  conditions_eq : a.conditions = b.conditions
  health_eq : a.health = b.health
  chance_eq : a.chance = b.chance

namespace Validation

/-- At most one entry has a key of the class. -/
def AtMostOne (ofClass : String → Bool) (entries : List (String × Value)) : Prop :=
  entries.Pairwise fun a b => ¬ (ofClass a.1 = true ∧ ofClass b.1 = true)

/-- No parameter of the table is given twice. -/
def GivesOnce (table : ParameterTable) (entries : List (String × Value)) : Prop :=
  ∀ q ∈ table, AtMostOne (q.2.answersTo q.1) entries

/-- No two parameters have the same key in any case, and no parameter or option of the
entries that the line names is given twice. -/
structure Unambiguous (r : Registry) (line : SkillLine) : Prop where
  keys : (entriesOf line.parameters).Pairwise fun a b => Text.eqIgnoreCase a.1 b.1 = false
  parameters : ∀ e ∈ r.mechanic? line.mechanic, GivesOnce e.detail (entriesOf line.parameters)
  options : ∀ t ∈ line.targeter, ∀ e ∈ r.targeter? t.kind,
    GivesOnce e.detail (entriesOf t.options)

theorem piecewise_perm : Piecewise List.Perm where
  refl := List.Perm.refl
  append := List.Perm.append

/-! ## The first of a class -/

section Entries

variable {es fs : List (String × Value)} {ofClass : String → Bool}

/-- The only entry of a class is the first one in any order. -/
theorem find?_eq_of_perm (h : es.Perm fs) (hone : AtMostOne ofClass es) :
    es.find? (fun e => ofClass e.1) = fs.find? (fun e => ofClass e.1) := by
  unfold AtMostOne at hone
  induction h with
  | nil => rfl
  | cons x _ ih =>
    simp only [List.find?_cons, ih (List.pairwise_cons.1 hone).2]
  | swap x y l =>
    have hxy : ¬ (ofClass y.1 = true ∧ ofClass x.1 = true) :=
      (List.pairwise_cons.1 hone).1 x (List.mem_cons_self ..)
    simp only [List.find?_cons]
    cases hx : ofClass x.1 <;> cases hy : ofClass y.1 <;> simp_all
  | trans h _ ih ih' =>
    have hsymm : ∀ {a b : String × Value}, ¬ (ofClass a.1 = true ∧ ofClass b.1 = true) →
        ¬ (ofClass b.1 = true ∧ ofClass a.1 = true) := fun h h' => h h'.symm
    exact (ih hone).trans (ih' (hone.perm h hsymm))

/-- Different keys are not both spellings of one name. -/
theorem atMostOne_spelling (h : es.Pairwise fun a b => Text.eqIgnoreCase a.1 b.1 = false)
    (name : String) : AtMostOne (Text.eqIgnoreCase · name) es := by
  refine h.imp fun {a b} hab hboth => ?_
  simp only [Text.eqIgnoreCase_iff] at hboth
  have hsame : Text.eqIgnoreCase a.1 b.1 = true :=
    Text.eqIgnoreCase_iff.2 (hboth.1.trans hboth.2.symm)
  exact absurd hsame (by simp [hab])

theorem givenValue?_eq_of_perm {name : String} {p : ParameterSchema} (h : es.Perm fs)
    (hone : AtMostOne (p.answersTo name) es) : givenValue? es name p = givenValue? fs name p := by
  rw [givenValue?_eq, givenValue?_eq, find?_eq_of_perm h hone]

theorem unknownIssues_perm (place owner : String) (table : ParameterTable) (h : es.Perm fs) :
    (unknownIssues place owner table es).Perm (unknownIssues place owner table fs) :=
  (h.filter _).map _

end Entries

/-! ## Parts of a line -/

theorem entriesOf_perm {s t : Option Params} (h : Params.Reordered s t) :
    (entriesOf s).Perm (entriesOf t) :=
  entriesOf_related h (.refl [])

theorem groupIssues_perm {place owner : String} {table : ParameterTable} {s t : Option Params}
    (h : Params.Reordered s t) (hone : GivesOnce table (entriesOf s)) :
    (groupIssues place owner table s).Perm (groupIssues place owner table t) :=
  piecewise_perm.groupIssues (fun q hq => givenValue?_eq_of_perm (entriesOf_perm h) (hone q hq))
    (unknownIssues_perm place owner table (entriesOf_perm h))

variable {r : Registry} {known : List String} {a b : SkillLine}

theorem mechanicIssues_perm (h : a.Reordered b) (hu : Unambiguous r a) :
    (mechanicIssues r a).Perm (mechanicIssues r b) := by
  rw [mechanicIssues, mechanicIssues, ← h.mechanic_eq]
  cases hentry : r.mechanic? a.mechanic with
  | none => exact .refl _
  | some e => exact groupIssues_perm h.parameters (hu.parameters e hentry)

theorem targeterIssues_perm {s t : Option Targeter}
    (h : Option.Rel (fun s t => s.kind = t.kind ∧ Params.Reordered s.options t.options) s t)
    (hone : ∀ x ∈ s, ∀ e ∈ r.targeter? x.kind, GivesOnce e.detail (entriesOf x.options)) :
    (ofOption (targeterIssues r) s).Perm (ofOption (targeterIssues r) t) := by
  refine piecewise_perm.ofOption h fun x hx y hxy => ?_
  rw [targeterIssues, targeterIssues, ← hxy.1]
  cases hentry : r.targeter? x.kind with
  | none => exact .refl _
  | some e => exact groupIssues_perm hxy.2 (hone x hx e hentry)

/-- Each invocation key has one spelling at most, so the preferred one is where it was. -/
theorem parameterOf?_eq_of_reordered (h : a.Reordered b) (hu : Unambiguous r a)
    (names : List String) : a.parameterOf? names = b.parameterOf? names := by
  rw [SkillLine.parameterOf?_eq, SkillLine.parameterOf?_eq]
  congr 1
  funext name
  exact find?_eq_of_perm (entriesOf_perm h.parameters) (atMostOne_spelling hu.keys name)

/-- Where nothing is given twice, the order of the parameters and of the options matters
neither for what the checks say nor for what the line invokes. -/
theorem skillIssues_perm (h : a.Reordered b) (hu : Unambiguous r a) :
    (skillIssues r known a).Perm (skillIssues r known b) ∧ invoked? r a = invoked? r b := by
  have hpreferred := parameterOf?_eq_of_reordered h hu invocationKeys
  have hreference : referenceIssues r known a = referenceIssues r known b := by
    rw [referenceIssues, referenceIssues, h.mechanic_eq, hpreferred]
  constructor
  · apply piecewise_perm.skillIssues
    case hblank => rw [h.mechanic_eq]
    case mechanic => exact mechanicIssues_perm h hu
    case reference => rw [hreference]
    case targeter => exact targeterIssues_perm h.targeter hu.options
    case trigger => rw [h.trigger_eq]
    case conditions => rw [h.conditions_eq]
    case hhealth => exact h.health_eq
    case hchance => exact h.chance_eq
  · exact invoked?_congr (by rw [h.mechanic_eq]) (by rw [hpreferred])

/-- A catalog of a mechanic and a targeter with a parameter each. -/
def boltRegistry : Registry :=
  .ofOverlay {
    mechanics := [{ name := "bolt", detail := [("power", { required := true, aliases := ["p"] })] }]
    targeters := [{ name := "near", detail := [("radius", { aliases := ["r"] })] }] }

/-- The parameter and the option of the catalog stand among keys it does not know. -/
def boltLine : SkillLine :=
  { mechanic := "Bolt",
    parameters := some ⟨[("x", .text "1"), ("P", .text "high"), ("y", .text "2")]⟩,
    targeter := some ⟨"near", some ⟨[("R", .text "5"), ("z", .text "3")]⟩⟩ }

def boltLineTurned : SkillLine :=
  { boltLine with
    parameters := some ⟨[("y", .text "2"), ("P", .text "high"), ("x", .text "1")]⟩,
    targeter := some ⟨"near", some ⟨[("z", .text "3"), ("R", .text "5")]⟩⟩ }

theorem boltLine_reordered : boltLine.Reordered boltLineTurned where
  mechanic_eq := rfl
  parameters := .some (by decide)
  targeter := .some ⟨rfl, .some (by decide)⟩
  trigger_eq := rfl
  conditions_eq := rfl
  health_eq := rfl
  chance_eq := rfl

theorem boltLine_unambiguous : Unambiguous boltRegistry boltLine where
  keys := by decide +kernel
  parameters := by
    unfold GivesOnce AtMostOne
    decide +kernel
  options := by
    unfold GivesOnce AtMostOne
    decide +kernel

theorem skillIssues_perm_boltLine :
    boltLine.Reordered boltLineTurned ∧ Unambiguous boltRegistry boltLine ∧
      (skillIssues boltRegistry [] boltLine).Perm (skillIssues boltRegistry [] boltLineTurned) ∧
      invoked? boltRegistry boltLine = invoked? boltRegistry boltLineTurned :=
  ⟨boltLine_reordered, boltLine_unambiguous,
    skillIssues_perm boltLine_reordered boltLine_unambiguous⟩

end Validation
end MobSkills
