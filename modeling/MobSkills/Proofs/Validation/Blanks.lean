import MobSkills.Proofs.Validation.Parts

/-!
# Blank values as values that were not given

The check of a parameter takes the first value under any of its keys and only then asks
whether it is blank. So a blank that stands alone counts as not given, and a blank that
stands before another value of the same parameter hides that value. What the checks report
without the blanks is what they report with them, exactly when nothing that is hidden was
asked for and the checks have nothing to say about it. Information about keys that no
parameter answers to is left aside: it goes with the keys.
-/
namespace MobSkills

/-- The group without the entries whose value is blank. -/
def Params.provided (p : Params) : Params :=
  ⟨p.entries.filter (!·.2.isBlank)⟩

/-- The line without blank parameters and options. -/
def SkillLine.withoutBlanks (line : SkillLine) : SkillLine :=
  { line with
    parameters := line.parameters.map Params.provided
    targeter := line.targeter.map fun t => { t with options := t.options.map Params.provided } }

namespace Validation

/-- The errors and the warnings. -/
def reported (issues : List Issue) : List Issue :=
  issues.filter (·.severity != .info)

@[simp] theorem reported_append (a b : List Issue) : reported (a ++ b) = reported a ++ reported b :=
  List.filter_append ..

/-- Under the keys of a parameter a blank stands first, and `v` is the first value that is
not blank. -/
def Hides (entries : List (String × Value)) (name : String) (p : ParameterSchema) (v : Value) :
    Prop :=
  (∃ blank, givenValue? entries name p = some blank ∧ blank.isBlank = true) ∧
    givenValue? (entries.filter (!·.2.isBlank)) name p = some v

/-- No hidden value was asked for, and nothing is wrong with any. -/
def HidesNothing (place : String) (table : ParameterTable) (entries : List (String × Value)) :
    Prop :=
  ∀ q ∈ table, ∀ v, Hides entries q.1 q.2 v →
    q.2.required = false ∧ valueIssues place q.1 q.2 v = []

/-- A name that a blank hides from the reference is a known one. -/
def HidesNoReference (r : Registry) (known : List String) (line : SkillLine) : Prop :=
  isInvocation r line.mechanic = true → ∀ blank v : String × Value,
    line.parameterOf? invocationKeys = some blank → blank.2.isBlank = true →
      line.withoutBlanks.parameterOf? invocationKeys = some v → v.2.display ∈ known

/-- The blanks of a line hide no value that the checks would tell apart from none. -/
structure BlanksHideNothing (r : Registry) (known : List String) (line : SkillLine) : Prop where
  parameters : ∀ e, r.mechanic? line.mechanic = some e →
    HidesNothing "parameters" e.detail (entriesOf line.parameters)
  options : ∀ t e, line.targeter = some t → r.targeter? t.kind = some e →
    HidesNothing "targeter.options" e.detail (entriesOf t.options)
  reference : HidesNoReference r known line

/-! ## Lists in which hidden values come out -/

/-- Whether an issue says that a required parameter is missing. -/
def saysMissing (i : Issue) : Bool :=
  "Required".toList.isPrefixOf i.message.toList

def missing (issues : List Issue) : Nat :=
  issues.countP saysMissing

/-- The lists are the same, or the second says less often that a parameter is missing, or it
says so as often and is longer. Lists that are put together from such parts are the same only
if all the parts are. -/
def Unveils (a b : List Issue) : Prop :=
  a = b ∨ missing b < missing a ∨ (missing b = missing a ∧ a.length < b.length)

theorem Unveils.refl (a : List Issue) : Unveils a a :=
  .inl rfl

theorem Unveils.append {a b c d : List Issue} (h : Unveils a b) (h' : Unveils c d) :
    Unveils (a ++ c) (b ++ d) := by
  unfold Unveils missing at *
  rcases h with rfl | h <;> rcases h' with rfl | h'
  · exact .inl rfl
  all_goals
    right
    simp only [List.countP_append, List.length_append]
    omega

theorem Unveils.append_eq_iff {a b c d : List Issue} (h : Unveils a b) (h' : Unveils c d) :
    a ++ c = b ++ d ↔ a = b ∧ c = d := by
  refine ⟨fun hsame => ?_, fun hsame => by rw [hsame.1, hsame.2]⟩
  have hmissing := congrArg missing hsame
  have hlength := congrArg List.length hsame
  unfold Unveils missing at *
  simp only [List.countP_append, List.length_append] at hmissing hlength
  rcases h with rfl | h <;> rcases h' with rfl | h'
  · exact ⟨rfl, rfl⟩
  all_goals omega

theorem Unveils.flatMap {α : Type} {f g : α → List Issue} {l : List α}
    (h : ∀ x ∈ l, Unveils (f x) (g x)) :
    Unveils (l.flatMap f) (l.flatMap g) ∧
      (l.flatMap f = l.flatMap g ↔ ∀ x ∈ l, f x = g x) := by
  induction l with
  | nil => exact ⟨.refl _, by simp⟩
  | cons x l ih =>
    obtain ⟨hl, hiff⟩ := ih fun y hy => h y (List.mem_cons_of_mem x hy)
    have hx := h x (List.mem_cons_self ..)
    simp only [List.flatMap_cons]
    exact ⟨hx.append hl, by rw [hx.append_eq_iff hl, hiff, List.forall_mem_cons]⟩

/-! ## One parameter -/

section Parameter

variable {place name : String} {p : ParameterSchema} {entries : List (String × Value)} {v : Value}

theorem of_mem_limitIssues {x : Binary64} {i : Issue} (hi : i ∈ limitIssues place name p x) :
    saysMissing i = false ∧ i.severity ≠ .info := by
  simp only [limitIssues, List.mem_append] at hi
  rcases hi with hi | hi
  all_goals
    split at hi
    · split at hi
      · obtain rfl := List.mem_singleton.1 hi
        simp [saysMissing, Issue.warning, String.toList_append, List.isPrefixOf]
      · simp at hi
    · simp at hi

/-- A value that was given is not missing, and what is said of it is no information. -/
theorem of_mem_valueIssues {i : Issue} (hi : i ∈ valueIssues place name p v) :
    saysMissing i = false ∧ i.severity ≠ .info := by
  unfold valueIssues at hi
  split at hi
  · obtain rfl := List.mem_singleton.1 hi
    simp [saysMissing, Issue.error, String.toList_append, List.isPrefixOf]
  · split at hi
    · split at hi
      · exact of_mem_limitIssues hi
      · simp at hi
    · simp at hi

theorem missing_valueIssues (place name : String) (p : ParameterSchema) (v : Value) :
    missing (valueIssues place name p v) = 0 :=
  List.countP_eq_zero.2 fun _ hi => by simp [(of_mem_valueIssues hi).1]

/-- A first match that the filter keeps is still the first match, and no match appears where
there was none. -/
theorem find?_filter_eq {α : Type} {l : List α} {keep match_ : α → Bool}
    (h : ∀ x, l.find? match_ = some x → keep x = true) :
    (l.filter keep).find? match_ = l.find? match_ := by
  induction l with
  | nil => rfl
  | cons x l ih =>
    by_cases hx : match_ x = true
    · have hkeep : keep x = true := h x (List.find?_cons_of_pos hx)
      rw [List.filter_cons_of_pos hkeep, List.find?_cons_of_pos hx, List.find?_cons_of_pos hx]
    · rw [List.find?_cons_of_neg hx] at h ⊢
      rw [List.filter_cons]
      split
      · rw [List.find?_cons_of_neg hx]
        exact ih h
      · exact ih h

/-- Where no value is hidden, the blanks make no difference. -/
theorem parameterIssues_of_not_hides (h : ¬ ∃ v, Hides entries name p v) :
    parameterIssues place (entries.filter (!·.2.isBlank)) (name, p) =
      parameterIssues place entries (name, p) := by
  apply parameterIssues_congr
  by_cases hfirst : ∃ blank, givenValue? entries name p = some blank ∧ blank.isBlank = true
  · obtain ⟨blank, hblank, hisBlank⟩ := hfirst
    have hnone : givenValue? (entries.filter (!·.2.isBlank)) name p = none :=
      Option.eq_none_iff_forall_ne_some.2 fun v hv => h ⟨v, ⟨blank, hblank, hisBlank⟩, hv⟩
    rw [hnone, hblank]
    simp [Option.filter, hisBlank]
  · have hkeep (x : String × Value)
        (hx : (entries.find? fun e => p.answersTo name e.1) = some x) :
        (!x.2.isBlank) = true := by
      have hnot : ¬ x.2.isBlank = true :=
        fun hx' => hfirst ⟨x.2, by rw [givenValue?_eq, hx, Option.map_some], hx'⟩
      simpa using hnot
    rw [givenValue?_eq, givenValue?_eq, find?_filter_eq hkeep]

/-- A blank that comes first counts as not given, whatever it hides. -/
theorem parameterIssues_of_hides (place : String) (h : Hides entries name p v) :
    parameterIssues place entries (name, p) = parameterIssues place [] (name, p) ∧
      parameterIssues place (entries.filter (!·.2.isBlank)) (name, p) =
        valueIssues place name p v := by
  obtain ⟨⟨blank, hblank, hisBlank⟩, hv⟩ := h
  obtain ⟨x, hx, rfl⟩ := Option.map_eq_some_iff.1 hv
  have hkept : (!x.2.isBlank) = true := (List.mem_filter.1 (List.mem_of_find?_eq_some hx)).2
  constructor
  · have hnone : givenValue? [] name p = none := rfl
    apply parameterIssues_congr
    rw [hblank, hnone]
    simp [Option.filter, hisBlank]
  · rw [parameterIssues, hv]
    simp [Option.filter, hkept]

theorem Hides.unique {w : Value} (hv : Hides entries name p v) (hw : Hides entries name p w) :
    v = w :=
  Option.some_inj.1 (hv.2.symm.trans hw.2)

/-- With nothing given, only a required parameter has an issue. -/
theorem parameterIssues_nil (place name : String) (p : ParameterSchema) :
    missing (parameterIssues place [] (name, p)) = (if p.required then 1 else 0) ∧
      (p.required = false → parameterIssues place [] (name, p) = []) := by
  have hnone : givenValue? [] name p = none := rfl
  rw [parameterIssues, hnone]
  cases p.required <;> simp [missing, saysMissing, Issue.error, String.toList_append]

theorem unveils_parameterIssues :
    Unveils (parameterIssues place entries (name, p))
        (parameterIssues place (entries.filter (!·.2.isBlank)) (name, p)) ∧
      (parameterIssues place entries (name, p) =
          parameterIssues place (entries.filter (!·.2.isBlank)) (name, p) ↔
        ∀ v, Hides entries name p v → p.required = false ∧ valueIssues place name p v = []) := by
  by_cases h : ∃ v, Hides entries name p v
  · obtain ⟨v, hv⟩ := h
    obtain ⟨hbefore, hafter⟩ := parameterIssues_of_hides place hv
    obtain ⟨hmissing, hidle⟩ := parameterIssues_nil place name p
    have hcount := missing_valueIssues place name p v
    have honly (P : Value → Prop) : (∀ w, Hides entries name p w → P w) ↔ P v :=
      ⟨fun hall => hall v hv, fun hP w hw => hv.unique hw ▸ hP⟩
    rw [honly, hbefore, hafter]
    cases hrequired : p.required with
    | true =>
      rw [hrequired, if_pos rfl] at hmissing
      refine ⟨.inr (.inl (by omega)), ?_⟩
      simp only [Bool.true_eq_false, false_and, iff_false]
      intro hsame
      rw [hsame] at hmissing
      omega
    | false =>
      rw [hidle hrequired]
      refine ⟨?_, ⟨fun hsame => ⟨rfl, hsame.symm⟩, fun hsame => hsame.2.symm⟩⟩
      cases hissues : valueIssues place name p v with
      | nil => exact .refl []
      | cons i issues => exact .inr (.inr ⟨by rw [← hissues, hcount]; rfl, by simp⟩)
  · rw [parameterIssues_of_not_hides h]
    exact ⟨.refl _, iff_of_true rfl fun v hv => absurd ⟨v, hv⟩ h⟩

end Parameter
/-! ## Groups -/

theorem reported_parameterIssues (place : String) (entries : List (String × Value))
    (q : String × ParameterSchema) :
    reported (parameterIssues place entries q) = parameterIssues place entries q := by
  unfold parameterIssues
  dsimp only
  split
  · exact List.filter_eq_self.2 fun i hi => by simpa using (of_mem_valueIssues hi).2
  · split <;> rfl

/-- Keys that no parameter answers to are information alone. -/
theorem reported_groupIssues (place owner : String) (table : ParameterTable) (s : Option Params) :
    reported (groupIssues place owner table s) =
      table.flatMap (parameterIssues place (entriesOf s)) := by
  have hunknown : reported (unknownIssues place owner table (entriesOf s)) = [] := by
    refine List.filter_eq_nil_iff.2 fun i hi => ?_
    obtain ⟨e, -, rfl⟩ := List.mem_map.1 hi
    simp [Issue.info]
  have hvalues : reported (table.flatMap (parameterIssues place (entriesOf s))) =
      table.flatMap (parameterIssues place (entriesOf s)) := by
    rw [reported, List.filter_flatMap]
    exact List.flatMap_congr fun q _ => reported_parameterIssues place _ q
  rw [groupIssues_eq, reported_append, hunknown, hvalues, List.append_nil]

theorem entriesOf_provided (s : Option Params) :
    entriesOf (s.map Params.provided) = (entriesOf s).filter (!·.2.isBlank) := by
  cases s <;> rfl

theorem unveils_groupIssues (place owner : String) (table : ParameterTable) (s : Option Params) :
    Unveils (reported (groupIssues place owner table s))
        (reported (groupIssues place owner table (s.map Params.provided))) ∧
      (reported (groupIssues place owner table s) =
          reported (groupIssues place owner table (s.map Params.provided)) ↔
        HidesNothing place table (entriesOf s)) := by
  rw [reported_groupIssues, reported_groupIssues, entriesOf_provided]
  have hflat := Unveils.flatMap (l := table) (f := parameterIssues place (entriesOf s))
    (g := parameterIssues place ((entriesOf s).filter (!·.2.isBlank)))
    fun q _ => unveils_parameterIssues.1
  refine ⟨hflat.1, hflat.2.trans ?_⟩
  exact forall₂_congr fun q _ => unveils_parameterIssues.2

/-! ## The reference -/

/-- Where the preferred match is kept among the kept entries, it stays the preferred one. -/
theorem findSome?_filter_eq {α β : Type} {l : List α} {keep : α → Bool} {matches_ : β → α → Bool}
    {names : List β}
    (h : ∀ x, names.findSome? (fun n => l.find? (matches_ n)) = some x → keep x = true) :
    names.findSome? (fun n => (l.filter keep).find? (matches_ n)) =
      names.findSome? fun n => l.find? (matches_ n) := by
  induction names with
  | nil => rfl
  | cons n names ih =>
    rw [List.findSome?_cons] at h ⊢
    cases hfound : l.find? (matches_ n) with
    | none =>
      simp only [hfound] at h
      rw [find?_filter_eq (by simp [hfound]), hfound]
      simp only [List.findSome?_cons, hfound]
      exact ih h
    | some x =>
      simp only [hfound] at h
      rw [find?_filter_eq (fun y hy => h y (by rw [← hy, hfound])), hfound]
      simp [hfound]

variable {r : Registry} {known : List String} {line : SkillLine}

theorem parameterOf?_withoutBlanks {names : List String}
    (h : ∀ e, line.parameterOf? names = some e → e.2.isBlank = false) :
    line.withoutBlanks.parameterOf? names = line.parameterOf? names := by
  simp only [SkillLine.parameterOf?_eq] at h ⊢
  have hentries : entriesOf line.withoutBlanks.parameters =
      (entriesOf line.parameters).filter (!·.2.isBlank) := entriesOf_provided _
  rw [hentries]
  apply findSome?_filter_eq
  intro e he
  rw [h e he]
  rfl

/-- No entry that is left has a blank value. -/
theorem isBlank_of_parameterOf?_withoutBlanks {names : List String} {e : String × Value}
    (h : line.withoutBlanks.parameterOf? names = some e) : e.2.isBlank = false := by
  rw [SkillLine.parameterOf?_eq] at h
  obtain ⟨name, -, hfound⟩ := List.exists_of_findSome?_eq_some h
  have hmem : e ∈ entriesOf (line.parameters.map Params.provided) :=
    List.mem_of_find?_eq_some hfound
  rw [entriesOf_provided] at hmem
  simpa using (List.mem_filter.1 hmem).2

/-- Where the preferred value is not blank, the reference is what it is without blanks. -/
theorem referenceIssues_of_not_blank
    (h : ∀ e, line.parameterOf? invocationKeys = some e → e.2.isBlank = false) :
    referenceIssues r known line.withoutBlanks = referenceIssues r known line := by
  rw [referenceIssues, referenceIssues, parameterOf?_withoutBlanks h]
  rfl

/-- A blank under the preferred key counts as not given, whatever it hides. -/
theorem referenceIssues_of_blank {blank : String × Value}
    (hpreferred : line.parameterOf? invocationKeys = some blank)
    (hblank : blank.2.isBlank = true) : referenceIssues r known line = [] := by
  rw [referenceIssues, hpreferred]
  simp [hblank]

/-- A name that is left and is not known has one error, and that is not about a parameter
that is missing. -/
theorem reported_referenceIssues (known : List String) {v : String × Value}
    (hinvocation : isInvocation r line.mechanic = true)
    (hpreferred : line.parameterOf? invocationKeys = some v) (hblank : v.2.isBlank = false) :
    (v.2.display ∈ known → reported (referenceIssues r known line) = []) ∧
      (v.2.display ∉ known → missing (reported (referenceIssues r known line)) = 0 ∧
        (reported (referenceIssues r known line)).length = 1) := by
  rw [referenceIssues, if_pos hinvocation, hpreferred]
  constructor
  · intro hknown
    simp [hknown, reported]
  · intro hknown
    simp [hknown, hblank, reported, missing, saysMissing, Issue.error, String.toList_append,
      List.isPrefixOf]

theorem unveils_referenceIssues (r : Registry) (known : List String) (line : SkillLine) :
    Unveils (reported (referenceIssues r known line))
        (reported (referenceIssues r known line.withoutBlanks)) ∧
      (reported (referenceIssues r known line) =
          reported (referenceIssues r known line.withoutBlanks) ↔
        HidesNoReference r known line) := by
  by_cases hinvocation : isInvocation r line.mechanic = true
  swap
  · have hnil (other : SkillLine) (h : other.mechanic = line.mechanic) :
        referenceIssues r known other = [] := by
      rw [referenceIssues, h, if_neg hinvocation]
    rw [hnil line rfl, hnil line.withoutBlanks rfl]
    exact ⟨.refl _, iff_of_true rfl fun h => absurd h hinvocation⟩
  by_cases hblank : ∃ blank, line.parameterOf? invocationKeys = some blank ∧ blank.2.isBlank = true
  · obtain ⟨blank, hpreferred, hisBlank⟩ := hblank
    rw [referenceIssues_of_blank hpreferred hisBlank]
    cases hleft : line.withoutBlanks.parameterOf? invocationKeys with
    | none =>
      have hnil : referenceIssues r known line.withoutBlanks = [] := by
        rw [referenceIssues, hleft]
        split <;> rfl
      rw [hnil]
      exact ⟨.refl _, iff_of_true rfl fun _ _ v _ _ hv => by simp [hleft] at hv⟩
    | some v =>
      have hinvocation' : isInvocation r line.withoutBlanks.mechanic = true := hinvocation
      obtain ⟨hin, hout⟩ := reported_referenceIssues known hinvocation' hleft
        (isBlank_of_parameterOf?_withoutBlanks hleft)
      by_cases hknown : v.2.display ∈ known
      · rw [hin hknown]
        refine ⟨.refl _, iff_of_true rfl fun _ _ w _ _ hw => ?_⟩
        obtain rfl : v = w := Option.some_inj.1 (hleft.symm.trans hw)
        exact hknown
      · obtain ⟨hmissing, hlength⟩ := hout hknown
        refine ⟨.inr (.inr ⟨hmissing, by rw [hlength]; exact Nat.one_pos⟩), iff_of_false ?_ ?_⟩
        · intro hsame
          rw [← hsame] at hlength
          exact absurd hlength Nat.zero_ne_one
        · intro hnone
          exact hknown (hnone hinvocation blank v hpreferred hisBlank hleft)
  · rw [referenceIssues_of_not_blank fun e he => by
      by_contra hne
      exact hblank ⟨e, he, by simpa using hne⟩]
    exact ⟨.refl _, iff_of_true rfl fun _ blank _ h h' => absurd ⟨blank, h, h'⟩ hblank⟩

/-! ## The line -/

theorem unveils_mechanicIssues (r : Registry) (line : SkillLine) :
    Unveils (reported (mechanicIssues r line)) (reported (mechanicIssues r line.withoutBlanks)) ∧
      (reported (mechanicIssues r line) = reported (mechanicIssues r line.withoutBlanks) ↔
        ∀ e, r.mechanic? line.mechanic = some e →
          HidesNothing "parameters" e.detail (entriesOf line.parameters)) := by
  have hname : line.withoutBlanks.mechanic = line.mechanic := rfl
  rw [mechanicIssues, mechanicIssues, hname]
  cases hentry : r.mechanic? line.mechanic with
  | none => exact ⟨.refl _, iff_of_true rfl fun e he => by simp at he⟩
  | some e =>
    have hgroup := unveils_groupIssues "parameters" line.mechanic e.detail line.parameters
    refine ⟨hgroup.1, hgroup.2.trans ⟨fun h x hx => ?_, fun h => h e rfl⟩⟩
    obtain rfl := Option.some_inj.1 hx
    exact h

theorem unveils_targeterIssues (r : Registry) (line : SkillLine) :
    Unveils (reported (ofOption (targeterIssues r) line.targeter))
        (reported (ofOption (targeterIssues r) line.withoutBlanks.targeter)) ∧
      (reported (ofOption (targeterIssues r) line.targeter) =
          reported (ofOption (targeterIssues r) line.withoutBlanks.targeter) ↔
        ∀ t e, line.targeter = some t → r.targeter? t.kind = some e →
          HidesNothing "targeter.options" e.detail (entriesOf t.options)) := by
  have hparts : line.withoutBlanks.targeter =
      line.targeter.map fun t => { t with options := t.options.map Params.provided } := rfl
  rw [hparts]
  cases line.targeter with
  | none => exact ⟨.refl _, iff_of_true rfl fun t e ht => by simp at ht⟩
  | some t =>
    simp only [ofOption, Option.map_some, Option.getD_some, targeterIssues]
    cases hentry : r.targeter? t.kind with
    | none =>
      refine ⟨.refl _, iff_of_true rfl fun x e hx he => ?_⟩
      obtain rfl := Option.some_inj.1 hx
      simp [hentry] at he
    | some e =>
      have hgroup := unveils_groupIssues "targeter.options" ("@" ++ e.name) e.detail t.options
      refine ⟨hgroup.1, hgroup.2.trans ⟨fun h x f hx hf => ?_, fun h => h t e rfl hentry⟩⟩
      obtain rfl := Option.some_inj.1 hx
      obtain rfl := Option.some_inj.1 (hentry.symm.trans hf)
      exact h

/-- The issues of the parts of a line that hold no parameters. -/
def plainIssues (r : Registry) (line : SkillLine) : List Issue :=
  ofOption (triggerIssues r) line.trigger ++ conditionIssues r line.conditions ++
    ofOption healthIssues line.health ++ ofOption chanceIssues line.chance

theorem reported_skillIssues (h : Text.allBlank line.mechanic = false) :
    reported (skillIssues r known line) = reported (mechanicIssues r line) ++
      (reported (referenceIssues r known line) ++
        (reported (ofOption (targeterIssues r) line.targeter) ++ reported (plainIssues r line))) := by
  rw [skillIssues, h, if_neg Bool.false_ne_true]
  simp only [plainIssues, reported_append, List.append_assoc]

/-- Without its blanks a line has the errors and warnings it has with them exactly when the
blanks hide nothing that the checks would tell apart from nothing. A line without a mechanic
is not looked at any further. -/
theorem reported_withoutBlanks_iff (r : Registry) (known : List String) (line : SkillLine) :
    reported (skillIssues r known line.withoutBlanks) = reported (skillIssues r known line) ↔
      Text.allBlank line.mechanic = true ∨ BlanksHideNothing r known line := by
  have hmechanic : line.withoutBlanks.mechanic = line.mechanic := rfl
  have hplain : plainIssues r line.withoutBlanks = plainIssues r line := rfl
  cases hblank : Text.allBlank line.mechanic with
  | true =>
    have hboth : skillIssues r known line.withoutBlanks = skillIssues r known line := by
      rw [skillIssues, skillIssues, hmechanic, hblank, if_pos rfl, if_pos rfl]
    exact iff_of_true (by rw [hboth]) (.inl rfl)
  | false =>
    obtain ⟨hgroup, hparameters⟩ := unveils_mechanicIssues r line
    obtain ⟨hreferred, hreference⟩ := unveils_referenceIssues r known line
    obtain ⟨htargeter, hoptions⟩ := unveils_targeterIssues r line
    have hplain' := Unveils.refl (reported (plainIssues r line))
    rw [eq_comm, reported_skillIssues hblank, reported_skillIssues (hmechanic ▸ hblank), hplain,
      hgroup.append_eq_iff (hreferred.append (htargeter.append hplain')),
      hreferred.append_eq_iff (htargeter.append hplain'), htargeter.append_eq_iff hplain',
      hparameters, hreference, hoptions]
    constructor
    · rintro ⟨hp, hr, ho, -⟩
      exact .inr ⟨hp, ho, hr⟩
    · rintro (h | ⟨hp, ho, hr⟩)
      · exact absurd h Bool.false_ne_true
      · exact ⟨hp, hr, ho, rfl⟩

/-- The blank under `message` hides the text under its alias. -/
def hiddenMessage : SkillLine :=
  { mechanic := "message",
    parameters := some ⟨[("message", .text " "), ("m", .text "hello")]⟩ }

theorem reported_hiddenMessage :
    hiddenMessage.withoutBlanks.parameters = some ⟨[("m", .text "hello")]⟩ ∧
      reported (skillIssues Registry.standard [] hiddenMessage.withoutBlanks) ≠
        reported (skillIssues Registry.standard [] hiddenMessage) ∧
      skillIssues Registry.standard [] hiddenMessage.withoutBlanks = [] ∧
      (skillIssues Registry.standard [] hiddenMessage).map (·.message) =
        ["Required parameter \"message\" is missing"] := by
  decide +kernel

end Validation
end MobSkills
