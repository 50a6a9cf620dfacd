import MobSkills.Proofs.Line.BrokenLine
import MobSkills.Validation.Skill

/-!
# Warnings of a parse and findings of a check

Two questions about a line are asked twice: whether its chance is in its range, and whether
its health gate has a value. The parser asks them of the tokens, the check of the line that
is kept. They answer alike: a chance outside of its range is kept with a warning or not at
all, and a gate without a number is kept with an empty value. What the check needs besides
is a mechanic, and a line that breaks off has neither gate nor chance.
-/
namespace MobSkills

/-- A warning says that the chance is outside of its range. -/
def Outcome.WarnsOfChance (o : Outcome) : Prop :=
  ∃ w ∈ o.warnings, ∃ x : Binary64,
    w.message = "Chance " ++ x.text ++ " is outside the typical range 0.0-1.0"

/-- A warning says that the health gate is empty. -/
def Outcome.WarnsOfHealth (o : Outcome) : Prop :=
  ∃ w ∈ o.warnings, w.message = "Health modifier has no value"

namespace Validation

/-- An issue of the severity is about the field. -/
def Reports (issues : List Issue) (severity : Severity) (field : String) : Prop :=
  ∃ i ∈ issues, i.severity = severity ∧ i.field = field

/-- The parse and the check give the same answers about the chance and the health gate. -/
structure Agree (options : ParseOptions) (o : Outcome) (issues : List Issue) : Prop where
  chance : options.lenientChance = true → (o.WarnsOfChance ↔ Reports issues .error "chance")
  strict : options.lenientChance = false → ¬ o.WarnsOfChance ∧ ¬ Reports issues .error "chance"
  health : o.WarnsOfHealth ↔ Reports issues .warning "health_modifier"

/-! ## Fields of issues -/

theorem field_of_mem_limitIssues {place name : String} {p : ParameterSchema} {x : Binary64}
    {i : Issue} (hi : i ∈ limitIssues place name p x) : i.field = fieldOf place name := by
  simp only [limitIssues, List.mem_append] at hi
  rcases hi with hi | hi
  all_goals
    split at hi
    · split at hi
      · obtain rfl := List.mem_singleton.1 hi
        rfl
      · cases hi
    · cases hi

theorem field_of_mem_valueIssues {place name : String} {p : ParameterSchema} {v : Value}
    {i : Issue} (hi : i ∈ valueIssues place name p v) : i.field = fieldOf place name := by
  unfold valueIssues at hi
  split at hi
  · obtain rfl := List.mem_singleton.1 hi
    rfl
  split at hi
  · split at hi
    · exact field_of_mem_limitIssues hi
    · cases hi
  · cases hi

/-- The issues of a group are about fields of the place it stands at. -/
theorem exists_field_of_mem_groupIssues {place owner : String} {table : ParameterTable}
    {group : Option Params} {i : Issue} (hi : i ∈ groupIssues place owner table group) :
    ∃ name, i.field = fieldOf place name := by
  rcases List.mem_append.1 hi with hi | hi
  · obtain ⟨⟨name, p⟩, -, hi⟩ := List.mem_flatMap.1 hi
    refine ⟨name, ?_⟩
    unfold parameterIssues at hi
    dsimp only at hi
    split at hi
    · exact field_of_mem_valueIssues hi
    split at hi
    · obtain rfl := List.mem_singleton.1 hi
      rfl
    · cases hi
  · obtain ⟨⟨key, v⟩, -, rfl⟩ := List.mem_map.1 hi
    exact ⟨key, rfl⟩

/-- The issue is about another part than the health gate and the chance. -/
def OfOtherPart (i : Issue) : Prop :=
  i.field ∈ ["mechanic", "targeter", "trigger"] ∨ '.' ∈ i.field.toList ∨ '[' ∈ i.field.toList

theorem OfOtherPart.field_ne {i : Issue} (h : OfOtherPart i) :
    i.field ≠ "chance" ∧ i.field ≠ "health_modifier" := by
  constructor
  all_goals
    intro hfield
    rw [OfOtherPart, hfield] at h
    revert h
    decide

theorem ofOtherPart_of_fieldOf {i : Issue} {place name : String} (h : i.field = fieldOf place name) :
    OfOtherPart i :=
  .inr (.inl (by simp [h, fieldOf, String.toList_append]))

theorem mem_ofOption {α : Type} {check : α → List Issue} {part : Option α} {i : Issue} :
    i ∈ ofOption check part ↔ ∃ a, part = some a ∧ i ∈ check a := by
  cases part <;> simp [ofOption]

/-- The checks of the parts before the health gate. -/
def otherIssues (r : Registry) (known : List String) (line : SkillLine) : List Issue :=
  mechanicIssues r line ++ referenceIssues r known line ++
    ofOption (targeterIssues r) line.targeter ++ ofOption (triggerIssues r) line.trigger ++
    conditionIssues r line.conditions

theorem ofOtherPart_of_mem {r : Registry} {known : List String} {line : SkillLine} {i : Issue}
    (hi : i ∈ otherIssues r known line) : OfOtherPart i := by
  simp only [otherIssues, List.mem_append, mem_ofOption] at hi
  rcases hi with (((hi | hi) | ⟨t, -, hi⟩) | ⟨t, -, hi⟩) | hi
  · unfold mechanicIssues at hi
    split at hi
    · obtain rfl := List.mem_singleton.1 hi
      exact .inl (by simp [Issue.warning])
    · exact ofOtherPart_of_fieldOf (exists_field_of_mem_groupIssues hi).choose_spec
  · unfold referenceIssues at hi
    split at hi
    · split at hi
      · split at hi
        · cases hi
        · obtain rfl := List.mem_singleton.1 hi
          exact .inr (.inl (by simp [Issue.error, String.toList_append]))
      · cases hi
    · cases hi
  · unfold targeterIssues at hi
    split at hi
    · obtain rfl := List.mem_singleton.1 hi
      exact .inl (by simp [Issue.warning])
    · exact ofOtherPart_of_fieldOf (exists_field_of_mem_groupIssues hi).choose_spec
  · unfold triggerIssues at hi
    split at hi
    · obtain rfl := List.mem_singleton.1 hi
      exact .inl (by simp [Issue.warning])
    · split at hi
      · obtain rfl := List.mem_singleton.1 hi
        exact .inl (by simp [Issue.warning])
      · cases hi
  · obtain ⟨⟨c, index⟩, -, hi⟩ := List.mem_flatMap.1 hi
    dsimp only at hi
    split at hi
    · obtain rfl := List.mem_singleton.1 hi
      exact .inr (.inr (by simp [Issue.warning, String.toList_append]))
    · cases hi

/-- A check asks about the gate and the chance of a line that has a mechanic. -/
theorem mem_skillIssues_iff {r : Registry} {known : List String} {line : SkillLine} {i : Issue}
    (h : ¬ OfOtherPart i) : i ∈ skillIssues r known line ↔ Text.allBlank line.mechanic = false ∧
      ((∃ gate, line.health = some gate ∧ i ∈ healthIssues gate) ∨
        ∃ x, line.chance = some x ∧ i ∈ chanceIssues x) := by
  have hother : i ∉ otherIssues r known line := fun hi => h (ofOtherPart_of_mem hi)
  unfold skillIssues
  split
  · rename_i hblank
    have hne : i ∉ [Issue.error "mechanic" "Skill has no mechanic"
        "Specify what action this skill performs"] := by
      intro hi
      obtain rfl := List.mem_singleton.1 hi
      exact h (.inl (by decide))
    simp [hblank, hne]
  · rename_i hblank
    rw [← otherIssues, List.mem_append, List.mem_append, mem_ofOption, mem_ofOption]
    simp [hblank, hother]

theorem mem_healthIssues {gate : HealthGate} {i : Issue} :
    i ∈ healthIssues gate ↔ Text.allBlank gate.value = true ∧
      i = .warning "health_modifier" "Health modifier has no value"
        "Use a number, a percentage, or a range such as 30%-50%" := by
  by_cases h : Text.allBlank gate.value = true <;> simp [healthIssues, h]

theorem mem_chanceIssues {x : Binary64} {i : Issue} :
    i ∈ chanceIssues x ↔ Reading.inUnitRange x = false ∧
      i = .error "chance" "Chance should be between 0.0 and 1.0"
        "Use 0.5 for 50% chance, 1.0 for 100% chance" := by
  cases h : Reading.inUnitRange x <;> simp [chanceIssues, h]

theorem reports_chance_iff {r : Registry} {known : List String} {line : SkillLine} :
    Reports (skillIssues r known line) .error "chance" ↔ Text.allBlank line.mechanic = false ∧
      ∃ x, line.chance = some x ∧ Reading.inUnitRange x = false := by
  constructor
  · rintro ⟨i, hi, -, hfield⟩
    have hother : ¬ OfOtherPart i := fun h => h.field_ne.1 hfield
    obtain ⟨hmechanic, ⟨gate, -, hi⟩ | ⟨x, hx, hi⟩⟩ := (mem_skillIssues_iff hother).1 hi
    · rw [(mem_healthIssues.1 hi).2] at hfield
      exact absurd hfield (by decide)
    · exact ⟨hmechanic, x, hx, (mem_chanceIssues.1 hi).1⟩
  · rintro ⟨hmechanic, x, hx, hout⟩
    exact ⟨_, (mem_skillIssues_iff fun h => h.field_ne.1 rfl).2
      ⟨hmechanic, .inr ⟨x, hx, mem_chanceIssues.2 ⟨hout, rfl⟩⟩⟩, rfl, rfl⟩

theorem reports_health_iff {r : Registry} {known : List String} {line : SkillLine} :
    Reports (skillIssues r known line) .warning "health_modifier" ↔
      Text.allBlank line.mechanic = false ∧
        ∃ gate, line.health = some gate ∧ Text.allBlank gate.value = true := by
  constructor
  · rintro ⟨i, hi, -, hfield⟩
    have hother : ¬ OfOtherPart i := fun h => h.field_ne.2 hfield
    obtain ⟨hmechanic, ⟨gate, hgate, hi⟩ | ⟨x, -, hi⟩⟩ := (mem_skillIssues_iff hother).1 hi
    · exact ⟨hmechanic, gate, hgate, (mem_healthIssues.1 hi).1⟩
    · rw [(mem_chanceIssues.1 hi).2] at hfield
      exact absurd hfield (by decide)
  · rintro ⟨hmechanic, gate, hgate, hblank⟩
    exact ⟨_, (mem_skillIssues_iff fun h => h.field_ne.2 rfl).2
      ⟨hmechanic, .inl ⟨gate, hgate, mem_healthIssues.2 ⟨hblank, rfl⟩⟩⟩, rfl, rfl⟩

/-! ## What the parser keeps with its warnings -/

open Grammar (Lexed Inside SignedOf HeadOf)
open Reading (signedNumber? rangeEnd? comparison? healthValue chance looseParts structuralParts
  trailing)

/-- The warnings about a health gate that was read. -/
inductive GateWarned : Option HealthGate → List Problem → Prop
  | absent : GateWarned none []
  | valued {gate : HealthGate} (h : Text.allBlank gate.value = false) : GateWarned (some gate) []
  | empty (c : Comparison) (t : Token) : GateWarned (some ⟨c, ""⟩) [.atToken .noHealthValue t]

/-- The warnings about a chance that was read. -/
inductive ChanceWarned (options : ParseOptions) : Option Binary64 → List Problem → Prop
  | absent : ChanceWarned options none []
  | inside {x : Binary64} (h : Reading.inUnitRange x = true) : ChanceWarned options (some x) []
  | outside {x : Binary64} (h : Reading.inUnitRange x = false) (hl : options.lenientChance = true)
      (t : Token) : ChanceWarned options (some x) [.atToken (.chanceOutOfRange x) t]

/-- A number that was read holds a digit. -/
theorem exists_isDigit_of_signedOf {front : List Token} {text : String} (hl : Lexed front)
    (h : SignedOf front text) : ∃ c ∈ text.toList, c.isDigit = true := by
  have hnumber {n : Token} (hmem : n ∈ front) (hn : n.kind = .number) :
      ∃ c ∈ n.text.toList, c.isDigit = true := by
    have hlexeme := hl n hmem (by rw [hn]; decide)
    rw [hn] at hlexeme
    obtain ⟨negative, numeral, htext, hnumeral⟩ := Token.isLexeme_number_iff.1 hlexeme
    obtain ⟨c, r, rfl, hc, -⟩ := Token.exists_cons_of_isNumeral hnumeral
    exact ⟨c, by simp [htext], hc⟩
  cases h with
  | plain hn => exact hnumber (List.mem_singleton.2 rfl) hn
  | minus _ hn =>
    obtain ⟨c, hmem, hc⟩ := hnumber (by simp) hn
    exact ⟨c, by simp [String.toList_append, hmem], hc⟩

theorem gateWarned_healthValue {tokens rest : List Token} {value : String} {odd : List Problem}
    (hl : Lexed tokens) (hn : tokens ≠ []) (c : Comparison)
    (h : healthValue tokens = (value, odd, rest)) : GateWarned (some ⟨c, value⟩) odd := by
  unfold healthValue at h
  split at h
  · obtain ⟨t, r, rfl⟩ := List.exists_cons_of_ne_nil hn
    cases h
    exact .empty c t
  · rename_i low left hlow
    obtain ⟨front, rfl, hsigned⟩ := Grammar.signedNumber?_eq_some.1 hlow
    obtain ⟨d, hmem, hd⟩ := exists_isDigit_of_signedOf hl.append_left hsigned
    have hdigit : Text.isBlank d = false :=
      Text.isBlank_of_isAlphanum (by simp [Char.isAlphanum, hd])
    split at h
    · cases h
      exact .valued (Text.allBlank_eq_false (by simp [String.toList_append, hmem]) hdigit)
    · cases h
      exact .valued (Text.allBlank_eq_false hmem hdigit)

theorem chanceWarned_chance {options : ParseOptions} {tokens rest : List Token}
    {x : Option Binary64} {odd : List Problem} (h : chance options tokens = (x, odd, rest)) :
    ChanceWarned options x odd := by
  cases tokens with
  | nil =>
    cases h
    exact .absent
  | cons t r =>
    simp only [chance] at h
    split at h
    · split at h
      · cases h
        exact .absent
      split at h
      · rename_i hin
        cases h
        exact .inside hin
      split at h
      · rename_i hout hlenient
        cases h
        exact .outside (by simpa using hout) hlenient t
      · cases h
        exact .absent
    · cases h
      exact .absent

theorem exists_warned_looseParts {options : ParseOptions} {line read : SkillLine}
    {tokens rest : List Token} {warnings : List Problem} (hl : Lexed tokens)
    (hend : ∃ ts last, tokens = ts ++ [last] ∧ last.kind = .endOfInput)
    (h : looseParts options line tokens = (read, warnings, rest)) :
    read.mechanic = line.mechanic ∧ ∃ odd odd', warnings = odd ++ odd' ∧
      GateWarned read.health odd ∧ ChanceWarned options read.chance odd' := by
  rcases Grammar.bare_or_exists_comparison hend with hbare | ⟨t, r, c, rfl, hr, ht⟩
  · generalize hc : Reading.chance options tokens = answer at *
    obtain ⟨x, odd, left⟩ := answer
    rw [Grammar.looseParts_bare hbare hc] at h
    cases h
    exact ⟨rfl, [], warnings, rfl, .absent, chanceWarned_chance hc⟩
  · generalize hv : healthValue r = answer
    obtain ⟨value, odd, left⟩ := answer
    generalize hc : Reading.chance options left = answer
    obtain ⟨x, odd', more⟩ := answer
    rw [Grammar.looseParts_health ht hv hc] at h
    cases h
    exact ⟨rfl, odd, odd', rfl, gateWarned_healthValue hl.tail hr c hv, chanceWarned_chance hc⟩

/-- What a parse says about the gate and the chance of the line it answers. -/
structure Warned (options : ParseOptions) (o : Outcome) : Prop where
  mechanic : o.line.health ≠ none ∨ o.line.chance ≠ none → Text.allBlank o.line.mechanic = false
  warnings : ∃ odd odd' more, o.warnings = odd ++ odd' ++ more ∧ GateWarned o.line.health odd ∧
    ChanceWarned options o.line.chance odd' ∧ ∀ w ∈ more, ∃ text, w.cause = .trailingInput text

theorem allBlank_mechanic {front : List Token} {line : SkillLine} (hl : Lexed front)
    (h : HeadOf front line) : Text.allBlank line.mechanic = false := by
  obtain ⟨c, r, hname, hc, -⟩ := h.isWord hl
  have hletter : Text.isBlank c = false :=
    Text.isBlank_of_isAlphanum (by simp [Char.isAlphanum, hc])
  exact Text.allBlank_eq_false (by simp [hname]) hletter

theorem cause_of_mem_trailing {tokens : List Token} {w : Problem} (h : w ∈ trailing tokens) :
    ∃ text, w.cause = .trailingInput text := by
  unfold trailing at h
  split at h
  · cases h
  split at h
  · cases h
  · obtain rfl := List.mem_singleton.1 h
    exact ⟨_, rfl⟩

theorem warned_parseTokens (options : ParseOptions) {text : String} {tokens : List Token}
    (h : Token.scan text = .ok tokens) : Warned options (SkillLine.parseTokens options tokens) := by
  obtain ⟨ts, hcut, rfl⟩ := Token.scan_eq_ok_iff.1 h
  have hl : Lexed (ts ++ [Token.endAt (Text.byteLength text.toList)]) :=
    (Grammar.lexed_of_cut hcut).1.concat_end rfl
  unfold SkillLine.parseTokens
  cases hparts : structuralParts (ts ++ [Token.endAt (Text.byteLength text.toList)]) with
  | error broken =>
    obtain ⟨line, f⟩ := broken
    have hnone : line.health = none ∧ line.chance = none := by
      rcases Grammar.structuralParts_eq_error hl hparts with ⟨rfl, -⟩ | ⟨_, _, -, hhead, -⟩
      · exact ⟨rfl, rfl⟩
      · cases hhead
        exact ⟨rfl, rfl⟩
    refine ⟨by simp [hnone], [], [], [], rfl, ?_, ?_, by simp⟩
    · rw [hnone.1]
      exact .absent
    · rw [hnone.2]
      exact .absent
  | ok parts =>
    obtain ⟨line, rest⟩ := parts
    obtain ⟨front, happ, hhead⟩ := Grammar.exists_headOf hl hparts
    obtain ⟨us, rfl, -⟩ := hhead.inside.exists_rest rfl happ
    rw [happ] at hl
    obtain ⟨⟨read, warnings, left⟩, hread⟩ :
        ∃ answer, looseParts options line (us ++ [Token.endAt (Text.byteLength text.toList)]) = answer :=
      ⟨_, rfl⟩
    simp only [hread]
    obtain ⟨hmechanic, odd, odd', rfl, hgate, hchance⟩ :=
      exists_warned_looseParts hl.append_right ⟨us, _, rfl, rfl⟩ hread
    refine ⟨fun _ => ?_, odd, odd', trailing left, rfl, hgate, hchance,
      fun w hw => cause_of_mem_trailing hw⟩
    show Text.allBlank read.mechanic = false
    rw [hmechanic]
    exact allBlank_mechanic hl.append_left hhead

/-! ## From a warning back to the part -/

section
variable {options : ParseOptions} {o : Outcome} {w : Problem}

/-- A warning is about an empty gate, a chance outside of its range or trailing input. -/
theorem Warned.of_mem (h : Warned options o) (hw : w ∈ o.warnings) :
    (w.cause = .noHealthValue ∧ ∃ c, o.line.health = some ⟨c, ""⟩) ∨
      (∃ x, w.cause = .chanceOutOfRange x ∧ o.line.chance = some x ∧
        Reading.inUnitRange x = false) ∨
      ∃ text, w.cause = .trailingInput text := by
  obtain ⟨odd, odd', more, hwarnings, hgate, hchance, hmore⟩ := h.warnings
  rw [hwarnings, List.mem_append, List.mem_append] at hw
  rcases hw with (hw | hw) | hw
  · generalize o.line.health = health at *
    cases hgate with
    | absent | valued => cases hw
    | empty c t =>
      obtain rfl := List.mem_singleton.1 hw
      exact .inl ⟨rfl, c, rfl⟩
  · generalize o.line.chance = x at *
    cases hchance with
    | absent | inside => cases hw
    | outside hout _ t =>
      obtain rfl := List.mem_singleton.1 hw
      exact .inr (.inl ⟨_, rfl, rfl, hout⟩)
  · exact .inr (.inr (hmore w hw))

/-- The first letter of a warning tells which one it is. -/
def initialOf : Cause → Option Char
  | .noHealthValue => some 'H'
  | .chanceOutOfRange _ => some 'C'
  | .trailingInput _ => some 'I'
  | .found .. | .foundEnd _ | .exhausted _ => none

theorem head?_message {c : Char} (h : initialOf w.cause = some c) :
    w.message.toList.head? = some c := by
  unfold Problem.message
  generalize w.cause = cause at *
  cases cause with
  | noHealthValue | chanceOutOfRange | trailingInput =>
    cases h
    unfold Cause.message
    simp [String.toList_append]
  | found | foundEnd | exhausted => cases h

theorem Warned.warnsOfChance_iff (h : Warned options o) :
    o.WarnsOfChance ↔ ∃ x, o.line.chance = some x ∧ Reading.inUnitRange x = false := by
  constructor
  · rintro ⟨w, hw, x, hmessage⟩
    have hinitial : w.message.toList.head? = some 'C' := by
      rw [hmessage]
      simp [String.toList_append]
    rcases h.of_mem hw with ⟨hcause, -⟩ | ⟨x, -, hx⟩ | ⟨text, hcause⟩
    · rw [head?_message (c := 'H') (by rw [hcause]; rfl)] at hinitial
      cases hinitial
    · exact ⟨x, hx⟩
    · rw [head?_message (c := 'I') (by rw [hcause]; rfl)] at hinitial
      cases hinitial
  · rintro ⟨x, hx, hout⟩
    obtain ⟨odd, odd', more, hwarnings, -, hchance, -⟩ := h.warnings
    rw [hx] at hchance
    cases hchance with
    | inside hin => simp [hin] at hout
    | outside _ _ t => exact ⟨.atToken (.chanceOutOfRange x) t, by simp [hwarnings], x, rfl⟩

theorem Warned.warnsOfHealth_iff (h : Warned options o) :
    o.WarnsOfHealth ↔ ∃ gate, o.line.health = some gate ∧ Text.allBlank gate.value = true := by
  constructor
  · rintro ⟨w, hw, hmessage⟩
    have hinitial : w.message.toList.head? = some 'H' := by
      rw [hmessage]
      rfl
    rcases h.of_mem hw with ⟨-, c, hgate⟩ | ⟨x, hcause, -⟩ | ⟨text, hcause⟩
    · exact ⟨_, hgate, rfl⟩
    · rw [head?_message (c := 'C') (by rw [hcause]; rfl)] at hinitial
      cases hinitial
    · rw [head?_message (c := 'I') (by rw [hcause]; rfl)] at hinitial
      cases hinitial
  · rintro ⟨gate, hgate, hblank⟩
    obtain ⟨odd, odd', more, hwarnings, hhealth, -, -⟩ := h.warnings
    rw [hgate] at hhealth
    cases hhealth with
    | valued hvalue => simp [hvalue] at hblank
    | empty c t => exact ⟨.atToken .noHealthValue t, by simp [hwarnings], rfl⟩

/-- A chance outside of its range is read under the lenient option only. -/
theorem Warned.inUnitRange_of_strict (h : Warned options o) (hs : options.lenientChance = false)
    {x : Binary64} (hx : o.line.chance = some x) : Reading.inUnitRange x = true := by
  obtain ⟨_, _, _, -, -, hchance, -⟩ := h.warnings
  rw [hx] at hchance
  cases hchance with
  | inside hin => exact hin
  | outside _ hl _ =>
    rw [hs] at hl
    cases hl

theorem agree_of_warned (h : Warned options o) (r : Registry) (known : List String) :
    Agree options o (skillIssues r known o.line) := by
  have hchance : o.WarnsOfChance ↔ Reports (skillIssues r known o.line) .error "chance" := by
    rw [h.warnsOfChance_iff, reports_chance_iff]
    refine ⟨fun hout => ⟨?_, hout⟩, And.right⟩
    obtain ⟨x, hx, -⟩ := hout
    exact h.mechanic (.inr (by simp [hx]))
  have hstrict (hs : options.lenientChance = false) : ¬ o.WarnsOfChance := by
    rw [h.warnsOfChance_iff]
    rintro ⟨x, hx, hout⟩
    simp [h.inUnitRange_of_strict hs hx] at hout
  refine ⟨fun _ => hchance, fun hs => ⟨hstrict hs, mt hchance.2 (hstrict hs)⟩, ?_⟩
  rw [h.warnsOfHealth_iff, reports_health_iff]
  refine ⟨fun hempty => ⟨?_, hempty⟩, And.right⟩
  obtain ⟨gate, hgate, -⟩ := hempty
  exact h.mechanic (.inl (by simp [hgate]))

end

/-- For every text that scans, the warnings of the parse and the findings of the check agree. -/
theorem warnings_agree {text : String} {tokens : List Token} (h : Token.scan text = .ok tokens)
    (options : ParseOptions) (r : Registry) (known : List String) :
    ∃ o, SkillLine.parse options text = .ok o ∧ Agree options o (skillIssues r known o.line) := by
  refine ⟨SkillLine.parseTokens options tokens, ?_,
    agree_of_warned (warned_parseTokens options h) r known⟩
  rw [SkillLine.parse, h]
  rfl

theorem warnings_agree_emptyGate :
    ∃ o, SkillLine.parse {} "damage <" = .ok o ∧ o.WarnsOfHealth ∧
      Agree {} o (skillIssues .empty [] o.line) := by
  have hscan : Token.scan "damage <" = .ok [⟨.identifier, "damage", 0⟩, ⟨.less, "<", 7⟩,
      ⟨.endOfInput, "", 8⟩] := by
    refine Token.scan_eq_of_cut ?_ rfl
    repeat first | exact .done _ | refine .token rfl ?_ | refine .gap rfl ?_
  obtain ⟨o, ho, hagree⟩ := warnings_agree hscan {} .empty []
  have hwarnings : o.warnings = [⟨.noHealthValue, 8, none⟩] := by
    rw [SkillLine.parse, hscan] at ho
    obtain rfl := Except.ok.inj ho
    decide +kernel
  exact ⟨o, ho, ⟨_, by rw [hwarnings]; exact List.mem_singleton.2 rfl, rfl⟩, hagree⟩

end Validation
end MobSkills
