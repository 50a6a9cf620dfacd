import MobSkills.Proofs.Line.Acceptance
import MobSkills.Proofs.Line.ConditionText
import MobSkills.Proofs.Line.GroupText
import MobSkills.Proofs.Line.TailText
import MobSkills.Proofs.Line.TriggerText

/-!
# Canonical lines are read back

The canonical text of a line is put together from the spellings of its parts, and each
part keeps to itself: what follows it could not have been taken for more of it. Two
parts are kept loose, since a parse does not fix them: a trigger is known by its text
alone, and a condition by what its own text spells.
-/
namespace MobSkills

open Token (Spells Part IsWord parted_nil spaced part_spaced)
open Grammar
open Reading (inUnitRange)

/-! ## Lines that text can hold -/

/-- A line whose parts text can hold, with a chance that shows no sign. -/
structure SkillLine.WellFormed (line : SkillLine) : Prop where
  mechanic : IsWord line.mechanic.toList
  parameters : ∀ p ∈ line.parameters, p.WellFormed
  targeter : ∀ t ∈ line.targeter, IsWord t.kind.toList ∧ ∀ p ∈ t.options, p.WellFormed
  trigger : ∀ t ∈ line.trigger, t.WellFormed
  conditions : ∀ c ∈ line.conditions, c.WellFormed
  health : ∀ h ∈ line.health, h.WellFormed
  chance : ∀ x ∈ line.chance, inUnitRange x = true ∧ x ≠ .finite true .zero

/-- What the text of a line has to meet to be read back, when a condition may come back
as another one it is related to. A negative zero is a chance only where it cannot end a
range. -/
structure SkillLine.Spellable (related : Condition → Condition → Prop) (line : SkillLine) :
    Prop where
  mechanic : IsWord line.mechanic.toList
  parameters : ∀ p ∈ line.parameters, p.WellFormed
  targeter : ∀ t ∈ line.targeter, IsWord t.kind.toList ∧ ∀ p ∈ t.options, p.WellFormed
  trigger : ∀ t ∈ line.trigger, IsWord t.display.toList
  conditions : ∀ c ∈ line.conditions,
    Spells ('?' :: c.display.toList) fun ts => ∃ c', related c c' ∧ ConditionOf ts c'
  health : ∀ h ∈ line.health, h.WellFormed
  chance : ∀ x ∈ line.chance, inUnitRange x = true ∧
    (x = .finite true .zero → ∀ h ∈ line.health, IsRange h.value.toList)

theorem SkillLine.Spellable.mono {related other : Condition → Condition → Prop}
    {line : SkillLine} (h : line.Spellable related) (hr : ∀ c c', related c c' → other c c') :
    line.Spellable other where
  __ := h
  conditions := fun c hc =>
    (h.conditions c hc).mono fun _ ⟨c', hrel, hts⟩ => ⟨c', hr c c' hrel, hts⟩

/-- A line as its text is read back: its trigger from the word it is written as, and
other conditions. -/
def SkillLine.reread (line : SkillLine) (conditions : List Condition) : SkillLine :=
  { line with trigger := line.trigger.map (.ofWord ·.display), conditions }

/-! ## The spelling of a line -/

/-- A part that may be absent, from the spelling of the part. -/
theorem part_spaced_option {α β : Type} {a : Option α} {render : α → List Char}
    {P : List Token → β → Prop} {f : α → β}
    (h : ∀ b ∈ a, Spells (render b) fun ts => P ts (f b)) :
    Part (spaced (a.map render).toList) fun ts => Maybe P ts (a.map f) := by
  cases a with
  | none => exact ⟨.nil .absent, parted_nil⟩
  | some b => exact (part_spaced (h b rfl)).mono fun ts hp => .present hp

theorem render_toList (line : SkillLine) :
    line.render.toList =
      line.mechanic.toList ++ (Params.renderOption line.parameters ++
        (spaced (line.targeter.map fun t =>
            '@' :: t.kind.toList ++ Params.renderOption t.options).toList ++
          (spaced (line.trigger.map fun t => '~' :: t.display.toList).toList ++
            (spaced (line.conditions.map fun c => '?' :: c.display.toList) ++
              (spaced (line.health.map fun h => h.comparison.symbol :: h.value.toList).toList ++
                spaced (line.chance.map Binary64.pointed).toList))))) := by
  rw [SkillLine.render, String.toList_ofList, SkillLine.parts]
  simp only [List.append_assoc, List.cons_append, List.nil_append, joinWith_cons,
    List.flatMap_append, spaced]

/-- The canonical text of a line spells the line, with conditions related to its own. -/
theorem spells_render {related : Condition → Condition → Prop} {line : SkillLine}
    (h : line.Spellable related) :
    Spells line.render.toList fun ts => ∃ cs, List.Forall₂ related line.conditions cs ∧
      ParsedAs ts (line.reread cs) := by
  have htargeter : Part (spaced (line.targeter.map fun t =>
      '@' :: t.kind.toList ++ Params.renderOption t.options).toList)
      fun ts => Maybe TargeterOf ts (line.targeter.map id) :=
    part_spaced_option fun t ht => spells_targeter (h.targeter t ht).1 (h.targeter t ht).2
  have htrigger : Part (spaced (line.trigger.map fun t => '~' :: t.display.toList).toList)
      fun ts => Maybe TriggerOf ts (line.trigger.map (.ofWord ·.display)) :=
    part_spaced_option fun t ht => spells_trigger (h.trigger t ht)
  have hrest := (part_renderOption h.parameters).seq (htargeter.seq (htrigger.seq
    ((part_conditions h.conditions).seq (part_tail h.health h.chance))))
  rw [render_toList]
  refine .lexeme (Token.isLexeme_identifier_iff.2 h.mechanic) hrest.spells
    (hrest.parted.stops _) ?_
  intro n _ hn hname h
  obtain ⟨ps, _, rfl, hp, as, _, rfl, ha, ss, _, rfl, hs, cs, us, rfl,
    ⟨conditions, hrelated, hc⟩, htail⟩ := h
  refine ⟨conditions, hrelated, ?_⟩
  rw [Option.map_id, id] at ha
  have hline := ParsedAs.mk (HeadOf.mk .absent hn hp ha hs hc) htail
  simpa [SkillLine.reread, String.toList_injective hname] using hline

/-! ## The round trip -/

theorem SkillLine.WellFormed.spellable {line : SkillLine} (h : line.WellFormed) :
    line.Spellable (· = ·) where
  mechanic := h.mechanic
  parameters := h.parameters
  targeter := h.targeter
  trigger := fun t ht => (h.trigger t ht).isWord_display
  conditions := fun c hc => (h.conditions c hc).spells
  health := h.health
  chance := fun x hx => ⟨(h.chance x hx).1, fun hz => absurd hz (h.chance x hx).2⟩

theorem SkillLine.WellFormed.reread {line : SkillLine} (h : line.WellFormed) :
    line.reread line.conditions = line := by
  have htrigger : line.trigger.map (.ofWord ·.display) = line.trigger := by
    cases ht : line.trigger with
    | none => rfl
    | some t => exact congrArg some (Trigger.ofWord_display (h.trigger t ht))
  rw [SkillLine.reread, htrigger]

/-- A well-formed line is read back from its canonical text as it is, without errors and
warnings, whatever the options are. -/
theorem parse_render {line : SkillLine} (h : line.WellFormed) (options : ParseOptions) :
    SkillLine.parse options line.render = .ok ⟨line, [], []⟩ := by
  obtain ⟨ts, hcut, cs, hsame, hparsed⟩ := spells_render h.spellable 0
  obtain rfl : line.conditions = cs := List.forall₂_eq_eq_eq ▸ hsame
  rw [h.reread] at hparsed
  exact (parse_eq_clean_iff hcut).2 hparsed

/-- A line with every part and every kind of value. -/
def strikeLine : SkillLine where
  mechanic := "strike"
  parameters := some ⟨[("hit", .boolean true), ("times", .integer (-9)),
    ("force", .real (.finite true ⟨4503599627370496, 1021, by decide, by decide, by decide⟩)),
    ("say", .text "a \"b\\ 5"), ("only", .list ["[", "x", "]"])]⟩
  targeter := some ⟨"Near", none⟩
  trigger := some ⟨"onTimer", some "20"⟩
  conditions := [⟨true, "near", some "\x7bd\x7d"⟩]
  health := some ⟨.below, "--5%-10"⟩
  chance := some (.finite false ⟨4503599627370496, 1020, by decide, by decide, by decide⟩)

theorem strikeLine_wellFormed : strikeLine.WellFormed := by
  refine ⟨by decide, ?_, ?_, ?_, ?_, ?_, ?_⟩
  · intro p hp
    cases hp
    refine ⟨by simp, by decide, by decide, ?_⟩
    have hitems : Value.WellFormed (.list ["[", "x", "]"]) := by
      refine ⟨_, .cons (lexesAlone_of_isLexeme (Token.isLexeme_symbol rfl)) (.cons
        (lexesAlone_of_isLexeme (Token.isLexeme_identifier_iff.2 (by decide)))
        (.cons (lexesAlone_of_isLexeme (Token.isLexeme_symbol rfl)) .nil)), ?_⟩
      exact .nested (.other (by decide) (by decide) (by decide) .nil) .nil
    simpa [Value.WellFormed, Binary64.isFinite] using hitems
  · intro t ht
    cases ht
    exact ⟨by decide, by simp⟩
  · intro t ht
    cases ht
    refine ⟨by decide, by decide, ?_⟩
    intro v hv
    cases hv
    exact ⟨by decide, List.all_eq_true.1 rfl⟩
  · intro c hc
    obtain rfl := List.mem_singleton.1 hc
    refine ⟨by decide, ?_⟩
    intro g hg
    cases hg
    have hinner : Balanced .openBrace .closeBrace [.identifier] :=
      .other (by decide) (by decide) (by decide) .nil
    have hbraces : BracesOf (⟨.openBrace, "\x7b", 0⟩ ::
        ([⟨.identifier, "d", 1⟩] ++ [⟨.closeBrace, "\x7d", 2⟩])) "\x7bd\x7d" :=
      .mk rfl rfl hinner
    exact ⟨rfl, _, _, Token.scan_eq_ok_iff.2
      ⟨_, .token rfl (.token rfl (.token rfl (.done _))), rfl⟩, hbraces⟩
  · intro h hh
    cases hh
    refine .inr ⟨['-', '-', '5', '%'], ['-', '1', '0'], ?_, ?_, rfl⟩
    · exact ⟨2, ['5', '%'], by decide,
        ⟨['5'], [], ['%'], rfl, by simp, by decide, .inl rfl, .inr rfl⟩, rfl⟩
    · exact ⟨1, ['1', '0'], by decide, by decide,
        ⟨['1', '0'], [], [], rfl, by simp, by decide, .inl rfl, .inl rfl⟩, rfl⟩
  · intro x hx
    cases hx
    exact ⟨by decide +kernel, by decide⟩

theorem parse_render_strikeLine : strikeLine.WellFormed ∧ ∀ options,
    SkillLine.parse options strikeLine.render = .ok ⟨strikeLine, [], []⟩ :=
  ⟨strikeLine_wellFormed, parse_render strikeLine_wellFormed⟩

end MobSkills
