import MobSkills.Proofs.Line.RoundTrip

/-!
# Accepted lines have an accepted canonical form

What a parse without complaint can answer is described part by part: every part but
two is one that text can hold, so its canonical text gives it again. The brace text of
a condition has lost its gaps and may be cut otherwise, and a trigger may be split at
another colon; the line keeps the presence of the one and the text of the other.
-/
namespace MobSkills

open Token (IsLexeme IsWord)
open Grammar

/-- Every real in the groups of the line is finite. -/
def SkillLine.FiniteReals (line : SkillLine) : Prop :=
  ∀ p : Params, (line.parameters = some p ∨ ∃ t, line.targeter = some t ∧ t.options = some p) →
    ∀ e ∈ p.entries, ∀ x, e.2 = .real x → x.isFinite = true

/-- What a line has in common with the one its canonical text gives. -/
structure SkillLine.Agrees (line again : SkillLine) : Prop where
  mechanic : again.mechanic = line.mechanic
  parameters : again.parameters = line.parameters
  targeter : again.targeter = line.targeter
  trigger : again.trigger.map Trigger.display = line.trigger.map Trigger.display
  conditions : List.Forall₂ Condition.Alike line.conditions again.conditions
  health : again.health = line.health
  chance : again.chance = line.chance

/-! ## The canonical form -/

/-- A parsed line spells its canonical text, up to how its trigger is split and how its
braces are cut. -/
theorem spellable_recut_of_parsedAs {ts : List Token} {line : SkillLine} (h : ParsedAs ts line)
    (hl : ∀ t ∈ ts, IsLexeme t.kind t.text.toList) (hf : line.FiniteReals) :
    line.Spellable (fun c c' => c.recut = c') ∧ ∀ t ∈ line.trigger,
      (Trigger.ofWord t.display).display = t.display := by
  obtain ⟨hhead, htail⟩ := h
  cases hhead with
  | @mk ms ps as ss cs n marked parameters targeter trigger conditions hm hn hp ha hs hc =>
    obtain ⟨hhealth, hchance⟩ := health_of_tailOf htail fun t ht => hl t (by simp [ht])
    have htrigger (t : Trigger) (ht : t ∈ trigger) :
        IsWord t.display.toList ∧ (Trigger.ofWord t.display).display = t.display := by
      cases hs with
      | absent => cases ht
      | present hs =>
        cases ht
        exact display_of_triggerOf hs fun u hu => hl u (by simp [hu])
    refine ⟨?_, fun t ht => (htrigger t ht).2⟩
    constructor
    case mechanic => exact (hl n (by simp)).isWord hn
    case parameters =>
      intro p hp
      cases hp
      exact wellFormed_of_groupOf hp (fun t ht => hl t (by simp [ht])) (hf p (.inl rfl))
    case targeter =>
      intro t ht
      cases ht
      cases ha with
      | present ha =>
        exact wellFormed_of_targeterOf ha (fun t ht => hl t (by simp [ht]))
          fun p hp => hf p (.inr ⟨t, rfl, hp⟩)
    case trigger => exact fun t ht => (htrigger t ht).1
    case conditions => exact spells_of_conditionsOf hc fun t ht => hl t (by simp [ht])
    case health => exact hhealth
    case chance => exact hchance

theorem spellable_of_parsedAs {ts : List Token} {line : SkillLine} (h : ParsedAs ts line)
    (hl : ∀ t ∈ ts, IsLexeme t.kind t.text.toList) (hf : line.FiniteReals) :
    line.Spellable Condition.Alike ∧ ∀ t ∈ line.trigger,
      (Trigger.ofWord t.display).display = t.display := by
  obtain ⟨hline, hdisplay⟩ := spellable_recut_of_parsedAs h hl hf
  refine ⟨hline.mono ?_, hdisplay⟩
  rintro c _ rfl
  exact c.alike_recut

/-- The canonical form of an accepted line is accepted under all options and agrees with
the line, if its reals are finite. -/
theorem parse_render_of_isClean {options : ParseOptions} {text : String} {outcome : Outcome}
    (h : SkillLine.parse options text = .ok outcome) (hclean : outcome.isClean = true)
    (hf : outcome.line.FiniteReals) :
    ∃ again, outcome.line.Agrees again ∧ ∀ options',
      SkillLine.parse options' outcome.line.render = .ok ⟨again, [], []⟩ := by
  obtain ⟨line, errors, warnings⟩ := outcome
  simp only [Outcome.isClean, Bool.and_eq_true, List.isEmpty_iff] at hclean
  obtain ⟨rfl, rfl⟩ := hclean
  cases hscan : Token.scan text with
  | error e =>
    rw [SkillLine.parse, hscan] at h
    cases h
  | ok tokens =>
    obtain ⟨ts, hcut, rfl⟩ := Token.scan_eq_ok_iff.1 hscan
    have hparsed := (parse_eq_clean_iff hcut).1 h
    obtain ⟨hspellable, hdisplay⟩ := spellable_of_parsedAs hparsed hcut.isLexeme hf
    obtain ⟨us, hus, cs, halike, hagain⟩ := spells_render hspellable 0
    refine ⟨line.reread cs, ⟨rfl, rfl, rfl, ?_, halike, rfl, rfl⟩, fun options' =>
      (parse_eq_clean_iff hus).2 hagain⟩
    cases ht : line.trigger with
    | none => simp [SkillLine.reread, ht]
    | some t => simp [SkillLine.reread, ht, hdisplay t ht]

/-- A line whose brace text is cut otherwise without its gap. -/
theorem parse_render_gap :
    ∃ outcome, SkillLine.parse {}
        "- strike\x7bb=TRUE;b=1.50;\x7d ~onTimer: 20 ?c\x7ba 5.5\x7d <- 50 -60 0.5" = .ok outcome ∧
      outcome.isClean = true ∧ outcome.line.FiniteReals ∧
      ∃ again, outcome.line.Agrees again ∧ ∀ options',
        SkillLine.parse options' outcome.line.render = .ok ⟨again, [], []⟩ := by
  have hparse : SkillLine.parse {}
      "- strike\x7bb=TRUE;b=1.50;\x7d ~onTimer: 20 ?c\x7ba 5.5\x7d <- 50 -60 0.5" = .ok ⟨
        { mechanic := "strike"
          parameters := some ⟨[("b", .real (.finite false
            ⟨6755399441055744, 1022, by decide, by decide, by decide⟩))]⟩
          trigger := some ⟨"onTimer", some "20"⟩
          conditions := [⟨false, "c", some "\x7ba5.5\x7d"⟩]
          health := some ⟨.below, "-50-60"⟩
          chance := some (.finite false
            ⟨4503599627370496, 1021, by decide, by decide, by decide⟩) },
        [], []⟩ := by
    rw [eq_ok_iff_toOption]
    decide +kernel
  refine ⟨_, hparse, rfl, ?_, parse_render_of_isClean hparse rfl ?_⟩
  · simp [SkillLine.FiniteReals, Binary64.isFinite]
  · simp [SkillLine.FiniteReals, Binary64.isFinite]

end MobSkills
