import MobSkills.Project.Format

/-!
# Options of a parse do not reach the formatter

The options of a parse decide about one token alone: a number with a point whose value is
no chance. It is either left where the chance would stand, and so it is trailing input, or
it is taken with a warning. Either way the parse is not clean, so a clean parse is the
same under all options, and so is what a formatter makes of clean lines.
-/
namespace MobSkills

/-- What the parses of the same tokens under two options have in common. -/
structure Outcome.Agrees (o p : Outcome) : Prop where
  errors : o.errors = p.errors
  line : { o.line with chance := none } = { p.line with chance := none }
  isClean : o.isClean = p.isClean
  eq_of_isClean : o.isClean = true → o = p

namespace Reading

/-- The options matter only where a number stands that is no chance. -/
theorem chance_options (tokens : List Token) :
    (∀ a b, chance a tokens = chance b tokens) ∨
      ∃ t r x, tokens = t :: r ∧ t.kind = .number ∧ ∀ options, chance options tokens =
        if options.lenientChance then (some x, [.atToken (.chanceOutOfRange x) t], r)
        else (none, [], tokens) := by
  cases tokens with
  | nil => exact .inl fun _ _ => rfl
  | cons t r =>
    by_cases hshape : (t.kind = .number && t.text.toList.contains '.' &&
        t.text.toList.getLast? != some '%') = true
    · cases hread : Binary64.read? t.text.toList with
      | none => exact .inl fun _ _ => by simp only [chance, hshape, hread, if_true]
      | some x =>
        by_cases hx : inUnitRange x = true
        · exact .inl fun _ _ => by simp only [chance, hshape, hread, hx, if_true]
        · refine .inr ⟨t, r, x, rfl, ?_, fun _ => by
            simp only [chance, hshape, hread, hx, if_true, if_false, Bool.false_eq_true]⟩
          simp only [Bool.and_eq_true, decide_eq_true_eq] at hshape
          exact hshape.1.1
    · exact .inl fun _ _ => by simp only [chance, if_neg hshape]

/-- Where the chance leaves nothing to complain about, it is the same under all options. -/
theorem chance_of_quiet {a : ParseOptions} {tokens : List Token}
    (hodd : (chance a tokens).2.1 = []) (hleft : trailing (chance a tokens).2.2 = [])
    (b : ParseOptions) : chance a tokens = chance b tokens := by
  rcases chance_options tokens with hsame | ⟨t, r, x, rfl, hnumber, hchance⟩
  · exact hsame a b
  · rw [hchance] at hodd hleft
    cases hlenient : a.lenientChance with
    | false => simp [hlenient, trailing, hnumber] at hleft
    | true => simp [hlenient] at hodd

/-- Nothing before the chance depends on the options. -/
theorem exists_looseParts (line : SkillLine) (tokens : List Token) :
    ∃ health odd rest, ∀ options, looseParts options line tokens =
      ({ line with health, chance := (chance options rest).1 },
        odd ++ (chance options rest).2.1, (chance options rest).2.2) :=
  ⟨_, _, _, fun _ => rfl⟩

end Reading

open Reading (structuralParts exists_looseParts chance_of_quiet)

/-- A clean parse is the parse under all options. -/
theorem parseTokens_of_isClean {a : ParseOptions} {tokens : List Token}
    (h : (SkillLine.parseTokens a tokens).isClean = true) (b : ParseOptions) :
    SkillLine.parseTokens a tokens = SkillLine.parseTokens b tokens := by
  unfold SkillLine.parseTokens at h ⊢
  cases hparts : structuralParts tokens with
  | error e => rfl
  | ok parts =>
    obtain ⟨line, after⟩ := parts
    obtain ⟨health, odd, rest, hloose⟩ := exists_looseParts line after
    simp only [hparts, hloose, Outcome.isClean, List.isEmpty_nil, Bool.true_and, List.isEmpty_iff,
      List.append_eq_nil_iff] at h ⊢
    obtain ⟨⟨-, hodd⟩, hleft⟩ := h
    rw [chance_of_quiet hodd hleft b]

/-- The parses of the same tokens have their errors in common, and all but the chance of
the line. -/
theorem parseTokens_agrees (a b : ParseOptions) (tokens : List Token) :
    (SkillLine.parseTokens a tokens).Agrees (SkillLine.parseTokens b tokens) := by
  have hclean (a b : ParseOptions) (h : (SkillLine.parseTokens a tokens).isClean = true) :
      (SkillLine.parseTokens b tokens).isClean = true :=
    parseTokens_of_isClean h b ▸ h
  refine ⟨?_, ?_, Bool.eq_iff_iff.2 ⟨hclean a b, hclean b a⟩, fun h => parseTokens_of_isClean h b⟩
  · unfold SkillLine.parseTokens
    cases structuralParts tokens <;> rfl
  · unfold SkillLine.parseTokens
    cases structuralParts tokens <;> rfl

theorem canonical?_options (a b : ParseOptions) :
    SkillLine.canonical? a = SkillLine.canonical? b := by
  funext source
  unfold SkillLine.canonical? SkillLine.parse
  cases Token.scan source with
  | error e => rfl
  | ok tokens =>
    have hagrees := parseTokens_agrees a b tokens
    simp only [Except.map, hagrees.isClean]
    by_cases hclean : (SkillLine.parseTokens b tokens).isClean = true
    · rw [hagrees.eq_of_isClean (hagrees.isClean.trans hclean)]
    · simp only [if_neg hclean]

namespace Toml

theorem format_options (a b : ParseOptions) : Document.format a = Document.format b := by
  have hwritten : Written.format a = Written.format b := by
    funext w
    unfold Written.format
    rw [canonical?_options a b]
  have hnode : Node.format a = Node.format b := by
    funext node
    unfold Node.format
    rw [hwritten]
  have howners : Node.formatOwners a = Node.formatOwners b := by
    funext node
    unfold Node.formatOwners
    rw [hnode]
  funext d
  rw [Document.format, howners, Document.format]

end Toml

/-- The options of a parse never change what the formatter does: not to a line, not to a
document, not to a text. -/
theorem formatting_ignores_options (a b : ParseOptions) :
    (∀ tokens, (SkillLine.parseTokens a tokens).Agrees (SkillLine.parseTokens b tokens)) ∧
      (∀ source, SkillLine.canonical? a source = SkillLine.canonical? b source) ∧
      (∀ d : Toml.Document, d.format a = d.format b) ∧
      ∀ text, Project.format? a text = Project.format? b text := by
  have hdocument := Toml.format_options a b
  refine ⟨parseTokens_agrees a b, fun source => by rw [canonical?_options a b],
    fun d => by rw [hdocument], fun text => ?_⟩
  rw [Project.format?, Project.format?, hdocument]

end MobSkills
