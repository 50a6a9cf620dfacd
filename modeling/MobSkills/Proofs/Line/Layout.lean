import MobSkills.Project.Format
import MobSkills.Proofs.Line.Lockstep

/-!
# Layout carries no meaning

Where the tokens of a line stand, and what stands between them, does not reach the line that
is read: tokens of the same kinds and texts give the same line and the same complaints. What
does change with the layout are the positions of the complaints.
-/
namespace MobSkills

/-- Tokens of the same kind and text, wherever they stand. -/
def Token.SameText (t u : Token) : Prop :=
  t.kind = u.kind ∧ t.text = u.text

/-- What a problem says, apart from where it stands. -/
def Problem.content (p : Problem) : String × Option String :=
  (p.message, p.token)

/-- The same line, and in the same order the same errors and warnings, wherever they stand. -/
structure Outcome.SaysSame (o p : Outcome) : Prop where
  line : o.line = p.line
  errors : o.errors.map Problem.content = p.errors.map Problem.content
  warnings : o.warnings.map Problem.content = p.warnings.map Problem.content

theorem Outcome.SaysSame.isClean {o p : Outcome} (h : o.SaysSame p) : o.isClean = p.isClean := by
  have herrors := congrArg List.isEmpty h.errors
  have hwarnings := congrArg List.isEmpty h.warnings
  simp only [List.isEmpty_map] at herrors hwarnings
  rw [Outcome.isClean, Outcome.isClean, herrors, hwarnings]

namespace Reading

theorem alike_of_sameText {ts us : List Token} (h : List.Forall₂ Token.SameText ts us) :
    Alike (fun _ _ => True) ts us := by
  induction h with
  | nil => exact .nil
  | cons h _ ih => exact .cons ⟨h.1.symm, h.2.symm, trivial⟩ ih

variable {P : Nat → Nat → Prop} {base other : List Token} {p q : Problem}

theorem Noted.content_eq (h : Noted P base p q) : p.content = q.content := by
  obtain ⟨cause, t, u, -, ht, rfl, rfl⟩ := h
  simp only [Problem.content, Problem.message, Problem.atToken, ht.kind, ht.text]

theorem Reported.content_eq (h : Reported P base other p q) : p.content = q.content := by
  rcases h with h | ⟨-, e, rfl, rfl⟩
  · exact h.content_eq
  · rfl

end Reading

theorem parseTokens_saysSame {ts us : List Token} (h : List.Forall₂ Token.SameText ts us)
    (options : ParseOptions) :
    (SkillLine.parseTokens options ts).SaysSame (SkillLine.parseTokens options us) := by
  obtain ⟨hline, herrors, hwarnings, -⟩ :=
    SkillLine.parseLeaving_inStep options (Reading.alike_of_sameText h)
  simp only [SkillLine.parseLeaving_fst] at hline herrors hwarnings
  have hmap {R : Problem → Problem → Prop} (hR : ∀ p q, R p q → p.content = q.content)
      {ps qs : List Problem} (h : List.Forall₂ R ps qs) :
      ps.map Problem.content = qs.map Problem.content := by
    rw [← List.forall₂_eq_eq_eq, List.forall₂_map_left_iff, List.forall₂_map_right_iff]
    exact h.imp hR
  exact ⟨hline, hmap (fun _ _ => Reading.Reported.content_eq) herrors,
    hmap (fun _ _ => Reading.Noted.content_eq) hwarnings⟩

/-- Tokens of the same kinds and texts are parsed to the same line with the same complaints,
and texts that are cut into such tokens have the same canonical form. -/
theorem parse_ignores_layout (options : ParseOptions) :
    (∀ ts us, List.Forall₂ Token.SameText ts us →
      (SkillLine.parseTokens options ts).SaysSame (SkillLine.parseTokens options us)) ∧
    ∀ a b ts us, Token.scan a = .ok ts → Token.scan b = .ok us →
      List.Forall₂ Token.SameText ts us →
        ∃ o p, SkillLine.parse options a = .ok o ∧ SkillLine.parse options b = .ok p ∧
          o.SaysSame p ∧ o.line.render = p.line.render ∧
          SkillLine.canonical? options a = SkillLine.canonical? options b := by
  refine ⟨fun ts us h => parseTokens_saysSame h options, fun a b ts us ha hb h => ?_⟩
  have hsame := parseTokens_saysSame h options
  have hparse : SkillLine.parse options a = .ok (SkillLine.parseTokens options ts) ∧
      SkillLine.parse options b = .ok (SkillLine.parseTokens options us) := by
    simp only [SkillLine.parse, ha, hb, Except.map, and_self]
  refine ⟨_, _, hparse.1, hparse.2, hsame, by rw [hsame.line], ?_⟩
  simp only [SkillLine.canonical?, hparse.1, hparse.2, hsame.isClean, hsame.line]

/-- A health gate without a value, once as short as it can be and once with blanks, a dollar
sign and a letter of two bytes between its tokens. -/
theorem parse_ignores_layout_gate :
    let ts : List Token := [⟨.minus, "-", 0⟩, ⟨.identifier, "burn", 1⟩, ⟨.less, "<", 5⟩,
      ⟨.semicolon, ";", 6⟩, ⟨.endOfInput, "", 7⟩]
    let us : List Token := [⟨.minus, "-", 0⟩, ⟨.identifier, "burn", 2⟩, ⟨.less, "<", 7⟩,
      ⟨.semicolon, ";", 10⟩, ⟨.endOfInput, "", 12⟩]
    Token.scan "-burn<;" = .ok ts ∧ Token.scan "- burn$<é;\n" = .ok us ∧
      List.Forall₂ Token.SameText ts us ∧
      (SkillLine.parseTokens {} ts).SaysSame (SkillLine.parseTokens {} us) ∧
      ∃ o p, SkillLine.parse {} "-burn<;" = .ok o ∧ SkillLine.parse {} "- burn$<é;\n" = .ok p ∧
        o.SaysSame p ∧ o.line.render = p.line.render ∧
        SkillLine.canonical? {} "-burn<;" = SkillLine.canonical? {} "- burn$<é;\n" := by
  intro ts us
  have ha : Token.scan "-burn<;" = .ok ts := by
    refine Token.scan_eq_of_cut ?_ rfl
    repeat first | exact .done _ | refine .token rfl ?_ | refine .gap rfl ?_
  have hb : Token.scan "- burn$<é;\n" = .ok us := by
    refine Token.scan_eq_of_cut ?_ rfl
    repeat first | exact .done _ | refine .token rfl ?_ | refine .gap rfl ?_
  have hsame : List.Forall₂ Token.SameText ts us := by
    repeat' constructor
  exact ⟨ha, hb, hsame, (parse_ignores_layout {}).1 ts us hsame,
    (parse_ignores_layout {}).2 _ _ ts us ha hb hsame⟩

end MobSkills
