import MobSkills.Proofs.Line.Lockstep

/-!
# The end marker is a barrier

Whatever tokens a parse is given, with an end marker, without one or with several, it comes
to an end, with all the tokens it has passed before the first end marker. What stands behind
an end marker does not matter to it. That a list counts its brackets without going below
zero is part of this, since a reader must not go on past the end of a list.
-/
namespace MobSkills

attribute [ext] Outcome

namespace Reading

/-! ## The brackets of a list -/

/-- No bracket is closed where none is open, if `depth` of them are open before the kinds. -/
def NeverBelow (depth : Nat) (ks : List TokenKind) : Prop :=
  ∀ before after, ks = before ++ .closeBracket :: after →
    before.count .closeBracket < depth + before.count .openBracket

theorem neverBelow_nil (depth : Nat) : NeverBelow depth [] := by
  intro before after h
  simp at h

theorem neverBelow_cons {depth next : Nat} {k : TokenKind} {ks : List TokenKind}
    (hk : nesting? .openBracket .closeBracket k depth = some next) (h : NeverBelow next ks) :
    NeverBelow depth (k :: ks) := by
  intro before after happ
  cases before with
  | nil =>
    -- The bracket itself: the count of open ones went down to `next`.
    obtain ⟨rfl, -⟩ := List.cons.inj happ
    cases depth with
    | zero => simp [nesting?] at hk
    | succ depth => simp
  | cons b before =>
    obtain ⟨rfl, hrest⟩ := List.cons.inj happ
    have hbefore := h before after hrest
    rw [List.count_cons, List.count_cons]
    by_cases ho : k = .openBracket
    · subst ho
      obtain rfl : depth + 1 = next := Option.some.inj hk
      simp
      omega
    by_cases hc : k = .closeBracket
    · subst hc
      cases depth with
      | zero => simp [nesting?] at hk
      | succ depth =>
        obtain rfl : depth = next := by simpa [nesting?] using hk
        simp
        omega
    · obtain rfl : depth = next := by simpa [nesting?, ho, hc] using hk
      simpa [ho, hc] using hbefore

/-- The tokens that a list has passed never close a bracket that is not open, whether the
list is closed after them or breaks off. -/
def CountsBrackets (depth : Nat) (tokens : List Token) : Prop :=
  ∃ passed rest, tokens = passed ++ rest ∧ NeverBelow depth (passed.map Token.kind) ∧
    (items depth tokens = .error ⟨.listEnd, rest⟩ ∨
      ∃ c left, rest = c :: left ∧ c.kind = .closeBracket ∧
        items depth tokens = .ok (passed.map Token.text, left))

theorem countsBrackets (depth : Nat) (tokens : List Token) : CountsBrackets depth tokens := by
  induction tokens generalizing depth with
  | nil => exact ⟨[], [], rfl, neverBelow_nil depth, .inl rfl⟩
  | cons t r ih =>
    by_cases hend : t.kind = .endOfInput
    · refine ⟨[], t :: r, rfl, neverBelow_nil depth, .inl ?_⟩
      rw [items, if_pos hend]
    cases hk : nesting? .openBracket .closeBracket t.kind depth with
    | none =>
      obtain ⟨hclose, rfl⟩ := Grammar.nesting?_eq_none hk
      refine ⟨[], t :: r, rfl, neverBelow_nil 0, .inr ⟨t, r, rfl, hclose, ?_⟩⟩
      simp only [items, if_neg hend, hk, List.map_nil]
    | some next =>
      obtain ⟨passed, rest, rfl, hbelow, hread⟩ := ih next
      refine ⟨t :: passed, rest, rfl, neverBelow_cons hk hbelow, ?_⟩
      rcases hread with hread | ⟨c, left, rfl, hc, hread⟩
      · exact .inl (by simp only [items, if_neg hend, hk, hread])
      · exact .inr ⟨c, left, rfl, hc, by simp only [items, if_neg hend, hk, hread, List.map_cons]⟩

/-! ## The barrier -/

/-- A reader that answers has moved its cursor. -/
def Advances {α : Type} (reader : List Token → Reading α) : Prop :=
  ∀ tokens a rest, reader tokens = .ok (a, rest) → rest.length < tokens.length

theorem alike_cut (before after : List Token) {last : Token} (h : last.kind = .endOfInput) :
    Alike Eq (before ++ last :: after) (before ++ [last]) := by
  induction before with
  | nil => exact .last ⟨rfl, rfl, rfl⟩ h
  | cons t before ih => exact .cons ⟨rfl, rfl, rfl⟩ ih

variable {base other : List Token} {p q : Problem}

theorem Noted.eq (h : Noted Eq base p q) : p = q := by
  obtain ⟨cause, t, u, -, ht, rfl, rfl⟩ := h
  have htoken : t = u := by
    obtain ⟨kind, text, position⟩ := t
    obtain ⟨hkind, htext, hposition⟩ := ht
    dsimp only at hkind htext hposition
    subst hkind htext hposition
    rfl
  rw [htoken]

theorem Reported.eq (h : Reported Eq base other p q) {t : Token} (ht : t ∈ base)
    (hk : t.kind = .endOfInput) : p = q := by
  rcases h with h | ⟨hnone, -⟩
  · exact h.eq
  · exact absurd hk (hnone t ht)

end Reading

/-- What stands behind an end marker does not matter. -/
theorem parseTokens_cut (options : ParseOptions) (before after : List Token) {last : Token}
    (h : last.kind = .endOfInput) :
    SkillLine.parseTokens options (before ++ last :: after) =
      SkillLine.parseTokens options (before ++ [last]) := by
  obtain ⟨hline, herrors, hwarnings, -⟩ :=
    SkillLine.parseLeaving_inStep options (Reading.alike_cut before after h)
  simp only [SkillLine.parseLeaving_fst] at hline herrors hwarnings
  have hmem : last ∈ before ++ last :: after := by simp
  have hsame := herrors.imp fun p q hpq => hpq.eq hmem h
  have hsame' := hwarnings.imp fun p q hpq => hpq.eq
  rw [List.forall₂_eq_eq_eq] at hsame hsame'
  exact Outcome.ext hline hsame hsame'

open Reading (CountsBrackets Advances entry items braceText condition)

/-- A parse passes tokens before the first end marker alone and stops with the others left,
every round of its loops moves it on, its lists never count below zero, and it is the same
parse when the tokens are cut after an end marker. -/
theorem parseTokens_stops (options : ParseOptions) (tokens : List Token) :
    (∃ read rest, tokens = read ++ rest ∧ (∀ t ∈ read, t.kind ≠ .endOfInput) ∧
      SkillLine.parseLeaving options tokens = (SkillLine.parseTokens options tokens, rest)) ∧
    (Advances entry ∧ Advances condition ∧ ∀ depth, Advances (items depth) ∧
      Advances (braceText depth)) ∧
    (∀ list, CountsBrackets 0 list) ∧
    ∀ before last after, tokens = before ++ last :: after → last.kind = .endOfInput →
      SkillLine.parseTokens options tokens = SkillLine.parseTokens options (before ++ [last]) := by
  refine ⟨?passed, ⟨?_, ?_, fun depth => ⟨?_, ?_⟩⟩, Reading.countsBrackets 0, ?cut⟩
  case passed =>
    obtain ⟨-, -, -, ⟨read, happ, hread⟩, -⟩ := SkillLine.parseLeaving_inStep options
      (Reading.Alike.refl (P := Eq) (fun _ => rfl) tokens)
    exact ⟨read, _, happ, hread, by rw [← SkillLine.parseLeaving_fst]⟩
  · exact fun _ _ _ => Reading.length_entry
  · exact fun _ _ _ => Reading.length_condition
  · exact fun _ _ _ => Reading.length_items
  · exact fun _ _ _ => Reading.length_braceText
  case cut =>
    rintro before last after rfl hlast
    exact parseTokens_cut options before after hlast

/-- A list that is not closed before the end marker in the middle; the tokens behind the marker
would close it. -/
theorem parseTokens_stops_list :
    let before : List Token := [⟨.identifier, "m", 7⟩, ⟨.openBrace, "", 7⟩, ⟨.identifier, "a", 2⟩,
      ⟨.equals, "=", 0⟩, ⟨.openBracket, "[", 5⟩, ⟨.openBracket, "[", 5⟩, ⟨.closeBracket, "]", 1⟩]
    let last : Token := ⟨.endOfInput, "end", 3⟩
    let after : List Token := [⟨.closeBracket, "]", 9⟩, ⟨.closeBrace, "\x7d", 9⟩]
    last.kind = .endOfInput ∧
      (SkillLine.parseTokens {} (before ++ last :: after)).errors =
        [⟨.foundEnd .listEnd, 3, none⟩] ∧
      SkillLine.parseTokens {} (before ++ last :: after) =
        SkillLine.parseTokens {} (before ++ [last]) := by
  intro before last after
  refine ⟨rfl, by cbv, ?_⟩
  exact (parseTokens_stops {} (before ++ last :: after)).2.2.2 before last after rfl rfl

end MobSkills
