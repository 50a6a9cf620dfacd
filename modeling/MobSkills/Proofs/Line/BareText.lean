import MobSkills.Proofs.Line.NumberText

/-!
# Texts that stay bare

A text is written without quotes exactly when it is read as itself without them, but for
digits that make no integer of 64 bits: they are read as their own text and are quoted all
the same. What the quotes hold is not looked at here, since a quoted text is always read
back.
-/
namespace MobSkills

open Token (IsLexeme IsWord IsNumeral)
open Binary64 (signText)
open Grammar

/-- Digits after a sign that make an integer of more than 64 bits. -/
def IsOversized (s : List Char) : Prop :=
  ∃ negative digits, s = signText negative ++ digits ∧ digits ≠ [] ∧ AllDigits digits ∧
    ∀ i : Int64, i.toInt ≠ signedValue negative digits

theorem IsOversized.chars {s : List Char} (h : IsOversized s) :
    ∀ c ∈ s, c = '-' ∨ c.isDigit = true := by
  obtain ⟨negative, digits, rfl, -, hd, -⟩ := h
  intro c hc
  rcases List.mem_append.1 hc with hc | hc
  · cases negative with
    | false => cases hc
    | true => exact .inl (List.mem_singleton.1 hc)
  · exact .inr (hd c hc)

/-! ## When a text is bare -/

section
variable {text : String}

theorem length_le_escapeQuoted (s : List Char) : s.length ≤ (escapeQuoted s).length := by
  induction s with
  | nil => exact Nat.le_refl 0
  | cons c s ih =>
    rw [escapeQuoted_cons, List.length_append, List.length_cons]
    split
    · simp only [List.length_cons, List.length_nil]
      omega
    · simp only [List.length_cons, List.length_nil]
      omega

/-- A text that is quoted is longer than itself. -/
theorem renderText_eq_iff_isBareText : renderText text = text.toList ↔ isBareText text = true := by
  unfold renderText
  split
  · rename_i hbare
    exact iff_of_true rfl hbare
  · rename_i hbare
    refine iff_of_false (fun h => ?_) hbare
    have hlength := congrArg List.length h
    have hle := length_le_escapeQuoted text.toList
    simp only [List.cons_append, List.length_cons, List.length_append, List.length_nil] at hlength
    omega

theorem IsOversized.not_isBareText (h : IsOversized text.toList) : ¬ isBareText text = true := by
  intro hbare
  rcases isBareText_iff.1 hbare with ⟨⟨c, r, htext, hc, -⟩, -⟩ | ⟨-, hlast⟩
  · obtain ⟨-, -, hdigit, hminus⟩ := Token.isAlpha_class hc
    rcases h.chars c (by simp [htext]) with hc | hc
    · exact hminus hc
    · rw [hdigit] at hc
      cases hc
  · exact absurd (h.chars '%' (List.mem_of_getLast? hlast)) (by decide)

end

/-! ## When a text is read as itself -/

section
variable {options : ParseOptions} {text : String}

theorem IsOversized.readsAs (options : ParseOptions) (h : IsOversized text.toList) :
    ReadsAs options text.toList (.text text) := by
  obtain ⟨negative, digits, htext, hn, hd, hall⟩ := h
  have hnum : IsNumeral digits :=
    ⟨digits, [], [], (List.append_nil _).symm, hn, hd, .inl rfl, .inl rfl⟩
  have hread := readsAs_number options negative hnum
  rwa [← htext, String.ofList_toList, (numberValue_digits htext hd hn).2 hall] at hread

/-- A number that stands for its own text is a percentage or oversized. -/
theorem percent_or_oversized (hlex : IsLexeme .number text.toList)
    (hvalue : Reading.numberValue text = .text text) :
    text.toList.getLast? = some '%' ∨ IsOversized text.toList := by
  obtain ⟨negative, numeral, htext, hnum⟩ := Token.isLexeme_number_iff.1 hlex
  rcases hnum.forms with ⟨hn, hd⟩ | ⟨whole, fraction, rfl, hwn, hw, hfn, hf⟩ | hlast
  · refine .inr ⟨negative, numeral, htext, hn, hd, fun i hi => ?_⟩
    rw [(numberValue_digits htext hd hn).1 i hi] at hvalue
    cases hvalue
  · rw [numberValue_fraction htext hw hf hwn hfn] at hvalue
    cases hvalue
  · exact .inl (by simp [htext, hlast])

theorem readsAs_text_iff : ReadsAs options text.toList (.text text) ↔
    isBareText text = true ∨ IsOversized text.toList := by
  constructor
  · intro h
    obtain ⟨ts, vs, hcut, hsub, hv⟩ := h.exists_valueOf
    have hlexeme (t : Token) (ht : t ∈ vs) := hcut.isLexeme t (hsub t ht)
    generalize hvalue : Value.text text = v at hv
    cases hv with
    | @text t hk =>
      have hne := hcut.unquote_ne (hsub t (by simp)) hk (by decide)
      obtain rfl := Value.text.inj hvalue
      exact absurd rfl hne
    | @number t hk =>
      have hlex := hlexeme t (by simp)
      obtain rfl : text = t.text := by
        rcases Reading.numberValue_cases t.text with h | ⟨i, h⟩ | ⟨x, h, -⟩
        · exact Value.text.inj (hvalue.trans h)
        · cases hvalue.trans h
        · cases hvalue.trans h
      rw [hk] at hlex
      exact (percent_or_oversized hlex hvalue.symm).imp_left fun hlast =>
        isBareText_iff.2 (.inr ⟨hlex, hlast⟩)
    | @word t hk =>
      have hword := (hlexeme t (by simp)).isWord hk
      unfold Reading.wordValue at hvalue
      split at hvalue
      · cases hvalue
      · rename_i htruth
        obtain rfl := Value.text.inj hvalue
        exact .inl (isBareText_iff.2 (.inl ⟨hword, eq_false_of_ne_true htruth⟩))
    | list _ _ _ => cases hvalue
  · intro h
    rcases h with h | h
    · have hspells := spells_renderText text
      rw [renderText_eq_iff_isBareText.2 h] at hspells
      exact readsAs_of_spells options hspells
    · exact h.readsAs options

end

/-- A text is written without quotes exactly when it is read as itself without them and is
not oversized. Oversized ones are read as themselves too. -/
theorem bare_iff_readsAs (options : ParseOptions) (text : String) :
    (renderText text = text.toList ↔
      ReadsAs options text.toList (.text text) ∧ ¬ IsOversized text.toList) ∧
    (IsOversized text.toList → ReadsAs options text.toList (.text text)) := by
  refine ⟨?_, fun h => h.readsAs options⟩
  rw [renderText_eq_iff_isBareText, readsAs_text_iff]
  constructor
  · intro h
    exact ⟨.inl h, fun hlarge => hlarge.not_isBareText h⟩
  · intro h
    exact h.1.resolve_right h.2

/-- Twenty nines are read as a text, and this text is written with quotes. -/
theorem renderText_nines :
    ReadsAs {} "99999999999999999999".toList (.text "99999999999999999999") ∧
      renderText "99999999999999999999" = "\"99999999999999999999\"".toList := by
  have hread : ReadsAs {} "99999999999999999999".toList (.text "99999999999999999999") :=
    ⟨{ mechanic := "m", parameters := some ⟨[("k", .text "99999999999999999999")]⟩ },
      by decide +kernel, rfl⟩
  exact ⟨hread, by decide +kernel⟩

end MobSkills
