import MobSkills.Proofs.Line.Quoting
import MobSkills.Proofs.Line.RoundTrip

/-!
# Line feeds in canonical lines

The text of a well-formed line holds a line feed only between quotes. So a text that is cut
off at one ends in a string that was opened and not closed. Texts with this property are
put together part by part, and the parts need not be tokens of one cut.
-/
namespace MobSkills

open Token (IsLexeme IsWord)
open Text (isBlank)
open Grammar

namespace Token

/-! ## Blanks -/

section
variable {c : Char} {r s : List Char} {kind : TokenKind}

theorem isBlank_of_isQuote (h : isQuote c = true) : isBlank c = false := by
  simp only [isQuote, Bool.or_eq_true, beq_iff_eq] at h
  rcases h with rfl | rfl <;> rfl

theorem isBlank_of_symbol (h : TokenKind.ofSymbol? c = some kind) : isBlank c = false := by
  unfold TokenKind.ofSymbol? at h
  split at h <;> first
    | rfl
    | cases h

theorem isBlank_of_isWordChar (h : isWordChar c = true) : isBlank c = false := by
  simp only [isWordChar, Bool.or_eq_true, beq_iff_eq] at h
  rcases h with ((h | rfl) | rfl) | rfl
  · exact Text.isBlank_of_isAlphanum h
  · rfl
  · rfl
  · rfl

theorem isBlank_of_isDigit (h : c.isDigit = true) : isBlank c = false :=
  isBlank_of_isWordChar (by simp [isWordChar, Char.isAlphanum, h])

theorem IsNumeral.chars (h : IsNumeral s) : ∀ c ∈ s, c.isDigit = true ∨ c = '.' ∨ c = '%' := by
  obtain ⟨whole, fraction, percent, rfl, -, hw, hf, hp⟩ := h
  intro c hc
  simp only [List.mem_append] at hc
  rcases hc with hc | hc | hc
  · exact .inl (hw c hc)
  · rcases hf with rfl | ⟨digits, -, hd, rfl⟩
    · cases hc
    · exact (List.mem_cons.1 hc).elim (fun h => .inr (.inl h)) fun h => .inl (hd c h)
  · rcases hp with rfl | rfl
    · cases hc
    · exact .inr (.inr (List.mem_singleton.1 hc))

/-- The blanks in tokens are in strings. -/
theorem IsLexeme.isBlank_eq_false (h : IsLexeme kind s) (hk : kind ≠ .string) :
    ∀ c ∈ s, isBlank c = false := by
  cases s with
  | nil => cases h
  | cons d r =>
    rcases step_eq_token h with ⟨rfl, -⟩ | ⟨rfl, -⟩ | ⟨rfl, -⟩ | ⟨hs, -, rfl, -⟩
    · exact absurd rfl hk
    · obtain ⟨negative, numeral, he, hn⟩ := isLexeme_number_iff.1 h
      intro c hc
      rw [he, List.mem_append] at hc
      rcases hc with hc | hc
      · cases negative with
        | false => cases hc
        | true =>
          obtain rfl := List.mem_singleton.1 hc
          rfl
      · rcases hn.chars c hc with hc | rfl | rfl
        · exact isBlank_of_isDigit hc
        · rfl
        · rfl
    · intro c hc
      exact isBlank_of_isWordChar (isWordChar_of_isWord (isLexeme_identifier_iff.1 h) hc)
    · intro c hc
      obtain rfl := List.mem_singleton.1 hc
      exact isBlank_of_symbol hs

theorem IsLexeme.not_mem_feed (h : IsLexeme kind s) (hk : kind ≠ .string) : '\n' ∉ s := by
  intro hfeed
  cases h.isBlank_eq_false hk '\n' hfeed

end

/-! ## Texts whose line feeds are in strings -/

/-- The text ends in a string that is not closed. Its quote is one, because the text before
it has only strings that are. -/
def EndsOpen (s : List Char) : Prop :=
  ∃ front ks quote inner, s = front ++ quote :: inner ∧ Braced front ks ∧ isQuote quote = true ∧
    Unclosed quote inner

/-- Every string of the text is closed, and every line feed is in a string. -/
structure Sealed (s : List Char) : Prop where
  braced : ∃ ks, Braced s ks
  opened : ∀ before after, s = before ++ '\n' :: after → EndsOpen before

section
variable {quote : Char} {s a b : List Char} {kind : TokenKind}

/-- A string that is not closed is not closed in a shorter text either. -/
theorem Unclosed.of_append (h : Unclosed quote (a ++ b)) : Unclosed quote a := by
  rw [← splitString_eq_none_iff] at h ⊢
  cases hs : splitString quote a with
  | none => rfl
  | some split =>
    rw [splitString_append_right hs b] at h
    cases h

/-- A string ends where it is closed and nowhere before. -/
theorem unclosed_of_splitString {tail : List Char}
    (h : splitString quote (a ++ b) = some (tail, [])) (hb : b ≠ []) : Unclosed quote a := by
  rw [← splitString_eq_none_iff]
  cases hs : splitString quote a with
  | none => rfl
  | some split =>
    rw [splitString_append_right hs b] at h
    have hrest := (Prod.mk.inj (Option.some.inj h)).2
    exact absurd (List.append_eq_nil_iff.1 hrest).2 hb

theorem EndsOpen.append_left {ks : List TokenKind} (ha : Braced a ks) (h : EndsOpen b) :
    EndsOpen (a ++ b) := by
  obtain ⟨front, us, quote, inner, rfl, hfront, hquote, hopen⟩ := h
  exact ⟨a ++ front, _, quote, inner, (List.append_assoc ..).symm, ha.append hfront, hquote, hopen⟩

theorem Braced.sealed {ks : List TokenKind} (h : Braced s ks) (hn : '\n' ∉ s) : Sealed s := by
  refine ⟨⟨ks, h⟩, ?_⟩
  rintro before after rfl
  exact absurd (by simp) hn

theorem Sealed.append (ha : Sealed a) (hb : Sealed b) : Sealed (a ++ b) := by
  obtain ⟨ks, hks⟩ := ha.braced
  obtain ⟨us, hus⟩ := hb.braced
  refine ⟨⟨_, hks.append hus⟩, ?_⟩
  intro before after happ
  rcases List.append_eq_append_iff.1 happ with ⟨more, rfl, hmore⟩ | ⟨more, rfl, hmore⟩
  · exact (hb.opened more after hmore).append_left hks
  · cases more with
    | nil =>
      have hopen := (hb.opened [] after hmore.symm).append_left hks
      simpa using hopen
    | cons c more =>
      obtain ⟨rfl, -⟩ := List.cons.inj hmore
      exact ha.opened before more rfl

theorem sealed_nil : Sealed [] :=
  Braced.nil.sealed List.not_mem_nil

theorem Sealed.flatMap {α : Type} {l : List α} {f : α → List Char} (h : ∀ x ∈ l, Sealed (f x)) :
    Sealed (l.flatMap f) := by
  induction l with
  | nil => exact sealed_nil
  | cons x l ih =>
    rw [List.flatMap_cons]
    exact (h x (List.mem_cons_self ..)).append (ih fun y hy => h y (List.mem_cons_of_mem x hy))

theorem Sealed.joinWith {separator : List Char} {texts : List (List Char)}
    (hs : Sealed separator) (h : ∀ t ∈ texts, Sealed t) : Sealed (joinWith separator texts) := by
  cases texts with
  | nil => exact sealed_nil
  | cons t texts =>
    rw [joinWith_cons]
    exact (h t (List.mem_cons_self ..)).append
      (.flatMap fun u hu => hs.append (h u (List.mem_cons_of_mem t hu)))

theorem sealed_of_isLexeme (h : IsLexeme kind s) : Sealed s := by
  have hbraced := Braced.of_isLexeme h
  cases s with
  | nil => cases h
  | cons c r =>
    rcases step_eq_token h with ⟨rfl, hq, hs⟩ | ⟨rfl, -, -⟩ | ⟨rfl, -, -⟩ | ⟨hk, -, rfl, -⟩
    · refine ⟨⟨_, hbraced⟩, ?_⟩
      intro before after happ
      cases before with
      | nil =>
        obtain ⟨rfl, -⟩ := List.cons.inj happ
        cases hq
      | cons d inner =>
        obtain ⟨rfl, rfl⟩ := List.cons.inj happ
        exact ⟨[], [], c, inner, rfl, .nil, hq, unclosed_of_splitString hs (by simp)⟩
    · exact hbraced.sealed (h.not_mem_feed (by decide))
    · exact hbraced.sealed (h.not_mem_feed (by decide))
    · exact hbraced.sealed (h.not_mem_feed (ofSymbol?_kind hk).2.2.1)

theorem sealed_of_isWord (h : IsWord s) : Sealed s :=
  sealed_of_isLexeme (isLexeme_identifier_iff.2 h)

theorem sealed_symbol {c : Char} (h : TokenKind.ofSymbol? c = some kind) : Sealed [c] :=
  sealed_of_isLexeme (isLexeme_symbol h)

theorem sealed_join {ts : List Token} (h : ∀ t ∈ ts, IsLexeme t.kind t.text.toList) :
    Sealed (String.join (ts.map Token.text)).toList := by
  induction ts with
  | nil => exact sealed_nil
  | cons t ts ih =>
    rw [List.map_cons, String.join_cons, String.toList_append]
    exact (sealed_of_isLexeme (h t (List.mem_cons_self ..))).append
      (ih fun u hu => h u (List.mem_cons_of_mem t hu))

theorem sealed_gap : Sealed [' '] :=
  (Braced.of_all_soft (by simp [IsSoft, isQuote])).sealed (by decide)

end

end Token

/-! ## The parts of a line -/

open Token (Sealed sealed_nil sealed_of_isLexeme sealed_of_isWord sealed_symbol sealed_gap)

theorem Value.WellFormed.sealed {v : Value} (h : v.WellFormed) : Sealed v.render := by
  cases v with
  | boolean b =>
    have hword : IsWord (Value.boolean b).render := by cases b <;> decide
    exact sealed_of_isWord hword
  | integer i => exact sealed_of_isLexeme (integer_lexeme i).1
  | real x =>
    cases x with
    | nan => cases h
    | infinity negative => cases h
    | finite negative m => exact sealed_of_isLexeme (Binary64.pointed_lexeme negative m).1
  | text s =>
    obtain ⟨kind, hlex, -⟩ := exists_valueOf_renderText s
    exact sealed_of_isLexeme hlex
  | list items =>
    obtain ⟨ts, hts, -⟩ := h
    have hitems : ∀ text ∈ items.map String.toList, Sealed text := by
      induction hts with
      | nil => simp
      | cons hi _ ih =>
        rw [List.map_cons, List.forall_mem_cons]
        exact ⟨sealed_of_isLexeme (isLexeme_of_lexesAlone hi), ih⟩
    have hopen : Sealed ['['] := sealed_symbol rfl
    have hclose : Sealed [']'] := sealed_symbol rfl
    exact hopen.append ((Sealed.joinWith sealed_gap hitems).append hclose)

theorem Params.WellFormed.sealed {p : Params} (h : p.WellFormed) : Sealed p.render := by
  have hequals : Sealed ['='] := sealed_symbol rfl
  have hopen : Sealed ['\x7b'] := sealed_symbol rfl
  have hclose : Sealed ['\x7d'] := sealed_symbol rfl
  have hsemi : Sealed [';'] := sealed_symbol rfl
  refine hopen.append ((Sealed.joinWith hsemi ?_).append hclose)
  intro text htext
  obtain ⟨e, he, rfl⟩ := List.mem_map.1 htext
  exact (sealed_of_isWord (h.words e he)).append (hequals.append (h.values e he).sealed)

theorem sealed_renderOption {g : Option Params} (h : ∀ p ∈ g, p.WellFormed) :
    Sealed (Params.renderOption g) := by
  cases g with
  | none => exact sealed_nil
  | some p =>
    have hform := h p rfl
    rw [Params.renderOption]
    split
    · exact sealed_nil
    · exact hform.sealed

/-- The braces of a condition are the texts of their tokens, one after the other. -/
theorem Condition.WellFormed.sealed {c : Condition} (h : c.WellFormed) :
    Sealed c.display.toList := by
  have hbang : Sealed ['!'] := sealed_symbol rfl
  have hmark : Sealed (if c.negated then ['!'] else []) := by
    split
    · exact hbang
    · exact sealed_nil
  have hgroup : Sealed (c.group.getD "").toList := by
    cases hg : c.group with
    | none => exact sealed_nil
    | some g =>
      obtain ⟨-, ts, last, hscan, hts⟩ := h.braces g hg
      obtain ⟨us, hcut, happ⟩ := Token.scan_eq_ok_iff.1 hscan
      obtain ⟨rfl, -⟩ := List.append_inj' happ rfl
      have hjoin := Token.sealed_join hcut.isLexeme
      rwa [← bracesOf_eq_join hts] at hjoin
  rw [Condition.toList_display]
  exact hmark.append ((sealed_of_isWord h.word).append hgroup)

theorem IsSigned.sealed {s : List Char} (h : IsSigned s) : Sealed s := by
  obtain ⟨k, numeral, -, hn, rfl⟩ := h
  have hminus : Sealed ['-'] := sealed_symbol rfl
  have hsigns : Sealed (List.replicate k '-') := by
    induction k with
    | zero => exact sealed_nil
    | succ k ih => exact hminus.append ih
  exact hsigns.append (sealed_of_isLexeme (Token.isLexeme_number_iff.2 ⟨false, numeral, rfl, hn⟩))

theorem HealthGate.WellFormed.sealed {h : HealthGate} (hform : h.WellFormed) :
    Sealed h.value.toList := by
  rcases hform with hsigned | ⟨low, high, hlow, hhigh, hvalue⟩
  · exact hsigned.sealed
  · rw [hvalue]
    exact hlow.sealed.append hhigh.isSigned.sealed

theorem SkillLine.WellFormed.sealed {line : SkillLine} (h : line.WellFormed) :
    Sealed line.render.toList := by
  have hat : Sealed ['@'] := sealed_symbol rfl
  have htilde : Sealed ['~'] := sealed_symbol rfl
  have hquestion : Sealed ['?'] := sealed_symbol rfl
  rw [SkillLine.render, String.toList_ofList]
  refine .joinWith sealed_gap fun text htext => ?_
  simp only [SkillLine.parts, List.mem_append, List.mem_singleton, Option.mem_toList,
    Option.map_eq_some_iff, List.mem_map] at htext
  rcases htext with ((((rfl | ⟨t, ht, rfl⟩) | ⟨t, ht, rfl⟩) | ⟨c, hc, rfl⟩) | ⟨g, hg, rfl⟩) |
    ⟨x, hx, rfl⟩
  · exact (sealed_of_isWord h.mechanic).append (sealed_renderOption h.parameters)
  · obtain ⟨hkind, hoptions⟩ := h.targeter t ht
    exact hat.append ((sealed_of_isWord hkind).append (sealed_renderOption hoptions))
  · exact htilde.append (sealed_of_isWord (h.trigger t ht).isWord_display)
  · exact hquestion.append (h.conditions c hc).sealed
  · have hsign : Sealed [g.comparison.symbol] := by cases g.comparison <;> exact sealed_symbol rfl
    exact hsign.append (h.health g hg).sealed
  · obtain ⟨negative, m, rfl, -⟩ := exists_finite_of_inUnitRange (h.chance x hx).1
    exact sealed_of_isLexeme (Binary64.pointed_lexeme negative m).1

end MobSkills
