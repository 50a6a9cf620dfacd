import Mathlib.Data.List.TakeWhile
import MobSkills.Proofs.Line.Scan
import MobSkills.Proofs.Number.ReadBack

/-!
# Texts that are one token

A lexeme is a text that the scan takes as one token from end to end. Every token of
a scan has a lexeme as its text, and a lexeme is taken again wherever it is followed
by what its kind cannot take. Words, numbers and symbols are described by their
characters.
-/
namespace MobSkills.Token

open Binary64 (signText)

/-- The text is one token of the kind from end to end. -/
def IsLexeme (kind : TokenKind) : List Char → Prop
  | [] => False
  | c :: r => step c r = .token kind r []

/-- A letter, and then letters, digits, underscores, colons and minus signs. -/
def IsWord (s : List Char) : Prop :=
  ∃ c r, s = c :: r ∧ c.isAlpha = true ∧ ∀ d ∈ r, isWordChar d = true

theorem isWord_cons {c : Char} {r : List Char} :
    IsWord (c :: r) ↔ c.isAlpha = true ∧ ∀ d ∈ r, isWordChar d = true := by
  constructor
  · intro h
    obtain ⟨d, t, he, hd, ht⟩ := h
    cases he
    exact ⟨hd, ht⟩
  · intro h
    obtain ⟨hc, hr⟩ := h
    exact ⟨c, r, rfl, hc, hr⟩

instance : (s : List Char) → Decidable (IsWord s)
  | [] => isFalse fun ⟨_, _, h, _⟩ => by cases h
  | c :: r => decidable_of_iff (c.isAlpha = true ∧ r.all isWordChar = true)
      (by rw [isWord_cons, List.all_eq_true])

theorem isWordChar_of_isWord {s : List Char} (h : IsWord s) {c : Char} (hc : c ∈ s) :
    isWordChar c = true := by
  obtain ⟨d, r, rfl, hd, hr⟩ := h
  rcases List.mem_cons.1 hc with rfl | hc
  · simp [isWordChar, Char.isAlphanum, hd]
  · exact hr c hc

theorem isWord_append {s t : List Char} (hs : IsWord s) (ht : ∀ c ∈ t, isWordChar c = true) :
    IsWord (s ++ t) := by
  obtain ⟨c, r, rfl, hc, hr⟩ := hs
  refine ⟨c, r ++ t, rfl, hc, ?_⟩
  intro d hd
  rcases List.mem_append.1 hd with hd | hd
  · exact hr d hd
  · exact ht d hd

/-- The part of a word before a character that cannot begin one. -/
theorem isWord_of_append {s t : List Char} {c : Char} (h : IsWord (s ++ c :: t))
    (hc : c.isAlpha = false) : IsWord s := by
  cases s with
  | nil =>
    have hfirst := (isWord_cons.1 h).1
    rw [hc] at hfirst
    cases hfirst
  | cons d s =>
    obtain ⟨hd, hr⟩ := isWord_cons.1 h
    refine isWord_cons.2 ⟨hd, ?_⟩
    intro e he
    exact hr e (List.mem_append_left _ he)

/-- Nothing, or a point and digits. -/
def IsFraction (s : List Char) : Prop :=
  s = [] ∨ ∃ digits, digits ≠ [] ∧ AllDigits digits ∧ s = '.' :: digits

def IsPercent (s : List Char) : Prop :=
  s = [] ∨ s = ['%']

/-- Digits with an optional fraction and an optional percent sign. -/
def IsNumeral (s : List Char) : Prop :=
  ∃ whole fraction percent, s = whole ++ (fraction ++ percent) ∧
    whole ≠ [] ∧ AllDigits whole ∧ IsFraction fraction ∧ IsPercent percent

/-- What may follow the first digit of a numeral. -/
def IsNumeralTail (s : List Char) : Prop :=
  ∃ whole fraction percent, s = whole ++ (fraction ++ percent) ∧
    AllDigits whole ∧ IsFraction fraction ∧ IsPercent percent

/-! ## Numbers -/

theorem isNumeral_cons {c : Char} {s : List Char} (hc : c.isDigit = true) (hs : IsNumeralTail s) :
    IsNumeral (c :: s) := by
  obtain ⟨whole, fraction, percent, rfl, hw, hf, hp⟩ := hs
  exact ⟨c :: whole, fraction, percent, rfl, by simp, hw.cons hc, hf, hp⟩

theorem exists_cons_of_isNumeral {s : List Char} (hs : IsNumeral s) :
    ∃ c r, s = c :: r ∧ c.isDigit = true ∧ IsNumeralTail r := by
  obtain ⟨whole, fraction, percent, rfl, hn, hw, hf, hp⟩ := hs
  obtain ⟨c, r, rfl⟩ := List.exists_cons_of_ne_nil hn
  exact ⟨c, r ++ (fraction ++ percent), rfl, hw c (List.mem_cons_self ..),
    r, fraction, percent, rfl, fun d hd => hw d (List.mem_cons_of_mem c hd), hf, hp⟩

theorem IsNumeralTail.isNumeral {c : Char} {r : List Char} (h : IsNumeralTail (c :: r))
    (hc : c.isDigit = true) : IsNumeral (c :: r) := by
  obtain ⟨whole, fraction, percent, he, hw, hf, hp⟩ := h
  refine ⟨whole, fraction, percent, he, ?_, hw, hf, hp⟩
  rintro rfl
  have hhead : c = '.' ∨ c = '%' := by
    rcases hf with rfl | ⟨digits, -, -, rfl⟩
    · rcases hp with rfl | rfl
      · cases he
      · exact .inr (List.cons.inj he).1
    · exact .inl (List.cons.inj he).1
  rcases hhead with rfl | rfl <;> cases hc

theorem IsNumeral.tail {s : List Char} (hs : IsNumeral s) : IsNumeralTail s := by
  obtain ⟨whole, fraction, percent, he, -, hw, hf, hp⟩ := hs
  exact ⟨whole, fraction, percent, he, hw, hf, hp⟩

theorem startsWithDigit_of_isNumeral {s : List Char} (hs : IsNumeral s) :
    startsWithDigit s = true := by
  obtain ⟨c, r, rfl, hc, -⟩ := exists_cons_of_isNumeral hs
  exact hc

theorem allDigits_takeWhile (s : List Char) : AllDigits (s.takeWhile Char.isDigit) :=
  List.all_eq_true.1 List.all_takeWhile

theorem isFraction_splitFraction (s : List Char) : IsFraction (splitFraction s).1 := by
  unfold splitFraction
  split
  · split
    · rename_i d r hd
      exact .inr ⟨_, by simp, (allDigits_takeWhile r).cons hd, rfl⟩
    · exact .inl rfl
  · exact .inl rfl

theorem isPercent_splitPercent (s : List Char) : IsPercent (splitPercent s).1 := by
  unfold splitPercent
  split
  · exact .inr rfl
  · exact .inl rfl

theorem isNumeralTail_splitNumber (s : List Char) : IsNumeralTail (splitNumber s).1 :=
  ⟨s.takeWhile Char.isDigit, _, _, List.append_assoc .., allDigits_takeWhile s,
    isFraction_splitFraction _, isPercent_splitPercent _⟩

theorem splitNumber_of_tail {s : List Char} (hs : IsNumeralTail s) : splitNumber s = (s, []) := by
  obtain ⟨whole, fraction, percent, rfl, hw, hf, hp⟩ := hs
  have hpercent : splitPercent percent = (percent, []) := by
    rcases hp with rfl | rfl <;> rfl
  have hdigit : ∀ c ∈ percent.head?, c.isDigit = false := by
    intro c hc
    rcases hp with rfl | rfl
    · cases hc
    · cases hc
      rfl
  have hfraction : splitFraction (fraction ++ percent) = (fraction, percent) := by
    rcases hf with rfl | ⟨digits, hn, hd, rfl⟩
    · rcases hp with rfl | rfl <;> rfl
    · obtain ⟨c, r, rfl⟩ := List.exists_cons_of_ne_nil hn
      have hr : AllDigits r := fun d hd' => hd d (List.mem_cons_of_mem c hd')
      simp only [List.cons_append, splitFraction, hd c (List.mem_cons_self ..), ↓reduceIte,
        takeWhile_append_stop hdigit, dropWhile_append_stop hdigit,
        List.takeWhile_eq_self_iff.2 hr, List.dropWhile_eq_nil_iff.2 hr, List.nil_append]
  have hstop : ∀ c ∈ (fraction ++ percent).head?, c.isDigit = false := by
    intro c hc
    rcases hf with rfl | ⟨digits, -, -, rfl⟩
    · exact hdigit c hc
    · cases hc
      rfl
  simp only [splitNumber, takeWhile_append_stop hstop, dropWhile_append_stop hstop,
    List.takeWhile_eq_self_iff.2 hw, List.dropWhile_eq_nil_iff.2 hw, List.nil_append, hfraction,
    hpercent, List.append_assoc]

theorem isLexeme_number_iff {s : List Char} :
    IsLexeme .number s ↔
      ∃ negative numeral, s = signText negative ++ numeral ∧ IsNumeral numeral := by
  constructor
  · intro h
    cases s with
    | nil => cases h
    | cons c r =>
      rcases step_eq_token h with ⟨hk, -⟩ | ⟨-, hn, hs⟩ | ⟨hk, -⟩ | ⟨hk, -⟩
      · cases hk
      · have htail := isNumeralTail_splitNumber r
        rw [hs] at htail
        rcases hn with hc | ⟨rfl, hd⟩
        · exact ⟨false, c :: r, rfl, isNumeral_cons hc htail⟩
        · cases r with
          | nil => cases hd
          | cons d r => exact ⟨true, d :: r, rfl, htail.isNumeral hd⟩
      · cases hk
      · exact absurd rfl (ofSymbol?_kind hk).2.1
  · intro h
    obtain ⟨negative, numeral, rfl, hn⟩ := h
    cases negative with
    | false =>
      obtain ⟨c, r, rfl, hc, hr⟩ := exists_cons_of_isNumeral hn
      show step c r = .token .number r []
      rw [step_number (.inl hc), splitNumber_of_tail hr]
    | true =>
      show step '-' numeral = .token .number numeral []
      rw [step_number (.inr ⟨rfl, startsWithDigit_of_isNumeral hn⟩), splitNumber_of_tail hn.tail]

/-! ## Words and symbols -/

theorem isLexeme_identifier_iff {s : List Char} : IsLexeme .identifier s ↔ IsWord s := by
  constructor
  · intro h
    cases s with
    | nil => cases h
    | cons c r =>
      rcases step_eq_token h with ⟨hk, -⟩ | ⟨hk, -⟩ | ⟨-, ha, hs⟩ | ⟨hk, -⟩
      · cases hk
      · cases hk
      · exact ⟨c, r, rfl, ha, List.takeWhile_eq_self_iff.1 (Prod.mk.inj hs).1⟩
      · exact absurd rfl (ofSymbol?_kind hk).1
  · intro h
    obtain ⟨c, r, rfl, ha, hr⟩ := h
    show step c r = .token .identifier r []
    rw [step_isAlpha ha, splitWord, List.takeWhile_eq_self_iff.2 hr, List.dropWhile_eq_nil_iff.2 hr]

theorem isLexeme_symbol {c : Char} {kind : TokenKind} (h : TokenKind.ofSymbol? c = some kind) :
    IsLexeme kind [c] :=
  step_ofSymbol? h fun _ => rfl

theorem splitString_self {quote : Char} {s body rest : List Char}
    (h : splitString quote s = some (body, rest)) : splitString quote body = some (body, []) := by
  fun_induction splitString quote s generalizing body with
  | case1 => simp at h
  | case2 => simp at h
  | case3 d r' ih =>
    obtain ⟨⟨x, t⟩, hx, he⟩ := Option.map_eq_some_iff.1 h
    obtain ⟨rfl, rfl⟩ := Prod.mk.inj he
    simp [splitString, ih hx]
  | case4 r hc =>
    obtain ⟨rfl, rfl⟩ := Prod.mk.inj (Option.some.inj h)
    exact splitString_close hc _
  | case5 c r hc hq ih =>
    obtain ⟨⟨x, t⟩, hx, he⟩ := Option.map_eq_some_iff.1 h
    obtain ⟨rfl, rfl⟩ := Prod.mk.inj he
    rw [splitString_other hc hq, ih hx]
    rfl

/-! ## Lexemes in a text -/

/-- What a token takes is a lexeme. -/
theorem isLexeme_of_step {c : Char} {r tail rest : List Char} {kind : TokenKind}
    (h : step c r = .token kind tail rest) : IsLexeme kind (c :: tail) := by
  rcases step_eq_token h with ⟨rfl, hq, hs⟩ | ⟨rfl, hn, hs⟩ | ⟨rfl, ha, hs⟩ | ⟨hk, hm, rfl, rfl⟩
  · exact step_isQuote hq (splitString_self hs)
  · have htail := isNumeralTail_splitNumber r
    rw [hs] at htail
    apply isLexeme_number_iff.2
    rcases hn with hc | ⟨rfl, hd⟩
    · exact ⟨false, c :: tail, rfl, isNumeral_cons hc htail⟩
    · have happ := splitNumber_append r
      rw [hs] at happ
      cases r with
      | nil => cases hd
      | cons d r =>
        have hsplit : (d :: r).takeWhile Char.isDigit = d :: r.takeWhile Char.isDigit :=
          List.takeWhile_cons_of_pos hd
        have hfirst := (Prod.mk.inj hs).1
        rw [hsplit] at hfirst
        subst hfirst
        exact ⟨true, _, rfl, htail.isNumeral hd⟩
  · refine isLexeme_identifier_iff.2 ⟨c, tail, rfl, ha, ?_⟩
    rw [← (Prod.mk.inj hs).1]
    exact List.all_eq_true.1 List.all_takeWhile
  · exact isLexeme_symbol hk

theorem Cut.isLexeme {p : Nat} {s : List Char} {ts : List Token} (h : Cut p s ts) :
    ∀ t ∈ ts, IsLexeme t.kind t.text.toList := by
  induction h with
  | done p =>
    intro t ht
    simp at ht
  | gap _ _ ih => exact ih
  | token h _ ih =>
    intro t ht
    rcases List.mem_cons.1 ht with rfl | ht
    · simpa using isLexeme_of_step h
    · exact ih t ht

theorem IsLexeme.kind_ne_endOfInput {kind : TokenKind} {s : List Char} (h : IsLexeme kind s) :
    kind ≠ .endOfInput := by
  rintro rfl
  cases s with
  | nil => cases h
  | cons c r =>
    rcases step_eq_token h with ⟨hk, -⟩ | ⟨hk, -⟩ | ⟨hk, -⟩ | ⟨hk, -⟩
    · cases hk
    · cases hk
    · cases hk
    · exact (ofSymbol?_kind hk).2.2.2 rfl

theorem IsLexeme.isWord {t : Token} (h : IsLexeme t.kind t.text.toList)
    (hk : t.kind = .identifier) : IsWord t.text.toList := by
  rw [hk] at h
  exact isLexeme_identifier_iff.1 h

theorem IsLexeme.cut_append {kind : TokenKind} {s b : List Char} {p : Nat} {ts : List Token}
    (h : IsLexeme kind s) (hb : Stops kind b) (hr : Cut (p + Text.byteLength s) b ts) :
    Cut p (s ++ b) (⟨kind, String.ofList s, p⟩ :: ts) := by
  cases s with
  | nil => cases h
  | cons c r => exact .token (step_append_stop h hb) hr

/-- A lexeme of a symbol's kind is that symbol. -/
theorem IsLexeme.eq_symbol {kind : TokenKind} {s : List Char} {c : Char} (h : IsLexeme kind s)
    (hc : TokenKind.ofSymbol? c = some kind) : s = [c] := by
  obtain ⟨hi, hn, hs, -⟩ := ofSymbol?_kind hc
  cases s with
  | nil => cases h
  | cons d r =>
    rcases step_eq_token h with ⟨hk, -⟩ | ⟨hk, -⟩ | ⟨hk, -⟩ | ⟨hk, -, rfl, -⟩
    · exact absurd hk hs
    · exact absurd hk hn
    · exact absurd hk hi
    · rw [ofSymbol?_injective hk hc]

end MobSkills.Token
