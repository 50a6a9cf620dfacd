import Mathlib.Data.List.Forall2
import MobSkills.Line.Render
import MobSkills.Proofs.Line.Braces

/-!
# Written values

The canonical text of a value spells the value again: truth values, integers, finite
reals and texts without any condition, lists where their items are single tokens with
balanced brackets. Every value that was read is such a value, unless it is a real too
large to be finite.
-/
namespace MobSkills

open Token (Spells Part IsLexeme IsWord Parted parted_cons parted_nil spaced spaced_cons
  part_spaced)
open Grammar

/-- The text scans as exactly one token, which is the whole of it. -/
def LexesAlone (text : String) (t : Token) : Prop :=
  ∃ last, Token.scan text = .ok [t, last] ∧ t.text = text

/-- A value that a line can hold: reals are finite, and the items of a list are single
tokens whose brackets balance. -/
def Value.WellFormed : Value → Prop
  | .boolean _ | .integer _ | .text _ => True
  | .real x => x.isFinite = true
  | .list items => ∃ ts, List.Forall₂ LexesAlone items ts ∧
      Balanced .openBracket .closeBracket (ts.map Token.kind)

/-! ## Numbers -/

/-- The text of a finite real is a number with a point that reads back as the real. -/
theorem Binary64.pointed_lexeme (negative : Bool) (m : Magnitude) :
    IsLexeme .number (finite negative m).pointed ∧ '.' ∈ (finite negative m).pointed ∧
      (finite negative m).pointed.getLast? ≠ some '%' ∧
      read? (finite negative m).pointed = some (finite negative m) ∧
      (negative = false → (finite negative m).pointed.head? ≠ some '-') := by
  obtain ⟨whole, fraction, htext, hw, hf, hwn, hfn, hread⟩ := exists_pointed negative m
  refine ⟨?_, ?_, ?_, hread, ?_⟩
  · refine Token.isLexeme_number_iff.2 ⟨negative, whole ++ '.' :: fraction, htext, ?_⟩
    exact ⟨whole, '.' :: fraction, [], by simp, hwn, hw, .inr ⟨fraction, hfn, hf, rfl⟩, .inl rfl⟩
  · simp [htext]
  · intro hlast
    rw [htext, ← List.append_assoc, ← List.singleton_append, ← List.append_assoc,
      List.getLast?_append_of_ne_nil _ hfn] at hlast
    exact hf.not_mem (c := '%') rfl (List.mem_of_getLast? hlast)
  · rintro rfl hhead
    obtain ⟨c, r, rfl⟩ := List.exists_cons_of_ne_nil hwn
    rw [htext] at hhead
    obtain rfl : c = '-' := by simpa [signText] using hhead
    exact absurd (hw '-' (List.mem_cons_self ..)) (by decide)

/-- The text of an integer is a number without a point or a percent sign. -/
theorem integer_lexeme (i : Int64) :
    IsLexeme .number (toString i.toInt).toList ∧ '.' ∉ (toString i.toInt).toList ∧
      (toString i.toInt).toList.getLast? ≠ some '%' := by
  have hdigits := AllDigits.toDigits i.toInt.natAbs
  have hmem {c : Char} (hc : c.isDigit = false) (hm : c ≠ '-') :
      c ∉ (toString i.toInt).toList := by
    rw [toList_toString_int, List.mem_append]
    intro h
    rcases h with h | h
    · cases hi : decide (i.toInt < 0) with
      | true =>
        rw [hi] at h
        exact hm (List.mem_singleton.1 h)
      | false =>
        rw [hi] at h
        cases h
    · exact hdigits.not_mem hc h
  refine ⟨?_, hmem rfl (by decide), ?_⟩
  · rw [toList_toString_int]
    refine Token.isLexeme_number_iff.2 ⟨_, _, rfl, ?_⟩
    exact ⟨_, [], [], by simp, Nat.toDigits_ne_nil, hdigits, .inl rfl, .inl rfl⟩
  · intro hlast
    exact hmem (c := '%') rfl (by decide) (List.mem_of_getLast? hlast)

theorem numberValue_pointed {text : String} {negative : Bool} {m : Magnitude}
    (h : text.toList = (Binary64.finite negative m).pointed) :
    Reading.numberValue text = .real (.finite negative m) := by
  obtain ⟨-, hp, hs, hread, -⟩ := Binary64.pointed_lexeme negative m
  simp [Reading.numberValue, h, hp, hs, hread]

theorem numberValue_integer {text : String} {i : Int64}
    (h : text.toList = (toString i.toInt).toList) : Reading.numberValue text = .integer i := by
  obtain ⟨-, hp, hs⟩ := integer_lexeme i
  simp only [Reading.numberValue, h, hs, ↓reduceIte, List.contains_iff_mem, hp,
    readInt64?_toString]

theorem numberValue_percent {text : String} (h : text.toList.getLast? = some '%') :
    Reading.numberValue text = .text text := by
  simp [Reading.numberValue, h]

/-! ## Texts -/

theorem escapeQuoted_cons (c : Char) (s : List Char) :
    escapeQuoted (c :: s) =
      (if c = '"' || c = '\\' then ['\\', c] else [c]) ++ escapeQuoted s :=
  List.flatMap_cons

/-- An escaped text ends at the quote put after it and not before. -/
theorem splitString_escapeQuoted (s rest : List Char) :
    Token.splitString '"' (escapeQuoted s ++ '"' :: rest) =
      some (escapeQuoted s ++ ['"'], rest) := by
  induction s with
  | nil => exact Token.splitString_close (by decide) rest
  | cons c s ih =>
    rw [escapeQuoted_cons]
    by_cases hc : (c = '"' || c = '\\') = true
    · rw [if_pos hc]
      simp [Token.splitString, ih]
    · rw [if_neg hc]
      simp only [Bool.or_eq_true, decide_eq_true_eq, not_or] at hc
      rw [List.append_assoc, List.singleton_append, Token.splitString_other hc.2 hc.1, ih]
      rfl

theorem decodeEscapes_escapeQuoted (s : List Char) :
    Reading.decodeEscapes (escapeQuoted s) = s := by
  induction s with
  | nil => rfl
  | cons c s ih =>
    rw [escapeQuoted_cons]
    by_cases hc : (c = '"' || c = '\\') = true
    · rw [if_pos hc]
      simp [Reading.decodeEscapes, ih]
    · rw [if_neg hc]
      simp only [Bool.or_eq_true, decide_eq_true_eq, not_or] at hc
      cases he : escapeQuoted s with
      | nil =>
        rw [he] at ih
        simp [Reading.decodeEscapes, hc.2, ← ih]
      | cons d r =>
        rw [he] at ih
        simp [Reading.decodeEscapes, hc.2, ih]

theorem unquote_escapeQuoted {text quoted : String}
    (h : quoted.toList = '"' :: (escapeQuoted text.toList ++ ['"'])) :
    Reading.unquote quoted = text := by
  simp only [Reading.unquote, h, List.getLast?_concat, ↓reduceIte, List.dropLast_concat,
    decodeEscapes_escapeQuoted, String.ofList_toList]

theorem scan_of_isLexeme {kind : TokenKind} {text : String} (h : IsLexeme kind text.toList) :
    Token.scan text = .ok [⟨kind, text, 0⟩, Token.endAt (Text.byteLength text.toList)] := by
  have hcut := h.cut_append (p := 0) (Token.stops_nil kind) (.done _)
  rw [List.append_nil, String.ofList_toList] at hcut
  exact Token.scan_eq_ok_iff.2 ⟨_, hcut, rfl⟩

/-- Words that are no truth words are bare, and percentages. -/
theorem isBareText_iff {text : String} : isBareText text = true ↔
    IsWord text.toList ∧ Reading.isTruthWord text = false ∨
      IsLexeme .number text.toList ∧ text.toList.getLast? = some '%' := by
  constructor
  · intro h
    unfold isBareText at h
    split at h
    · rename_i t last hscan
      simp only [Bool.and_eq_true, beq_iff_eq] at h
      obtain ⟨⟨-, htext⟩, hvalue⟩ := h
      have hlex := Token.isLexeme_of_scan hscan htext
      split at hvalue
      · rename_i hword
        rw [hword] at hlex
        exact .inl ⟨Token.isLexeme_identifier_iff.1 hlex, by simpa using hvalue⟩
      · simp only [Bool.and_eq_true, decide_eq_true_eq, beq_iff_eq] at hvalue
        obtain ⟨hnumber, hlast⟩ := hvalue
        rw [hnumber] at hlex
        exact .inr ⟨hlex, hlast⟩
    · cases h
  · intro h
    rcases h with ⟨hword, htruth⟩ | ⟨hlex, hlast⟩
    · have hscan := scan_of_isLexeme (Token.isLexeme_identifier_iff.2 hword)
      simp [isBareText, hscan, Token.endAt, htruth]
    · have hscan := scan_of_isLexeme hlex
      simp [isBareText, hscan, Token.endAt, hlast]

/-- A bare text is one token that is read as that text. -/
theorem exists_valueOf_bare {text : String} (h : isBareText text = true) :
    ∃ kind, IsLexeme kind text.toList ∧
      ∀ t : Token, t.kind = kind → t.text = text → ValueOf [t] (.text text) := by
  rcases isBareText_iff.1 h with ⟨hword, htruth⟩ | ⟨hlex, hlast⟩
  · refine ⟨_, Token.isLexeme_identifier_iff.2 hword, fun t hk ht => ?_⟩
    have hvalue := ValueOf.word hk
    rwa [Reading.wordValue, ht, if_neg (by simp [htruth])] at hvalue
  · refine ⟨_, hlex, fun t hk ht => ?_⟩
    have hvalue := ValueOf.number hk
    rwa [ht, numberValue_percent hlast] at hvalue

/-- A text is written as one token, bare or as a string, that is read as the text. -/
theorem exists_valueOf_renderText (text : String) :
    ∃ kind, IsLexeme kind (renderText text) ∧
      ∀ t : Token, t.kind = kind → t.text.toList = renderText text → ValueOf [t] (.text text) := by
  unfold renderText
  split
  · rename_i hbare
    obtain ⟨kind, hlex, hvalue⟩ := exists_valueOf_bare hbare
    exact ⟨kind, hlex, fun t hk ht => hvalue t hk (String.toList_injective ht)⟩
  · refine ⟨.string, Token.step_isQuote rfl (splitString_escapeQuoted text.toList []),
      fun t hk ht => ?_⟩
    have hvalue := ValueOf.text hk
    rwa [unquote_escapeQuoted ht] at hvalue

theorem spells_renderText (text : String) :
    Spells (renderText text) fun ts => ValueOf ts (.text text) := by
  obtain ⟨kind, hlex, hvalue⟩ := exists_valueOf_renderText text
  exact .single hlex hvalue

/-! ## Lists -/

theorem joinWith_cons (separator a : List Char) (rest : List (List Char)) :
    joinWith separator (a :: rest) = a ++ rest.flatMap (separator ++ ·) := by
  induction rest generalizing a with
  | nil => simp [joinWith]
  | cons b rest ih =>
    have hb := ih b
    simp only [joinWith] at hb ⊢
    rw [List.intersperse_cons_cons, List.flatten_cons, List.flatten_cons, hb, List.flatMap_cons,
      List.append_assoc]

theorem isLexeme_of_lexesAlone {text : String} {t : Token} (h : LexesAlone text t) :
    IsLexeme t.kind text.toList := by
  obtain ⟨last, hscan, ht⟩ := h
  exact Token.isLexeme_of_scan hscan ht

theorem lexesAlone_of_isLexeme {kind : TokenKind} {text : String}
    (h : IsLexeme kind text.toList) : LexesAlone text ⟨kind, text, 0⟩ :=
  ⟨_, scan_of_isLexeme h, rfl⟩

/-- Items with a space before each are spelled one by one. -/
theorem part_items {items : List String} {ts : List Token}
    (h : List.Forall₂ LexesAlone items ts) :
    Part (spaced (items.map String.toList)) fun us =>
      us.map Token.kind = ts.map Token.kind ∧ us.map Token.text = items := by
  induction h with
  | nil => exact ⟨.nil ⟨rfl, rfl⟩, parted_nil⟩
  | @cons i t items ts hi _ ih =>
    have hfirst : Spells i.toList fun us => ∃ u, us = [u] ∧ u.kind = t.kind ∧ u.text = i :=
      .single (isLexeme_of_lexesAlone hi) fun u hk ht => ⟨u, rfl, hk, String.toList_injective ht⟩
    rw [List.map_cons, spaced_cons]
    apply ((part_spaced hfirst).seq ih).mono
    intro us h
    obtain ⟨_, vs, rfl, ⟨u, rfl, hk, ht⟩, hkinds, htexts⟩ := h
    simp [hk, ht, hkinds, htexts]

theorem spells_items {items : List String} {ts : List Token}
    (h : List.Forall₂ LexesAlone items ts) :
    Spells (joinWith [' '] (items.map String.toList)) fun us =>
      us.map Token.kind = ts.map Token.kind ∧ us.map Token.text = items := by
  cases h with
  | nil => exact .nil ⟨rfl, rfl⟩
  | @cons i t items ts hi hrest =>
    have hmore := part_items hrest
    rw [List.map_cons, joinWith_cons]
    refine .lexeme (isLexeme_of_lexesAlone hi) hmore.spells (hmore.parted.stops _) ?_
    intro u vs hk ht h
    obtain ⟨hkinds, htexts⟩ := h
    simp [hk, String.toList_injective ht, hkinds, htexts]

theorem spells_renderList {items : List String} {ts : List Token}
    (h : List.Forall₂ LexesAlone items ts)
    (hb : Balanced .openBracket .closeBracket (ts.map Token.kind)) :
    Spells (Value.list items).render fun us => ValueOf us (.list items) := by
  have hparted : Parted [']'] := parted_cons rfl (by decide) (by decide)
  refine .symbol rfl (by decide) ((spells_items h).closed rfl hparted) ?_
  intro o _ ho h
  obtain ⟨vs, c, rfl, hc, hkinds, htexts⟩ := h
  have hvalue := ValueOf.list ho hc (hkinds ▸ hb)
  rwa [htexts] at hvalue

theorem spells_word {text : String} (h : IsWord text.toList) :
    Spells text.toList fun ts => ValueOf ts (Reading.wordValue text) := by
  refine .single (Token.isLexeme_identifier_iff.2 h) fun t hk ht => ?_
  rw [← String.toList_injective ht]
  exact .word hk

theorem spells_number {text : String} (h : IsLexeme .number text.toList) :
    Spells text.toList fun ts => ValueOf ts (Reading.numberValue text) := by
  refine .single h fun t hk ht => ?_
  rw [← String.toList_injective ht]
  exact .number hk

theorem spells_renderValue {v : Value} (h : v.WellFormed) :
    Spells v.render fun ts => ValueOf ts v := by
  cases v with
  | boolean b =>
    cases b with
    | true =>
      have hword : IsWord "true".toList := by decide
      exact spells_word hword
    | false =>
      have hword : IsWord "false".toList := by decide
      exact spells_word hword
  | integer i =>
    refine .single (integer_lexeme i).1 fun t hk ht => ?_
    have hvalue := ValueOf.number hk
    rwa [numberValue_integer ht] at hvalue
  | real x =>
    cases x with
    | nan => cases h
    | infinity negative => cases h
    | finite negative m =>
      refine .single (Binary64.pointed_lexeme negative m).1 fun t hk ht => ?_
      have hvalue := ValueOf.number hk
      rwa [numberValue_pointed ht] at hvalue
  | text s => exact spells_renderText s
  | list items =>
    obtain ⟨ts, hts, hb⟩ := h
    exact spells_renderList hts hb

/-! ## Values that were read -/

theorem wellFormed_of_valueOf {ts : List Token} {v : Value} (h : ValueOf ts v)
    (hl : ∀ t ∈ ts, IsLexeme t.kind t.text.toList)
    (hf : ∀ x, v = .real x → x.isFinite = true) : v.WellFormed := by
  cases h with
  | text _ => trivial
  | @number t _ =>
    unfold Reading.numberValue at hf ⊢
    dsimp only at hf ⊢
    split
    · trivial
    split
    · split
      · exact hf _ (by simp_all)
      · trivial
    · split <;> trivial
  | @word t _ =>
    unfold Reading.wordValue
    split <;> trivial
  | @list o c inner ho hc hb =>
    refine ⟨inner.map fun t => ⟨t.kind, t.text, 0⟩, ?_, ?_⟩
    · rw [List.forall₂_map_left_iff, List.forall₂_map_right_iff, List.forall₂_same]
      exact fun t ht => lexesAlone_of_isLexeme (hl t (by simp [ht]))
    · simpa [Function.comp_def] using hb

end MobSkills
