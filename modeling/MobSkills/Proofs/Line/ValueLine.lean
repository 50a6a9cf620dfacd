import MobSkills.Proofs.Line.Acceptance
import MobSkills.Proofs.Line.GroupText
import MobSkills.Proofs.Line.Tiling

/-!
# Lines with one parameter

What a text is read as when it stands for the value of a parameter and the line has nothing
else. A text that spells a value is read as it. In the other direction only so much is
said: a value that was read comes from tokens of the line, and such a token has no
character oftener than the text has it, but for the few that stand around the text.
-/
namespace MobSkills

open Token (Spells Cut IsWord Parted parted_cons)

/-! ## What a value is read from -/

namespace Reading

theorem decodeEscapes_sublist (s : List Char) : (decodeEscapes s).Sublist s := by
  fun_induction decodeEscapes s with
  | case1 => exact .slnil
  | case2 => exact List.nil_sublist _
  | case3 d r ih => exact (ih.cons_cons d).cons _
  | case4 c r _ ih => exact ih.cons_cons c

/-- What a quoted text stands for comes after its opening quote. -/
theorem unquote_sublist {text : String} {quote : Char} {r : List Char}
    (h : text.toList = quote :: r) : (unquote text).toList.Sublist r := by
  simp only [unquote, h, String.toList_ofList]
  split
  · exact (decodeEscapes_sublist _).trans (List.dropLast_sublist r)
  · exact decodeEscapes_sublist r

/-- A number stands for its own text, for an integer, or for a real if it has a point. -/
theorem numberValue_cases (text : String) :
    numberValue text = .text text ∨ (∃ i, numberValue text = .integer i) ∨
      ∃ x, numberValue text = .real x ∧ '.' ∈ text.toList := by
  unfold numberValue
  dsimp only
  split
  · exact .inl rfl
  split
  · rename_i hpoint
    split
    · exact .inr (.inr ⟨_, rfl, List.contains_iff_mem.1 hpoint⟩)
    · exact .inl rfl
  · split
    · exact .inr (.inl ⟨_, rfl⟩)
    · exact .inl rfl

end Reading

namespace Grammar

theorem EntryOf.exists_valueOf {ts : List Token} {e : String × Value} (h : EntryOf ts e) :
    ∃ vs, (∀ t ∈ vs, t ∈ ts) ∧ ValueOf vs e.2 := by
  cases h with
  | mk _ _ hv => exact ⟨_, fun t ht => by simp [ht], hv⟩

theorem EntriesOf.exists_valueOf {ts : List Token} {es : List (String × Value)}
    {e : String × Value} (h : EntriesOf ts es) (he : e ∈ es) :
    ∃ vs, (∀ t ∈ vs, t ∈ ts) ∧ ValueOf vs e.2 := by
  induction h with
  | last h _ =>
    obtain rfl := List.mem_singleton.1 he
    obtain ⟨vs, hsub, hv⟩ := h.exists_valueOf
    exact ⟨vs, fun t ht => List.mem_append_left _ (hsub t ht), hv⟩
  | cons h _ _ ih =>
    rcases List.mem_cons.1 he with rfl | he
    · obtain ⟨vs, hsub, hv⟩ := h.exists_valueOf
      exact ⟨vs, fun t ht => List.mem_append_left _ (hsub t ht), hv⟩
    · obtain ⟨vs, hsub, hv⟩ := ih he
      exact ⟨vs, fun t ht => by simp [hsub t ht], hv⟩

/-- Every parameter of a line has its value from tokens of the line. -/
theorem ParsedAs.exists_valueOf {ts : List Token} {line : SkillLine} {p : Params}
    {e : String × Value} (h : ParsedAs ts line) (hp : line.parameters = some p)
    (he : e ∈ p.entries) : ∃ vs, (∀ t ∈ vs, t ∈ ts) ∧ ValueOf vs e.2 := by
  obtain ⟨⟨_, _, hgroup, _, _, _⟩, _⟩ := h
  obtain rfl := hp
  cases hgroup with
  | entries _ _ hentries =>
    obtain ⟨vs, hsub, hv⟩ := hentries.exists_valueOf (Params.mem_of_mem_ofList he)
    exact ⟨vs, fun t ht => by simp [hsub t ht], hv⟩

end Grammar

open Grammar

/-! ## Texts with something around them -/

section
variable {p : Nat} {a s b : List Char} {ts : List Token} {t : Token}

/-- A character that does not stand around the text is in a token no oftener than in the
text. -/
theorem Token.Cut.count_le {c : Char} (h : Cut p (a ++ s ++ b) ts) (ht : t ∈ ts)
    (hc : c ∉ a ++ b) : t.text.toList.count c ≤ s.count c := by
  obtain ⟨before, after, happ, -⟩ := h.tiles.written t ht
  have hall := congrArg (List.count c) happ
  have hnone := List.count_eq_zero.2 hc
  simp only [List.count_append] at hall hnone
  omega

/-- A string does not stand for the text it is a part of, since it has quotes around it. -/
theorem Token.Cut.unquote_ne (h : Cut p (a ++ s ++ b) ts) (ht : t ∈ ts) (hk : t.kind = .string)
    (hquote : (a ++ b).any isQuote = false) : (Reading.unquote t.text).toList ≠ s := by
  rintro rfl
  obtain ⟨_, _, -, -, -, hshape⟩ := h.tiles.written t ht
  rw [hk] at hshape
  obtain ⟨quote, body, hq, -, htext⟩ := hshape
  have hframe : quote ∉ a ++ b := fun hmem => List.any_eq_false.1 hquote quote hmem hq
  have hle := h.count_le ht hframe
  have hless := (Reading.unquote_sublist htext).count_le quote
  rw [htext, List.count_cons_self] at hle
  exact absurd hle (Nat.not_le_of_lt (Nat.lt_succ_of_le hless))

end

/-! ## The value of the only parameter -/

theorem spells_parameter {mechanic key : String} {value : List Char} {v : Value}
    (hm : IsWord mechanic.toList) (hk : IsWord key.toList)
    (hv : Spells value fun ts => ValueOf ts v) :
    Spells (mechanic.toList ++ '\x7b' :: (key.toList ++ '=' :: value ++ ['\x7d'])) fun ts =>
      HeadOf ts { mechanic, parameters := some ⟨[(key, v)]⟩ } := by
  have hentries : Spells (key.toList ++ '=' :: value) fun ts => EntriesOf ts [(key, v)] :=
    (spells_entry hk hv).mono fun ts hts => hts.entriesOf
  have hclosed := hentries.closed rfl (parted_cons (c := '\x7d') rfl (by decide) (by decide))
  have hgroup : Spells ('\x7b' :: (key.toList ++ '=' :: value ++ ['\x7d'])) fun ts =>
      GroupOf ts (some ⟨[(key, v)]⟩) := by
    refine .symbol rfl (by decide) hclosed fun o _ ho h => ?_
    obtain ⟨us, c, rfl, hc, hus⟩ := h
    exact .entries ho hc hus
  have hparted : Parted ('\x7b' :: (key.toList ++ '=' :: value ++ ['\x7d'])) :=
    parted_cons rfl (by decide) (by decide)
  refine .lexeme (Token.isLexeme_identifier_iff.2 hm) hgroup (hparted.stops _) ?_
  intro n us hn htext hus
  have hhead := HeadOf.mk .absent hn hus .absent .absent .nil
  simpa [String.toList_injective htext] using hhead

/-- The line that gives the text to its only parameter. -/
def valueLine (s : List Char) : String :=
  String.ofList ("m\x7bk=".toList ++ s ++ ['\x7d'])

theorem toList_valueLine (s : List Char) :
    (valueLine s).toList = "m\x7bk=".toList ++ s ++ ['\x7d'] :=
  String.toList_ofList

/-- The line with the text parses without errors and warnings, and its only parameter has
the value. -/
def ReadsAs (options : ParseOptions) (s : List Char) (v : Value) : Prop :=
  ∃ line, SkillLine.parse options (valueLine s) = .ok ⟨line, [], []⟩ ∧
    line.parameters = some ⟨[("k", v)]⟩

section
variable {options : ParseOptions} {s : List Char} {v w : Value}

theorem readsAs_of_spells (options : ParseOptions) (h : Spells s fun ts => ValueOf ts v) :
    ReadsAs options s v := by
  have hm : IsWord "m".toList := by decide
  have hk : IsWord "k".toList := by decide
  obtain ⟨ts, hcut, hhead⟩ := spells_parameter hm hk h 0
  have hline : Cut 0 (valueLine s).toList ts := by
    rw [toList_valueLine]
    simpa using hcut
  exact ⟨_, (parse_eq_clean_iff hline).2 hhead.parsedAs, rfl⟩

/-- A text is read as one value at most. -/
theorem ReadsAs.unique (h : ReadsAs options s v) (h' : ReadsAs options s w) : v = w := by
  obtain ⟨line, hparse, hv⟩ := h
  obtain ⟨line', hparse', hw⟩ := h'
  cases hparse.symm.trans hparse'
  simpa using hv.symm.trans hw

theorem ReadsAs.exists_valueOf (h : ReadsAs options s v) :
    ∃ ts vs, Cut 0 ("m\x7bk=".toList ++ s ++ ['\x7d']) ts ∧ (∀ t ∈ vs, t ∈ ts) ∧ ValueOf vs v := by
  obtain ⟨line, hparse, hv⟩ := h
  obtain ⟨ts, hcut, hparsed⟩ := exists_cut_of_parse hparse
  obtain ⟨vs, hsub, hvalue⟩ := hparsed.exists_valueOf (e := ("k", v)) hv (by simp)
  rw [toList_valueLine] at hcut
  exact ⟨ts, vs, hcut, hsub, hvalue⟩

/-- No real is read from a text without a point. -/
theorem ReadsAs.mem_point {x : Binary64} (h : ReadsAs options s (.real x)) : '.' ∈ s := by
  obtain ⟨ts, vs, hcut, hsub, hv⟩ := h.exists_valueOf
  generalize hreal : Value.real x = v at hv
  cases hv with
  | text _ => cases hreal
  | @number t _ =>
    rcases Reading.numberValue_cases t.text with h | ⟨i, h⟩ | ⟨y, -, hpoint⟩
    · cases hreal.trans h
    · cases hreal.trans h
    · have hle := hcut.count_le (hsub t (by simp)) (c := '.') (by decide)
      exact List.count_pos_iff.1 (Nat.lt_of_lt_of_le (List.count_pos_iff.2 hpoint) hle)
  | @word t _ =>
    unfold Reading.wordValue at hreal
    split at hreal <;> cases hreal
  | list _ _ _ => cases hreal

end

end MobSkills
