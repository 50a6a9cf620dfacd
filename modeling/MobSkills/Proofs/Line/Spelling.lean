import MobSkills.Proofs.Line.Lexeme

/-!
# Texts and the tokens they spell

A text spells tokens with a property when it is cut into such tokens wherever it
stands. Spellings are put together from lexemes and from parts that a separator
starts; no part has to be scanned twice. Positions are left open, since no phrase of
the grammar depends on them.
-/
namespace MobSkills.Token

/-- From every offset on, the text is cut into tokens with the property. -/
def Spells (s : List Char) (P : List Token → Prop) : Prop :=
  ∀ p, ∃ ts, Cut p s ts ∧ P ts

namespace Spells
variable {a b s : List Char} {P Q R : List Token → Prop} {kind : TokenKind}

theorem nil (h : P []) : Spells [] P :=
  fun p => ⟨[], .done p, h⟩

theorem mono (h : Spells s P) (hpq : ∀ ts, P ts → Q ts) : Spells s Q := by
  intro p
  obtain ⟨ts, hts, hp⟩ := h p
  exact ⟨ts, hts, hpq ts hp⟩

theorem append (ha : Spells a P) (hb : Spells b Q) (hp : Parted b)
    (hr : ∀ us vs, P us → Q vs → R (us ++ vs)) : Spells (a ++ b) R := by
  intro p
  obtain ⟨us, hus, hpu⟩ := ha p
  obtain ⟨vs, hvs, hqv⟩ := hb (p + Text.byteLength a)
  exact ⟨us ++ vs, hus.append hp hvs, hr us vs hpu hqv⟩

/-- A lexeme and what follows it. -/
theorem lexeme (h : IsLexeme kind s) (hb : Spells b Q) (hs : Stops kind b)
    (hr : ∀ t vs, t.kind = kind → t.text.toList = s → Q vs → R (t :: vs)) :
    Spells (s ++ b) R := by
  intro p
  obtain ⟨vs, hvs, hq⟩ := hb (p + Text.byteLength s)
  exact ⟨_, h.cut_append hs hvs, hr _ vs rfl (String.toList_ofList ..) hq⟩

theorem single (h : IsLexeme kind s)
    (hr : ∀ t : Token, t.kind = kind → t.text.toList = s → P [t]) : Spells s P := by
  have hall : Spells (s ++ []) P := by
    have hnil : Spells [] (· = []) := nil rfl
    refine lexeme h hnil (stops_nil kind) ?_
    rintro t _ hk ht rfl
    exact hr t hk ht
  rwa [List.append_nil] at hall

/-- A symbol other than the minus sign, which a digit could follow. -/
theorem symbol {c : Char} (h : TokenKind.ofSymbol? c = some kind) (hk : kind ≠ .minus)
    (hb : Spells b Q) (hr : ∀ t vs, t.kind = kind → Q vs → R (t :: vs)) :
    Spells (c :: b) R := by
  have hstops : Stops kind b := by
    intro d hd
    obtain ⟨hi, hn, -⟩ := ofSymbol?_kind h
    cases kind with
    | identifier => exact absurd rfl hi
    | number => exact absurd rfl hn
    | minus => exact absurd rfl hk
    | _ => trivial
  exact lexeme (isLexeme_symbol h) hb hstops fun t vs hk _ hq => hr t vs hk hq

/-- A part and the symbol that closes it. -/
theorem closed {c : Char} (h : TokenKind.ofSymbol? c = some kind) (ha : Spells a P)
    (hc : Parted [c]) :
    Spells (a ++ [c]) fun ts => ∃ us t, ts = us ++ [t] ∧ t.kind = kind ∧ P us := by
  have hend : Spells [c] fun ts => ∃ t : Token, ts = [t] ∧ t.kind = kind :=
    single (isLexeme_symbol h) fun t hk _ => ⟨t, rfl, hk⟩
  apply ha.append hend hc
  intro us _ hus hts
  obtain ⟨t, rfl, hk⟩ := hts
  exact ⟨us, t, rfl, hk, hus⟩

/-- The tokens of a spelling are lexemes. -/
theorem lexed (h : Spells s P) :
    Spells s fun ts => P ts ∧ ∀ t ∈ ts, IsLexeme t.kind t.text.toList := by
  intro p
  obtain ⟨ts, hts, hp⟩ := h p
  exact ⟨ts, hts, hp, hts.isLexeme⟩

theorem gap {c : Char} (h : isGap c = true) (hb : Spells b Q) : Spells (c :: b) Q := by
  intro p
  obtain ⟨vs, hvs, hq⟩ := hb (p + c.utf8Size)
  exact ⟨vs, .gap (step_isGap h b) hvs, hq⟩

end Spells

/-- A text that spells tokens and keeps apart from any token before it. -/
structure Part (s : List Char) (P : List Token → Prop) : Prop where
  spells : Spells s P
  parted : Parted s

namespace Part
variable {a b s : List Char} {P Q : List Token → Prop}

theorem mono (h : Part s P) (hpq : ∀ ts, P ts → Q ts) : Part s Q :=
  ⟨h.spells.mono hpq, h.parted⟩

theorem seq (ha : Part a P) (hb : Part b Q) :
    Part (a ++ b) fun ts => ∃ us vs, ts = us ++ vs ∧ P us ∧ Q vs := by
  refine ⟨ha.spells.append hb.spells hb.parted fun us vs hus hvs => ⟨us, vs, rfl, hus, hvs⟩, ?_⟩
  cases a with
  | nil => exact hb.parted
  | cons c a => exact ha.parted

theorem gap {c : Char} (h : isGap c = true) (hs : Spells s P) : Part (c :: s) P := by
  refine ⟨hs.gap h, ?_⟩
  simp only [isGap, Bool.or_eq_true, beq_iff_eq] at h
  rcases h with ((rfl | rfl) | rfl) | rfl <;> exact parted_cons rfl (by decide) (by decide)

end Part

/-- Texts with a space before each. -/
def spaced (texts : List (List Char)) : List Char :=
  texts.flatMap (' ' :: ·)

theorem spaced_cons (text : List Char) (texts : List (List Char)) :
    spaced (text :: texts) = spaced [text] ++ spaced texts := by
  simp [spaced]

theorem part_spaced {s : List Char} {P : List Token → Prop} (h : Spells s P) :
    Part (spaced [s]) P := by
  have hgap := Part.gap (c := ' ') rfl h
  simpa [spaced] using hgap

/-! ## Position -/

/-- Where a text stands changes the positions of its tokens alone. -/
theorem Cut.move {p : Nat} {s : List Char} {ts : List Token} (h : Cut p s ts) (q : Nat) :
    ∃ us, Cut q s us ∧ us.map Token.kind = ts.map Token.kind ∧
      us.map Token.text = ts.map Token.text := by
  induction h generalizing q with
  | done => exact ⟨[], .done q, rfl, rfl⟩
  | @gap p c r ts h _ ih =>
    obtain ⟨us, hus, hk, ht⟩ := ih (q + c.utf8Size)
    exact ⟨us, .gap h hus, hk, ht⟩
  | @token p c r tail rest kind ts h _ ih =>
    obtain ⟨us, hus, hk, ht⟩ := ih (q + Text.byteLength (c :: tail))
    exact ⟨_, .token h hus, by simp [hk], by simp [ht]⟩

/-- A text that scans spells tokens of the same kinds and texts wherever it stands. -/
theorem spells_of_scan {line : String} {ts : List Token} {last : Token}
    (h : scan line = .ok (ts ++ [last])) :
    Spells line.toList fun us =>
      us.map Token.kind = ts.map Token.kind ∧ us.map Token.text = ts.map Token.text := by
  obtain ⟨us, hcut, happ⟩ := scan_eq_ok_iff.1 h
  obtain ⟨rfl, -⟩ := List.append_inj' happ rfl
  exact hcut.move

/-- A text that scans as one token equal to it is a lexeme. -/
theorem isLexeme_of_scan {line : String} {t last : Token} (h : scan line = .ok [t, last])
    (ht : t.text = line) : IsLexeme t.kind line.toList := by
  obtain ⟨us, hcut, happ⟩ := scan_eq_ok_iff.1 h
  have hsplit : us ++ [endAt (Text.byteLength line.toList)] = [t] ++ [last] := happ.symm
  obtain ⟨rfl, -⟩ := List.append_inj' hsplit rfl
  rw [← ht]
  exact hcut.isLexeme t (List.mem_singleton.2 rfl)

/-! ## The text of the tokens -/

/-- The tokens of a text without what stands between them. -/
def recut (text : String) : String :=
  match scan text with
  | .ok tokens => String.join (tokens.map Token.text)
  | .error _ => text

theorem recut_eq_join {p : Nat} {text : String} {ts : List Token} (h : Cut p text.toList ts) :
    recut text = String.join (ts.map Token.text) := by
  obtain ⟨us, hus, -, htexts⟩ := h.move 0
  have hend : String.join ([endAt (Text.byteLength text.toList)].map Token.text) = "" := rfl
  rw [recut, scan_eq_ok_iff.2 ⟨us, hus, rfl⟩]
  simp only [List.map_append, String.join_append, hend, htexts, String.append_empty]

/-- The tokens that a text spells join to the text cut again. -/
theorem Spells.recut {text : String} {P : List Token → Prop} (h : Spells text.toList P) :
    Spells text.toList fun ts => P ts ∧ String.join (ts.map Token.text) = recut text := by
  intro p
  obtain ⟨ts, hts, hp⟩ := h p
  exact ⟨ts, hts, hp, (recut_eq_join hts).symm⟩

end MobSkills.Token
