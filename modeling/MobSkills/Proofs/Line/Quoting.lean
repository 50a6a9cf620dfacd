import MobSkills.Proofs.Line.Lexeme

/-!
# Quotes that never close

The scan has one way to fail: a quote after which no closing one comes. What stands between
quotes is described without the reader that finds its end, and the failure is located: the
text before the quote scans by itself, so the quote is not inside of another string and no
earlier quote is open. Nothing is said here of what a string stands for.
-/
namespace MobSkills.Token

open Text (byteLength)

/-! ## Between quotes -/

/-- Characters in which every backslash takes the next one along, and none of those that
are left is the quote. -/
inductive Body (quote : Char) : List Char → Prop
  | nil : Body quote []
  | escaped {d : Char} {s : List Char} (h : Body quote s) : Body quote ('\\' :: d :: s)
  | plain {c : Char} {s : List Char} (hb : c ≠ '\\') (hq : c ≠ quote) (h : Body quote s) :
      Body quote (c :: s)

/-- What follows a quote that is not closed up to the end of the text. A backslash that
stands last takes nothing along and closes nothing. -/
def Unclosed (quote : Char) (s : List Char) : Prop :=
  Body quote s ∨ ∃ body, Body quote body ∧ s = body ++ ['\\']

section
variable {quote c d : Char} {s tail rest : List Char}

theorem body_escaped : Body quote ('\\' :: d :: s) ↔ Body quote s := by
  constructor
  · intro h
    cases h with
    | escaped h => exact h
    | plain hb _ _ => exact absurd rfl hb
  · exact .escaped

theorem body_plain (hb : c ≠ '\\') : Body quote (c :: s) ↔ c ≠ quote ∧ Body quote s := by
  constructor
  · intro h
    cases h with
    | escaped _ => exact absurd rfl hb
    | plain _ hq h => exact ⟨hq, h⟩
  · intro h
    exact .plain hb h.1 h.2

theorem unclosed_backslash : Unclosed quote ['\\'] :=
  .inr ⟨[], .nil, rfl⟩

theorem unclosed_escaped : Unclosed quote ('\\' :: d :: s) ↔ Unclosed quote s := by
  constructor
  · intro h
    rcases h with h | ⟨body, h, he⟩
    · exact .inl (body_escaped.1 h)
    · cases h with
      | nil => cases he
      | @escaped e body h =>
        rw [List.cons_append, List.cons_append, List.cons.injEq, List.cons.injEq] at he
        exact .inr ⟨body, h, he.2.2⟩
      | plain hb _ _ => exact absurd (List.cons.inj he).1.symm hb
  · intro h
    rcases h with h | ⟨body, h, rfl⟩
    · exact .inl (.escaped h)
    · exact .inr ⟨'\\' :: d :: body, .escaped h, rfl⟩

theorem unclosed_plain (hb : c ≠ '\\') : Unclosed quote (c :: s) ↔ c ≠ quote ∧ Unclosed quote s := by
  constructor
  · intro h
    rcases h with h | ⟨body, h, he⟩
    · obtain ⟨hq, h⟩ := (body_plain hb).1 h
      exact ⟨hq, .inl h⟩
    · cases h with
      | nil => exact absurd (List.cons.inj he).1 hb
      | escaped _ => exact absurd (List.cons.inj he).1 hb
      | @plain e body _ hq h =>
        obtain ⟨rfl, rfl⟩ := List.cons.inj he
        exact ⟨hq, .inr ⟨body, h, rfl⟩⟩
  · intro h
    obtain ⟨hq, h | ⟨body, h, rfl⟩⟩ := h
    · exact .inl (.plain hb hq h)
    · exact .inr ⟨c :: body, .plain hb hq h, rfl⟩

theorem splitString_eq_none_iff : splitString quote s = none ↔ Unclosed quote s := by
  fun_induction splitString quote s with
  | case1 => exact iff_of_true rfl (.inl .nil)
  | case2 => exact iff_of_true rfl unclosed_backslash
  | case3 d r ih => rw [Option.map_eq_none_iff, ih, unclosed_escaped]
  | case4 r hb => simp [unclosed_plain hb]
  | case5 c r hb hq ih => rw [Option.map_eq_none_iff, ih, unclosed_plain hb, and_iff_right hq]

/-- A string ends at the first quote that no backslash has taken along. -/
theorem exists_body_of_splitString (h : splitString quote s = some (tail, rest)) :
    ∃ body, Body quote body ∧ tail = body ++ [quote] := by
  fun_induction splitString quote s generalizing tail with
  | case1 => cases h
  | case2 => cases h
  | case3 d r ih =>
    obtain ⟨⟨more, left⟩, hmore, he⟩ := Option.map_eq_some_iff.1 h
    cases he
    obtain ⟨body, hbody, rfl⟩ := ih hmore
    exact ⟨'\\' :: d :: body, .escaped hbody, rfl⟩
  | case4 r hb =>
    cases h
    exact ⟨[], .nil, rfl⟩
  | case5 c r hb hq ih =>
    obtain ⟨⟨more, left⟩, hmore, he⟩ := Option.map_eq_some_iff.1 h
    cases he
    obtain ⟨body, hbody, rfl⟩ := ih hmore
    exact ⟨c :: body, .plain hb hq hbody, rfl⟩

end

/-! ## Where the scan fails -/

section
variable {c quote : Char} {r tail rest b : List Char} {kind : TokenKind}

theorem step_eq_unterminated_iff : step c r = .unterminated ↔ isQuote c = true ∧ Unclosed c r := by
  rw [← splitString_eq_none_iff]
  constructor
  · intro h
    unfold step at h
    split at h
    · cases h
    split at h
    · rename_i hquote
      split at h
      · cases h
      · exact ⟨hquote, ‹_›⟩
    split at h
    · cases h
    split at h
    · cases h
    split at h <;> cases h
  · intro h
    obtain ⟨hquote, hnone⟩ := h
    simp [step, isQuote_class hquote, hquote, hnone]

theorem parted_quote (h : isQuote quote = true) (s : List Char) : Parted (quote :: s) := by
  simp only [isQuote, Bool.or_eq_true, beq_iff_eq] at h
  rcases h with rfl | rfl <;> exact parted_cons rfl (by decide) (by decide)

/-- A token that ends before a part of the text is there without that part too. -/
theorem step_of_append_stop (h : step c (r ++ b) = .token kind tail (rest ++ b))
    (hb : Stops kind b) : step c r = .token kind tail rest := by
  have happ := step_append h
  rw [← List.append_assoc, List.append_cancel_right_eq] at happ
  rcases step_eq_token h with ⟨rfl, hq, hs⟩ | ⟨rfl, hn, hs⟩ | ⟨rfl, ha, hs⟩ | ⟨hk, hm, rfl, -⟩
  · have hsplit := splitString_append_right (splitString_self hs) rest
    rw [happ] at hsplit
    exact step_isQuote hq hsplit
  · rw [splitNumber_append_stop hb, Prod.mk.injEq, List.append_cancel_right_eq] at hs
    have hstart : c.isDigit = true ∨ c = '-' ∧ startsWithDigit r = true := by
      refine hn.imp_right fun ⟨hc, hd⟩ => ⟨hc, ?_⟩
      rwa [startsWithDigit_append fun d hd => (hb d hd).1] at hd
    rw [step_number hstart, hs.1, hs.2]
  · rw [splitWord, takeWhile_append_stop hb, dropWhile_append_stop hb, Prod.mk.injEq,
      List.append_cancel_right_eq] at hs
    rw [step_isAlpha ha, splitWord, hs.1, hs.2]
  · rw [List.nil_append] at happ
    subst happ
    apply step_ofSymbol? hk
    rintro rfl
    obtain rfl : TokenKind.minus = kind := Option.some.inj hk
    rw [← startsWithDigit_append hb]
    exact hm rfl

end

/-- A scan goes on after a text that is cut as if the text stood alone. -/
theorem Cut.scanFrom_append {p : Nat} {a b : List Char} {ts : List Token} (h : Cut p a ts)
    (hb : Parted b) :
    Token.scanFrom p (a ++ b) = (Token.scanFrom (p + byteLength a) b).map (ts ++ ·) := by
  induction h with
  | done p =>
    show Token.scanFrom p b = (Token.scanFrom p b).map id
    cases Token.scanFrom p b <;> rfl
  | gap h _ ih =>
    rw [List.cons_append, scanFrom_gap (step_eq_gap h _), ih, Text.byteLength_cons, Nat.add_assoc]
  | token h _ ih =>
    rw [List.cons_append, scanFrom_token (step_append_stop h (hb.stops _)), ih,
      byteLength_of_step h, Nat.add_assoc]
    cases Token.scanFrom _ b <;> rfl

/-- The scan fails at a quote that is not closed, and what stands before is cut. -/
theorem exists_of_scanFrom_eq_error {p : Nat} {s : List Char} {e : ScanError}
    (h : scanFrom p s = .error e) :
    ∃ before ts quote after, s = before ++ quote :: after ∧ Cut p before ts ∧
      isQuote quote = true ∧ Unclosed quote after ∧
      e = .unterminatedString (p + byteLength before) := by
  induction hn : s.length using Nat.strongRecOn generalizing p s with
  | ind n ih =>
    cases s with
    | nil =>
      rw [scanFrom] at h
      cases h
    | cons c r =>
      cases hs : step c r with
      | gap =>
        rw [scanFrom_gap hs] at h
        obtain ⟨before, ts, quote, after, rfl, hcut, hquote, hopen, rfl⟩ :=
          ih r.length (by simp [← hn]) h rfl
        refine ⟨c :: before, ts, quote, after, rfl, .gap (step_eq_gap hs _) hcut, hquote, hopen, ?_⟩
        rw [Text.byteLength_cons, Nat.add_assoc]
      | unterminated =>
        rw [scanFrom_unterminated hs] at h
        cases h
        obtain ⟨hquote, hopen⟩ := step_eq_unterminated_iff.1 hs
        exact ⟨[], [], c, r, rfl, .done p, hquote, hopen, rfl⟩
      | token kind tail rest =>
        rw [scanFrom_token hs] at h
        have hlt : rest.length < n := by
          have := length_rest_le hs
          rw [← hn, List.length_cons]
          omega
        cases hr : scanFrom (p + byteLength (c :: tail)) rest with
        | ok more =>
          rw [hr] at h
          cases h
        | error e' =>
          rw [hr] at h
          cases h
          obtain ⟨before, ts, quote, after, rfl, hcut, hquote, hopen, rfl⟩ := ih rest.length hlt hr rfl
          -- The token ends before the quote, so it is cut from the shorter text as well.
          have happ : r = (tail ++ before) ++ quote :: after := by
            rw [List.append_assoc, step_append hs]
          rw [happ] at hs
          have hshort := step_of_append_stop hs ((parted_quote hquote after).stops _)
          refine ⟨c :: (tail ++ before), _, quote, after, by rw [happ]; rfl, .token hshort hcut,
            hquote, hopen, ?_⟩
          rw [byteLength_of_step hshort, Nat.add_assoc]

/-- A quote at the byte offset that nothing before it belongs to and nothing after it closes. -/
def UnclosedAt (line : String) (p : Nat) : Prop :=
  ∃ before quote after, line.toList = before ++ quote :: after ∧ byteLength before = p ∧
    isQuote quote = true ∧ (∃ tokens, scan (String.ofList before) = .ok tokens) ∧
    Unclosed quote after

theorem scan_eq_unterminated_iff {line : String} {p : Nat} :
    scan line = .error (.unterminatedString p) ↔ UnclosedAt line p := by
  constructor
  · intro h
    obtain ⟨before, ts, quote, after, happ, hcut, hquote, hopen, he⟩ :=
      exists_of_scanFrom_eq_error h
    rw [Nat.zero_add, ScanError.unterminatedString.injEq] at he
    have hbefore : Cut 0 (String.ofList before).toList ts := by rwa [String.toList_ofList]
    exact ⟨before, quote, after, happ, he.symm, hquote,
      ⟨_, scan_eq_ok_iff.2 ⟨ts, hbefore, rfl⟩⟩, hopen⟩
  · intro h
    obtain ⟨before, quote, after, happ, rfl, hquote, ⟨tokens, hscan⟩, hopen⟩ := h
    obtain ⟨ts, hcut, -⟩ := scan_eq_ok_iff.1 hscan
    rw [String.toList_ofList] at hcut
    have hstep := step_eq_unterminated_iff.2 ⟨hquote, hopen⟩
    rw [scan, happ, hcut.scanFrom_append (parted_quote hquote after), scanFrom_unterminated hstep,
      Nat.zero_add]
    rfl

/-- The scan of a line fails at a place exactly when a quote there is not closed while the
text before it scans. There is at most one such place, and without one the scan succeeds. -/
theorem scan_fails_iff (line : String) :
    (∀ p, scan line = .error (.unterminatedString p) ↔ UnclosedAt line p) ∧
      (∀ p p', UnclosedAt line p → UnclosedAt line p' → p = p') ∧
      ((∀ p, ¬ UnclosedAt line p) → ∃ tokens, scan line = .ok tokens) := by
  refine ⟨fun p => scan_eq_unterminated_iff, ?_, ?_⟩
  · intro p p' h h'
    have hsame := (scan_eq_unterminated_iff.2 h).symm.trans (scan_eq_unterminated_iff.2 h')
    rwa [Except.error.injEq, ScanError.unterminatedString.injEq] at hsame
  · intro hnone
    cases hscan : scan line with
    | ok tokens => exact ⟨tokens, rfl⟩
    | error e =>
      obtain ⟨p⟩ := e
      exact absurd (scan_eq_unterminated_iff.1 hscan) (hnone p)

/-- The other kind of quote and an escaped quote close nothing. -/
example : scan "é 'a\"' \"it\\\"s'" = .error (.unterminatedString 8) := by cbv

end MobSkills.Token
