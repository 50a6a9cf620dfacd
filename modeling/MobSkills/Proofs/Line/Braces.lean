import MobSkills.Proofs.Line.Balance
import MobSkills.Proofs.Line.Spelling

/-!
# Brace groups without their gaps

The text of a condition's brace group is the text of its tokens without the gaps that
stood between them. Words and numbers that become neighbours can run together, and a
number can fall apart; the braces and the strings stay what they were. So the text is
a brace group again, although its tokens need not be the same ones.
-/
namespace MobSkills.Token

/-- Whether a kind is that of a brace. -/
def isBrace (kind : TokenKind) : Bool :=
  kind == .openBrace || kind == .closeBrace

/-- Neither a brace nor a quote. -/
def IsSoft (c : Char) : Prop :=
  isQuote c = false ∧ c ≠ '\x7b' ∧ c ≠ '\x7d'

/-- Text made of braces, whole strings and soft characters, with the braces in their
order. Joining such texts keeps that order, although other tokens can run together. -/
inductive Braced : List Char → List TokenKind → Prop
  | nil : Braced [] []
  | soft {c : Char} {s : List Char} {ks : List TokenKind} (hc : IsSoft c) (h : Braced s ks) :
      Braced (c :: s) ks
  | brace {c : Char} {k : TokenKind} {s : List Char} {ks : List TokenKind}
      (hc : TokenKind.ofSymbol? c = some k) (hk : isBrace k = true) (h : Braced s ks) :
      Braced (c :: s) (k :: ks)
  | string {c : Char} {body s : List Char} {ks : List TokenKind} (hc : isQuote c = true)
      (hs : splitString c body = some (body, [])) (h : Braced s ks) :
      Braced (c :: (body ++ s)) ks

theorem isSoft_of_class {p : Char → Bool} (h : ['"', '\'', '\x7b', '\x7d'].any p = false)
    {c : Char} (hc : p c = true) : IsSoft c := by
  have hne (d : Char) (hd : d ∈ ['"', '\'', '\x7b', '\x7d']) : c ≠ d := by
    rintro rfl
    exact List.any_eq_false.1 h c hd hc
  refine ⟨?_, hne _ (by simp), hne _ (by simp)⟩
  simp [isQuote, hne '"' (by simp), hne '\'' (by simp)]

theorem IsSoft.isBrace_eq_false {c : Char} (h : IsSoft c) {k : TokenKind}
    (hk : TokenKind.ofSymbol? c = some k) : isBrace k = false := by
  obtain ⟨-, hopen, hclose⟩ := h
  unfold TokenKind.ofSymbol? at hk
  split at hk <;> first
    | exact absurd rfl hopen
    | exact absurd rfl hclose
    | cases hk <;> rfl

theorem isSoft_of_symbol {c : Char} {k : TokenKind} (hc : TokenKind.ofSymbol? c = some k)
    (hk : isBrace k = false) : IsSoft c := by
  refine ⟨(ofSymbol?_class hc).2.1, ?_, ?_⟩
  · rintro rfl
    cases hc
    cases hk
  · rintro rfl
    cases hc
    cases hk

theorem isSoft_of_isWordChar {c : Char} (h : isWordChar c = true) : IsSoft c :=
  isSoft_of_class rfl h

theorem isSoft_of_isDigit {c : Char} (h : c.isDigit = true) : IsSoft c :=
  isSoft_of_class rfl h

theorem isSoft_of_isNumeralTail {s : List Char} (h : IsNumeralTail s) : ∀ c ∈ s, IsSoft c := by
  obtain ⟨whole, fraction, percent, rfl, hw, hf, hp⟩ := h
  intro c hc
  rcases List.mem_append.1 hc with hc | hc
  · exact isSoft_of_isDigit (hw c hc)
  rcases List.mem_append.1 hc with hc | hc
  · rcases hf with rfl | ⟨digits, -, hd, rfl⟩
    · cases hc
    rcases List.mem_cons.1 hc with rfl | hc
    · exact ⟨rfl, by decide, by decide⟩
    · exact isSoft_of_isDigit (hd c hc)
  · rcases hp with rfl | rfl
    · cases hc
    · obtain rfl := List.mem_singleton.1 hc
      exact ⟨rfl, by decide, by decide⟩

namespace Braced
variable {s a b : List Char} {ks us : List TokenKind}

theorem append (ha : Braced a ks) (hb : Braced b us) : Braced (a ++ b) (ks ++ us) := by
  induction ha with
  | nil => exact hb
  | soft hc _ ih => exact .soft hc ih
  | brace hc hk _ ih => exact .brace hc hk ih
  | string hc hs _ ih =>
    rw [List.cons_append, List.append_assoc]
    exact .string hc hs ih

theorem of_all_soft (h : ∀ c ∈ s, IsSoft c) : Braced s [] := by
  induction s with
  | nil => exact .nil
  | cons c s ih =>
    exact .soft (h c (List.mem_cons_self ..)) (ih fun d hd => h d (List.mem_cons_of_mem c hd))

/-- Soft characters can be taken away at the front. -/
theorem drop_soft (ha : ∀ c ∈ a, IsSoft c) (h : Braced (a ++ b) ks) : Braced b ks := by
  induction a with
  | nil => exact h
  | cons c a ih =>
    have hsoft := ha c (List.mem_cons_self ..)
    refine ih (fun d hd => ha d (List.mem_cons_of_mem c hd)) ?_
    generalize hx : c :: a ++ b = x at h
    cases h with
    | nil => cases hx
    | soft _ h =>
      obtain ⟨rfl, rfl⟩ := List.cons.inj hx
      exact h
    | brace hc hk _ =>
      obtain ⟨rfl, rfl⟩ := List.cons.inj hx
      rw [hsoft.isBrace_eq_false hc] at hk
      cases hk
    | string hc _ _ =>
      obtain ⟨rfl, -⟩ := List.cons.inj hx
      rw [hsoft.1] at hc
      cases hc

/-- The text of a token is braced by the token itself, if it is a brace. -/
theorem of_isLexeme {kind : TokenKind} (h : IsLexeme kind s) :
    Braced s ([kind].filter isBrace) := by
  cases s with
  | nil => cases h
  | cons c r =>
    rcases step_eq_token h with ⟨rfl, hq, hs⟩ | ⟨rfl, -, -⟩ | ⟨rfl, -, -⟩ | ⟨hk, -, rfl, -⟩
    · have hstring := Braced.string hq hs .nil
      rwa [List.append_nil] at hstring
    · obtain ⟨negative, numeral, he, hn⟩ := isLexeme_number_iff.1 h
      rw [he]
      apply of_all_soft
      intro d hd
      rcases List.mem_append.1 hd with hd | hd
      · cases negative with
        | false => cases hd
        | true =>
          obtain rfl := List.mem_singleton.1 hd
          exact ⟨rfl, by decide, by decide⟩
      · exact isSoft_of_isNumeralTail hn.tail d hd
    · obtain ⟨d, t, he, ha, ht⟩ := isLexeme_identifier_iff.1 h
      rw [he]
      apply of_all_soft
      intro e he
      rcases List.mem_cons.1 he with rfl | he
      · exact isSoft_of_class rfl ha
      · exact isSoft_of_isWordChar (ht e he)
    · by_cases hb : isBrace kind = true
      · rw [List.filter_cons_of_pos hb]
        exact .brace hk hb .nil
      · rw [List.filter_cons_of_neg hb]
        exact .soft (isSoft_of_symbol hk (by simpa using hb)) .nil

theorem of_lexemes {ts : List Token} (h : ∀ t ∈ ts, IsLexeme t.kind t.text.toList) :
    Braced (String.join (ts.map Token.text)).toList ((ts.map Token.kind).filter isBrace) := by
  induction ts with
  | nil => exact .nil
  | cons t ts ih =>
    have ht := of_isLexeme (h t (List.mem_cons_self ..))
    have hts := ih fun u hu => h u (List.mem_cons_of_mem t hu)
    rw [List.map_cons, List.map_cons, String.join_cons, String.toList_append,
      ← List.singleton_append, List.filter_append]
    exact ht.append hts

end Braced

theorem step_eq_unterminated {c : Char} {r : List Char} (h : step c r = .unterminated) :
    isQuote c = true := by
  unfold step at h
  split at h
  · cases h
  split at h
  · assumption
  split at h
  · cases h
  split at h
  · cases h
  split at h <;> cases h

/-- A token that begins with a soft character has soft characters alone. -/
theorem step_isSoft {c : Char} {r tail rest : List Char} {kind : TokenKind} (hc : IsSoft c)
    (h : step c r = .token kind tail rest) : (∀ d ∈ tail, IsSoft d) ∧ isBrace kind = false := by
  rcases step_eq_token h with ⟨rfl, hq, -⟩ | ⟨rfl, -, hs⟩ | ⟨rfl, -, hs⟩ | ⟨hk, -, rfl, -⟩
  · rw [hc.1] at hq
    cases hq
  · have htail := isNumeralTail_splitNumber r
    rw [hs] at htail
    exact ⟨isSoft_of_isNumeralTail htail, rfl⟩
  · rw [← (Prod.mk.inj hs).1]
    have hall : ∀ d ∈ r.takeWhile isWordChar, isWordChar d = true :=
      List.all_eq_true.1 List.all_takeWhile
    exact ⟨fun d hd => isSoft_of_isWordChar (hall d hd), rfl⟩
  · exact ⟨by simp, hc.isBrace_eq_false hk⟩

/-- However its soft characters are cut, a braced text has the tokens of its braces. -/
theorem Braced.spells {s : List Char} {ks : List TokenKind} (h : Braced s ks) :
    Spells s fun ts => (ts.map Token.kind).filter isBrace = ks := by
  intro p
  show ∃ ts, Cut p s ts ∧ (ts.map Token.kind).filter isBrace = ks
  induction hn : s.length using Nat.strongRecOn generalizing p s ks with
  | ind n ih =>
    cases h with
    | nil => exact ⟨[], .done p, rfl⟩
    | @soft c r ks hc h =>
      cases hs : step c r with
      | gap =>
        obtain ⟨ts, hts, hks⟩ := ih r.length (by simp [← hn]) h (p + c.utf8Size) rfl
        exact ⟨ts, .gap hs hts, hks⟩
      | unterminated =>
        have hq := step_eq_unterminated hs
        rw [hc.1] at hq
        cases hq
      | token kind tail rest =>
        obtain ⟨htail, hkind⟩ := step_isSoft hc hs
        rw [← step_append hs] at h
        have hlt : rest.length < n := by
          have := length_rest_le hs
          rw [← hn, List.length_cons]
          omega
        obtain ⟨ts, hts, hks⟩ := ih rest.length hlt (h.drop_soft htail)
          (p + Text.byteLength (c :: tail)) rfl
        refine ⟨_, .token hs hts, ?_⟩
        rw [List.map_cons, List.filter_cons_of_neg (by simp [hkind]), hks]
    | @brace c k r ks hc hk h =>
      have hminus : c = '-' → startsWithDigit r = false := by
        rintro rfl
        cases hc
        cases hk
      obtain ⟨ts, hts, hks⟩ := ih r.length (by simp [← hn]) h (p + Text.byteLength [c]) rfl
      refine ⟨_, .token (step_ofSymbol? hc hminus) hts, ?_⟩
      rw [List.map_cons, List.filter_cons_of_pos hk, hks]
    | @string c body r ks hc hs h =>
      have hstep : step c (body ++ r) = .token .string body r := by
        have happ := splitString_append_right hs r
        rw [List.nil_append] at happ
        exact step_isQuote hc happ
      have hlt : r.length < n := by
        rw [← hn, List.length_cons, List.length_append]
        omega
      obtain ⟨ts, hts, hks⟩ := ih r.length hlt h (p + Text.byteLength (c :: body)) rfl
      refine ⟨_, .token hstep hts, ?_⟩
      rw [List.map_cons, List.filter_cons_of_neg (show ¬ isBrace .string = true by decide), hks]

end MobSkills.Token

namespace MobSkills.Grammar

open Token (isBrace Spells IsLexeme)

theorem depthAfter_filter_isBrace (depth : Nat) (ks : List TokenKind) :
    depthAfter .openBrace .closeBrace depth (ks.filter isBrace) =
      depthAfter .openBrace .closeBrace depth ks := by
  induction ks generalizing depth with
  | nil => rfl
  | cons k ks ih =>
    by_cases hk : isBrace k = true
    · rw [List.filter_cons_of_pos hk, depthAfter, depthAfter]
      exact congrArg _ (funext ih)
    · rw [List.filter_cons_of_neg hk, ih, depthAfter, nesting?_other]
      · rfl
      · rintro rfl
        exact hk rfl
      · rintro rfl
        exact hk rfl

/-- Whether braces balance depends on the braces alone. -/
theorem Balanced.of_filter {ks us : List TokenKind} (h : Balanced .openBrace .closeBrace ks)
    (hf : us.filter isBrace = ks.filter isBrace) (he : TokenKind.endOfInput ∉ us) :
    Balanced .openBrace .closeBrace us := by
  refine (balanced_iff (by decide) (by decide) (by decide)).2 ⟨?_, he⟩
  rw [← depthAfter_filter_isBrace, hf, depthAfter_filter_isBrace]
  exact h.depthAfter (by decide) 0

/-- The joined text of a brace group, put together without the gaps that stood in it,
is a brace group again. -/
theorem BracesOf.spells {ts : List Token} {text : String} (h : BracesOf ts text)
    (hl : ∀ t ∈ ts, IsLexeme t.kind t.text.toList) :
    text.toList.head? = some '\x7b' ∧ Spells text.toList fun us => ∃ text', BracesOf us text' := by
  cases h with
  | @mk o c inner ho hc hb =>
    have hopen : o.text.toList = ['\x7b'] := (hl o (by simp)).eq_symbol (ho ▸ rfl)
    have hclose : c.text.toList = ['\x7d'] := (hl c (by simp)).eq_symbol (hc ▸ rfl)
    have hlexed : ∀ t ∈ inner, IsLexeme t.kind t.text.toList := fun t ht => hl t (by simp [ht])
    have hbraced := Token.Braced.of_lexemes hlexed
    have hinner : Spells (String.join (inner.map Token.text)).toList fun us =>
        Balanced .openBrace .closeBrace (us.map Token.kind) := by
      apply hbraced.spells.lexed.mono
      intro us h
      obtain ⟨hf, hlex⟩ := h
      apply hb.of_filter hf
      intro he
      obtain ⟨t, ht, hk⟩ := List.mem_map.1 he
      exact (hlex t ht).kind_ne_endOfInput hk
    have htext : (String.join ((o :: (inner ++ [c])).map Token.text)).toList =
        '\x7b' :: ((String.join (inner.map Token.text)).toList ++ ['\x7d']) := by
      simp [String.join_cons, String.join_append, hopen, hclose]
    rw [htext]
    refine ⟨rfl, ?_⟩
    have hparted : Token.Parted ['\x7d'] := Token.parted_cons rfl (by decide) (by decide)
    refine .symbol rfl (by decide) (hinner.closed rfl hparted) ?_
    intro t _ ht h
    obtain ⟨us, c, rfl, hc, hus⟩ := h
    exact ⟨_, .mk ht hc hus⟩

end MobSkills.Grammar
