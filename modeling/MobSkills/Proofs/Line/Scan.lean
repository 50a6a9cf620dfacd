import MobSkills.Line.Token

/-!
# How a line is cut into tokens

The scan as a relation between characters and the tokens before the end marker.
What begins at a character is inverted once, by the class of the character. From
it follows when a text can be extended without disturbing the tokens before: what
is put after a token must not start with a character that the token could take.
-/
namespace MobSkills.Token

/-! ## What begins at a character -/

theorem ofSymbol?_class {c : Char} {kind : TokenKind} (h : TokenKind.ofSymbol? c = some kind) :
    isGap c = false ∧ isQuote c = false ∧ c.isDigit = false ∧ c.isAlpha = false := by
  unfold TokenKind.ofSymbol? at h
  split at h <;> first
    | exact ⟨rfl, rfl, rfl, rfl⟩
    | simp at h

/-- The kinds of symbols are those without a text of their own. -/
theorem ofSymbol?_kind {c : Char} {kind : TokenKind} (h : TokenKind.ofSymbol? c = some kind) :
    kind ≠ .identifier ∧ kind ≠ .number ∧ kind ≠ .string ∧ kind ≠ .endOfInput := by
  unfold TokenKind.ofSymbol? at h
  split at h <;> cases h <;> exact ⟨by decide, by decide, by decide, by decide⟩

/-- A kind has one symbol at most. -/
theorem ofSymbol?_injective {c d : Char} {kind : TokenKind}
    (hc : TokenKind.ofSymbol? c = some kind) (hd : TokenKind.ofSymbol? d = some kind) : c = d := by
  unfold TokenKind.ofSymbol? at hc
  split at hc <;> cases hc <;> unfold TokenKind.ofSymbol? at hd <;> split at hd <;> first
    | rfl
    | cases hd

theorem isAlpha_class {c : Char} (h : c.isAlpha = true) :
    isGap c = false ∧ isQuote c = false ∧ c.isDigit = false ∧ c ≠ '-' := by
  have hne (d : Char) (hd : d.isAlpha = false) : c ≠ d := by
    rintro rfl
    rw [hd] at h
    cases h
  have hdigit : c.isDigit = false := by
    rw [Bool.eq_false_iff]
    intro hd
    have hdigit := (Char.isDigit_iff_toNat.1 hd).2
    rcases Bool.or_eq_true_iff.1 h with h | h
    · have hupper : 'A'.toNat ≤ c.toNat := (of_decide_eq_true h).1
      exact absurd (Nat.le_trans hupper hdigit) (by decide)
    · have hlower : 'a'.toNat ≤ c.toNat := of_decide_eq_true (Bool.and_eq_true_iff.1 h).1
      exact absurd (Nat.le_trans hlower hdigit) (by decide)
  refine ⟨?_, ?_, hdigit, hne _ rfl⟩
  · simp [isGap, hne ' ' rfl, hne '\t' rfl, hne '\r' rfl, hne '\n' rfl]
  · simp [isQuote, hne '"' rfl, hne '\'' rfl]

theorem isDigit_class {c : Char} (h : c.isDigit = true) : isGap c = false ∧ isQuote c = false := by
  have hne (d : Char) (hd : d.isDigit = false) : c ≠ d := by
    rintro rfl
    rw [hd] at h
    cases h
  constructor
  · simp [isGap, hne ' ' rfl, hne '\t' rfl, hne '\r' rfl, hne '\n' rfl]
  · simp [isQuote, hne '"' rfl, hne '\'' rfl]

theorem isQuote_class {c : Char} (h : isQuote c = true) : isGap c = false := by
  simp only [isQuote, Bool.or_eq_true, beq_iff_eq] at h
  rcases h with rfl | rfl <;> rfl

theorem step_isGap {c : Char} (h : isGap c = true) (r : List Char) : step c r = .gap := by
  rw [step, if_pos h]

theorem step_isQuote {c : Char} {r tail rest : List Char} (h : isQuote c = true)
    (hs : splitString c r = some (tail, rest)) : step c r = .token .string tail rest := by
  simp [step, isQuote_class h, h, hs]

theorem step_number {c : Char} {r : List Char}
    (h : c.isDigit = true ∨ c = '-' ∧ startsWithDigit r = true) :
    step c r = .token .number (splitNumber r).1 (splitNumber r).2 := by
  rcases h with h | ⟨rfl, h⟩
  · simp [step, isDigit_class h, h]
  · simp [step, isGap, isQuote, h]

theorem step_isAlpha {c : Char} (h : c.isAlpha = true) (r : List Char) :
    step c r = .token .identifier (splitWord r).1 (splitWord r).2 := by
  simp [step, isAlpha_class h, h]

theorem step_ofSymbol? {c : Char} {kind : TokenKind} {r : List Char}
    (h : TokenKind.ofSymbol? c = some kind) (hr : c = '-' → startsWithDigit r = false) :
    step c r = .token kind [] r := by
  obtain ⟨hgap, hquote, hdigit, halpha⟩ := ofSymbol?_class h
  have hminus : (c == '-' && startsWithDigit r) = false := by
    by_cases hc : c = '-'
    · simp [hr hc]
    · simp [hc]
  simp [step, hgap, hquote, hdigit, halpha, hminus, h]

/-- Where a token begins: by the class of its first character. -/
theorem step_eq_token {c : Char} {r tail rest : List Char} {kind : TokenKind}
    (h : step c r = .token kind tail rest) :
    (kind = .string ∧ isQuote c = true ∧ splitString c r = some (tail, rest)) ∨
    (kind = .number ∧ (c.isDigit = true ∨ c = '-' ∧ startsWithDigit r = true) ∧
      splitNumber r = (tail, rest)) ∨
    (kind = .identifier ∧ c.isAlpha = true ∧ splitWord r = (tail, rest)) ∨
    (TokenKind.ofSymbol? c = some kind ∧ (c = '-' → startsWithDigit r = false) ∧
      tail = [] ∧ rest = r) := by
  unfold step at h
  split at h
  · cases h
  split at h
  · rename_i hq
    split at h
    · cases h
      exact .inl ⟨rfl, hq, ‹_›⟩
    · cases h
  split at h
  · rename_i hn
    cases h
    simp only [Bool.or_eq_true, Bool.and_eq_true, beq_iff_eq] at hn
    exact .inr (.inl ⟨rfl, hn, rfl⟩)
  rename_i hn
  split at h
  · rename_i ha
    cases h
    exact .inr (.inr (.inl ⟨rfl, ha, rfl⟩))
  split at h
  · rename_i hs
    cases h
    refine .inr (.inr (.inr ⟨hs, ?_, rfl, rfl⟩))
    rintro rfl
    simpa using hn
  · cases h

/-- Whether a character is passed over does not depend on what follows it. -/
theorem step_eq_gap {c : Char} {r : List Char} (h : step c r = .gap) (s : List Char) :
    step c s = .gap := by
  unfold step at h ⊢
  split at h
  · rename_i hg
    rw [if_pos hg]
  rename_i hg
  split at h
  · split at h <;> cases h
  rename_i hq
  split at h
  · cases h
  rename_i hn
  split at h
  · cases h
  rename_i ha
  split at h
  · cases h
  rename_i hs
  have hminus : c ≠ '-' := by
    rintro rfl
    cases hs
  have hdigit : ¬ c.isDigit = true := fun hd => hn (by simp [hd])
  simp [hg, hq, hdigit, hminus, ha]

/-! ## Extending a text -/

/-- The text does not start with a character that a token of the kind before it
could take. -/
def Stops (kind : TokenKind) (s : List Char) : Prop :=
  ∀ c ∈ s.head?, match kind with
    | .identifier => isWordChar c = false
    | .number => c.isDigit = false ∧ c ≠ '.' ∧ c ≠ '%'
    | .minus => c.isDigit = false
    | _ => True

/-- The text does not start with a character that any token before it could take. -/
def Parted (s : List Char) : Prop :=
  ∀ c ∈ s.head?, isWordChar c = false ∧ c ≠ '.' ∧ c ≠ '%'

theorem isDigit_of_isWordChar {c : Char} (h : isWordChar c = false) : c.isDigit = false := by
  simp only [isWordChar, Char.isAlphanum, Bool.or_eq_false_iff] at h
  exact h.1.1.1.2

theorem Parted.stops {s : List Char} (h : Parted s) (kind : TokenKind) : Stops kind s := by
  intro c hc
  obtain ⟨hword, hpoint, hpercent⟩ := h c hc
  cases kind <;> simp [hword, hpoint, hpercent, isDigit_of_isWordChar hword]

theorem stops_nil (kind : TokenKind) : Stops kind [] := by
  intro c hc
  simp at hc

theorem parted_nil : Parted [] := by
  intro c hc
  simp at hc

theorem parted_cons {c : Char} {s : List Char} (hc : isWordChar c = false) (hp : c ≠ '.')
    (hq : c ≠ '%') : Parted (c :: s) := by
  intro d hd
  obtain rfl : c = d := by simpa using hd
  exact ⟨hc, hp, hq⟩

section
variable {p : Char → Bool} {b : List Char}

theorem takeWhile_append_stop (hb : ∀ c ∈ b.head?, p c = false) (a : List Char) :
    (a ++ b).takeWhile p = a.takeWhile p := by
  have hnil : b.takeWhile p = [] := by
    cases b with
    | nil => rfl
    | cons c b => simp [hb c rfl]
  rw [List.takeWhile_append]
  split
  · rename_i hl
    rw [hnil, List.append_nil]
    exact ((List.takeWhile_prefix p).eq_of_length hl).symm
  · rfl

theorem dropWhile_append_stop (hb : ∀ c ∈ b.head?, p c = false) (a : List Char) :
    (a ++ b).dropWhile p = a.dropWhile p ++ b := by
  have hself : b.dropWhile p = b := by
    cases b with
    | nil => rfl
    | cons c b => simp [hb c rfl]
  rw [List.dropWhile_append]
  split
  · rename_i he
    rw [List.isEmpty_iff.1 he, hself, List.nil_append]
  · rfl

end

section
variable {b : List Char} (hb : Stops .number b)
include hb

theorem splitFraction_append_stop (s : List Char) :
    splitFraction (s ++ b) = ((splitFraction s).1, (splitFraction s).2 ++ b) := by
  have hdigit : ∀ c ∈ b.head?, c.isDigit = false := fun c hc => (hb c hc).1
  cases s with
  | nil =>
    cases b with
    | nil => rfl
    | cons c b =>
      have hc : c ≠ '.' := (hb c rfl).2.1
      simp [splitFraction, hc]
  | cons c s =>
    by_cases hc : c = '.'
    · subst hc
      cases s with
      | nil =>
        cases b with
        | nil => rfl
        | cons d b => simp [splitFraction, hdigit d rfl]
      | cons d s =>
        by_cases hd : d.isDigit = true
        · simp [splitFraction, hd, takeWhile_append_stop hdigit, dropWhile_append_stop hdigit]
        · simp [splitFraction, hd]
    · simp [splitFraction, hc]

theorem splitPercent_append_stop (s : List Char) :
    splitPercent (s ++ b) = ((splitPercent s).1, (splitPercent s).2 ++ b) := by
  cases s with
  | nil =>
    cases b with
    | nil => rfl
    | cons c b =>
      have hc : c ≠ '%' := (hb c rfl).2.2
      simp [splitPercent, hc]
  | cons c s =>
    by_cases hc : c = '%'
    · subst hc
      rfl
    · simp [splitPercent, hc]

theorem splitNumber_append_stop (s : List Char) :
    splitNumber (s ++ b) = ((splitNumber s).1, (splitNumber s).2 ++ b) := by
  have hdigit : ∀ c ∈ b.head?, c.isDigit = false := fun c hc => (hb c hc).1
  simp only [splitNumber, takeWhile_append_stop hdigit, dropWhile_append_stop hdigit,
    splitFraction_append_stop hb, splitPercent_append_stop hb]

end

theorem splitString_close {quote : Char} (hq : quote ≠ '\\') (r : List Char) :
    splitString quote (quote :: r) = some ([quote], r) := by
  cases r <;> simp [splitString, hq]

theorem splitString_other {quote c : Char} (hc : c ≠ '\\') (hq : c ≠ quote) (r : List Char) :
    splitString quote (c :: r) =
      (splitString quote r).map fun (body, rest) => (c :: body, rest) := by
  cases r <;> simp [splitString, hc, hq]

theorem splitString_append_right {quote : Char} {s body rest : List Char}
    (h : splitString quote s = some (body, rest)) (b : List Char) :
    splitString quote (s ++ b) = some (body, rest ++ b) := by
  fun_induction splitString quote s generalizing body with
  | case1 => simp at h
  | case2 => simp at h
  | case3 d r' ih =>
    obtain ⟨⟨x, t⟩, hx, he⟩ := Option.map_eq_some_iff.1 h
    obtain ⟨rfl, rfl⟩ := Prod.mk.inj he
    simp [splitString, ih hx]
  | case4 r hc =>
    obtain ⟨rfl, rfl⟩ := Prod.mk.inj (Option.some.inj h)
    exact splitString_close hc _
  | case5 c r hc hq ih =>
    obtain ⟨⟨x, t⟩, hx, he⟩ := Option.map_eq_some_iff.1 h
    obtain ⟨rfl, rfl⟩ := Prod.mk.inj he
    rw [List.cons_append, splitString_other hc hq, ih hx]
    rfl

theorem startsWithDigit_append {b : List Char} (hb : Stops .minus b) (r : List Char) :
    startsWithDigit (r ++ b) = startsWithDigit r := by
  cases r with
  | nil =>
    cases b with
    | nil => rfl
    | cons c b => exact hb c rfl
  | cons c r => rfl

/-- A token stays as it is when the text is extended by one it cannot take from. -/
theorem step_append_stop {c : Char} {r tail rest b : List Char} {kind : TokenKind}
    (h : step c r = .token kind tail rest) (hb : Stops kind b) :
    step c (r ++ b) = .token kind tail (rest ++ b) := by
  rcases step_eq_token h with ⟨rfl, hq, hs⟩ | ⟨rfl, hn, hs⟩ | ⟨rfl, ha, hs⟩ | ⟨hk, hm, rfl, rfl⟩
  · exact step_isQuote hq (splitString_append_right hs b)
  · have hsplit := splitNumber_append_stop hb r
    rw [hs] at hsplit
    have hstart : c.isDigit = true ∨ c = '-' ∧ startsWithDigit (r ++ b) = true := by
      refine hn.imp_right fun ⟨hc, hd⟩ => ⟨hc, ?_⟩
      rwa [startsWithDigit_append fun d hd => (hb d hd).1]
    rw [step_number hstart, hsplit]
  · obtain ⟨rfl, rfl⟩ := Prod.mk.inj hs
    rw [step_isAlpha ha, splitWord, takeWhile_append_stop hb, dropWhile_append_stop hb]
  · apply step_ofSymbol? hk
    intro hc
    subst hc
    obtain rfl : TokenKind.minus = kind := Option.some.inj hk
    rw [startsWithDigit_append hb]
    exact hm rfl

/-! ## The scan as a relation -/

/-- The characters from a byte offset on are cut into the tokens. -/
inductive Cut : Nat → List Char → List Token → Prop
  | done (p : Nat) : Cut p [] []
  | gap {p : Nat} {c : Char} {r : List Char} {ts : List Token} (h : step c r = .gap)
      (hr : Cut (p + c.utf8Size) r ts) : Cut p (c :: r) ts
  | token {p : Nat} {c : Char} {r tail rest : List Char} {kind : TokenKind} {ts : List Token}
      (h : step c r = .token kind tail rest)
      (hr : Cut (p + Text.byteLength (c :: tail)) rest ts) :
      Cut p (c :: r) (⟨kind, String.ofList (c :: tail), p⟩ :: ts)

def endAt (position : Nat) : Token :=
  ⟨.endOfInput, "", position⟩

/-- A text that is written out is scanned by its characters, which need not be decoded first. -/
theorem scan_ofList (s : List Char) : scan (String.ofList s) = scanFrom 0 s := by
  rw [scan, String.toList_ofList]

theorem scanFrom_gap {p : Nat} {c : Char} {r : List Char} (h : step c r = .gap) :
    scanFrom p (c :: r) = scanFrom (p + c.utf8Size) r := by
  rw [scanFrom]
  split <;> rename_i h' <;> rw [h] at h' <;> cases h'

theorem scanFrom_unterminated {p : Nat} {c : Char} {r : List Char} (h : step c r = .unterminated) :
    scanFrom p (c :: r) = .error (.unterminatedString p) := by
  rw [scanFrom]
  split <;> rename_i h' <;> rw [h] at h' <;> cases h'

theorem scanFrom_token {p : Nat} {c : Char} {r tail rest : List Char} {kind : TokenKind}
    (h : step c r = .token kind tail rest) :
    scanFrom p (c :: r) = (scanFrom (p + Text.byteLength (c :: tail)) rest).map
      (⟨kind, String.ofList (c :: tail), p⟩ :: ·) := by
  rw [scanFrom]
  split <;> rename_i h' <;> rw [h] at h' <;> cases h'
  split <;> rename_i he <;> rw [he] <;> rfl

theorem byteLength_of_step {c : Char} {r tail rest : List Char} {kind : TokenKind}
    (h : step c r = .token kind tail rest) :
    Text.byteLength (c :: r) = Text.byteLength (c :: tail) + Text.byteLength rest := by
  rw [← step_append h, Text.byteLength_cons, Text.byteLength_cons, Text.byteLength_append,
    Nat.add_assoc]

theorem Cut.scanFrom {p : Nat} {s : List Char} {ts : List Token} (h : Cut p s ts) :
    scanFrom p s = .ok (ts ++ [endAt (p + Text.byteLength s)]) := by
  induction h with
  | done p =>
    rw [Token.scanFrom]
    rfl
  | gap h _ ih => rw [scanFrom_gap h, ih, Text.byteLength_cons, Nat.add_assoc]
  | token h _ ih =>
    rw [scanFrom_token h, ih, byteLength_of_step h, Nat.add_assoc]
    rfl

theorem exists_cut_of_scanFrom {p : Nat} {s : List Char} {tokens : List Token}
    (h : scanFrom p s = .ok tokens) :
    ∃ ts, Cut p s ts ∧ tokens = ts ++ [endAt (p + Text.byteLength s)] := by
  induction hn : s.length using Nat.strongRecOn generalizing p s tokens with
  | ind n ih =>
    cases s with
    | nil =>
      rw [Token.scanFrom] at h
      exact ⟨[], .done p, (Except.ok.inj h).symm⟩
    | cons c r =>
      cases hs : step c r with
      | gap =>
        rw [scanFrom_gap hs] at h
        obtain ⟨ts, hts, rfl⟩ := ih r.length (by rw [← hn]; simp) h rfl
        exact ⟨ts, .gap hs hts, by rw [Text.byteLength_cons, Nat.add_assoc]⟩
      | unterminated =>
        rw [scanFrom_unterminated hs] at h
        cases h
      | token kind tail rest =>
        rw [scanFrom_token hs] at h
        have hlt : rest.length < n := by
          have := length_rest_le hs
          rw [← hn, List.length_cons]
          omega
        cases hr : Token.scanFrom (p + Text.byteLength (c :: tail)) rest with
        | error e =>
          rw [hr] at h
          cases h
        | ok more =>
          rw [hr] at h
          obtain ⟨ts, hts, rfl⟩ := ih rest.length hlt hr rfl
          refine ⟨_, .token hs hts, ?_⟩
          rw [← Except.ok.inj h, byteLength_of_step hs, Nat.add_assoc]
          rfl

/-- A scan succeeds with the tokens a text is cut into and the end marker. -/
theorem scan_eq_ok_iff {line : String} {tokens : List Token} :
    scan line = .ok tokens ↔
      ∃ ts, Cut 0 line.toList ts ∧ tokens = ts ++ [endAt (Text.byteLength line.toList)] := by
  constructor
  · intro h
    obtain ⟨ts, hts, he⟩ := exists_cut_of_scanFrom h
    exact ⟨ts, hts, by rw [he, Nat.zero_add]⟩
  · intro h
    obtain ⟨ts, hts, rfl⟩ := h
    rw [scan, hts.scanFrom, Nat.zero_add]

/-- The tokens of a text that is written out are shown by the steps that cut it. -/
theorem scan_eq_of_cut {s : List Char} {tokens : List Token} (h : Cut 0 s tokens.dropLast)
    (hend : tokens.getLast? = some (endAt (Text.byteLength s))) :
    scan (String.ofList s) = .ok tokens := by
  obtain ⟨ts, rfl⟩ := List.getLast?_eq_some_iff.1 hend
  rw [List.dropLast_concat] at h
  exact scan_eq_ok_iff.2 ⟨ts, by rwa [String.toList_ofList], by rw [String.toList_ofList]⟩

/-- Cutting goes on after a text as if the text stood alone, where the next one
cannot be taken from. -/
theorem Cut.append {p : Nat} {a b : List Char} {us vs : List Token} (ha : Cut p a us)
    (hb : Parted b) (hv : Cut (p + Text.byteLength a) b vs) : Cut p (a ++ b) (us ++ vs) := by
  induction ha with
  | done p => exact hv
  | gap h _ ih =>
    refine .gap (step_eq_gap h _) (ih ?_)
    rwa [Text.byteLength_cons, ← Nat.add_assoc] at hv
  | token h _ ih =>
    refine .token (step_append_stop h (hb.stops _)) (ih ?_)
    rwa [byteLength_of_step h, ← Nat.add_assoc] at hv

end MobSkills.Token
