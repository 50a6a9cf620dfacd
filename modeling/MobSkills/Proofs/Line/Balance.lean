import MobSkills.Proofs.Line.Grammar

/-!
# Balanced groups are found by counting

The readers of lists and brace groups count the open pairs. Counting is tied to the
nested structure of the grammar: kinds balance exactly when the count starts and ends
at none without going below. Both readers then answer the tokens up to the first one
that closes the group.
-/
namespace MobSkills.Grammar

open Reading (nesting? items braceText)

section
variable (opening closing : TokenKind)

/-- How many pairs are open after the kinds, or none when one of them has nothing to
close. -/
def depthAfter : Nat → List TokenKind → Option Nat
  | depth, [] => some depth
  | depth, k :: ks => (nesting? opening closing k depth).bind (depthAfter · ks)

/-- Kinds that close as many pairs as are open: balanced ones before each. -/
inductive Closing : Nat → List TokenKind → Prop
  | all {ks : List TokenKind} (h : Balanced opening closing ks) : Closing 0 ks
  | one {depth : Nat} {ks us : List TokenKind} (h : Balanced opening closing ks)
      (hr : Closing depth us) : Closing (depth + 1) (ks ++ closing :: us)

/-- The tokens before the one that closes the group, that one, and the rest. -/
def enclosed? : Nat → List Token → Option (List Token × Token × List Token)
  | _, [] => none
  | depth, t :: r =>
    if t.kind = .endOfInput then none
    else match nesting? opening closing t.kind depth with
      | none => some ([], t, r)
      | some depth => (enclosed? depth r).map fun (inner, c, rest) => (t :: inner, c, rest)

end

section
variable {opening closing : TokenKind}

theorem nesting?_opening (depth : Nat) :
    nesting? opening closing opening depth = some (depth + 1) := by
  simp [nesting?]

theorem nesting?_other {k : TokenKind} (ho : k ≠ opening) (hc : k ≠ closing) (depth : Nat) :
    nesting? opening closing k depth = some depth := by
  simp [nesting?, ho, hc]

theorem nesting?_closing (hne : opening ≠ closing) (depth : Nat) :
    nesting? opening closing closing (depth + 1) = some depth := by
  simp [nesting?, hne.symm]

theorem nesting?_eq_none {k : TokenKind} {depth : Nat}
    (h : nesting? opening closing k depth = none) : k = closing ∧ depth = 0 := by
  unfold nesting? at h
  split at h
  · cases h
  split at h
  · rename_i hk
    cases depth with
    | zero => exact ⟨hk, rfl⟩
    | succ depth => cases h
  · cases h

theorem depthAfter_append (depth : Nat) (ks us : List TokenKind) :
    depthAfter opening closing depth (ks ++ us) =
      (depthAfter opening closing depth ks).bind (depthAfter opening closing · us) := by
  induction ks generalizing depth with
  | nil => rfl
  | cons k ks ih =>
    cases hk : nesting? opening closing k depth with
    | none => simp [depthAfter, hk]
    | some d => simp [depthAfter, hk, ih]

/-! ## Balanced kinds -/

theorem Balanced.depthAfter (hne : opening ≠ closing) {ks : List TokenKind}
    (h : Balanced opening closing ks) (depth : Nat) :
    depthAfter opening closing depth ks = some depth := by
  induction h generalizing depth with
  | nil => rfl
  | other ho hc _ _ ih => rw [Grammar.depthAfter, nesting?_other ho hc, Option.bind_some, ih]
  | nested _ _ ihi ih =>
    rw [Grammar.depthAfter, nesting?_opening, Option.bind_some, depthAfter_append, ihi,
      Option.bind_some, Grammar.depthAfter, nesting?_closing hne, Option.bind_some, ih]

theorem Balanced.not_end (ho : opening ≠ .endOfInput) (hc : closing ≠ .endOfInput)
    {ks : List TokenKind} (h : Balanced opening closing ks) : TokenKind.endOfInput ∉ ks := by
  induction h with
  | nil => simp
  | other _ _ he _ ih => simp [he.symm, ih]
  | nested _ _ ihi ih => simp [ho.symm, hc.symm, ihi, ih]

theorem Closing.other {k : TokenKind} (ho : k ≠ opening) (hc : k ≠ closing)
    (he : k ≠ .endOfInput) {depth : Nat} {ks : List TokenKind}
    (h : Closing opening closing depth ks) : Closing opening closing depth (k :: ks) := by
  cases h with
  | all h => exact .all (.other ho hc he h)
  | one h hr => exact .one (.other ho hc he h) hr

theorem Closing.nested {depth : Nat} {ks : List TokenKind}
    (h : Closing opening closing (depth + 1) ks) :
    Closing opening closing depth (opening :: ks) := by
  cases h with
  | one h hr =>
    cases hr with
    | all hr => exact .all (.nested h hr)
    | @one _ us vs hu hv =>
      have hadd := Closing.one (.nested h hu) hv
      simpa using hadd

/-- The kinds by which the count of open pairs comes down to none. -/
theorem closing_of_depthAfter {depth : Nat} {ks : List TokenKind}
    (h : Grammar.depthAfter opening closing depth ks = some 0) (he : TokenKind.endOfInput ∉ ks) :
    Closing opening closing depth ks := by
  induction ks generalizing depth with
  | nil =>
    obtain rfl : depth = 0 := Option.some.inj h
    exact .all .nil
  | cons k ks ih =>
    obtain ⟨hk, hks⟩ : TokenKind.endOfInput ≠ k ∧ TokenKind.endOfInput ∉ ks := by
      simpa using he
    rw [Grammar.depthAfter] at h
    by_cases ho : k = opening
    · subst ho
      rw [nesting?_opening] at h
      exact (ih h hks).nested
    by_cases hc : k = closing
    · subst hc
      cases depth with
      | zero => simp [nesting?, ho] at h
      | succ depth =>
        rw [nesting?_closing (Ne.symm ho)] at h
        exact .one .nil (ih h hks)
    · rw [nesting?_other ho hc] at h
      exact (ih h hks).other ho hc hk.symm

/-- Kinds balance exactly when counting goes from none to none. -/
theorem balanced_iff (hne : opening ≠ closing) (ho : opening ≠ .endOfInput)
    (hc : closing ≠ .endOfInput) {ks : List TokenKind} :
    Balanced opening closing ks ↔
      Grammar.depthAfter opening closing 0 ks = some 0 ∧ TokenKind.endOfInput ∉ ks := by
  constructor
  · intro h
    exact ⟨h.depthAfter hne 0, h.not_end ho hc⟩
  · intro h
    obtain ⟨h, he⟩ := h
    cases closing_of_depthAfter h he with
    | all h => exact h

/-! ## The tokens of a group -/

theorem exists_of_enclosed? {depth : Nat} {tokens inner rest : List Token} {c : Token}
    (h : enclosed? opening closing depth tokens = some (inner, c, rest)) :
    tokens = inner ++ c :: rest ∧ c.kind = closing ∧
      Grammar.depthAfter opening closing depth (inner.map Token.kind) = some 0 ∧
      TokenKind.endOfInput ∉ inner.map Token.kind := by
  induction tokens generalizing depth inner with
  | nil => cases h
  | cons t r ih =>
    rw [enclosed?] at h
    split at h
    · cases h
    rename_i he
    split at h
    · rename_i hn
      cases h
      obtain ⟨hkind, rfl⟩ := nesting?_eq_none hn
      exact ⟨rfl, hkind, rfl, by simp⟩
    · rename_i d hn
      obtain ⟨⟨more, c', rest'⟩, hr, heq⟩ := Option.map_eq_some_iff.1 h
      cases heq
      obtain ⟨rfl, hkind, hdepth, hend⟩ := ih hr
      refine ⟨rfl, hkind, ?_, ?_⟩
      · rw [List.map_cons, Grammar.depthAfter, hn]
        exact hdepth
      · rw [List.map_cons, List.mem_cons]
        exact fun h => h.elim (fun h => he h.symm) hend

theorem enclosed?_append (hne : opening ≠ closing) (hc : closing ≠ .endOfInput) {depth : Nat}
    {inner rest : List Token} {c : Token} (hkind : c.kind = closing)
    (hdepth : Grammar.depthAfter opening closing depth (inner.map Token.kind) = some 0)
    (hend : TokenKind.endOfInput ∉ inner.map Token.kind) :
    enclosed? opening closing depth (inner ++ c :: rest) = some (inner, c, rest) := by
  induction inner generalizing depth with
  | nil =>
    obtain rfl : depth = 0 := Option.some.inj hdepth
    simp [enclosed?, hkind, hc, nesting?, hne.symm]
  | cons t inner ih =>
    rw [List.map_cons, List.mem_cons, not_or] at hend
    rw [List.map_cons, Grammar.depthAfter] at hdepth
    obtain ⟨d, hn, hdepth⟩ := Option.bind_eq_some_iff.1 hdepth
    rw [List.cons_append, enclosed?, if_neg (Ne.symm hend.1), hn]
    simp only [ih hdepth hend.2, Option.map_some]

/-- The tokens of a group from its inside on: they balance up to the closing one. -/
theorem enclosed?_zero_eq_some (hne : opening ≠ closing) (ho : opening ≠ .endOfInput)
    (hc : closing ≠ .endOfInput) {tokens inner rest : List Token} {c : Token} :
    enclosed? opening closing 0 tokens = some (inner, c, rest) ↔
      tokens = inner ++ c :: rest ∧ c.kind = closing ∧
        Balanced opening closing (inner.map Token.kind) := by
  rw [balanced_iff hne ho hc]
  constructor
  · exact exists_of_enclosed?
  · intro h
    obtain ⟨rfl, hkind, hdepth, hend⟩ := h
    exact enclosed?_append hne hc hkind hdepth hend

end

/-! ## The readers of groups -/

theorem eq_ok_iff_toOption {ε α : Type} {x : Except ε α} {a : α} :
    x = .ok a ↔ x.toOption = some a := by
  cases x <;> simp [Except.toOption]

theorem toOption_items (depth : Nat) (tokens : List Token) :
    (items depth tokens).toOption =
      (enclosed? .openBracket .closeBracket depth tokens).map
        fun (inner, _, rest) => (inner.map Token.text, rest) := by
  induction tokens generalizing depth with
  | nil => rfl
  | cons t r ih =>
    rw [items, enclosed?]
    by_cases he : t.kind = .endOfInput
    · rw [if_pos he, if_pos he]
      rfl
    rw [if_neg he, if_neg he]
    cases nesting? .openBracket .closeBracket t.kind depth with
    | none => rfl
    | some d =>
      have hr := ih d
      cases hi : items d r with
      | error f =>
        rw [hi] at hr
        simp only [hi, Option.map_eq_none_iff.1 hr.symm]
        rfl
      | ok read =>
        rw [hi] at hr
        obtain ⟨found, hf, rfl⟩ := Option.map_eq_some_iff.1 hr.symm
        simp only [hi, hf]
        rfl

theorem toOption_braceText (depth : Nat) (tokens : List Token) :
    (braceText depth tokens).toOption =
      (enclosed? .openBrace .closeBrace depth tokens).map
        fun (inner, c, rest) => (String.join ((inner ++ [c]).map Token.text), rest) := by
  induction tokens generalizing depth with
  | nil => rfl
  | cons t r ih =>
    rw [braceText, enclosed?]
    by_cases he : t.kind = .endOfInput
    · rw [if_pos he, if_pos he]
      rfl
    rw [if_neg he, if_neg he]
    cases nesting? .openBrace .closeBrace t.kind depth with
    | none => simp [Except.toOption]
    | some d =>
      have hr := ih d
      cases hi : braceText d r with
      | error f =>
        rw [hi] at hr
        simp only [hi, Option.map_eq_none_iff.1 hr.symm]
        rfl
      | ok read =>
        rw [hi] at hr
        obtain ⟨found, hf, rfl⟩ := Option.map_eq_some_iff.1 hr.symm
        simp only [hi, hf, Except.toOption, Option.map_some, List.cons_append, List.map_cons,
          String.join_cons]

/-- The items of a list are the texts up to the bracket that closes it. -/
theorem items_eq_ok {tokens rest : List Token} {texts : List String} :
    items 0 tokens = .ok (texts, rest) ↔ ∃ inner c, tokens = inner ++ c :: rest ∧
      c.kind = .closeBracket ∧ Balanced .openBracket .closeBracket (inner.map Token.kind) ∧
      texts = inner.map Token.text := by
  rw [eq_ok_iff_toOption, toOption_items, Option.map_eq_some_iff]
  constructor
  · intro h
    obtain ⟨⟨inner, c, left⟩, hf, heq⟩ := h
    obtain ⟨rfl, rfl⟩ := Prod.mk.inj heq
    obtain ⟨happ, hc, hb⟩ := (enclosed?_zero_eq_some (by decide) (by decide) (by decide)).1 hf
    exact ⟨inner, c, happ, hc, hb, rfl⟩
  · intro h
    obtain ⟨inner, c, happ, hc, hb, rfl⟩ := h
    refine ⟨(inner, c, rest), ?_, rfl⟩
    exact (enclosed?_zero_eq_some (by decide) (by decide) (by decide)).2 ⟨happ, hc, hb⟩

/-- The text of a brace group is all the text up to and with the brace that closes it. -/
theorem braceText_eq_ok {tokens rest : List Token} {text : String} :
    braceText 0 tokens = .ok (text, rest) ↔ ∃ inner c, tokens = inner ++ c :: rest ∧
      c.kind = .closeBrace ∧ Balanced .openBrace .closeBrace (inner.map Token.kind) ∧
      text = String.join ((inner ++ [c]).map Token.text) := by
  rw [eq_ok_iff_toOption, toOption_braceText, Option.map_eq_some_iff]
  constructor
  · intro h
    obtain ⟨⟨inner, c, left⟩, hf, heq⟩ := h
    obtain ⟨rfl, rfl⟩ := Prod.mk.inj heq
    obtain ⟨happ, hc, hb⟩ := (enclosed?_zero_eq_some (by decide) (by decide) (by decide)).1 hf
    exact ⟨inner, c, happ, hc, hb, rfl⟩
  · intro h
    obtain ⟨inner, c, happ, hc, hb, rfl⟩ := h
    refine ⟨(inner, c, rest), ?_, rfl⟩
    exact (enclosed?_zero_eq_some (by decide) (by decide) (by decide)).2 ⟨happ, hc, hb⟩

end MobSkills.Grammar
