import Mathlib.Data.List.Forall2
import MobSkills.Proofs.Line.Clauses

/-!
# Two parses in step

What a reader does depends on the kinds and the texts of the tokens before it, up to the
first end marker. This is said once for each reader, of two lists that are alike so far: the
readings agree, both cursors stop at lists that are alike again, and the tokens they have
passed hold no end marker. How the positions of the tokens are related is left open.
-/
namespace MobSkills

/-- Tokens of the same kind and text, at related positions. -/
structure Token.Alike (P : Nat → Nat → Prop) (t u : Token) : Prop where
  kind : u.kind = t.kind
  text : u.text = t.text
  position : P t.position u.position

namespace Reading

open Grammar (skip?_eq_some condition_of_mark entries_of_entry)

/-- Tokens that are alike one by one, up to the first end marker or to the end of both
lists. -/
inductive Alike (P : Nat → Nat → Prop) : List Token → List Token → Prop
  | nil : Alike P [] []
  | last {t u : Token} {r s : List Token} (h : t.Alike P u) (hk : t.kind = .endOfInput) :
      Alike P (t :: r) (u :: s)
  | cons {t u : Token} {r s : List Token} (h : t.Alike P u) (hr : Alike P r s) :
      Alike P (t :: r) (u :: s)

/-- Cursors in step: the first one stands in `base`, with no end marker before it, and what
the second one has before it is alike. -/
structure InStep (P : Nat → Nat → Prop) (base ts us : List Token) : Prop where
  reached : ∃ read, base = read ++ ts ∧ ∀ t ∈ read, t.kind ≠ .endOfInput
  alike : Alike P ts us

/-- Both fail and the failures are related, or both answer and the answers are related. -/
def Agrees {ε α : Type} (E : ε → ε → Prop) (A : α → α → Prop) (x y : Except ε α) : Prop :=
  (∃ e e', x = .error e ∧ y = .error e' ∧ E e e') ∨ ∃ a a', x = .ok a ∧ y = .ok a' ∧ A a a'

/-- The same expectation is missed by cursors in step. -/
def Breaks (P : Nat → Nat → Prop) (base : List Token) (f g : Failure) : Prop :=
  f.expected = g.expected ∧ InStep P base f.remaining g.remaining

/-- Related values are read by cursors in step. -/
def Ends {α : Type} (V : α → α → Prop) (P : Nat → Nat → Prop) (base : List Token)
    (x y : α × List Token) : Prop :=
  V x.1 y.1 ∧ InStep P base x.2 y.2

section
variable {P : Nat → Nat → Prop} {base ts us : List Token}

theorem Alike.refl (hP : ∀ n, P n n) (tokens : List Token) : Alike P tokens tokens := by
  induction tokens with
  | nil => exact .nil
  | cons t r ih => exact .cons ⟨rfl, rfl, hP _⟩ ih

theorem Agrees.error {ε α : Type} {E : ε → ε → Prop} {A : α → α → Prop} {e e' : ε}
    (h : E e e') : Agrees E A (.error e) (.error e') :=
  .inl ⟨e, e', rfl, rfl, h⟩

theorem Agrees.ok {ε α : Type} {E : ε → ε → Prop} {A : α → α → Prop} {a a' : α}
    (h : A a a') : Agrees E A (.ok a) (.ok a') :=
  .inr ⟨a, a', rfl, rfl, h⟩

theorem none_or_some_of_rel {α : Type} {A : α → α → Prop} {x y : Option α}
    (h : Option.Rel A x y) :
    (x = none ∧ y = none) ∨ ∃ a b, x = some a ∧ y = some b ∧ A a b := by
  cases h with
  | none => exact .inl ⟨rfl, rfl⟩
  | some h => exact .inr ⟨_, _, rfl, rfl, h⟩

/-- Where one cursor has no token left, the other has none; and where they have one, it is
the same but for its position. Both can move past it if it is no end marker. -/
theorem InStep.nil_or_cons (h : InStep P base ts us) :
    (ts = [] ∧ us = []) ∨ ∃ t r u s, ts = t :: r ∧ us = u :: s ∧ t.Alike P u ∧
      (t.kind ≠ .endOfInput → InStep P base r s) := by
  obtain ⟨⟨read, rfl, hread⟩, halike⟩ := h
  have hmoved {t : Token} {r : List Token} (hk : t.kind ≠ .endOfInput) :
      ∃ more, read ++ t :: r = more ++ r ∧ ∀ x ∈ more, x.kind ≠ .endOfInput := by
    refine ⟨read ++ [t], by simp, ?_⟩
    intro x hx
    rcases List.mem_append.1 hx with hx | hx
    · exact hread x hx
    · rwa [List.mem_singleton.1 hx]
  cases halike with
  | nil => exact .inl ⟨rfl, rfl⟩
  | last ht hend => exact .inr ⟨_, _, _, _, rfl, rfl, ht, fun hk => absurd hend hk⟩
  | cons ht hr => exact .inr ⟨_, _, _, _, rfl, rfl, ht, fun hk => ⟨hmoved hk, hr⟩⟩

/-! ## Symbols and single tokens -/

theorem skip?_inStep (kind : TokenKind) (hk : kind ≠ .endOfInput) (h : InStep P base ts us) :
    Option.Rel (InStep P base) (skip? kind ts) (skip? kind us) := by
  obtain ⟨rfl, rfl⟩ | ⟨t, r, u, s, rfl, rfl, ht, hmove⟩ := h.nil_or_cons
  · exact .none
  rw [skip?, skip?, ht.kind]
  split
  · rename_i heq
    exact .some (hmove (heq ▸ hk))
  · exact .none

theorem expect_inStep (kind : TokenKind) (e : Expectation) (hk : kind ≠ .endOfInput)
    (h : InStep P base ts us) :
    Agrees (Breaks P base) (Ends (Token.Alike P) P base) (expect kind e ts) (expect kind e us) := by
  obtain ⟨rfl, rfl⟩ | ⟨t, r, u, s, rfl, rfl, ht, hmove⟩ := h.nil_or_cons
  · exact .error ⟨rfl, h⟩
  rw [expect, expect, ht.kind]
  split
  · rename_i heq
    exact .ok ⟨ht, hmove (heq ▸ hk)⟩
  · exact .error ⟨rfl, h⟩

/-! ## Values and groups -/

/-- The reader goes on to the token that closes its group, with a count of the inner groups
that are open, and puts together what it makes of each text. -/
structure Encloses {α : Type} (opening closing : TokenKind) (e : Expectation)
    (close : String → α) (more : String → α → α) (reader : Nat → List Token → Reading α) :
    Prop where
  nil : ∀ depth, reader depth [] = .error ⟨e, []⟩
  cons : ∀ depth t r, reader depth (t :: r) =
    if t.kind = .endOfInput then .error ⟨e, t :: r⟩
    else match nesting? opening closing t.kind depth with
      | none => .ok (close t.text, r)
      | some depth =>
        match reader depth r with
        | .ok (a, rest) => .ok (more t.text a, rest)
        | .error f => .error f

theorem Encloses.inStep {α : Type} {opening closing : TokenKind} {e : Expectation}
    {close : String → α} {more : String → α → α} {reader : Nat → List Token → Reading α}
    (hreader : Encloses opening closing e close more reader) (h : InStep P base ts us)
    (depth : Nat) :
    Agrees (Breaks P base) (Ends Eq P base) (reader depth ts) (reader depth us) := by
  induction ts generalizing us depth with
  | nil =>
    obtain ⟨-, rfl⟩ | ⟨_, _, _, _, hts, -⟩ := h.nil_or_cons
    · rw [hreader.nil]
      exact .error ⟨rfl, h⟩
    · cases hts
  | cons t r ih =>
    obtain ⟨hts, -⟩ | ⟨_, _, u, s, hts, rfl, ht, hmove⟩ := h.nil_or_cons
    · cases hts
    cases hts
    rw [hreader.cons, hreader.cons, ht.kind, ht.text]
    split
    · exact .error ⟨rfl, h⟩
    rename_i hend
    have hnext := hmove hend
    cases nesting? opening closing t.kind depth with
    | none => exact .ok ⟨rfl, hnext⟩
    | some depth =>
      obtain ⟨f, g, hr, hs, hf⟩ | ⟨⟨a, r'⟩, ⟨_, s'⟩, hr, hs, rfl, hlast⟩ := ih hnext depth
      · simp only [hr, hs]
        exact .error hf
      · simp only [hr, hs]
        exact .ok ⟨rfl, hlast⟩

theorem encloses_items :
    Encloses .openBracket .closeBracket .listEnd (fun _ => []) List.cons items where
  nil _ := rfl
  cons depth t r := by
    rw [items]
    split
    · rfl
    cases nesting? .openBracket .closeBracket t.kind depth with
    | none => rfl
    | some depth =>
      dsimp only
      cases items depth r <;> rfl

theorem encloses_braceText :
    Encloses .openBrace .closeBrace .conditionEnd id String.append braceText where
  nil _ := rfl
  cons depth t r := by
    rw [braceText]
    split
    · rfl
    cases nesting? .openBrace .closeBrace t.kind depth with
    | none => rfl
    | some depth =>
      dsimp only
      cases braceText depth r <;> rfl

theorem value_inStep (h : InStep P base ts us) :
    Agrees (Breaks P base) (Ends Eq P base) (value ts) (value us) := by
  obtain ⟨rfl, rfl⟩ | ⟨t, r, u, s, rfl, rfl, ht, hmove⟩ := h.nil_or_cons
  · exact .error ⟨rfl, h⟩
  simp only [value, ht.kind, ht.text]
  split
  · rename_i hk
    exact .ok ⟨rfl, hmove (by simp [hk])⟩
  · rename_i hk
    exact .ok ⟨rfl, hmove (by simp [hk])⟩
  · rename_i hk
    exact .ok ⟨rfl, hmove (by simp [hk])⟩
  · rename_i hk
    obtain ⟨f, g, hr, hs, hf⟩ | ⟨⟨texts, r'⟩, ⟨_, s'⟩, hr, hs, rfl, hlast⟩ :=
      encloses_items.inStep (hmove (by simp [hk])) 0
    · simp only [hr, hs]
      exact .error hf
    · simp only [hr, hs]
      exact .ok ⟨rfl, hlast⟩
  · exact .error ⟨rfl, h⟩

theorem entry_inStep (h : InStep P base ts us) :
    Agrees (Breaks P base) (Ends Eq P base) (entry ts) (entry us) := by
  obtain ⟨f, g, hr, hs, hf⟩ | ⟨⟨k, r⟩, ⟨k', s⟩, hr, hs, hk, hkey⟩ :=
    expect_inStep .identifier .parameterName (by decide) h
  · simp only [entry, hr, hs]
    exact .error hf
  simp only [entry, hr, hs]
  obtain ⟨f, g, hr, hs, hf⟩ | ⟨⟨_, r⟩, ⟨_, s⟩, hr, hs, -, hequals⟩ :=
    expect_inStep .equals .equalsSign (by decide) hkey
  · simp only [hr, hs]
    exact .error hf
  simp only [hr, hs]
  obtain ⟨f, g, hr, hs, hf⟩ | ⟨⟨v, r⟩, ⟨_, s⟩, hr, hs, rfl, hvalue⟩ := value_inStep hequals
  · simp only [hr, hs]
    exact .error hf
  · simp only [hr, hs]
    exact .ok ⟨by rw [hk.text], hvalue⟩

theorem entries_of_failure {f : Failure} (h : entry ts = .error f) (given : Params) :
    entries given ts = .error f := by
  rw [entries]
  split
  · rename_i hread
    rw [h] at hread
    cases hread
    rfl
  · rename_i hread
    rw [h] at hread
    cases hread

theorem entries_inStep (h : InStep P base ts us) (given : Params) :
    Agrees (Breaks P base) (Ends Eq P base) (entries given ts) (entries given us) := by
  induction hn : ts.length using Nat.strongRecOn generalizing given ts us with
  | ind n ih =>
    obtain ⟨f, g, hr, hs, hf⟩ | ⟨⟨e, r⟩, ⟨_, s⟩, hr, hs, rfl, hentry⟩ := entry_inStep h
    · rw [entries_of_failure hr, entries_of_failure hs]
      exact .error hf
    have hlength := length_entry hr
    rw [entries_of_entry hr, entries_of_entry hs]
    obtain ⟨hr, hs⟩ | ⟨onward, onward', hr, hs, hmore⟩ :=
      none_or_some_of_rel (skip?_inStep .semicolon (by decide) hentry)
    · simp only [hr, hs]
      obtain ⟨hr, hs⟩ | ⟨left, left', hr, hs, hclose⟩ :=
        none_or_some_of_rel (skip?_inStep .closeBrace (by decide) hentry)
      · simp only [hr, hs]
        exact .error ⟨rfl, hentry⟩
      · simp only [hr, hs]
        exact .ok ⟨rfl, hclose⟩
    · have hshorter : onward.length < r.length := length_skip? hr
      simp only [hr, hs]
      obtain ⟨hr, hs⟩ | ⟨left, left', hr, hs, hclose⟩ :=
        none_or_some_of_rel (skip?_inStep .closeBrace (by decide) hmore)
      · simp only [hr, hs]
        exact ih onward.length (by omega) hmore _ rfl
      · simp only [hr, hs]
        exact .ok ⟨rfl, hclose⟩

theorem group_inStep (h : InStep P base ts us) :
    Agrees (Breaks P base) (Ends Eq P base) (group ts) (group us) := by
  obtain ⟨hr, hs⟩ | ⟨inner, inner', hr, hs, hopen⟩ :=
    none_or_some_of_rel (skip?_inStep .openBrace (by decide) h)
  · simp only [group, hr, hs]
    exact .ok ⟨rfl, h⟩
  simp only [group, hr, hs]
  obtain ⟨hr, hs⟩ | ⟨rest, rest', hr, hs, hclose⟩ :=
    none_or_some_of_rel (skip?_inStep .closeBrace (by decide) hopen)
  · simp only [hr, hs]
    obtain ⟨f, g, hr, hs, hf⟩ | ⟨⟨p, r⟩, ⟨_, s⟩, hr, hs, rfl, hentries⟩ :=
      entries_inStep hopen .empty
    · simp only [hr, hs]
      exact .error hf
    · simp only [hr, hs]
      exact .ok ⟨rfl, hentries⟩
  · simp only [hr, hs]
    exact .ok ⟨rfl, hclose⟩

/-! ## Targeters, triggers and conditions -/

theorem targeter_inStep (h : InStep P base ts us) :
    Agrees (Breaks P base) (Ends Eq P base) (targeter ts) (targeter us) := by
  obtain ⟨hr, hs⟩ | ⟨onward, onward', hr, hs, hsign⟩ :=
    none_or_some_of_rel (skip?_inStep .atSign (by decide) h)
  · simp only [targeter, hr, hs]
    exact .ok ⟨rfl, h⟩
  simp only [targeter, hr, hs]
  obtain ⟨f, g, hr, hs, hf⟩ | ⟨⟨k, r⟩, ⟨k', s⟩, hr, hs, hk, hkind⟩ :=
    expect_inStep .identifier .targeterKind (by decide) hsign
  · simp only [hr, hs]
    exact .error hf
  simp only [hr, hs]
  obtain ⟨f, g, hr, hs, hf⟩ | ⟨⟨options, r⟩, ⟨_, s⟩, hr, hs, rfl, hgroup⟩ := group_inStep hkind
  · simp only [hr, hs]
    exact .error hf
  · simp only [hr, hs]
    exact .ok ⟨by rw [hk.text], hgroup⟩

theorem ticks?_inStep (h : InStep P base ts us) :
    Option.Rel (Ends Eq P base) (ticks? ts) (ticks? us) := by
  obtain ⟨rfl, rfl⟩ | ⟨t, r, u, s, rfl, rfl, ht, hmove⟩ := h.nil_or_cons
  · exact .none
  rw [ticks?, ticks?, ht.kind, ht.text]
  split
  · rename_i hshape
    simp only [Bool.and_eq_true, decide_eq_true_eq] at hshape
    exact .some ⟨rfl, hmove (by simp [hshape.1])⟩
  · exact .none

theorem rel_or_getD {α : Type} {A : α → α → Prop} {x x' y y' : Option α} {z z' : α}
    (hx : Option.Rel A x x') (hy : Option.Rel A y y') (hz : A z z') :
    A ((x.or y).getD z) ((x'.or y').getD z') := by
  cases hx with
  | some hx => exact hx
  | none =>
    cases hy with
    | some hy => exact hy
    | none => exact hz

theorem tickTrigger_inStep (name : String) (h : InStep P base ts us) :
    Option.Rel (Ends Eq P base)
      ((ticks? ts).map fun (value, left) => ((⟨name, some value⟩ : Trigger), left))
      ((ticks? us).map fun (value, left) => (⟨name, some value⟩, left)) := by
  obtain ⟨hr, hs⟩ | ⟨⟨value, left⟩, ⟨_, left'⟩, hr, hs, rfl, hticks⟩ :=
    none_or_some_of_rel (ticks?_inStep h)
  · rw [hr, hs]
    exact .none
  · rw [hr, hs]
    exact .some ⟨rfl, hticks⟩

theorem trigger_inStep (h : InStep P base ts us) :
    Agrees (Breaks P base) (Ends Eq P base) (trigger ts) (trigger us) := by
  obtain ⟨f, g, hr, hs, hf⟩ | ⟨⟨w, r⟩, ⟨w', s⟩, hr, hs, hw, hword⟩ :=
    expect_inStep .identifier .triggerName (by decide) h
  · simp only [trigger, hr, hs]
    exact .error hf
  have htext : w'.text = w.text := hw.text
  simp only [trigger, hr, hs, htext]
  refine .ok (rel_or_getD ?fused ?split ⟨rfl, hword⟩)
  case fused =>
    split
    · exact tickTrigger_inStep _ hword
    · exact .none
  case split =>
    obtain ⟨hr, hs⟩ | ⟨onward, onward', hr, hs, hcolon⟩ :=
      none_or_some_of_rel (skip?_inStep .colon (by decide) hword)
    · rw [hr, hs]
      exact .none
    · rw [hr, hs]
      exact tickTrigger_inStep _ hcolon

theorem optionalTrigger_inStep (h : InStep P base ts us) :
    Agrees (Breaks P base) (Ends Eq P base) (optionalTrigger ts) (optionalTrigger us) := by
  obtain ⟨hr, hs⟩ | ⟨onward, onward', hr, hs, htilde⟩ :=
    none_or_some_of_rel (skip?_inStep .tilde (by decide) h)
  · simp only [optionalTrigger, hr, hs]
    exact .ok ⟨rfl, h⟩
  simp only [optionalTrigger, hr, hs]
  obtain ⟨f, g, hr, hs, hf⟩ | ⟨⟨t, r⟩, ⟨_, s⟩, hr, hs, rfl, hname⟩ := trigger_inStep htilde
  · simp only [hr, hs]
    exact .error hf
  · simp only [hr, hs]
    exact .ok ⟨rfl, hname⟩

/-- A condition after the mark of its negation. -/
def namedCondition (negated : Bool) (tokens : List Token) : Reading Condition :=
  match expect .identifier .conditionName tokens with
  | .error f => .error f
  | .ok (name, tokens) =>
    match tokens with
    | [] => .ok (⟨negated, name.text, none⟩, [])
    | t :: r =>
      if t.kind = .openBrace then
        match braceText 0 r with
        | .ok (text, rest) => .ok (⟨negated, name.text, some (t.text ++ text)⟩, rest)
        | .error f => .error f
      else .ok (⟨negated, name.text, none⟩, t :: r)

theorem condition_of_skip?_none (h : skip? .bang ts = none) :
    condition ts = namedCondition false ts :=
  condition_of_mark .absent fun _ => h

theorem condition_of_skip? {onward : List Token} (h : skip? .bang ts = some onward) :
    condition ts = namedCondition true onward := by
  obtain ⟨b, rfl, hb⟩ := skip?_eq_some.1 h
  exact condition_of_mark (.present hb) (by simp)

theorem namedCondition_inStep (negated : Bool) (h : InStep P base ts us) :
    Agrees (Breaks P base) (Ends Eq P base) (namedCondition negated ts)
      (namedCondition negated us) := by
  obtain ⟨f, g, hr, hs, hf⟩ | ⟨⟨n, r⟩, ⟨n', s⟩, hr, hs, hn, hname⟩ :=
    expect_inStep .identifier .conditionName (by decide) h
  · simp only [namedCondition, hr, hs]
    exact .error hf
  have htext : n'.text = n.text := hn.text
  simp only [namedCondition, hr, hs, htext]
  obtain ⟨rfl, rfl⟩ | ⟨o, r, o', s, rfl, rfl, ho, hmove⟩ := hname.nil_or_cons
  · exact .ok ⟨rfl, hname⟩
  simp only [ho.kind, ho.text]
  split
  · rename_i hopen
    obtain ⟨f, g, hr, hs, hf⟩ | ⟨⟨text, r⟩, ⟨_, s⟩, hr, hs, rfl, hbraces⟩ :=
      encloses_braceText.inStep (hmove (by simp [hopen])) 0
    · simp only [hr, hs]
      exact .error hf
    · simp only [hr, hs]
      exact .ok ⟨rfl, hbraces⟩
  · exact .ok ⟨rfl, hname⟩

theorem condition_inStep (h : InStep P base ts us) :
    Agrees (Breaks P base) (Ends Eq P base) (condition ts) (condition us) := by
  obtain ⟨hr, hs⟩ | ⟨onward, onward', hr, hs, hbang⟩ :=
    none_or_some_of_rel (skip?_inStep .bang (by decide) h)
  · rw [condition_of_skip?_none hr, condition_of_skip?_none hs]
    exact namedCondition_inStep false h
  · rw [condition_of_skip? hr, condition_of_skip? hs]
    exact namedCondition_inStep true hbang

theorem conditions_of_skip?_none (h : skip? .question ts = none) : conditions ts = .ok ([], ts) := by
  rw [conditions]
  split
  · rfl
  · rename_i hskip
    rw [h] at hskip
    cases hskip

theorem conditions_of_skip? {onward : List Token} (h : skip? .question ts = some onward) :
    conditions ts =
      match condition onward with
      | .error f => .error ([], f)
      | .ok (c, rest) =>
        match conditions rest with
        | .ok (more, left) => .ok (c :: more, left)
        | .error (more, f) => .error (c :: more, f) := by
  rw [conditions]
  split
  · rename_i hskip
    rw [h] at hskip
    cases hskip
  · rename_i hskip
    rw [h] at hskip
    cases hskip
    split
    · rename_i hread
      rewrite [hread]
      rfl
    · rename_i hread
      rewrite [hread]
      rfl

/-- A part that fails keeps what was read before it. -/
abbrev BreaksAfter {α : Type} (P : Nat → Nat → Prop) (base : List Token) (x y : α × Failure) :
    Prop :=
  x.1 = y.1 ∧ Breaks P base x.2 y.2

theorem conditions_inStep (h : InStep P base ts us) :
    Agrees (BreaksAfter P base) (Ends Eq P base) (conditions ts) (conditions us) := by
  induction hn : ts.length using Nat.strongRecOn generalizing ts us with
  | ind n ih =>
    obtain ⟨hr, hs⟩ | ⟨onward, onward', hr, hs, hquestion⟩ :=
      none_or_some_of_rel (skip?_inStep .question (by decide) h)
    · rw [conditions_of_skip?_none hr, conditions_of_skip?_none hs]
      exact .ok ⟨rfl, h⟩
    rw [conditions_of_skip? hr, conditions_of_skip? hs]
    have hshorter := length_skip? hr
    obtain ⟨f, g, hr, hs, hf⟩ | ⟨⟨c, r⟩, ⟨_, s⟩, hr, hs, rfl, hcondition⟩ :=
      condition_inStep hquestion
    · simp only [hr, hs]
      exact .error ⟨rfl, hf⟩
    have hlength := length_condition hr
    simp only [hr, hs]
    obtain ⟨⟨more, f⟩, ⟨_, g⟩, hr, hs, rfl, hf⟩ | ⟨⟨more, r⟩, ⟨_, s⟩, hr, hs, rfl, hmore⟩ :=
      ih r.length (by omega) hcondition rfl
    · simp only [hr, hs]
      exact .error ⟨rfl, hf⟩
    · simp only [hr, hs]
      exact .ok ⟨rfl, hmore⟩

/-! ## Whole lines -/

theorem Agrees.mapError_bind {ε δ α β : Type} {E : ε → ε → Prop} {D : δ → δ → Prop}
    {A : α → α → Prop} {B : β → β → Prop} {x y : Except ε α} {g : ε → δ}
    {k k' : α → Except δ β} (h : Agrees E A x y) (hg : ∀ e e', E e e' → D (g e) (g e'))
    (hk : ∀ a a', A a a' → Agrees D B (k a) (k' a')) :
    Agrees D B (x.mapError g >>= k) (y.mapError g >>= k') := by
  obtain ⟨e, e', rfl, rfl, he⟩ | ⟨a, a', rfl, rfl, ha⟩ := h
  · exact .error (hg e e' he)
  · exact hk a a' ha

theorem structuralParts_inStep (h : InStep P base ts us) :
    Agrees (BreaksAfter P base) (Ends Eq P base) (structuralParts ts) (structuralParts us) := by
  have hmarked : InStep P base ((skip? .minus ts).getD ts) ((skip? .minus us).getD us) := by
    obtain ⟨hr, hs⟩ | ⟨r, s, hr, hs, hminus⟩ :=
      none_or_some_of_rel (skip?_inStep .minus (by decide) h)
    · rw [hr, hs]
      exact h
    · rw [hr, hs]
      exact hminus
  refine (expect_inStep .identifier .mechanicName (by decide) hmarked).mapError_bind
    (fun f g hf => ⟨rfl, hf⟩) ?_
  rintro ⟨n, r⟩ ⟨n', s⟩ ⟨hn, hname⟩
  have htext : n'.text = n.text := hn.text
  simp only [htext]
  refine (group_inStep hname).mapError_bind (fun f g hf => ⟨rfl, hf⟩) ?_
  rintro ⟨parameters, r⟩ ⟨_, s⟩ ⟨rfl, hgroup⟩
  refine (targeter_inStep hgroup).mapError_bind (fun f g hf => ⟨rfl, hf⟩) ?_
  rintro ⟨targeter, r⟩ ⟨_, s⟩ ⟨rfl, htargeter⟩
  refine (optionalTrigger_inStep htargeter).mapError_bind (fun f g hf => ⟨rfl, hf⟩) ?_
  rintro ⟨trigger, r⟩ ⟨_, s⟩ ⟨rfl, htrigger⟩
  refine (conditions_inStep htrigger).mapError_bind ?_ ?_
  · rintro ⟨read, f⟩ ⟨_, g⟩ ⟨rfl, hf⟩
    exact ⟨rfl, hf⟩
  · rintro ⟨read, r⟩ ⟨_, s⟩ ⟨rfl, hconditions⟩
    exact .ok ⟨rfl, hconditions⟩

/-- The same complaint about tokens that are alike, the first of them one of `base`. -/
def Noted (P : Nat → Nat → Prop) (base : List Token) (p q : Problem) : Prop :=
  ∃ cause t u, t ∈ base ∧ t.Alike P u ∧ p = .atToken cause t ∧ q = .atToken cause u

/-- The same value is found, with related complaints, by cursors in step. -/
def Finds {α : Type} (P : Nat → Nat → Prop) (base : List Token)
    (x y : α × List Problem × List Token) : Prop :=
  x.1 = y.1 ∧ List.Forall₂ (Noted P base) x.2.1 y.2.1 ∧ InStep P base x.2.2 y.2.2

theorem InStep.mem {t : Token} {r : List Token} (h : InStep P base (t :: r) us) : t ∈ base := by
  obtain ⟨⟨read, rfl, -⟩, -⟩ := h
  simp

theorem signedNumber?_inStep (h : InStep P base ts us) :
    Option.Rel (Ends Eq P base) (signedNumber? ts) (signedNumber? us) := by
  obtain ⟨rfl, rfl⟩ | ⟨t, r, u, s, rfl, rfl, ht, hmove⟩ := h.nil_or_cons
  · exact .none
  simp only [signedNumber?, ht.kind, ht.text]
  split
  · rename_i hk
    exact .some ⟨rfl, hmove (by simp [hk])⟩
  split
  · rename_i hk
    have hnext := hmove (by simp [hk])
    obtain ⟨rfl, rfl⟩ | ⟨n, r, n', s, rfl, rfl, hn, hmove⟩ := hnext.nil_or_cons
    · exact .none
    simp only [hn.kind, hn.text]
    split
    · rename_i hk
      exact .some ⟨rfl, hmove (by simp [hk])⟩
    · exact .none
  · exact .none

theorem rangeEnd?_inStep (h : InStep P base ts us) :
    Option.Rel (Ends Eq P base) (rangeEnd? ts) (rangeEnd? us) := by
  unfold rangeEnd?
  obtain ⟨hr, hs⟩ | ⟨⟨text, r⟩, ⟨_, s⟩, hr, hs, rfl, hnumber⟩ :=
    none_or_some_of_rel (signedNumber?_inStep h)
  · rw [hr, hs]
    exact .none
  rw [hr, hs, Option.filter_some, Option.filter_some]
  dsimp only
  split
  · exact .some ⟨rfl, hnumber⟩
  · exact .none

theorem healthValue_inStep (h : InStep P base ts us) :
    Finds P base (healthValue ts) (healthValue us) := by
  unfold healthValue
  obtain ⟨hr, hs⟩ | ⟨⟨low, r⟩, ⟨_, s⟩, hr, hs, rfl, hnumber⟩ :=
    none_or_some_of_rel (signedNumber?_inStep h)
  · simp only [hr, hs]
    refine ⟨rfl, ?_, h⟩
    obtain ⟨rfl, rfl⟩ | ⟨t, r, u, s, rfl, rfl, ht, -⟩ := h.nil_or_cons
    · exact .nil
    · exact .cons ⟨.noHealthValue, t, u, h.mem, ht, rfl, rfl⟩ .nil
  simp only [hr, hs]
  obtain ⟨hr, hs⟩ | ⟨⟨high, r⟩, ⟨_, s⟩, hr, hs, rfl, hrange⟩ :=
    none_or_some_of_rel (rangeEnd?_inStep hnumber)
  · simp only [hr, hs]
    exact ⟨rfl, .nil, hnumber⟩
  · simp only [hr, hs]
    exact ⟨rfl, .nil, hrange⟩

theorem chance_inStep (options : ParseOptions) (h : InStep P base ts us) :
    Finds P base (chance options ts) (chance options us) := by
  obtain ⟨rfl, rfl⟩ | ⟨t, r, u, s, rfl, rfl, ht, hmove⟩ := h.nil_or_cons
  · exact ⟨rfl, .nil, h⟩
  simp only [chance, ht.kind, ht.text]
  split
  · rename_i hshape
    simp only [Bool.and_eq_true, decide_eq_true_eq] at hshape
    have hnext := hmove (by simp [hshape.1.1])
    split
    · exact ⟨rfl, .nil, h⟩
    split
    · exact ⟨rfl, .nil, hnext⟩
    split
    · exact ⟨rfl, .cons ⟨_, t, u, h.mem, ht, rfl, rfl⟩ .nil, hnext⟩
    · exact ⟨rfl, .nil, h⟩
  · exact ⟨rfl, .nil, h⟩

/-- The health gate, if a comparison comes first. -/
def healthGate (tokens : List Token) : Option HealthGate × List Problem × List Token :=
  match tokens with
  | [] => (none, [], [])
  | t :: r =>
    match comparison? t with
    | none => (none, [], t :: r)
    | some c =>
      let (value, odd, rest) := healthValue r
      (some ⟨c, value⟩, odd, rest)

theorem looseParts_eq (options : ParseOptions) (line : SkillLine) (tokens : List Token) :
    looseParts options line tokens =
      let gate := healthGate tokens
      let last := chance options gate.2.2
      ({ line with health := gate.1, chance := last.1 }, gate.2.1 ++ last.2.1, last.2.2) :=
  rfl

theorem kind_of_comparison? {t : Token} {c : Comparison} (h : comparison? t = some c) :
    t.kind ≠ .endOfInput := by
  intro hk
  rw [comparison?, hk] at h
  cases h

theorem healthGate_inStep (h : InStep P base ts us) :
    Finds P base (healthGate ts) (healthGate us) := by
  obtain ⟨rfl, rfl⟩ | ⟨t, r, u, s, rfl, rfl, ht, hmove⟩ := h.nil_or_cons
  · exact ⟨rfl, .nil, h⟩
  have hsame : comparison? u = comparison? t := by rw [comparison?, comparison?, ht.kind]
  simp only [healthGate, hsame]
  cases hc : comparison? t with
  | none => exact ⟨rfl, .nil, h⟩
  | some c =>
    obtain ⟨hvalue, hodd, hrest⟩ := healthValue_inStep (hmove (kind_of_comparison? hc))
    exact ⟨by simp only [hvalue], hodd, hrest⟩

theorem looseParts_inStep (options : ParseOptions) (line : SkillLine) (h : InStep P base ts us) :
    Finds P base (looseParts options line ts) (looseParts options line us) := by
  obtain ⟨hhealth, hodd, hgate⟩ := healthGate_inStep h
  obtain ⟨hchance, hodd', hlast⟩ := chance_inStep options hgate
  rw [looseParts_eq, looseParts_eq]
  refine ⟨?_, List.rel_append hodd hodd', hlast⟩
  simp only [hhealth, hchance]

theorem trailing_inStep (h : InStep P base ts us) :
    List.Forall₂ (Noted P base) (trailing ts) (trailing us) := by
  obtain ⟨rfl, rfl⟩ | ⟨t, r, u, s, rfl, rfl, ht, -⟩ := h.nil_or_cons
  · exact .nil
  rw [trailing, trailing, ht.kind, ht.text]
  split
  · exact .nil
  · exact .cons ⟨_, t, u, h.mem, ht, rfl, rfl⟩ .nil

/-- The position that a problem has where no token is left. -/
def lastPosition (tokens : List Token) : Nat :=
  (tokens.getLast?.map (·.position)).getD 0

/-- The same complaint, or the same expectation missed where the tokens ran out without an
end marker. -/
def Reported (P : Nat → Nat → Prop) (base other : List Token) (p q : Problem) : Prop :=
  Noted P base p q ∨ (∀ t ∈ base, t.kind ≠ .endOfInput) ∧ ∃ e,
    p = ⟨.exhausted e, lastPosition base, none⟩ ∧ q = ⟨.exhausted e, lastPosition other, none⟩

theorem reported_of_breaks {other : List Token} {f g : Failure} (h : Breaks P base f g) :
    Reported P base other (f.problem (lastPosition base)) (g.problem (lastPosition other)) := by
  obtain ⟨e, r⟩ := f
  obtain ⟨_, s⟩ := g
  obtain ⟨rfl, hleft⟩ := h
  obtain ⟨hr, hs⟩ | ⟨t, r, u, s, hr, hs, ht, -⟩ := hleft.nil_or_cons
  · dsimp only at hr hs
    subst hr hs
    obtain ⟨⟨read, rfl, hread⟩, -⟩ := hleft
    rw [List.append_nil]
    exact .inr ⟨hread, e, rfl, rfl⟩
  · dsimp only at hr hs
    subst hr hs
    exact .inl ⟨_, t, u, hleft.mem, ht, rfl, by simp only [Failure.problem, ht.kind, ht.text]⟩

end
end Reading

namespace SkillLine

open Reading (structuralParts looseParts trailing lastPosition InStep Noted Reported)

/-- A parse with the tokens it leaves: those that no part has taken, or those at which it
breaks off. -/
def parseLeaving (options : ParseOptions) (tokens : List Token) : Outcome × List Token :=
  match structuralParts tokens with
  | .error (line, f) => (⟨line, [f.problem (lastPosition tokens)], []⟩, f.remaining)
  | .ok (line, rest) =>
    let (line, odd, rest) := looseParts options line rest
    (⟨line, [], odd ++ trailing rest⟩, rest)

theorem parseLeaving_fst (options : ParseOptions) (tokens : List Token) :
    (parseLeaving options tokens).1 = parseTokens options tokens := by
  unfold parseLeaving parseTokens
  cases structuralParts tokens <;> rfl

/-- Parses of tokens that are alike answer the same line, report the same problems and stop
in step. -/
theorem parseLeaving_inStep {P : Nat → Nat → Prop} {ts us : List Token} (options : ParseOptions)
    (h : Reading.Alike P ts us) :
    let x := parseLeaving options ts
    let y := parseLeaving options us
    x.1.line = y.1.line ∧ List.Forall₂ (Reported P ts us) x.1.errors y.1.errors ∧
      List.Forall₂ (Noted P ts) x.1.warnings y.1.warnings ∧ InStep P ts x.2 y.2 := by
  have hstart : InStep P ts ts us := ⟨⟨[], rfl, by simp⟩, h⟩
  unfold parseLeaving
  obtain ⟨⟨line, f⟩, ⟨_, g⟩, hr, hs, rfl, hf⟩ | ⟨⟨line, r⟩, ⟨_, s⟩, hr, hs, rfl, hhead⟩ :=
    Reading.structuralParts_inStep hstart
  · simp only [hr, hs]
    exact ⟨trivial, .cons (Reading.reported_of_breaks hf) .nil, .nil, hf.2⟩
  · obtain ⟨hline, hodd, hrest⟩ := Reading.looseParts_inStep options line hhead
    simp only [hr, hs]
    exact ⟨hline, .nil, List.rel_append hodd (Reading.trailing_inStep hrest), hrest⟩

end SkillLine
end MobSkills
