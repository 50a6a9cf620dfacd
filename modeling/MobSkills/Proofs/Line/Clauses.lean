import MobSkills.Proofs.Line.Groups
import MobSkills.Proofs.Line.Lexeme

/-!
# Readers of targeters, triggers and conditions

What these readers answer is a phrase of the grammar, and a phrase is read again in
front of tokens that could not have been part of it. The tick count of a trigger is
the one place where the text of a token matters, so there the tokens have to be
lexemes.
-/
namespace MobSkills.Grammar

open Reading (skip? expect group targeter ticks? trigger optionalTrigger condition conditions
  braceText)

/-- Every token is a lexeme of its kind. -/
def Lexed (tokens : List Token) : Prop :=
  ∀ t ∈ tokens, t.kind ≠ .endOfInput → Token.IsLexeme t.kind t.text.toList

theorem Lexed.append_left {ts us : List Token} (h : Lexed (ts ++ us)) : Lexed ts :=
  fun t ht => h t (List.mem_append_left us ht)

theorem Lexed.append_right {ts us : List Token} (h : Lexed (ts ++ us)) : Lexed us :=
  fun t ht => h t (List.mem_append_right ts ht)

theorem Lexed.tail {t : Token} {ts : List Token} (h : Lexed (t :: ts)) : Lexed ts :=
  fun u hu => h u (List.mem_cons_of_mem t hu)

theorem Lexed.concat_end {ts : List Token} {last : Token} (h : Lexed ts)
    (hlast : last.kind = .endOfInput) : Lexed (ts ++ [last]) := by
  intro t ht hk
  rcases List.mem_append.1 ht with ht | ht
  · exact h t ht hk
  · obtain rfl := List.mem_singleton.1 ht
    exact absurd hlast hk

/-! ## Targeters -/

theorem exists_targeterOf {tokens rest : List Token} {t : Option Targeter}
    (h : targeter tokens = .ok (t, rest)) :
    ∃ front, tokens = front ++ rest ∧ Maybe TargeterOf front t := by
  unfold targeter at h
  split at h
  · cases h
    exact ⟨[], rfl, .absent⟩
  rename_i onward hsign
  obtain ⟨a, rfl, ha⟩ := skip?_eq_some.1 hsign
  split at h
  · cases h
  rename_i k more hread
  obtain ⟨rfl, hk⟩ := expect_eq_ok.1 hread
  split at h
  · rename_i hgroup
    cases h
    obtain ⟨front, rfl, hg⟩ := exists_groupOf hgroup
    exact ⟨a :: k :: front, rfl, .present (.mk ha hk hg)⟩
  · cases h

theorem targeter_of_targeterOf {ts rest : List Token} {t : Option Targeter}
    (h : Maybe TargeterOf ts t) (hsign : skip? .atSign rest = none)
    (hbrace : skip? .openBrace rest = none) : targeter (ts ++ rest) = .ok (t, rest) := by
  cases h with
  | absent => simp [targeter, hsign]
  | present h =>
    cases h with
    | mk ha hk hg =>
      simp only [targeter, List.cons_append, skip?_cons ha, expect_cons hk,
        group_of_groupOf hg hbrace]

/-! ## Triggers -/

theorem dropLeading_signText {negative : Bool} {s : List Char} {text : String}
    (h : text.toList = Binary64.signText negative ++ s) (hs : s.head? ≠ some '-') :
    (Text.dropLeading '-' text).toList = s := by
  unfold Text.dropLeading
  cases negative with
  | true =>
    rw [h]
    simp [Binary64.signText]
  | false =>
    rw [h]
    cases s with
    | nil => simpa [Binary64.signText] using h
    | cons c r =>
      have hc : c ≠ '-' := by simpa using hs
      simpa [Binary64.signText, hc] using h

theorem AllDigits.head?_ne {s : List Char} (h : AllDigits s) {c : Char} (hc : c.isDigit = false) :
    s.head? ≠ some c := by
  intro hs
  exact h.not_mem hc (List.mem_of_mem_head? hs)

theorem ticks?_of_isTicks {t : Token} (h : IsTicks t) (rest : List Token) :
    ticks? (t :: rest) = some (t.text, rest) := by
  obtain ⟨hk, negative, digits, ht, -, hd⟩ := h
  have hdrop := dropLeading_signText ht (AllDigits.head?_ne hd rfl)
  simp [ticks?, hk, hdrop, hd.all]

theorem exists_isTicks {tokens rest : List Token} {text : String} (hl : Lexed tokens)
    (h : ticks? tokens = some (text, rest)) :
    ∃ t, tokens = t :: rest ∧ text = t.text ∧ IsTicks t := by
  cases tokens with
  | nil => cases h
  | cons t r =>
    rw [ticks?, Option.ite_none_right_eq_some, Bool.and_eq_true, decide_eq_true_eq] at h
    obtain ⟨⟨hk, hall⟩, heq⟩ := h
    cases heq
    have hlex := hl t (List.mem_cons_self ..) (by simp [hk])
    rw [hk] at hlex
    obtain ⟨negative, numeral, ht, hn⟩ := Token.isLexeme_number_iff.1 hlex
    obtain ⟨c, s, rfl, hc, -⟩ := Token.exists_cons_of_isNumeral hn
    have hhead : (c :: s).head? ≠ some '-' := by
      intro h
      cases h
      cases hc
    rw [dropLeading_signText ht hhead] at hall
    exact ⟨t, rfl, rfl, hk, negative, c :: s, ht, by simp, List.all_eq_true.1 hall⟩

theorem eq_of_or_getD {α : Type} {a b : Option α} {c x : α} (h : (a.or b).getD c = x) :
    a = some x ∨ b = some x ∨ c = x := by
  cases a with
  | some a => exact .inl (congrArg some h)
  | none =>
    cases b with
    | some b => exact .inr (.inl (congrArg some h))
    | none => exact .inr (.inr h)

theorem exists_nameOf {tokens rest : List Token} {t : Trigger} (hl : Lexed tokens)
    (h : trigger tokens = .ok (t, rest)) :
    ∃ front, tokens = front ++ rest ∧ NameOf front t := by
  unfold trigger at h
  split at h
  · cases h
  rename_i w more hread
  obtain ⟨rfl, hw⟩ := expect_eq_ok.1 hread
  rcases eq_of_or_getD (Except.ok.inj h) with hfused | hparted | hword
  · obtain ⟨hcolon, hread⟩ := Option.ite_none_right_eq_some.1 hfused
    obtain ⟨⟨text, left⟩, hticks, heq⟩ := Option.map_eq_some_iff.1 hread
    cases heq
    obtain ⟨n, rfl, rfl, hn⟩ := exists_isTicks hl.tail hticks
    obtain ⟨name, hname⟩ := List.getLast?_eq_some_iff.1 hcolon
    refine ⟨[w, n], rfl, ?_⟩
    rw [hname, List.dropLast_concat]
    exact .fused hw hname hn
  · obtain ⟨onward, hcolon, hread⟩ := Option.bind_eq_some_iff.1 hparted
    obtain ⟨⟨text, left⟩, hticks, heq⟩ := Option.map_eq_some_iff.1 hread
    cases heq
    obtain ⟨c, rfl, hc⟩ := skip?_eq_some.1 hcolon
    obtain ⟨n, rfl, rfl, hn⟩ := exists_isTicks hl.tail.tail hticks
    exact ⟨[w, c, n], rfl, .parted hw hc hn⟩
  · cases hword
    exact ⟨[w], rfl, .word hw⟩

/-- A trigger is read back where nothing after it could be its value. -/
theorem trigger_of_nameOf {ts rest : List Token} {t : Trigger} (h : NameOf ts t)
    (hcolon : skip? .colon rest = none) (hticks : ticks? rest = none) :
    trigger (ts ++ rest) = .ok (t, rest) := by
  cases h with
  | word hw => simp [trigger, expect_cons hw, hcolon, hticks]
  | @parted w c n hw hc hn =>
    have hno : ticks? (c :: n :: rest) = none := by simp [ticks?, hc]
    simp [trigger, expect_cons hw, hno, skip?_cons hc, ticks?_of_isTicks hn]
  | @fused w n name hw ht hn =>
    simp [trigger, expect_cons hw, ht, ticks?_of_isTicks hn]

theorem exists_triggerOf {tokens rest : List Token} {t : Option Trigger} (hl : Lexed tokens)
    (h : optionalTrigger tokens = .ok (t, rest)) :
    ∃ front, tokens = front ++ rest ∧ Maybe TriggerOf front t := by
  unfold optionalTrigger at h
  split at h
  · cases h
    exact ⟨[], rfl, .absent⟩
  rename_i onward htilde
  obtain ⟨s, rfl, hs⟩ := skip?_eq_some.1 htilde
  split at h
  · rename_i hread
    cases h
    obtain ⟨front, rfl, hn⟩ := exists_nameOf hl.tail hread
    exact ⟨s :: front, rfl, .present (.mk hs hn)⟩
  · cases h

theorem optionalTrigger_of_triggerOf {ts rest : List Token} {t : Option Trigger}
    (h : Maybe TriggerOf ts t) (htilde : skip? .tilde rest = none)
    (hcolon : skip? .colon rest = none) (hticks : ticks? rest = none) :
    optionalTrigger (ts ++ rest) = .ok (t, rest) := by
  cases h with
  | absent => simp [optionalTrigger, htilde]
  | present h =>
    cases h with
    | mk hs hn =>
      simp only [optionalTrigger, List.cons_append, skip?_cons hs,
        trigger_of_nameOf hn hcolon hticks]

/-! ## Conditions -/

/-- A condition after its question mark and the mark of its negation. -/
theorem condition_of_mark {ms tokens : List Token} {negated : Bool} (hm : Mark .bang ms negated)
    (hbang : negated = false → skip? .bang tokens = none) :
    condition (ms ++ tokens) =
      match expect .identifier .conditionName tokens with
      | .error f => .error f
      | .ok (name, tokens) =>
        match tokens with
        | [] => .ok (⟨negated, name.text, none⟩, [])
        | t :: r =>
          if t.kind = .openBrace then
            match braceText 0 r with
            | .ok (text, rest) => .ok (⟨negated, name.text, some (t.text ++ text)⟩, rest)
            | .error f => .error f
          else .ok (⟨negated, name.text, none⟩, t :: r) := by
  cases hm with
  | absent =>
    rewrite [condition, List.nil_append, hbang rfl]
    rfl
  | present hb =>
    rewrite [condition, List.cons_append, List.nil_append, skip?_cons hb]
    rfl

theorem exists_mark (tokens : List Token) :
    ∃ ms negated onward, tokens = ms ++ onward ∧ Mark .bang ms negated ∧
      (negated = false → skip? .bang onward = none) := by
  cases hbang : skip? .bang tokens with
  | none => exact ⟨[], false, tokens, rfl, .absent, fun _ => hbang⟩
  | some r =>
    obtain ⟨b, rfl, hb⟩ := skip?_eq_some.1 hbang
    exact ⟨[b], true, r, rfl, .present hb, fun h => by cases h⟩

theorem exists_conditionOf {q : Token} {tokens rest : List Token} {c : Condition}
    (hq : q.kind = .question) (h : condition tokens = .ok (c, rest)) :
    ∃ front, q :: tokens = front ++ rest ∧ ConditionOf front c := by
  obtain ⟨ms, negated, onward, rfl, hm, hbang⟩ := exists_mark tokens
  rw [condition_of_mark hm hbang] at h
  split at h
  · cases h
  rename_i n more hread
  obtain ⟨rfl, hn⟩ := expect_eq_ok.1 hread
  split at h
  · cases h
    exact ⟨q :: (ms ++ [n]), by simp, .mk hq hm hn .absent⟩
  rename_i o r
  split at h
  · rename_i ho
    split at h
    · rename_i hbraces
      cases h
      obtain ⟨inner, c, rfl, hc, hb, rfl⟩ := braceText_eq_ok.1 hbraces
      refine ⟨q :: (ms ++ n :: (o :: (inner ++ [c]))), by simp, ?_⟩
      have hgroup := BracesOf.mk ho hc hb
      rw [List.map_cons, String.join_cons] at hgroup
      exact .mk hq hm hn (.present hgroup)
    · cases h
  · cases h
    exact ⟨q :: (ms ++ [n]), by simp, .mk hq hm hn .absent⟩

theorem condition_of_conditionOf {ts rest : List Token} {c : Condition} (h : ConditionOf ts c)
    (hbrace : skip? .openBrace rest = none) :
    ∃ onward, skip? .question (ts ++ rest) = some onward ∧ condition onward = .ok (c, rest) := by
  cases h with
  | @mk q n ms ts negated group hq hm hn hg =>
    refine ⟨ms ++ n :: (ts ++ rest), by simp [skip?_cons hq], ?_⟩
    have hbang : negated = false → skip? .bang (n :: (ts ++ rest)) = none :=
      fun _ => skip?_cons_none (by simp [hn])
    rw [condition_of_mark hm hbang]
    simp only [expect_cons hn]
    cases hg with
    | absent =>
      cases rest with
      | nil => rfl
      | cons t r =>
        have ht : t.kind ≠ .openBrace := by
          intro ht
          rw [skip?_cons ht] at hbrace
          cases hbrace
        simp [ht]
    | present hg =>
      cases hg with
      | @mk o c inner ho hc hb =>
        have htext : braceText 0 (inner ++ c :: rest) =
            .ok (String.join ((inner ++ [c]).map Token.text), rest) :=
          braceText_eq_ok.2 ⟨inner, c, rfl, hc, hb, rfl⟩
        simp [ho, htext]

theorem exists_conditionsOf {tokens rest : List Token} {cs : List Condition}
    (h : conditions tokens = .ok (cs, rest)) :
    ∃ front, tokens = front ++ rest ∧ ConditionsOf front cs := by
  induction hn : tokens.length using Nat.strongRecOn generalizing tokens cs with
  | ind n ih =>
    rw [conditions] at h
    split at h
    · cases h
      exact ⟨[], rfl, .nil⟩
    rename_i onward hquestion
    have hskip := Reading.length_skip? hquestion
    obtain ⟨q, rfl, hq⟩ := skip?_eq_some.1 hquestion
    split at h
    · cases h
    rename_i c left hread
    have hcondition := Reading.length_condition hread
    obtain ⟨front, happ, hc⟩ := exists_conditionOf hq hread
    split at h
    · rename_i hmore
      cases h
      obtain ⟨more, rfl, hcs⟩ := ih left.length (by omega) hmore rfl
      exact ⟨front ++ more, by rw [happ, List.append_assoc], .cons hc hcs⟩
    · cases h

theorem ConditionsOf.begins {ts : List Token} {cs : List Condition} (h : ConditionsOf ts cs)
    {rest : List Token} {kinds : List TokenKind} (hr : Begins kinds rest)
    (hk : TokenKind.question ∈ kinds) : Begins kinds (ts ++ rest) := by
  cases h with
  | nil => exact hr
  | cons h _ =>
    cases h with
    | mk hq _ _ _ => exact begins_cons (hq ▸ hk)

theorem conditions_of_conditionsOf {ts rest : List Token} {cs : List Condition}
    (h : ConditionsOf ts cs) (hquestion : skip? .question rest = none)
    (hbrace : skip? .openBrace rest = none) : conditions (ts ++ rest) = .ok (cs, rest) := by
  induction h with
  | nil =>
    rw [List.nil_append, conditions]
    split
    · rfl
    · rename_i hq
      rw [hquestion] at hq
      cases hq
  | @cons ts us c cs h hr ih =>
    have hbrace' : skip? .openBrace (us ++ rest) = none := by
      cases hr with
      | nil => exact hbrace
      | cons h _ =>
        cases h with
        | mk hq _ _ _ => exact skip?_cons_none (by simp [hq])
    obtain ⟨onward, hskip, hc⟩ := condition_of_conditionOf h hbrace'
    rw [List.append_assoc, conditions]
    split
    · rename_i hq
      rw [hskip] at hq
      cases hq
    rename_i hq
    rw [hskip] at hq
    cases hq
    split
    · rename_i hread
      rw [hc] at hread
      cases hread
    rename_i hread
    rw [hc] at hread
    cases hread
    rw [ih]

end MobSkills.Grammar
