import MobSkills.Proofs.Line.Balance

/-!
# Readers of values and parameter groups

Each reader is tied to its phrase of the grammar. A value, an entry and the inside of
a group end by their own tokens, so there the reader and the grammar agree outright.
A group may be absent, and is read as absent only where no brace follows.
-/
namespace MobSkills.Grammar

open Reading (skip? expect value entry entries group items)

/-- The first token, if there is one, has one of the kinds. -/
def Begins (kinds : List TokenKind) (tokens : List Token) : Prop :=
  ∀ t ∈ tokens.head?, t.kind ∈ kinds

theorem begins_cons {kinds : List TokenKind} {t : Token} {r : List Token} (h : t.kind ∈ kinds) :
    Begins kinds (t :: r) := by
  intro u hu
  obtain rfl : t = u := by simpa using hu
  exact h

theorem Begins.mono {kinds more : List TokenKind} {tokens : List Token} (h : Begins kinds tokens)
    (hk : ∀ k ∈ kinds, k ∈ more) : Begins more tokens :=
  fun t ht => hk t.kind (h t ht)

theorem skip?_eq_some {kind : TokenKind} {tokens rest : List Token} :
    skip? kind tokens = some rest ↔ ∃ t, tokens = t :: rest ∧ t.kind = kind := by
  cases tokens with
  | nil => simp [skip?]
  | cons t r =>
    simp only [skip?, Option.ite_none_right_eq_some, Option.some.injEq, List.cons.injEq]
    constructor
    · intro h
      obtain ⟨hk, rfl⟩ := h
      exact ⟨t, ⟨rfl, rfl⟩, hk⟩
    · intro h
      obtain ⟨u, ⟨rfl, rfl⟩, hk⟩ := h
      exact ⟨hk, rfl⟩

theorem skip?_cons {kind : TokenKind} {t : Token} {r : List Token} (h : t.kind = kind) :
    skip? kind (t :: r) = some r :=
  skip?_eq_some.2 ⟨t, rfl, h⟩

theorem skip?_cons_none {kind : TokenKind} {t : Token} {r : List Token} (h : t.kind ≠ kind) :
    skip? kind (t :: r) = none := by
  rw [skip?, if_neg h]

theorem Begins.skip?_eq_none {kinds : List TokenKind} {kind : TokenKind} {tokens : List Token}
    (h : Begins kinds tokens) (hk : kind ∉ kinds) : skip? kind tokens = none := by
  cases tokens with
  | nil => rfl
  | cons t r =>
    refine skip?_cons_none fun ht => hk ?_
    rw [← ht]
    exact h t rfl

theorem expect_eq_ok {kind : TokenKind} {e : Expectation} {tokens rest : List Token} {t : Token} :
    expect kind e tokens = .ok (t, rest) ↔ tokens = t :: rest ∧ t.kind = kind := by
  cases tokens with
  | nil => simp [expect]
  | cons u r =>
    rw [expect]
    split
    · rename_i hk
      constructor
      · intro h
        cases h
        exact ⟨rfl, hk⟩
      · intro h
        obtain ⟨h, -⟩ := h
        cases h
        rfl
    · rename_i hk
      constructor
      · intro h
        cases h
      · intro h
        obtain ⟨h, hkind⟩ := h
        cases h
        exact absurd hkind hk

theorem expect_cons {kind : TokenKind} {t : Token} {r : List Token} (h : t.kind = kind)
    (e : Expectation) : expect kind e (t :: r) = .ok (t, r) :=
  expect_eq_ok.2 ⟨rfl, h⟩

/-! ## Values and entries -/

theorem value_eq_ok {tokens rest : List Token} {v : Value} :
    value tokens = .ok (v, rest) ↔ ∃ front, tokens = front ++ rest ∧ ValueOf front v := by
  constructor
  · intro h
    cases tokens with
    | nil => cases h
    | cons t r =>
      simp only [value] at h
      split at h
      · rename_i hk
        cases h
        exact ⟨[t], rfl, .text hk⟩
      · rename_i hk
        cases h
        exact ⟨[t], rfl, .number hk⟩
      · rename_i hk
        cases h
        exact ⟨[t], rfl, .word hk⟩
      · rename_i hk
        split at h
        · rename_i hi
          cases h
          obtain ⟨inner, c, rfl, hc, hb, rfl⟩ := items_eq_ok.1 hi
          exact ⟨t :: (inner ++ [c]), by simp, .list hk hc hb⟩
        · cases h
      · cases h
  · intro h
    obtain ⟨front, rfl, hv⟩ := h
    cases hv with
    | text h => simp [value, h]
    | number h => simp [value, h]
    | word h => simp [value, h]
    | @list o c inner ho hc hb =>
      have hi : items 0 (inner ++ c :: rest) = .ok (inner.map Token.text, rest) :=
        items_eq_ok.2 ⟨inner, c, rfl, hc, hb, rfl⟩
      simp [value, ho, hi]

theorem entry_eq_ok {tokens rest : List Token} {e : String × Value} :
    entry tokens = .ok (e, rest) ↔ ∃ front, tokens = front ++ rest ∧ EntryOf front e := by
  constructor
  · intro h
    unfold entry at h
    split at h
    · cases h
    rename_i k more hread
    obtain ⟨rfl, hk⟩ := expect_eq_ok.1 hread
    split at h
    · cases h
    rename_i q more hread
    obtain ⟨rfl, he⟩ := expect_eq_ok.1 hread
    split at h
    · cases h
    rename_i v left hread
    cases h
    obtain ⟨front, rfl, hv⟩ := value_eq_ok.1 hread
    exact ⟨k :: q :: front, rfl, .mk hk he hv⟩
  · intro h
    obtain ⟨front, rfl, he⟩ := h
    cases he with
    | @mk k q ts v hk hq hv =>
      have hvalue : value (ts ++ rest) = .ok (v, rest) := value_eq_ok.2 ⟨ts, rfl, hv⟩
      simp only [entry, List.cons_append, expect_cons hk, expect_cons hq, hvalue]

theorem EntryOf.exists_cons {ts : List Token} {e : String × Value} (h : EntryOf ts e) :
    ∃ k more, ts = k :: more ∧ k.kind = .identifier := by
  cases h with
  | mk hk _ _ => exact ⟨_, _, rfl, hk⟩

theorem EntriesOf.exists_cons {ts : List Token} {es : List (String × Value)} (h : EntriesOf ts es) :
    ∃ k more, ts = k :: more ∧ k.kind = .identifier := by
  cases h with
  | last h _ =>
    obtain ⟨k, more, rfl, hk⟩ := h.exists_cons
    exact ⟨k, _, rfl, hk⟩
  | cons h _ _ =>
    obtain ⟨k, more, rfl, hk⟩ := h.exists_cons
    exact ⟨k, _, rfl, hk⟩

/-! ## Groups -/

/-- One entry read, a group goes on after a semicolon that no brace follows. -/
theorem entries_of_entry {tokens rest : List Token} {e : String × Value}
    (h : entry tokens = .ok (e, rest)) (given : Params) :
    entries given tokens =
      match skip? .semicolon rest with
      | some onward =>
        match skip? .closeBrace onward with
        | some left => .ok (given.insert e.1 e.2, left)
        | none => entries (given.insert e.1 e.2) onward
      | none =>
        match skip? .closeBrace rest with
        | some left => .ok (given.insert e.1 e.2, left)
        | none => .error ⟨.separator, rest⟩ := by
  rw [entries]
  split
  · rename_i hread
    rw [h] at hread
    cases hread
  · rename_i hread
    rw [h] at hread
    cases hread
    split
    · rename_i hs
      rewrite [hs]
      rfl
    · rename_i hs
      rewrite [hs]
      rfl

theorem exists_entriesOf {given p : Params} {tokens rest : List Token}
    (h : entries given tokens = .ok (p, rest)) :
    ∃ front c es, tokens = front ++ c :: rest ∧ c.kind = .closeBrace ∧ EntriesOf front es ∧
      p = es.foldl (fun p e => p.insert e.1 e.2) given := by
  induction hn : tokens.length using Nat.strongRecOn generalizing given tokens with
  | ind n ih =>
    cases hread : entry tokens with
    | error f =>
      rw [entries] at h
      split at h
      · cases h
      · rename_i hread'
        rw [hread] at hread'
        cases hread'
    | ok read =>
      obtain ⟨e, left⟩ := read
      have hlength := Reading.length_entry hread
      rw [entries_of_entry hread] at h
      obtain ⟨start, rfl, he⟩ := entry_eq_ok.1 hread
      split at h
      · rename_i onward hsemi
        obtain ⟨s, rfl, hs⟩ := skip?_eq_some.1 hsemi
        split at h
        · rename_i hclose
          cases h
          obtain ⟨c, rfl, hc⟩ := skip?_eq_some.1 hclose
          exact ⟨start ++ [s], c, [e], by simp, hc, .last he (.present hs), rfl⟩
        · rw [List.length_cons] at hlength
          obtain ⟨front, c, es, rfl, hc, hes, rfl⟩ :=
            ih onward.length (by omega) h rfl
          exact ⟨start ++ s :: front, c, e :: es, by simp, hc, .cons he hs hes, rfl⟩
      · split at h
        · rename_i hclose
          cases h
          obtain ⟨c, rfl, hc⟩ := skip?_eq_some.1 hclose
          exact ⟨start ++ [], c, [e], by simp, hc, .last he .absent, rfl⟩
        · cases h

theorem entries_of_entriesOf {ts rest : List Token} {es : List (String × Value)} {c : Token}
    (h : EntriesOf ts es) (hc : c.kind = .closeBrace) (given : Params) :
    entries given (ts ++ c :: rest) =
      .ok (es.foldl (fun p e => p.insert e.1 e.2) given, rest) := by
  induction h generalizing given with
  | @last ts us e marked he hu =>
    have hentry : entry (ts ++ us ++ c :: rest) = .ok (e, us ++ c :: rest) :=
      entry_eq_ok.2 ⟨ts, by simp, he⟩
    rw [entries_of_entry hentry]
    cases hu with
    | absent =>
      have hkind : c.kind ≠ .semicolon := by simp [hc]
      simp [skip?_cons_none hkind, skip?_cons hc]
    | present hs => simp [skip?_cons hs, skip?_cons hc]
  | @cons ts us s e es he hs hr ih =>
    have hentry : entry (ts ++ s :: us ++ c :: rest) = .ok (e, s :: (us ++ c :: rest)) :=
      entry_eq_ok.2 ⟨ts, by simp, he⟩
    have hmore : skip? .closeBrace (us ++ c :: rest) = none := by
      obtain ⟨k, more, rfl, hk⟩ := hr.exists_cons
      exact skip?_cons_none (by simp [hk])
    rw [entries_of_entry hentry]
    simp only [skip?_cons hs, hmore, ih]
    rfl

theorem exists_groupOf {tokens rest : List Token} {g : Option Params}
    (h : group tokens = .ok (g, rest)) : ∃ front, tokens = front ++ rest ∧ GroupOf front g := by
  unfold group at h
  split at h
  · cases h
    exact ⟨[], rfl, .absent⟩
  rename_i inner hopen
  obtain ⟨o, rfl, ho⟩ := skip?_eq_some.1 hopen
  split at h
  · rename_i hclose
    cases h
    obtain ⟨c, rfl, hc⟩ := skip?_eq_some.1 hclose
    exact ⟨[o, c], rfl, .empty ho hc⟩
  split at h
  · rename_i hread
    cases h
    obtain ⟨front, c, es, rfl, hc, hes, rfl⟩ := exists_entriesOf hread
    exact ⟨o :: (front ++ [c]), by simp, .entries ho hc hes⟩
  · cases h

theorem group_of_groupOf {ts rest : List Token} {g : Option Params} (h : GroupOf ts g)
    (hrest : skip? .openBrace rest = none) : group (ts ++ rest) = .ok (g, rest) := by
  cases h with
  | absent => simp [group, hrest]
  | empty ho hc => simp [group, skip?_cons ho, skip?_cons hc]
  | @entries o c ts es ho hc hes =>
    have hinner : skip? .closeBrace (ts ++ c :: rest) = none := by
      obtain ⟨k, more, rfl, hk⟩ := hes.exists_cons
      exact skip?_cons_none (by simp [hk])
    simp only [group, List.cons_append, List.append_assoc, List.nil_append, skip?_cons ho, hinner,
      entries_of_entriesOf hes hc]
    rfl

end MobSkills.Grammar
