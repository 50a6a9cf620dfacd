import Mathlib.Order.Bounds.Defs
import MobSkills.Proofs.Completion.Choice

/-!
# Places of contexts and splices

Offsets count bytes, and the text holds characters. A cursor is pulled back to the greatest
boundary of a character, and the place of a query is told from there, so both ends of the
query are boundaries too. What is offered depends on the line before the cursor alone. A
choice is put between two boundaries, whatever offsets its context has.
-/
namespace MobSkills

namespace Text

/-- No character lies across the offset. -/
def IsBoundary (s : List Char) (n : Nat) : Prop :=
  ∃ a b, s = a ++ b ∧ byteLength a = n

/-- The part of a text between two offsets. -/
def Between (s : List Char) (start finish : Nat) (part : List Char) : Prop :=
  ∃ a b, s = a ++ part ++ b ∧ byteLength a = start ∧ byteLength (a ++ part) = finish

/-- The text from the last line feed before the offset, or from the start, to the offset. -/
def LineBefore (s : List Char) (n : Nat) (line : List Char) : Prop :=
  ∃ a b, s = a ++ line ++ b ∧ byteLength (a ++ line) = n ∧ '\n' ∉ line ∧
    (a = [] ∨ a.getLast? = some '\n')

theorem byteLength_splitAtByte_le (n : Nat) (s : List Char) :
    byteLength (splitAtByte n s).1 ≤ n := by
  induction s generalizing n with
  | nil => exact Nat.zero_le n
  | cons c r ih =>
    by_cases hfits : c.utf8Size ≤ n
    · have := ih (n - c.utf8Size)
      simp only [splitAtByte, hfits, if_true, byteLength_cons]
      omega
    · simp [splitAtByte, hfits]

theorem byteLength_le_splitAtByte {n : Nat} {a : List Char} (h : byteLength a ≤ n) (b : List Char) :
    byteLength a ≤ byteLength (splitAtByte n (a ++ b)).1 := by
  induction a generalizing n with
  | nil => exact Nat.zero_le _
  | cons c a ih =>
    rw [byteLength_cons] at h
    have hfits : c.utf8Size ≤ n := by omega
    have := ih (n := n - c.utf8Size) (by omega)
    simp only [List.cons_append, splitAtByte, hfits, if_true, byteLength_cons]
    omega

/-- Clamping finds the greatest boundary that is no greater than the offset or the text. -/
theorem isGreatest_clampOffset (s : List Char) (n : Nat) :
    IsGreatest {k | IsBoundary s k ∧ k ≤ min n (byteLength s)} (clampOffset s n) := by
  have hsplit := splitAtByte_append n s
  constructor
  · have hlength := congrArg byteLength hsplit
    have hle := byteLength_splitAtByte_le n s
    rw [byteLength_append] at hlength
    exact ⟨⟨_, _, hsplit.symm, rfl⟩, by rw [clampOffset]; omega⟩
  · rintro _ ⟨⟨a, b, rfl, rfl⟩, hle⟩
    exact byteLength_le_splitAtByte (by omega) b

theorem eq_nil_of_byteLength {s : List Char} (h : byteLength s = 0) : s = [] := by
  cases s with
  | nil => rfl
  | cons c r =>
    have := c.utf8Size_pos
    rw [byteLength_cons] at h
    omega

/-- Two boundaries cut a text into three. -/
theorem IsBoundary.exists_between {s : List Char} {m n : Nat} (hm : IsBoundary s m)
    (hn : IsBoundary s n) (h : m ≤ n) : ∃ part, Between s m n part := by
  obtain ⟨a, b, rfl, rfl⟩ := hm
  obtain ⟨c, d, happ, rfl⟩ := hn
  rcases List.append_eq_append_iff.1 happ with ⟨part, rfl, rfl⟩ | ⟨part, rfl, rfl⟩
  · exact ⟨part, a, d, by simp, rfl, rfl⟩
  · rw [byteLength_append] at h
    obtain rfl : part = [] := eq_nil_of_byteLength (by omega)
    exact ⟨[], c, b, by simp, by simp, by simp⟩

theorem afterLast_eq_nil_iff {c : Char} {s : List Char} :
    afterLast c s = [] ↔ s = [] ∨ s.getLast? = some c := by
  rcases List.eq_nil_or_concat s with rfl | ⟨r, d, rfl⟩
  · simp [afterLast]
  · by_cases h : d = c <;> simp [afterLast, h]

theorem lineBefore_afterLast (before after : List Char) :
    LineBefore (before ++ after) (byteLength before) (afterLast '\n' before) := by
  obtain ⟨a, hbefore, ha⟩ := exists_afterLast '\n' before
  exact ⟨a, after, by rw [← hbefore], by rw [← hbefore], not_mem_afterLast '\n' before,
    afterLast_eq_nil_iff.1 ha⟩

/-- There is one line before an offset. -/
theorem LineBefore.eq_afterLast {before after line : List Char}
    (h : LineBefore (before ++ after) (byteLength before) line) : line = afterLast '\n' before := by
  obtain ⟨a, b, happ, hlength, hfeed, ha⟩ := h
  have hbefore : before = a ++ line := by
    have hsplit := splitAtByte_byteLength before after
    rw [happ, ← hlength, splitAtByte_byteLength] at hsplit
    exact (Prod.mk.inj hsplit).1.symm
  rw [hbefore, afterLast_append hfeed, afterLast_eq_nil_iff.2 ha, List.nil_append]

end Text

namespace Completion

open Text (byteLength splitAtByte splitAtByte_append clampOffset IsBoundary Between LineBefore)

/-- The context is one of the text: its ends are boundaries with the query between them. -/
structure Located (text : String) (cursor : Nat) (context : CompletionContext) : Prop where
  cursor : IsGreatest {n | IsBoundary text.toList n ∧ n ≤ min cursor (byteLength text.toList)}
    context.cursor
  start : IsBoundary text.toList context.start ∧ context.start ≤ context.cursor
  query : Between text.toList context.start context.cursor context.query.toList
  line_feed : '\n' ∉ context.query.toList
  /-- Where the same line stands before a cursor, the same is being typed. -/
  line : ∃ line, LineBefore text.toList context.cursor line ∧ ∀ other otherCursor,
    LineBefore other.toList (contextAt other otherCursor).cursor line →
      (contextAt other otherCursor).slot = context.slot ∧
        (contextAt other otherCursor).query = context.query

/-- The text that is accepted has an insertion in place of the part between two offsets, and
the cursor stands behind it. -/
def Splices (text : String) (start finish : Nat) (inserted : String) (accepted : String × Nat) :
    Prop :=
  ∃ a part b, text.toList = a ++ part ++ b ∧ byteLength a = start ∧
    byteLength (a ++ part) = finish ∧
    accepted = (String.ofList (a ++ inserted.toList ++ b), byteLength (a ++ inserted.toList))

/-! ## Contexts -/

/-- A context is read from the line before its cursor. -/
theorem slotOf_contextAt {text : String} {cursor : Nat} {line : List Char}
    (h : LineBefore text.toList (contextAt text cursor).cursor line) :
    slotOf line = ((contextAt text cursor).slot, (contextAt text cursor).query.toList) := by
  rw [← splitAtByte_append cursor text.toList] at h
  rw [h.eq_afterLast]
  simp [contextAt]

theorem between_contextAt (text : String) (cursor : Nat) :
    Between text.toList (contextAt text cursor).start (contextAt text cursor).cursor
      (contextAt text cursor).query.toList := by
  obtain ⟨a, query, slot, hbefore, hcontext, -⟩ :=
    exists_before_query (splitAtByte cursor text.toList).1
  rw [contextAt_eq, hcontext]
  refine ⟨a, (splitAtByte cursor text.toList).2, ?_, rfl, ?_⟩
  · rw [String.toList_ofList, ← hbefore, splitAtByte_append]
  · rw [String.toList_ofList, ← hbefore]

theorem located_contextAt (text : String) (cursor : Nat) :
    Located text cursor (contextAt text cursor) := by
  have hquery := between_contextAt text cursor
  have hline : LineBefore text.toList (contextAt text cursor).cursor
      (Text.afterLast '\n' (splitAtByte cursor text.toList).1) := by
    have hbefore := Text.lineBefore_afterLast (splitAtByte cursor text.toList).1
      (splitAtByte cursor text.toList).2
    rwa [splitAtByte_append] at hbefore
  refine ⟨Text.isGreatest_clampOffset text.toList cursor, ?_, hquery, ?_, _, hline, ?_⟩
  · obtain ⟨a, b, htext, hstart, hcursor⟩ := hquery
    rw [Text.byteLength_append] at hcursor
    exact ⟨⟨a, _, by rw [htext, List.append_assoc], hstart⟩, by omega⟩
  · -- the line ends with the query and holds no line feed
    obtain ⟨pre, hends, -⟩ := leads_slotOf (Text.afterLast '\n' (splitAtByte cursor text.toList).1)
    have hfeed := Text.not_mem_afterLast '\n' (splitAtByte cursor text.toList).1
    rw [slotOf_contextAt hline] at hends
    rw [hends, List.mem_append, not_or] at hfeed
    dsimp only at hfeed
    exact hfeed.2
  · intro other otherCursor hother
    have hsame := (slotOf_contextAt hother).symm.trans (slotOf_contextAt hline)
    obtain ⟨hslot, hquery⟩ := Prod.mk.inj hsame
    exact ⟨hslot, String.toList_inj.1 hquery⟩

/-! ## Choices -/

theorem splices_contextAt (text : String) (cursor : Nat) (choice : String) :
    let context := contextAt text cursor
    Splices text context.start context.cursor (choice ++ suffixOf context.slot)
      (applyChoice text context choice) := by
  intro context
  obtain ⟨a, b, htext, hstart, hcursor⟩ := between_contextAt text cursor
  refine ⟨a, context.query.toList, b, htext, hstart, hcursor, ?_⟩
  rw [← applyChoice_append choice a context.query.toList b hstart.symm hcursor.symm,
    ← List.append_assoc, ← htext, String.ofList_toList]

/-- Offsets of another text are pulled back to boundaries. -/
theorem exists_splices (text : String) (context : CompletionContext) (choice : String) :
    ∃ start finish, Splices text start finish (choice ++ suffixOf context.slot)
      (applyChoice text context choice) := by
  have hboundary (n : Nat) : IsBoundary text.toList (clampOffset text.toList n) :=
    (Text.isGreatest_clampOffset text.toList n).1.1
  have hfinish : IsBoundary text.toList
      (max (clampOffset text.toList context.cursor) (clampOffset text.toList context.start)) := by
    rw [Nat.max_def]
    split <;> exact hboundary _
  obtain ⟨part, a, b, htext, hstart, hcursor⟩ :=
    (hboundary context.start).exists_between hfinish (Nat.le_max_right _ _)
  refine ⟨_, _, a, part, b, htext, hstart, hcursor, ?_⟩
  have hfront : splitAtByte (byteLength a) text.toList = (a, part ++ b) := by
    rw [htext, List.append_assoc, Text.splitAtByte_byteLength]
  have hback : splitAtByte (byteLength (a ++ part)) text.toList = (a ++ part, b) := by
    rw [htext, Text.splitAtByte_byteLength]
  simp only [applyChoice, ← hstart] at hcursor ⊢
  rw [← hcursor, hfront, hback, String.toList_append, List.append_assoc a]

/-- The start lies inside of a character, the cursor past the end. -/
example : applyChoice "aé" ⟨.targeter, "", 2, 9⟩ "Self" = ("aSelf", 5) := by
  decide +kernel

/-- Every context is found at the greatest boundary under the cursor, by the line before it,
and a choice is spliced into any text, for a context of that text in place of its query. -/
theorem located_and_spliced :
    (∀ text cursor, Located text cursor (contextAt text cursor)) ∧
      (∀ text context choice, ∃ start finish, Splices text start finish
        (choice ++ suffixOf context.slot) (applyChoice text context choice)) ∧
      ∀ text cursor choice, let context := contextAt text cursor
        Splices text context.start context.cursor (choice ++ suffixOf context.slot)
          (applyChoice text context choice) :=
  ⟨located_contextAt, exists_splices, splices_contextAt⟩

end Completion

end MobSkills
