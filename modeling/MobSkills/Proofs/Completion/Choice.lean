import MobSkills.Proofs.Completion.Slot

/-!
# Accepted choices

A context is found in the line before the cursor, and its query is the end of that line. A
choice takes the place of the query in the text, and nothing else of the text changes. So
the context after a choice is the one at the end of the changed line: the next slot of the
grammar.
-/
namespace MobSkills

namespace Text

theorem splitAtByte_byteLength (a b : List Char) :
    splitAtByte (byteLength a) (a ++ b) = (a, b) := by
  induction a with
  | nil =>
    cases b with
    | nil => rfl
    | cons c r =>
      have hsize := c.utf8Size_pos
      have hlarge : ¬ c.utf8Size ≤ 0 := by omega
      simp [splitAtByte, hlarge]
  | cons c r ih => simp [splitAtByte, ih]

theorem clampOffset_byteLength (a b : List Char) :
    clampOffset (a ++ b) (byteLength a) = byteLength a := by
  rw [clampOffset, splitAtByte_byteLength]

end Text

namespace Completion

open Text (byteLength splitAtByte_byteLength clampOffset_byteLength)
open Token (IsWord)

/-- The context at the end of a text. -/
def contextAfter (before : List Char) : CompletionContext :=
  let (slot, query) := slotOf (Text.afterLast '\n' before)
  ⟨slot, String.ofList query, byteLength before - byteLength query, byteLength before⟩

theorem contextAt_eq (text : String) (cursor : Nat) :
    contextAt text cursor = contextAfter (Text.splitAtByte cursor text.toList).1 :=
  rfl

theorem contextAt_byteLength (before after : List Char) :
    contextAt (String.ofList (before ++ after)) (byteLength before) = contextAfter before := by
  rw [contextAt_eq, String.toList_ofList, splitAtByte_byteLength]

theorem contextAt_end (text : String) :
    contextAt text (byteLength text.toList) = contextAfter text.toList := by
  have hend := contextAt_byteLength text.toList []
  rwa [List.append_nil, String.ofList_toList] at hend

theorem contextAfter_of_slotOf {before query : List Char} {slot : Slot}
    (h : slotOf (Text.afterLast '\n' before) = (slot, query)) :
    contextAfter before =
      ⟨slot, String.ofList query, byteLength before - byteLength query, byteLength before⟩ := by
  simp only [contextAfter, h]

/-- In the value of a parameter the mechanic and the key are those of the line, and the query
is all that stands after the equals sign. -/
theorem contextAfter_entry {m key query : List Char} (hm : IsWord m)
    (hblank : ∀ c ∈ key.head?, Text.isBlank c = false) (heq : '=' ∉ key)
    (hkey : ';' ∉ key ∧ '\x7d' ∉ key ∧ '\n' ∉ key)
    (hquery : ';' ∉ query ∧ '\x7d' ∉ query ∧ '\n' ∉ query) :
    let context := contextAfter (m ++ '\x7b' :: (key ++ '=' :: query))
    context.slot = valueSlot (String.ofList m) (String.ofList (Text.trim key)) ∧
      context.query = String.ofList query := by
  intro context
  have hbrace : '\x7d' ∉ key ++ '=' :: query := by simp [hkey, hquery]
  have hfeed : '\n' ∉ m ++ '\x7b' :: (key ++ '=' :: query) := by
    have hword : '\n' ∉ m :=
      not_mem_of_all (fun d hd => Token.isWordChar_of_isWord hm hd) (by decide)
    simp [hword, hkey, hquery]
  have hline : Text.afterLast '\n' (m ++ '\x7b' :: (key ++ '=' :: query)) =
      m ++ '\x7b' :: (key ++ '=' :: query) :=
    Text.afterLast_append hfeed []
  have hhead : afterMarker (m ++ '\x7b' :: (key ++ '=' :: query)) =
      m ++ '\x7b' :: (key ++ '=' :: query) :=
    afterMarker_append (begins_of_isWord hm _) []
  have hslot : slotOf (m ++ '\x7b' :: (key ++ '=' :: query)) =
      (valueSlot (String.ofList m) (String.ofList (Text.trim key)), query) := by
    have hentry : parameterSlot (String.ofList m) ([] ++ (key ++ '=' :: query)) = _ :=
      parameterSlot_entry rfl hblank hkey.1 heq hquery.1
    rw [slotOf_of_group hhead hm hbrace]
    exact hentry
  rw [← hline] at hslot
  have hcontext : context = _ := contextAfter_of_slotOf hslot
  rw [hcontext]
  exact ⟨rfl, rfl⟩

/-- What a choice does to a text around the query that its context has found. -/
theorem applyChoice_append (choice : String) (a query after : List Char)
    {context : CompletionContext} (hstart : context.start = byteLength a)
    (hcursor : context.cursor = byteLength (a ++ query)) :
    applyChoice (String.ofList (a ++ (query ++ after))) context choice =
      (String.ofList (a ++ (choice ++ suffixOf context.slot).toList ++ after),
        byteLength (a ++ (choice ++ suffixOf context.slot).toList)) := by
  have hfinish : Text.clampOffset (a ++ (query ++ after)) context.cursor =
      byteLength (a ++ query) := by
    rw [hcursor, ← List.append_assoc, clampOffset_byteLength]
  have hmax : max (byteLength (a ++ query)) (byteLength a) = byteLength (a ++ query) := by
    rw [Text.byteLength_append]
    omega
  simp only [applyChoice, String.toList_ofList, hstart, clampOffset_byteLength, hfinish, hmax,
    splitAtByte_byteLength, String.toList_append]
  rw [← List.append_assoc a query after, splitAtByte_byteLength]
  simp

/-- A text ends with the query of its context, and a choice in its place leads to the next
slot. -/
theorem exists_before_query (before : List Char) : ∃ a query slot, before = a ++ query ∧
    contextAfter before = ⟨slot, String.ofList query, byteLength a, byteLength before⟩ ∧
    ∀ choice inserted, Fits slot choice.toList → (choice ++ suffixOf slot).toList = inserted →
      contextAfter (a ++ inserted) = ⟨nextSlot slot choice, nextQuery slot choice,
        byteLength (a ++ inserted) - byteLength (nextQuery slot choice).toList,
        byteLength (a ++ inserted)⟩ := by
  obtain ⟨b, hbefore, hb⟩ := Text.exists_afterLast '\n' before
  have hfeed := Text.not_mem_afterLast '\n' before
  have hleads := leads_slotOf (Text.afterLast '\n' before)
  rcases hslot : slotOf (Text.afterLast '\n' before) with ⟨slot, query⟩
  rw [hslot] at hleads
  obtain ⟨pre, hline, hread⟩ := hleads
  have hwhole : before = (b ++ pre) ++ query := by
    rw [List.append_assoc, ← hline]
    exact hbefore
  refine ⟨b ++ pre, query, slot, hwhole, ?_, ?_⟩
  · have hstart : byteLength before - byteLength query = byteLength (b ++ pre) := by
      rw [hwhole, Text.byteLength_append (b ++ pre) query, Nat.add_sub_cancel]
    rw [contextAfter_of_slotOf hslot, hstart]
  · rintro choice inserted hfit rfl
    have hno : '\n' ∉ pre ++ (choice ++ suffixOf slot).toList := by
      rw [List.mem_append, not_or]
      exact ⟨fun hmem => hfeed (hline ▸ List.mem_append_left _ hmem),
        not_mem_of_fits hfit (.inr rfl)⟩
    have hnext := hread choice hfit
    rw [← List.nil_append (pre ++ _), ← hb, ← Text.afterLast_append hno, ← List.append_assoc]
      at hnext
    rw [contextAfter_of_slotOf hnext, String.ofList_toList]

/-- A choice that fits leads to the next slot. One that takes no suffix is the query there,
and accepting it once more changes neither the text nor the cursor. -/
theorem contextAt_applyChoice {text : String} {cursor : Nat} {choice : String}
    (h : Fits (contextAt text cursor).slot choice.toList) :
    let context := contextAt text cursor
    let accepted := applyChoice text context choice
    let next := contextAt accepted.1 accepted.2
    next.slot = nextSlot context.slot choice ∧ next.query = nextQuery context.slot choice ∧
      (suffixOf context.slot = "" → applyChoice accepted.1 next choice = accepted) := by
  intro context accepted next
  obtain ⟨a, query, slot, hbefore, hcontext, hread⟩ :=
    exists_before_query (Text.splitAtByte cursor text.toList).1
  have htext : text = String.ofList (a ++ (query ++ (Text.splitAtByte cursor text.toList).2)) := by
    rw [← List.append_assoc, ← hbefore, Text.splitAtByte_append, String.ofList_toList]
  rw [← contextAt_eq, hbefore] at hcontext
  generalize (Text.splitAtByte cursor text.toList).2 = after at htext
  have hslot : context.slot = slot := congrArg CompletionContext.slot hcontext
  have hfit : Fits slot choice.toList := hslot ▸ h
  obtain ⟨inserted, hinserted⟩ : ∃ s, (choice ++ suffixOf slot).toList = s := ⟨_, rfl⟩
  have haccepted : accepted =
      (String.ofList (a ++ inserted ++ after), byteLength (a ++ inserted)) := by
    have happlied := applyChoice_append choice a query after
      (congrArg CompletionContext.start hcontext) (congrArg CompletionContext.cursor hcontext)
    rw [← htext, hslot, hinserted] at happlied
    exact happlied
  have hnext : next = contextAfter (a ++ inserted) := by
    have hafter := contextAt_byteLength (a ++ inserted) after
    rw [show next = contextAt accepted.1 accepted.2 from rfl, haccepted]
    exact hafter
  rw [hread choice inserted hfit hinserted] at hnext
  rw [hslot, hnext]
  refine ⟨rfl, rfl, fun hsuffix => ?_⟩
  have hquery : nextQuery slot choice = choice := if_pos hsuffix
  have hstart : byteLength (a ++ inserted) - byteLength choice.toList = byteLength a := by
    rw [← hinserted, hsuffix, String.append_empty, Text.byteLength_append, Nat.add_sub_cancel]
  rw [haccepted, hquery, nextSlot_of_suffixOf hsuffix, hstart, List.append_assoc a inserted after,
    applyChoice_append choice a inserted after rfl rfl, hinserted, List.append_assoc]

/-- A name in progress after a key of the first line but one, with the brace behind it. -/
def spellText : String :=
  "é\n- Skill\x7b Spell = Bu\x7d ~onHit"

/-- A key in progress after another entry, with the brace and a targeter behind it. -/
def amountText : String :=
  "- Damage\x7b a=1; am\x7d @self"

/-- A name replaces what is typed of it; a key leads to its value, and one that names a
metaskill to the name of one. -/
theorem contextAt_applyChoice_spell :
    (let accepted := applyChoice spellText (contextAt spellText 22) "Frost Bolt"
     let next := contextAt accepted.1 accepted.2
     (contextAt spellText 22).slot = .metaskill ∧ next.slot = .metaskill ∧
      next.query = "Frost Bolt" ∧ applyChoice accepted.1 next "Frost Bolt" = accepted) ∧
    (let accepted := applyChoice amountText (contextAt amountText 17) "amount"
     let next := contextAt accepted.1 accepted.2
     (contextAt amountText 17).slot = .parameter "Damage" ∧
      next.slot = .parameterValue "Damage" "amount" ∧ next.query = "") ∧
    (let accepted := applyChoice "skill\x7b" (contextAt "skill\x7b" 6) "Spell"
     let next := contextAt accepted.1 accepted.2
     (contextAt "skill\x7b" 6).slot = .parameter "skill" ∧ next.slot = .metaskill ∧
      next.query = "") := by
  refine ⟨?_, ?_, ?_⟩
  · have hslot : (contextAt spellText 22).slot = .metaskill := by decide +kernel
    have hfit : Fits (contextAt spellText 22).slot "Frost Bolt".toList := by
      rw [hslot]
      exact ⟨by decide, by decide, by decide⟩
    obtain ⟨hnext, hquery, hagain⟩ := contextAt_applyChoice hfit
    rw [hslot] at hnext hquery hagain
    exact ⟨hslot, hnext, hquery, hagain rfl⟩
  · have hslot : (contextAt amountText 17).slot = .parameter "Damage" := by decide +kernel
    have hfit : Fits (contextAt amountText 17).slot "amount".toList := by
      rw [hslot]
      exact ⟨by decide, by decide, by decide, by decide, by decide, by decide⟩
    obtain ⟨hnext, hquery, -⟩ := contextAt_applyChoice hfit
    rw [hslot] at hnext hquery
    have hvalue : nextSlot (.parameter "Damage") "amount" = .parameterValue "Damage" "amount" := by
      decide +kernel
    exact ⟨hslot, hnext.trans hvalue, hquery⟩
  · have hslot : (contextAt "skill\x7b" 6).slot = .parameter "skill" := by decide +kernel
    have hfit : Fits (contextAt "skill\x7b" 6).slot "Spell".toList := by
      rw [hslot]
      exact ⟨by decide, by decide, by decide, by decide, by decide, by decide⟩
    obtain ⟨hnext, hquery, -⟩ := contextAt_applyChoice hfit
    rw [hslot] at hnext hquery
    have hvalue : nextSlot (.parameter "skill") "Spell" = .metaskill := by decide +kernel
    exact ⟨hslot, hnext.trans hvalue, hquery⟩

end Completion

end MobSkills
