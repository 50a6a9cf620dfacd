import MobSkills.Line.Render
import MobSkills.Proofs.Line.Grammar
import MobSkills.Proofs.Line.Spelling

/-!
# Written triggers

A trigger is written as one word, and the word is split at its first colon. A trigger
whose name has no colon is read back as it is. One that was read from a line may have
been split elsewhere, so what it keeps is the text it is written as.
-/
namespace MobSkills

open Token (Spells IsLexeme IsWord isWord_append isWord_of_append)
open Grammar
open Binary64 (signText)

/-- A name without a colon, and a value of word characters if there is one. -/
structure Trigger.WellFormed (t : Trigger) : Prop where
  word : IsWord t.name.toList
  noColon : ':' ∉ t.name.toList
  value : ∀ v ∈ t.value, v ≠ "" ∧ ∀ c ∈ v.toList, Token.isWordChar c = true

/-! ## The first colon -/

theorem splitOnce_eq_none {c : Char} {s : List Char} (h : c ∉ s) : Text.splitOnce c s = none := by
  have hdrop : s.dropWhile (· != c) = [] := by
    rw [List.dropWhile_eq_nil_iff]
    intro d hd
    have hne : d ≠ c := fun he => h (he ▸ hd)
    simpa using hne
  simp [Text.splitOnce, hdrop]

theorem splitOnce_append {c : Char} {a : List Char} (h : c ∉ a) (b : List Char) :
    Text.splitOnce c (a ++ c :: b) = some (a, b) := by
  have hall : ∀ d ∈ a, (d != c) = true := by
    intro d hd
    have hne : d ≠ c := fun he => h (he ▸ hd)
    simpa using hne
  simp [Text.splitOnce, List.dropWhile_append_of_pos hall, List.takeWhile_append_of_pos hall]

theorem splitOnce_eq_some {c : Char} {s a b : List Char} (h : Text.splitOnce c s = some (a, b)) :
    s = a ++ c :: b ∧ c ∉ a := by
  by_cases hmem : c ∈ s
  · obtain ⟨before, after, rfl, hno⟩ := List.eq_append_cons_of_mem hmem
    rw [splitOnce_append hno] at h
    cases h
    exact ⟨rfl, hno⟩
  · rw [splitOnce_eq_none hmem] at h
    cases h

/-! ## From a trigger to its text and back -/

theorem Trigger.ofWord_display {t : Trigger} (h : t.WellFormed) : .ofWord t.display = t := by
  obtain ⟨name, value⟩ := t
  cases value with
  | none => simp [Trigger.ofWord, Trigger.display, splitOnce_eq_none h.noColon]
  | some v =>
    have hv : v.toList ≠ [] := fun he => (h.value v rfl).1 (String.toList_injective he)
    obtain ⟨d, r, hd⟩ := List.exists_cons_of_ne_nil hv
    have hsplit : Text.splitOnce ':' (Trigger.display ⟨name, some v⟩).toList =
        some (name.toList, d :: r) := by
      rw [← hd, ← splitOnce_append h.noColon]
      simp [Trigger.display, String.toList_append]
    simp only [Trigger.ofWord, hsplit, String.ofList_toList, ← hd]

theorem Trigger.WellFormed.isWord_display {t : Trigger} (h : t.WellFormed) :
    IsWord t.display.toList := by
  obtain ⟨name, value⟩ := t
  cases value with
  | none => exact h.word
  | some v =>
    have hname : IsWord name.toList := h.word
    have hvalue : ∀ c ∈ ':' :: v.toList, Token.isWordChar c = true := by
      intro c hc
      rcases List.mem_cons.1 hc with rfl | hc
      · rfl
      · exact (h.value v rfl).2 c hc
    simpa [Trigger.display, String.toList_append] using isWord_append hname hvalue

theorem spells_trigger {t : Trigger} (h : IsWord t.display.toList) :
    Spells ('~' :: t.display.toList) fun ts => TriggerOf ts (.ofWord t.display) := by
  have hword : Spells t.display.toList fun ts => NameOf ts (.ofWord t.display) := by
    refine .single (Token.isLexeme_identifier_iff.2 h) fun w hw ht => ?_
    rw [← String.toList_injective ht]
    exact .word hw
  exact .symbol rfl (by decide) hword fun s vs hs hvs => .mk hs hvs

/-! ## Triggers that were read -/

/-- A text whose first colon is not its end is the display of its trigger. -/
theorem Trigger.display_ofWord {text : String} (h : ∀ a, text.toList = a ++ [':'] → ':' ∈ a) :
    (Trigger.ofWord text).display = text := by
  unfold Trigger.ofWord
  split
  · rfl
  · rename_i name hsplit
    obtain ⟨htext, hno⟩ := splitOnce_eq_some hsplit
    exact absurd (h name htext) hno
  · rename_i name value _ hsplit
    obtain ⟨htext, -⟩ := splitOnce_eq_some hsplit
    apply String.toList_injective
    simp [Trigger.display, String.toList_append, htext]

theorem Trigger.display_ofWord_of_not_mem {text : String} (h : ':' ∉ text.toList) :
    (Trigger.ofWord text).display = text := by
  apply Trigger.display_ofWord
  intro a ha
  rw [ha] at h
  exact absurd (List.mem_append_right a (List.mem_singleton.2 rfl)) h

/-- A word that ends in its only colon gives its name; every other word is kept. -/
theorem Trigger.ofWord_word {text : String} (h : IsWord text.toList) :
    IsWord (Trigger.ofWord text).display.toList ∧
      (Trigger.ofWord (Trigger.ofWord text).display).display = (Trigger.ofWord text).display := by
  by_cases hend : ∀ a, text.toList = a ++ [':'] → ':' ∈ a
  · have hdisplay := Trigger.display_ofWord hend
    rw [hdisplay]
    exact ⟨h, hdisplay⟩
  · obtain ⟨name, hname⟩ := Classical.not_forall.1 hend
    obtain ⟨htext, hno⟩ := Classical.not_imp.1 hname
    have hread : Trigger.ofWord text = ⟨String.ofList name, none⟩ := by
      simp only [Trigger.ofWord, htext, splitOnce_append hno]
    rw [htext] at h
    rw [hread]
    have hname : IsWord (String.ofList name).toList := by
      rw [String.toList_ofList]
      exact isWord_of_append h rfl
    have hnone : ':' ∉ (String.ofList name).toList := by
      rwa [String.toList_ofList]
    exact ⟨hname, Trigger.display_ofWord_of_not_mem hnone⟩

theorem isTicks_chars {n : Token} (h : IsTicks n) :
    (∀ c ∈ n.text.toList, Token.isWordChar c = true) ∧
      ∃ r d, n.text.toList = r ++ [d] ∧ d.isDigit = true := by
  obtain ⟨-, negative, digits, htext, hn, hd⟩ := h
  constructor
  · intro c hc
    rw [htext] at hc
    rcases List.mem_append.1 hc with hc | hc
    · cases negative with
      | false => cases hc
      | true =>
        obtain rfl := List.mem_singleton.1 hc
        rfl
    · have hdigit := hd c hc
      simp [Token.isWordChar, Char.isAlphanum, hdigit]
  · obtain ⟨r, d, hrd⟩ : ∃ r d, digits = r ++ [d] := by
      rcases List.eq_nil_or_concat digits with h | ⟨r, d, h⟩
      · exact absurd h hn
      · exact ⟨r, d, by rw [h, List.concat_eq_append]⟩
    refine ⟨signText negative ++ r, d, by rw [htext, hrd, List.append_assoc], ?_⟩
    exact hd d (by rw [hrd]; simp)

/-- A name, a colon and ticks are one word, which does not end in the colon. -/
theorem display_of_isTicks {s : List Char} {n : Token} {text : String}
    (hw : IsWord (s ++ [':'])) (hn : IsTicks n) (htext : text.toList = s ++ ':' :: n.text.toList) :
    IsWord text.toList ∧ (Trigger.ofWord text).display = text := by
  obtain ⟨hchars, r, d, hr, hd⟩ := isTicks_chars hn
  constructor
  · rw [htext, List.append_cons]
    exact isWord_append hw hchars
  · apply Trigger.display_ofWord
    intro a ha
    rw [htext, hr, ← List.cons_append, ← List.append_assoc] at ha
    obtain ⟨-, hlast⟩ := List.append_inj' ha rfl
    obtain rfl : d = ':' := by simpa using hlast
    cases hd

/-- The text of a trigger that was read is a word, and gives a trigger of that text. -/
theorem display_of_nameOf {ts : List Token} {t : Trigger} (h : NameOf ts t)
    (hl : ∀ u ∈ ts, IsLexeme u.kind u.text.toList) :
    IsWord t.display.toList ∧ (Trigger.ofWord t.display).display = t.display := by
  cases h with
  | @word w hw =>
    have hword := (hl w (List.mem_singleton.2 rfl)).isWord hw
    exact Trigger.ofWord_word hword
  | @parted w c n hw hc hn =>
    have hword := (hl w (List.mem_cons_self ..)).isWord hw
    have hcolon : IsWord (w.text.toList ++ [':']) :=
      isWord_append hword (by simp [Token.isWordChar])
    exact display_of_isTicks hcolon hn (by simp [Trigger.display, String.toList_append])
  | @fused w n name hw ht hn =>
    have hword := (hl w (List.mem_cons_self ..)).isWord hw
    rw [ht] at hword
    exact display_of_isTicks hword hn (by simp [Trigger.display, String.toList_append])

theorem display_of_triggerOf {ts : List Token} {t : Trigger} (h : TriggerOf ts t)
    (hl : ∀ u ∈ ts, IsLexeme u.kind u.text.toList) :
    IsWord t.display.toList ∧ (Trigger.ofWord t.display).display = t.display := by
  cases h with
  | mk _ h => exact display_of_nameOf h fun u hu => hl u (List.mem_cons_of_mem _ hu)

end MobSkills
