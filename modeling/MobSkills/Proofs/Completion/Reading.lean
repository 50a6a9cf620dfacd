import MobSkills.Completion.Context
import MobSkills.Proofs.Line.TriggerText

/-!
# What stands before a query

A line in progress is read from its end: after the last separator, after the last sign,
behind the brace of a group that is still open. Each of these readings splits a line in
two, and depends on the second part only in so far as it holds no separator, no sign and
no brace. The parts are described by concatenation, so that one of them can be replaced
without counting characters.
-/
namespace MobSkills

open Token (IsWord isWordChar isWord_cons takeWhile_append_stop dropWhile_append_stop)

/-! ## Cut texts -/

theorem not_mem_of_all {p : Char → Bool} {s : List Char} {c : Char} (h : ∀ d ∈ s, p d = true)
    (hc : p c = false) : c ∉ s := by
  intro hmem
  rw [h c hmem] at hc
  cases hc

theorem dropWhile_head {p : Char → Bool} {d : Char} {r s : List Char}
    (h : s.dropWhile p = d :: r) : p d = false := by
  have hhead := List.head?_dropWhile_not p s
  rw [h] at hhead
  exact hhead

namespace Text

variable {c d : Char} {a s : List Char}

theorem trimLeft_append (h : ∀ c ∈ s.head?, isBlank c = false) (a : List Char) :
    trimLeft (a ++ s) = trimLeft a ++ s :=
  dropWhile_append_stop h a

theorem exists_trimLeft (s : List Char) : ∃ a, s = a ++ trimLeft s ∧ trimLeft a = [] := by
  refine ⟨s.takeWhile isBlank, List.takeWhile_append_dropWhile.symm, ?_⟩
  rw [trimLeft, List.dropWhile_eq_nil_iff]
  exact fun c hc => List.mem_takeWhile_imp hc

theorem length_trimRight_le (s : List Char) : (trimRight s).length ≤ s.length := by
  calc (trimRight s).length = (s.reverse.dropWhile isBlank).length := List.length_reverse
    _ ≤ s.reverse.length := (List.dropWhile_suffix isBlank).length_le
    _ = s.length := List.length_reverse

/-- A text that trimming leaves alone begins with no blank. -/
theorem isBlank_head_of_trim (h : trim s = s) : ∀ c ∈ s.head?, isBlank c = false := by
  have hself : trimLeft s = s := by
    have hlength := length_trimRight_le (trimLeft s)
    rw [← trim, h] at hlength
    exact (List.dropWhile_suffix isBlank).eq_of_length_le hlength
  intro c hc
  obtain ⟨r, rfl⟩ := List.head?_eq_some_iff.1 hc
  exact dropWhile_head hself

theorem not_mem_afterLast (c : Char) (s : List Char) : c ∉ afterLast c s := by
  intro h
  simpa using List.mem_takeWhile_imp (List.mem_reverse.1 h)

theorem afterLast_append (h : c ∉ s) (a : List Char) :
    afterLast c (a ++ s) = afterLast c a ++ s := by
  have hall : ∀ d ∈ s.reverse, (d != c) = true := by
    intro d hd
    have hne : d ≠ c := fun he => h (he ▸ List.mem_reverse.1 hd)
    simpa using hne
  rw [afterLast, List.reverse_append, List.takeWhile_append_of_pos hall, List.reverse_append,
    List.reverse_reverse, afterLast]

theorem exists_afterLast (c : Char) (s : List Char) :
    ∃ a, s = a ++ afterLast c s ∧ afterLast c a = [] := by
  refine ⟨(s.reverse.dropWhile (· != c)).reverse, ?_, ?_⟩
  · rw [afterLast, ← List.reverse_append, List.takeWhile_append_dropWhile, List.reverse_reverse]
  · rw [afterLast, List.reverse_reverse]
    cases hdrop : s.reverse.dropWhile (· != c) with
    | nil => rfl
    | cons d r => simp [dropWhile_head hdrop]

end Text

namespace Completion

open Text (trimLeft_append exists_trimLeft afterLast_append exists_afterLast not_mem_afterLast)

variable {a b s line : List Char}

/-- The text begins with neither a blank nor a list marker. -/
def Begins (s : List Char) : Prop :=
  ∀ c ∈ s.head?, Text.isBlank c = false ∧ c ≠ '-'

theorem afterMarker_of_marker (h : Text.trimLeft line = '-' :: s) :
    afterMarker line = Text.trimLeft s := by
  simp only [afterMarker, h]

theorem afterMarker_of_ne (h : ∀ r, Text.trimLeft line ≠ '-' :: r) :
    afterMarker line = Text.trimLeft line := by
  unfold afterMarker
  split
  · rename_i r hr
    exact absurd hr (h r)
  · rfl

theorem afterMarker_append (h : Begins s) (a : List Char) :
    afterMarker (a ++ s) = afterMarker a ++ s := by
  have hblank : ∀ c ∈ s.head?, Text.isBlank c = false := fun c hc => (h c hc).1
  have htrim := trimLeft_append hblank a
  by_cases hmarker : ∃ r, Text.trimLeft a = '-' :: r
  · obtain ⟨r, hr⟩ := hmarker
    rw [hr, List.cons_append] at htrim
    rw [afterMarker_of_marker htrim, afterMarker_of_marker hr, trimLeft_append hblank]
  · have hne : ∀ r, Text.trimLeft a ≠ '-' :: r := fun r hr => hmarker ⟨r, hr⟩
    rw [afterMarker_of_ne hne, afterMarker_of_ne, htrim]
    intro r hr
    rw [htrim] at hr
    cases ha : Text.trimLeft a with
    | nil =>
      rw [ha, List.nil_append] at hr
      exact (h '-' (by rw [hr]; rfl)).2 rfl
    | cons d t =>
      rw [ha, List.cons_append] at hr
      exact hne t (by rw [ha, (List.cons.inj hr).1])

theorem exists_afterMarker (line : List Char) :
    ∃ a, line = a ++ afterMarker line ∧ afterMarker a = [] := by
  obtain ⟨a, hline, ha⟩ := exists_trimLeft line
  by_cases hmarker : ∃ r, Text.trimLeft line = '-' :: r
  · obtain ⟨r, hr⟩ := hmarker
    obtain ⟨b, hb, hblank⟩ := exists_trimLeft r
    refine ⟨a ++ '-' :: b, ?_, ?_⟩
    · rw [afterMarker_of_marker hr, List.append_assoc, List.cons_append, ← hb, ← hr, ← hline]
    · have htrim : Text.trimLeft (a ++ '-' :: b) = '-' :: b := by
        rw [trimLeft_append (by simp [Text.isBlank]), ha, List.nil_append]
      rw [afterMarker_of_marker htrim, hblank]
  · refine ⟨a, ?_, ?_⟩
    · rw [afterMarker_of_ne fun r hr => hmarker ⟨r, hr⟩, ← hline]
    · rw [afterMarker_of_ne (by simp [ha]), ha]

theorem lastEntry_append (hs : ';' ∉ s) (hhead : ∀ c ∈ s.head?, Text.isBlank c = false)
    (b : List Char) : lastEntry (b ++ s) = lastEntry b ++ s := by
  rw [lastEntry, afterLast_append hs, trimLeft_append hhead, lastEntry]

theorem exists_lastEntry (block : List Char) :
    ∃ b, block = b ++ lastEntry block ∧ lastEntry b = [] := by
  obtain ⟨a, hblock, ha⟩ := exists_afterLast ';' block
  obtain ⟨b, hb, hblank⟩ := exists_trimLeft (Text.afterLast ';' block)
  refine ⟨a ++ b, by rw [List.append_assoc, lastEntry, ← hb, ← hblock], ?_⟩
  have hno : ';' ∉ b := fun h =>
    not_mem_afterLast ';' block (hb ▸ List.mem_append_left _ h)
  rw [lastEntry, afterLast_append hno, ha, List.nil_append, hblank]

theorem not_mem_lastEntry (block : List Char) : ';' ∉ lastEntry block := fun h =>
  not_mem_afterLast ';' block ((List.dropWhile_sublist _).subset h)

theorem isBlank_head_lastEntry (block : List Char) :
    ∀ c ∈ (lastEntry block).head?, Text.isBlank c = false := by
  intro c hc
  obtain ⟨r, hr⟩ := List.head?_eq_some_iff.1 hc
  exact dropWhile_head hr

/-! ## Open groups -/

theorem openGroup?_eq_some_iff {m block : List Char} :
    openGroup? s = some (m, block) ↔ s = m ++ '\x7b' :: block ∧ IsWord m ∧ '\x7d' ∉ block := by
  constructor
  · intro h
    cases s with
    | nil => cases h
    | cons c r =>
      simp only [openGroup?] at h
      split at h
      · rename_i hc
        split at h
        · rename_i rest hrest
          have hr := List.takeWhile_append_dropWhile (p := isWordChar) (l := r)
          rw [hrest] at hr
          simp only [List.contains_eq_mem, decide_eq_true_eq, Option.ite_none_left_eq_some,
            Option.some.injEq, Prod.mk.injEq] at h
          obtain ⟨hno, rfl, rfl⟩ := h
          refine ⟨by rw [List.cons_append, hr], isWord_cons.2 ⟨hc, ?_⟩, hno⟩
          exact fun d hd => List.mem_takeWhile_imp hd
        · cases h
      · cases h
  · rintro ⟨rfl, ⟨c, r, rfl, hc, hr⟩, hno⟩
    have hstop : ∀ d ∈ ('\x7b' :: block).head?, isWordChar d = false := by
      simp [show isWordChar '\x7b' = false by decide]
    have htake : r.takeWhile isWordChar = r := List.takeWhile_eq_self_iff.2 hr
    have hdrop : r.dropWhile isWordChar = [] := List.dropWhile_eq_nil_iff.2 hr
    simp [openGroup?, hc, takeWhile_append_stop hstop, dropWhile_append_stop hstop, htake, hdrop, hno]

/-- No brace stands in the text. -/
def NoBrace (s : List Char) : Prop :=
  '\x7b' ∉ s ∧ '\x7d' ∉ s

/-- What ends a line without a brace does not decide whether a group is open before it. -/
theorem openGroup?_replace {u v : List Char} (hu : NoBrace u) (hv : NoBrace v)
    (h : openGroup? (a ++ u) = none) : openGroup? (a ++ v) = none := by
  rw [Option.eq_none_iff_forall_ne_some] at h ⊢
  rintro ⟨m, block⟩ hsome
  obtain ⟨heq, hm, hno⟩ := openGroup?_eq_some_iff.1 hsome
  -- The brace that opens the group cannot stand in `v`, so the word and the brace are in `a`.
  rcases List.append_eq_append_iff.1 heq with ⟨t, -, ht⟩ | ⟨t, rfl, ht⟩
  · exact hv.1 (ht ▸ by simp)
  · cases t with
    | nil => exact hv.1 (by rw [← List.nil_append v, ← ht]; simp)
    | cons d t =>
      obtain ⟨rfl, rfl⟩ := List.cons.inj ht
      refine h (m, t ++ u) (openGroup?_eq_some_iff.2 ⟨by simp, hm, ?_⟩)
      have ht : '\x7d' ∉ t := fun hmem => hno (List.mem_append_left v hmem)
      simp [ht, hu.2]

theorem openTargeter?_eq_none {v : List Char} (hv : '\x7b' ∉ v) : openTargeter? v = none := by
  induction v with
  | nil => rfl
  | cons c r ih =>
    have hr : '\x7b' ∉ r := fun h => hv (List.mem_cons_of_mem c h)
    have hgroup : openGroup? r = none := by
      rw [Option.eq_none_iff_forall_ne_some]
      rintro ⟨m, block⟩ hsome
      obtain ⟨rfl, -, -⟩ := openGroup?_eq_some_iff.1 hsome
      exact hr (by simp)
    simp [openTargeter?, hgroup, ih hr]

theorem openTargeter?_replace {u v : List Char} (hu : NoBrace u) (hv : NoBrace v)
    (h : openTargeter? (a ++ u) = none) : openTargeter? (a ++ v) = none := by
  induction a with
  | nil => exact openTargeter?_eq_none hv.1
  | cons c a ih =>
    simp only [List.cons_append, openTargeter?, Option.or_eq_none_iff] at h ⊢
    refine ⟨?_, ih h.2⟩
    split
    · rename_i hc
      exact openGroup?_replace hu hv (by simpa [hc] using h.1)
    · rfl

/-! ## Signs -/

section
variable {p : Char → Bool} {sign : Char} {name before : List Char}

theorem splitTail_eq_iff :
    splitTail p line = (before, name) ↔
      line = before ++ name ∧ (∀ c ∈ name, p c = true) ∧ ∀ c ∈ before.getLast?, p c = false := by
  constructor
  · intro h
    obtain ⟨rfl, rfl⟩ := Prod.mk.inj h
    refine ⟨?_, fun c hc => List.mem_takeWhile_imp (List.mem_reverse.1 hc), ?_⟩
    · rw [← List.reverse_append, List.takeWhile_append_dropWhile, List.reverse_reverse]
    · intro c hc
      rw [List.getLast?_reverse] at hc
      obtain ⟨r, hr⟩ := List.head?_eq_some_iff.1 hc
      exact dropWhile_head hr
  · rintro ⟨rfl, hname, hlast⟩
    have hall : ∀ c ∈ name.reverse, p c = true := fun c hc => hname c (List.mem_reverse.1 hc)
    have hstop : ∀ c ∈ before.reverse.head?, p c = false := by
      rwa [List.head?_reverse]
    rw [splitTail, List.reverse_append, takeWhile_append_stop hstop, dropWhile_append_stop hstop,
      List.takeWhile_eq_self_iff.2 hall, List.dropWhile_eq_nil_iff.2 hall]
    simp

theorem signed?_eq_some_iff (hsign : p sign = false) :
    signed? sign p line = some name ↔ ∃ a, line = a ++ sign :: name ∧ ∀ c ∈ name, p c = true := by
  constructor
  · intro h
    rcases hsplit : splitTail p line with ⟨before, tail⟩
    obtain ⟨hline, htail, -⟩ := splitTail_eq_iff.1 hsplit
    simp only [signed?, hsplit, Option.ite_none_right_eq_some, Option.some.injEq] at h
    obtain ⟨hlast, rfl⟩ := h
    obtain ⟨a, rfl⟩ := List.getLast?_eq_some_iff.1 hlast
    exact ⟨a, by simp [hline], htail⟩
  · rintro ⟨a, rfl, hname⟩
    have hsplit : splitTail p (a ++ sign :: name) = (a ++ [sign], name) :=
      splitTail_eq_iff.2 ⟨by simp, hname, by simpa using hsign⟩
    simp [signed?, hsplit]

/-- A character that is no sign and in no name keeps the signs before it out. -/
theorem signed?_eq_none {d : Char} (hsign : p sign = false) (hd : p d = false)
    (hs : sign ∉ d :: s) (a : List Char) : signed? sign p (a ++ d :: s) = none := by
  rw [Option.eq_none_iff_forall_ne_some]
  intro name hsome
  obtain ⟨b, heq, hname⟩ := (signed?_eq_some_iff hsign).1 hsome
  -- A sign inside of `d :: s` is excluded; one before it would have `d` in its name.
  rcases List.append_eq_append_iff.1 heq with ⟨t, -, ht⟩ | ⟨t, -, ht⟩
  · exact hs (ht ▸ by simp)
  · cases t with
    | nil => exact hs (by rw [← List.nil_append (d :: s), ← ht]; simp)
    | cons e t =>
      have hmem : d ∈ name := by rw [(List.cons.inj ht).2]; simp
      rw [hname d hmem] at hd
      cases hd

end

theorem condition?_eq_some_iff {name : List Char} :
    condition? line = some name ↔
      ∃ a bang, (bang = [] ∨ bang = ['!']) ∧ line = a ++ '?' :: (bang ++ name) ∧
        ∀ c ∈ name, isNameChar c = true := by
  constructor
  · intro h
    rcases hsplit : splitTail isNameChar line with ⟨before, tail⟩
    obtain ⟨hline, htail, -⟩ := splitTail_eq_iff.1 hsplit
    simp only [condition?, hsplit, Option.ite_none_right_eq_some, Option.some.injEq] at h
    obtain ⟨hlast, rfl⟩ := h
    obtain ⟨a, ha⟩ := List.getLast?_eq_some_iff.1 hlast
    split at ha
    · rename_i hbang
      obtain ⟨b, rfl⟩ := List.getLast?_eq_some_iff.1 hbang
      rw [List.dropLast_concat] at ha
      exact ⟨a, ['!'], .inr rfl, by simp [hline, ha], htail⟩
    · exact ⟨a, [], .inl rfl, by simp [hline, ha], htail⟩
  · rintro ⟨a, bang, hbang, rfl, hname⟩
    have hsplit : splitTail isNameChar (a ++ '?' :: (bang ++ name)) = (a ++ '?' :: bang, name) := by
      refine splitTail_eq_iff.2 ⟨by simp, hname, ?_⟩
      rcases hbang with rfl | rfl <;> simp <;> decide
    simp only [condition?, hsplit]
    rcases hbang with rfl | rfl <;> simp

end Completion

end MobSkills
