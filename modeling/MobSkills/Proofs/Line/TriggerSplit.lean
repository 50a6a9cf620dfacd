import MobSkills.Proofs.Line.Stability

/-!
# Where a trigger is split

A trigger is written as one word and read back from it, and a word is split at its first
colon. A line can also give the value apart from the name, and then the name is all that
stands before the last colon. So a trigger that was given in one word comes back as it
was, and one that was given in parts comes back only if its name has no colon: otherwise
the name is cut at that colon, and the rest of it is put before the value.
-/
namespace MobSkills

open Token (IsLexeme IsWord isWord_of_append isWord_cons)
open Grammar

/-! ## Words and their triggers -/

/-- One word gives a name without a colon. -/
theorem Trigger.not_mem_name_ofWord (word : String) : ':' ∉ (Trigger.ofWord word).name.toList := by
  unfold Trigger.ofWord
  split
  · rename_i hsplit
    intro hmem
    obtain ⟨a, b, heq, hno⟩ := List.eq_append_cons_of_mem hmem
    rw [heq, splitOnce_append hno] at hsplit
    cases hsplit
  · rename_i name hsplit
    simpa using (splitOnce_eq_some hsplit).2
  · rename_i name value _ hsplit
    simpa using (splitOnce_eq_some hsplit).2

theorem Trigger.wellFormed_ofWord {word : String} (h : IsWord word.toList) :
    (Trigger.ofWord word).WellFormed := by
  have hcolon := not_mem_name_ofWord word
  unfold Trigger.ofWord at hcolon ⊢
  split at hcolon
  · exact ⟨h, hcolon, nofun⟩
  · rename_i name hsplit
    obtain ⟨hword, -⟩ := splitOnce_eq_some hsplit
    rw [hword] at h
    exact ⟨by simpa using isWord_of_append h rfl, hcolon, nofun⟩
  · rename_i name value hne hsplit
    obtain ⟨hword, -⟩ := splitOnce_eq_some hsplit
    rw [hword] at h
    refine ⟨by simpa using isWord_of_append h rfl, hcolon, ?_⟩
    intro v hv
    cases hv
    refine ⟨fun hempty => hne ?_, fun c hc => Token.isWordChar_of_isWord h ?_⟩
    · simpa using hempty
    · exact List.mem_append_right _ (List.mem_cons_of_mem _ (by simpa using hc))

/-- A name without a colon and a value of ticks are what one word can hold. -/
theorem Trigger.wellFormed_of_isTicks {name : String} {n : Token} (hname : IsWord name.toList)
    (hcolon : ':' ∉ name.toList) (hn : IsTicks n) : (Trigger.mk name (some n.text)).WellFormed := by
  obtain ⟨hchars, r, d, hr, -⟩ := isTicks_chars hn
  refine ⟨hname, hcolon, ?_⟩
  intro v hv
  cases hv
  refine ⟨fun hempty => ?_, hchars⟩
  rw [hempty] at hr
  simp at hr

/-- A trigger that was read is the one its text gives exactly when its name has no colon. -/
theorem ofWord_display_iff_of_nameOf {ts : List Token} {t : Trigger} (h : NameOf ts t)
    (hl : ∀ u ∈ ts, IsLexeme u.kind u.text.toList) :
    .ofWord t.display = t ↔ ':' ∉ t.name.toList := by
  constructor
  · intro hself
    rw [← hself]
    exact Trigger.not_mem_name_ofWord _
  · intro hcolon
    apply Trigger.ofWord_display
    cases h with
    | @word w hw => exact Trigger.wellFormed_ofWord ((hl w (List.mem_singleton.2 rfl)).isWord hw)
    | @parted w c n hw hc hn =>
      exact Trigger.wellFormed_of_isTicks ((hl w (List.mem_cons_self ..)).isWord hw) hcolon hn
    | @fused w n name hw ht hn =>
      have hword := (hl w (List.mem_cons_self ..)).isWord hw
      rw [ht] at hword
      exact Trigger.wellFormed_of_isTicks (by simpa using isWord_of_append hword rfl) hcolon hn

/-- A name that is cut at its first colon. -/
theorem Trigger.ofWord_display_of_name {t : Trigger} {a b : List Char} {v : String}
    (hname : t.name.toList = a ++ ':' :: b) (ha : ':' ∉ a) (hv : t.value = some v) :
    .ofWord t.display = Trigger.mk (String.ofList a) (some (String.ofList b ++ ":" ++ v)) := by
  have hdisplay : t.display.toList = a ++ ':' :: (b ++ ':' :: v.toList) := by
    simp [Trigger.display, hv, String.toList_append, hname]
  have hrest : b ++ ':' :: v.toList ≠ [] := by simp
  obtain ⟨d, r, hd⟩ := List.exists_cons_of_ne_nil hrest
  rw [hd] at hdisplay
  simp only [Trigger.ofWord, hdisplay, splitOnce_append ha]
  rw [← hd]
  congr 2
  apply String.toList_injective
  simp [String.toList_append]

/-! ## The trigger of a canonical line -/

/-- The tokens stand after a tilde of the text and give the trigger. -/
def Trigger.SpelledBy (text : String) (ts : List Token) (t : Trigger) : Prop :=
  ∃ tokens tilde, Token.scan text = .ok tokens ∧ tilde :: ts <:+: tokens ∧
    tilde.kind = .tilde ∧ NameOf ts t

theorem exists_spelledBy {options : ParseOptions} {text : String} {line : SkillLine} {t : Trigger}
    (h : SkillLine.parse options text = .ok ⟨line, [], []⟩) (ht : line.trigger = some t) :
    ∃ ts, t.SpelledBy text ts ∧ ∀ u ∈ ts, IsLexeme u.kind u.text.toList := by
  obtain ⟨ts, hcut, hparsed⟩ := exists_cut_of_parse h
  have hscan := Token.scan_eq_ok_iff.2 ⟨ts, hcut, rfl⟩
  have hl := hcut.isLexeme
  generalize Token.endAt (Text.byteLength text.toList) = last at hscan
  cases hparsed with
  | @mk _ us _ _ _ hhead _ =>
    cases hhead with
    | @mk ms ps as _ cs n _ _ _ trigger _ _ _ _ _ hs _ =>
      obtain rfl : trigger = some t := ht
      cases hs with
      | present hs =>
        cases hs with
        | @mk tilde names _ htilde hnames =>
          refine ⟨names, ⟨_, tilde, hscan, ?_, htilde, hnames⟩, fun u hu => hl u (by simp [hu])⟩
          exact ⟨ms ++ n :: (ps ++ as), cs ++ (us ++ [last]), by simp⟩

/-- A trigger with a colon in its name has a value. -/
theorem exists_value_of_nameOf {ts : List Token} {t : Trigger} (h : NameOf ts t)
    (hcolon : ':' ∈ t.name.toList) : ∃ v, t.value = some v := by
  cases h with
  | @word w _ => exact absurd hcolon (Trigger.not_mem_name_ofWord w.text)
  | parted => exact ⟨_, rfl⟩
  | fused => exact ⟨_, rfl⟩

theorem not_mem_name_of_nameOf {w : Token} {t : Trigger} (h : NameOf [w] t) :
    ':' ∉ t.name.toList := by
  cases h with
  | word => exact Trigger.not_mem_name_ofWord w.text

/-- The canonical form of an accepted line has the trigger of the line exactly when the
line gives it in one word or under a name without a colon; else the name is cut. -/
theorem trigger_render_iff {options : ParseOptions} {text : String} {line : SkillLine}
    {t : Trigger} (h : SkillLine.parse options text = .ok ⟨line, [], []⟩)
    (hf : line.FiniteReals) (ht : line.trigger = some t) :
    ∃ ts again, t.SpelledBy text ts ∧
      (∀ options', SkillLine.parse options' line.render = .ok ⟨again, [], []⟩) ∧
      (again.trigger = some t ↔ ts.length = 1 ∨ ':' ∉ t.name.toList) ∧
      ∀ a b, t.name.toList = a ++ ':' :: b → ':' ∉ a → ∃ v, t.value = some v ∧
        again.trigger = some ⟨String.ofList a, some (String.ofList b ++ ":" ++ v)⟩ := by
  obtain ⟨ts, hspelled, hl⟩ := exists_spelledBy h ht
  obtain ⟨-, -, -, -, -, hname⟩ := id hspelled
  have hagain : (line.reread (line.conditions.map Condition.recut)).trigger =
      some (.ofWord t.display) := by
    simp [SkillLine.reread, ht]
  refine ⟨ts, _, hspelled, parse_render_reread h hf, ?_, ?_⟩
  · rw [hagain, Option.some_inj, ofWord_display_iff_of_nameOf hname hl, iff_or_self]
    intro hlength
    obtain ⟨w, rfl⟩ := List.length_eq_one_iff.1 hlength
    exact not_mem_name_of_nameOf hname
  · intro a b hsplit ha
    have hcolon : ':' ∈ t.name.toList := by simp [hsplit]
    obtain ⟨v, hv⟩ := exists_value_of_nameOf hname hcolon
    exact ⟨v, hv, by rw [hagain, Trigger.ofWord_display_of_name hsplit ha hv]⟩

/-- A name in parts that has a colon of its own. -/
def signalLine : SkillLine where
  mechanic := "burn"
  parameters := some ⟨[("t", .real (.ofInt 2))]⟩
  trigger := some ⟨"on:Signal", some "-20"⟩

theorem trigger_render_signal :
    SkillLine.parse {} "- burn\x7bt=2.0\x7d ~on:Signal : -20" = .ok ⟨signalLine, [], []⟩ ∧
      ∃ again, (∀ options, SkillLine.parse options signalLine.render = .ok ⟨again, [], []⟩) ∧
        again.trigger = some ⟨"on", some "Signal:-20"⟩ := by
  have hparse : SkillLine.parse {} "- burn\x7bt=2.0\x7d ~on:Signal : -20" =
      .ok ⟨signalLine, [], []⟩ := by
    rw [eq_ok_iff_toOption]
    decide +kernel
  have hfinite : signalLine.FiniteReals := by
    have htwo : (Binary64.ofInt 2).isFinite = true := by decide +kernel
    simp [SkillLine.FiniteReals, signalLine, htwo]
  obtain ⟨_, again, -, hagain, -, hcut⟩ := trigger_render_iff hparse hfinite rfl
  obtain ⟨v, hv, htrigger⟩ := hcut ['o', 'n'] ['S', 'i', 'g', 'n', 'a', 'l'] (by decide) (by decide)
  obtain rfl := Option.some.inj hv
  refine ⟨hparse, again, hagain, htrigger.trans (by decide)⟩

/-- A trigger that is given in parts comes back as another one. -/
theorem trigger_lost :
    ∃ line again, SkillLine.parse {} "m ~a:b: 5" = .ok ⟨line, [], []⟩ ∧ line.FiniteReals ∧
      line.trigger = some ⟨"a:b", some "5"⟩ ∧
      SkillLine.parse {} line.render = .ok ⟨again, [], []⟩ ∧
      again.trigger = some ⟨"a", some "b:5"⟩ := by
  refine ⟨{ mechanic := "m", trigger := some ⟨"a:b", some "5"⟩ },
    { mechanic := "m", trigger := some ⟨"a", some "b:5"⟩ }, ?_, ?_, rfl, ?_, rfl⟩
  · rw [eq_ok_iff_toOption]
    decide +kernel
  · simp [SkillLine.FiniteReals]
  · rw [eq_ok_iff_toOption]
    decide +kernel

end MobSkills
