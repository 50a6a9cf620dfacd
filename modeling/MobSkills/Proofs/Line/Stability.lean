import MobSkills.Proofs.Line.Canonical

/-!
# Canonical lines and their canonical form

The canonical form of an accepted line is a canonical line again, but it need not be the
same one. Its braces are cut anew without the gaps that stood in them, and a point or a
percent sign that has lost its number is passed over by a scan. So the second form is the
first one without what the scans of its braces pass over, and the two are the same
exactly when they pass over nothing.
-/
namespace MobSkills

open Token (Cut spaced)
open Grammar

/-! ## Cutting a text again -/

namespace Token

/-- A cut leaves characters out and adds none. -/
theorem Cut.join_sublist {p : Nat} {s : List Char} {ts : List Token} (h : Cut p s ts) :
    (String.join (ts.map Token.text)).toList.Sublist s := by
  induction h with
  | done => exact .refl _
  | gap _ _ ih => exact ih.cons _
  | token h _ ih =>
    rw [← step_append h, List.map_cons, String.join_cons, String.toList_append,
      String.toList_ofList, ← List.cons_append]
    exact (List.Sublist.refl _).append ih

theorem recut_sublist (text : String) : (recut text).toList.Sublist text.toList := by
  cases hscan : scan text with
  | error e => rw [recut, hscan]
  | ok tokens =>
    obtain ⟨ts, hcut, -⟩ := scan_eq_ok_iff.1 hscan
    rw [recut_eq_join hcut]
    exact hcut.join_sublist

end Token

/-- The line with the conditions that their own texts give. -/
def SkillLine.recut (line : SkillLine) : SkillLine :=
  { line with conditions := line.conditions.map Condition.recut }

/-- A scan of the braces of the line passes over nothing. -/
def SkillLine.Settled (line : SkillLine) : Prop :=
  ∀ c ∈ line.conditions, ∀ g ∈ c.group, Token.recut g = g

/-! ## The second form -/

theorem render_reread {line : SkillLine} (cs : List Condition)
    (h : ∀ t ∈ line.trigger, (Trigger.ofWord t.display).display = t.display) :
    (line.reread cs).render = { line with conditions := cs }.render := by
  cases ht : line.trigger with
  | none => simp [SkillLine.render, SkillLine.parts, SkillLine.reread, ht]
  | some t => simp [SkillLine.render, SkillLine.parts, SkillLine.reread, ht, h t ht]

theorem canonical?_eq_some_iff {options : ParseOptions} {text formed : String} :
    SkillLine.canonical? options text = some formed ↔
      ∃ line, SkillLine.parse options text = .ok ⟨line, [], []⟩ ∧ line.render = formed := by
  rw [SkillLine.canonical?]
  cases hparse : SkillLine.parse options text with
  | error e => simp
  | ok outcome =>
    obtain ⟨line, errors, warnings⟩ := outcome
    simp only [Outcome.isClean, Bool.and_eq_true, List.isEmpty_iff, Option.ite_none_right_eq_some,
      Option.some.injEq, Except.ok.injEq, Outcome.mk.injEq]
    constructor
    · rintro ⟨⟨rfl, rfl⟩, hrender⟩
      exact ⟨line, ⟨rfl, rfl, rfl⟩, hrender⟩
    · rintro ⟨_, ⟨rfl, rfl, rfl⟩, hrender⟩
      exact ⟨⟨rfl, rfl⟩, hrender⟩

/-- What a canonical line is read as, whatever options each was read with. -/
theorem parse_render_reread {options : ParseOptions} {text : String} {line : SkillLine}
    (h : SkillLine.parse options text = .ok ⟨line, [], []⟩) (hf : line.FiniteReals)
    (options' : ParseOptions) :
    SkillLine.parse options' line.render =
      .ok ⟨line.reread (line.conditions.map Condition.recut), [], []⟩ := by
  obtain ⟨ts, hcut, hparsed⟩ := exists_cut_of_parse h
  obtain ⟨hspellable, -⟩ := spellable_recut_of_parsedAs hparsed hcut.isLexeme hf
  obtain ⟨us, hus, cs, hrecut, hagain⟩ := spells_render hspellable 0
  rw [← List.forall₂_map_left_iff, List.forall₂_eq_eq_eq] at hrecut
  rw [hrecut]
  exact (parse_eq_clean_iff hus).2 hagain

/-- The canonical form of a canonical line, whatever options each was read with. -/
theorem canonical?_render {options : ParseOptions} {text : String} {line : SkillLine}
    (h : SkillLine.parse options text = .ok ⟨line, [], []⟩) (hf : line.FiniteReals)
    (options' : ParseOptions) :
    SkillLine.canonical? options' line.render = some line.recut.render := by
  obtain ⟨ts, hcut, hparsed⟩ := exists_cut_of_parse h
  obtain ⟨-, hdisplay⟩ := spellable_recut_of_parsedAs hparsed hcut.isLexeme hf
  refine canonical?_eq_some_iff.2 ⟨_, parse_render_reread h hf options', ?_⟩
  rw [render_reread _ hdisplay, SkillLine.recut]

/-! ## Where the second form is the first -/

theorem display_recut_sublist (c : Condition) :
    c.recut.display.toList.Sublist c.display.toList := by
  obtain ⟨negated, name, group⟩ := c
  cases group with
  | none => exact .refl _
  | some g =>
    simp only [Condition.display, Condition.recut, Option.map_some, Option.getD_some,
      String.toList_append]
    exact (List.Sublist.refl _).append (Token.recut_sublist g)

theorem display_recut_eq_iff {c : Condition} :
    c.recut.display.toList = c.display.toList ↔ ∀ g ∈ c.group, Token.recut g = g := by
  obtain ⟨negated, name, group⟩ := c
  cases group with
  | none => simp [Condition.recut]
  | some g => cases negated <;> simp [Condition.display, Condition.recut, String.toList_inj]

theorem append_eq_append_iff_of_sublist {a a' b b' : List Char} (ha : a'.Sublist a)
    (hb : b'.Sublist b) : a' ++ b' = a ++ b ↔ a' = a ∧ b' = b := by
  constructor
  · intro h
    have hlength := congrArg List.length h
    rw [List.length_append, List.length_append] at hlength
    have hla := ha.length_le
    have hlb := hb.length_le
    exact ⟨ha.eq_of_length (by omega), hb.eq_of_length (by omega)⟩
  · rintro ⟨rfl, rfl⟩
    rfl

/-- The conditions as they are written in a line. -/
def written (cs : List Condition) : List Char :=
  spaced (cs.map fun c => '?' :: c.display.toList)

theorem written_cons (c : Condition) (cs : List Condition) :
    written (c :: cs) = (' ' :: '?' :: c.display.toList) ++ written cs :=
  rfl

theorem written_recut_sublist (cs : List Condition) :
    (written (cs.map Condition.recut)).Sublist (written cs) := by
  induction cs with
  | nil => exact .refl _
  | cons c cs ih =>
    rw [List.map_cons, written_cons, written_cons]
    exact (((display_recut_sublist c).cons_cons _).cons_cons _).append ih

theorem written_recut_eq_iff {cs : List Condition} :
    written (cs.map Condition.recut) = written cs ↔
      ∀ c ∈ cs, ∀ g ∈ c.group, Token.recut g = g := by
  induction cs with
  | nil => simp
  | cons c cs ih =>
    rw [List.map_cons, written_cons, written_cons, append_eq_append_iff_of_sublist
      (((display_recut_sublist c).cons_cons _).cons_cons _) (written_recut_sublist cs), ih,
      List.cons_inj_right, List.cons_inj_right, display_recut_eq_iff, List.forall_mem_cons]

/-- The second form of a line is the first exactly when its braces are settled. -/
theorem render_recut_eq_iff {line : SkillLine} :
    line.recut.render = line.render ↔ line.Settled := by
  rw [← String.toList_inj, render_toList, render_toList, SkillLine.recut]
  simp only [List.append_right_inj, List.append_left_inj]
  exact written_recut_eq_iff

end MobSkills
