import Mathlib.Data.List.Forall2
import MobSkills.Line.Render
import MobSkills.Proofs.Line.Braces

/-!
# Written conditions

A condition is written as a question mark, its mark, its name and its braces as they
stand. Braces without gaps that balance over their own tokens are read back as the same
text. Other braces are read back cut again: the texts of their tokens can join to tokens
of another cut, and what that cut passes over is lost.
-/
namespace MobSkills

open Token (Spells Part IsLexeme IsWord parted_nil spaced spaced_cons part_spaced)
open Grammar

/-- The brace text begins with a brace and has no gaps, and its first brace is closed by
its last token. -/
structure Condition.WellFormed (c : Condition) : Prop where
  word : IsWord c.name.toList
  braces : ∀ g ∈ c.group, g.toList.head? = some '\x7b' ∧
    ∃ ts last, Token.scan g = .ok (ts ++ [last]) ∧ BracesOf ts g

/-- Two conditions with the same mark and name, both with braces or both without. -/
def Condition.Alike (c again : Condition) : Prop :=
  again.negated = c.negated ∧ again.name = c.name ∧ again.group.isSome = c.group.isSome

/-- The condition that its own text gives. -/
def Condition.recut (c : Condition) : Condition :=
  { c with group := c.group.map Token.recut }

theorem Condition.alike_recut (c : Condition) : c.Alike c.recut :=
  ⟨rfl, rfl, Option.isSome_map⟩

theorem Condition.toList_display (c : Condition) : c.display.toList =
    (if c.negated then ['!'] else []) ++ (c.name.toList ++ (c.group.getD "").toList) := by
  cases hn : c.negated <;> simp [Condition.display, hn, String.toList_append]

/-! ## From the parts of a condition -/

section
variable {related : String → String → Prop} {group : Option String}

/-- Braces that spell related braces keep apart from the name before them. -/
theorem part_braces
    (hb : ∀ g ∈ group, g.toList.head? = some '\x7b' ∧
      Spells g.toList fun ts => ∃ g', related g g' ∧ BracesOf ts g') :
    Part (group.getD "").toList fun ts =>
      ∃ g', Option.Rel related group g' ∧ Maybe BracesOf ts g' := by
  cases group with
  | none => exact ⟨.nil ⟨none, .none, .absent⟩, parted_nil⟩
  | some g =>
    obtain ⟨hhead, hspells⟩ := hb g rfl
    refine ⟨hspells.mono fun ts ⟨g', hrel, hts⟩ => ⟨some g', .some hrel, .present hts⟩, ?_⟩
    intro d hd
    obtain rfl : '\x7b' = d := Option.some.inj (hhead.symm.trans hd)
    decide

/-- A condition is read back with its mark and its name, and with braces that its own
spell. -/
theorem spells_condition {negated : Bool} {name : String} (hw : IsWord name.toList)
    (hb : ∀ g ∈ group, g.toList.head? = some '\x7b' ∧
      Spells g.toList fun ts => ∃ g', related g g' ∧ BracesOf ts g') :
    Spells ('?' :: (Condition.display ⟨negated, name, group⟩).toList) fun ts =>
      ∃ g', Option.Rel related group g' ∧ ConditionOf ts ⟨negated, name, g'⟩ := by
  have hgroup := part_braces hb
  have hname : Spells (name.toList ++ (group.getD "").toList) fun ts => ∃ n us g', ts = n :: us ∧
      n.kind = .identifier ∧ n.text = name ∧ Option.Rel related group g' ∧ Maybe BracesOf us g' :=
    .lexeme (Token.isLexeme_identifier_iff.2 hw) hgroup.spells (hgroup.parted.stops _)
      fun n us hn htext ⟨g', hrel, hus⟩ =>
        ⟨n, us, g', rfl, hn, String.toList_injective htext, hrel, hus⟩
  rw [Condition.toList_display]
  dsimp only
  cases negated with
  | false =>
    refine .symbol rfl (by decide) hname ?_
    intro q _ hq h
    obtain ⟨n, us, g', rfl, hn, rfl, hrel, hus⟩ := h
    exact ⟨g', hrel, .mk hq .absent hn hus⟩
  | true =>
    have hmark : Spells ('!' :: (name.toList ++ (group.getD "").toList)) fun ts =>
        ∃ m n us g', ts = m :: n :: us ∧ m.kind = .bang ∧ n.kind = .identifier ∧
          n.text = name ∧ Option.Rel related group g' ∧ Maybe BracesOf us g' := by
      refine .symbol rfl (by decide) hname ?_
      intro m _ hm h
      obtain ⟨n, us, g', rfl, hn, htext, hrel, hus⟩ := h
      exact ⟨m, n, us, g', rfl, hm, hn, htext, hrel, hus⟩
    refine .symbol rfl (by decide) hmark ?_
    intro q _ hq h
    obtain ⟨m, n, us, g', rfl, hm, hn, rfl, hrel, hus⟩ := h
    exact ⟨g', hrel, .mk hq (.present hm) hn hus⟩

end

theorem part_conditions {related : Condition → Condition → Prop} {cs : List Condition}
    (h : ∀ c ∈ cs,
      Spells ('?' :: c.display.toList) fun ts => ∃ c', related c c' ∧ ConditionOf ts c') :
    Part (spaced (cs.map fun c => '?' :: c.display.toList)) fun ts =>
      ∃ cs', List.Forall₂ related cs cs' ∧ ConditionsOf ts cs' := by
  induction cs with
  | nil => exact ⟨.nil ⟨[], .nil, .nil⟩, parted_nil⟩
  | cons c cs ih =>
    have hfirst := part_spaced (h c (List.mem_cons_self ..))
    have hrest := ih fun d hd => h d (List.mem_cons_of_mem c hd)
    rw [List.map_cons, spaced_cons]
    apply (hfirst.seq hrest).mono
    intro _ h
    obtain ⟨us, vs, rfl, ⟨c', hc, hus⟩, cs', hcs, hvs⟩ := h
    exact ⟨c' :: cs', .cons hc hcs, .cons hus hvs⟩

/-! ## Braces that scan -/

/-- A brace group depends on the kinds and the texts of its tokens alone. -/
theorem bracesOf_congr {ts us : List Token} {text : String} (h : BracesOf ts text)
    (hk : us.map Token.kind = ts.map Token.kind) (ht : us.map Token.text = ts.map Token.text) :
    BracesOf us text := by
  cases h with
  | @mk o c inner ho hc hb =>
    rw [List.map_cons, List.map_append] at hk
    obtain ⟨o', more, rfl, ho', hmore⟩ := List.map_eq_cons_iff.1 hk
    obtain ⟨inner', last, rfl, hinner, hlast⟩ := List.map_eq_append_iff.1 hmore
    obtain ⟨c', _, rfl, hc', hnil⟩ := List.map_eq_cons_iff.1 hlast
    obtain rfl := List.map_eq_nil_iff.1 hnil
    rw [← ht]
    exact .mk (ho'.trans ho) (hc'.trans hc) (hinner ▸ hb)

theorem Condition.WellFormed.spells {c : Condition} (h : c.WellFormed) :
    Spells ('?' :: c.display.toList) fun ts => ∃ c', c = c' ∧ ConditionOf ts c' := by
  obtain ⟨hword, hbraces⟩ := h
  obtain ⟨negated, name, group⟩ := c
  have hgroup (g : String) (hg : g ∈ group) : g.toList.head? = some '\x7b' ∧
      Spells g.toList fun ts => ∃ g', g = g' ∧ BracesOf ts g' := by
    obtain ⟨hhead, ts, last, hscan, hts⟩ := hbraces g hg
    refine ⟨hhead, (Token.spells_of_scan hscan).mono ?_⟩
    intro us h
    obtain ⟨hk, ht⟩ := h
    exact ⟨g, rfl, bracesOf_congr hts hk ht⟩
  apply (spells_condition hword hgroup).mono
  intro ts h
  obtain ⟨g', hrel, hts⟩ := h
  refine ⟨_, ?_, hts⟩
  cases hrel with
  | none => rfl
  | some hg => rw [hg]

/-! ## Conditions that were read -/

theorem bracesOf_eq_join {ts : List Token} {text : String} (h : BracesOf ts text) :
    text = String.join (ts.map Token.text) := by
  cases h
  rfl

theorem spells_of_conditionOf {ts : List Token} {c : Condition} (h : ConditionOf ts c)
    (hl : ∀ t ∈ ts, IsLexeme t.kind t.text.toList) :
    Spells ('?' :: c.display.toList) fun us => ∃ c', c.recut = c' ∧ ConditionOf us c' := by
  cases h with
  | @mk q n ms ts negated group hq hm hn hg =>
    have hword := (hl n (by simp)).isWord hn
    have hbraces (g : String) (hgroup : g ∈ group) : g.toList.head? = some '\x7b' ∧
        Spells g.toList fun us => ∃ g', Token.recut g = g' ∧ BracesOf us g' := by
      cases hg with
      | absent => cases hgroup
      | present hg =>
        cases hgroup
        obtain ⟨hhead, hspells⟩ := hg.spells fun t ht => hl t (by simp [ht])
        refine ⟨hhead, hspells.recut.mono ?_⟩
        intro us h
        obtain ⟨⟨g', hus⟩, hjoin⟩ := h
        exact ⟨g', by rw [bracesOf_eq_join hus, hjoin], hus⟩
    apply (spells_condition hword hbraces).mono
    intro us h
    obtain ⟨g', hrel, hus⟩ := h
    refine ⟨⟨negated, n.text, g'⟩, ?_, hus⟩
    cases hrel with
    | none => rfl
    | some hsame => exact congrArg (fun g => Condition.mk negated n.text (some g)) hsame

theorem spells_of_conditionsOf {ts : List Token} {cs : List Condition}
    (h : ConditionsOf ts cs) (hl : ∀ t ∈ ts, IsLexeme t.kind t.text.toList) :
    ∀ c ∈ cs,
      Spells ('?' :: c.display.toList) fun us => ∃ c', c.recut = c' ∧ ConditionOf us c' := by
  induction h with
  | nil => simp
  | @cons ts us c cs h _ ih =>
    intro d hd
    rcases List.mem_cons.1 hd with rfl | hd
    · exact spells_of_conditionOf h fun t ht => hl t (List.mem_append_left _ ht)
    · exact ih (fun t ht => hl t (List.mem_append_right _ ht)) d hd

end MobSkills
