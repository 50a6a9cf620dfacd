import MobSkills.Proofs.Catalog.Index

/-!
# Aliases that no longer lead anywhere

A key that is no name leads to the entry that claimed it last, as long as that entry has
not been replaced. Once it has been, the key leads nowhere, even where an earlier entry
still lists it among its aliases: an index has one place for each key, so the earlier
claim is not kept. That is the only way in which a listed alias is unknown.
-/
namespace MobSkills
namespace Catalog

variable {δ : Type}

/-- The last entry of a history that answers to a key. -/
def lastClaim? (given : List (Entry δ)) (key : String) : Option (Entry δ) :=
  (given.filter fun e => e.AnswersTo key).getLast?

/-- The key is no name, and the last entry that claimed it has been replaced. -/
def Released (given : List (Entry δ)) (key : String) : Prop :=
  ¬ HasName given key ∧
    ∃ e, lastClaim? given key = some e ∧ lastNamed? given (Text.foldCase e.name) ≠ some e

/-- Of the keys that the entries list, those that were released are unknown, and no
others. -/
def LosesReleased (c : Catalog δ) (given : List (Entry δ)) : Prop :=
  ∀ e ∈ c.entries, ∀ key, e.AnswersTo key → (c.get? key = none ↔ Released given key)

theorem lastClaim?_append (given : List (Entry δ)) (e : Entry δ) (key : String) :
    lastClaim? (given ++ [e]) key = if e.AnswersTo key then some e else lastClaim? given key := by
  rw [lastClaim?, List.filter_append]
  by_cases h : e.AnswersTo key
  · simp [h]
  · simp [h, lastClaim?]

theorem answersTo_of_lastClaim? {given : List (Entry δ)} {key : String} {e : Entry δ}
    (h : lastClaim? given key = some e) : e.AnswersTo key := by
  have hmem := (List.mem_filter.1 (List.mem_of_getLast? h)).2
  simpa using hmem

theorem exists_lastClaim? {given : List (Entry δ)} {key : String} {e : Entry δ} (he : e ∈ given)
    (hkey : e.AnswersTo key) : ∃ x, lastClaim? given key = some x := by
  have hmem : e ∈ given.filter fun x => x.AnswersTo key := List.mem_filter.2 ⟨he, by simpa⟩
  exact ⟨_, List.getLast?_eq_some_getLast (List.ne_nil_of_mem hmem)⟩

theorem mem_of_mem_current {given : List (Entry δ)} {e : Entry δ} (h : e ∈ current given) :
    e ∈ given := by
  obtain ⟨folded, -, hlast⟩ := List.mem_filterMap.1 h
  exact (List.mem_filter.1 (List.mem_of_getLast? hlast)).1

/-- A lookup after one entry more. -/
theorem get?_insertAll_append (given : List (Entry δ)) (e : Entry δ) (key : String) :
    (empty.insertAll (given ++ [e])).get? key =
      if e.IsNamed key ∨ e.AnswersTo key ∧ ¬ HasName given key then some e
      else ((empty.insertAll given).get? key).filter fun x => ¬ x.IsNamed e.name := by
  obtain ⟨hentries, hindexed⟩ := insertAll_spec given
  have hget := (insert_spec hindexed e).2.2 key
  simp only [hentries, hasName_current] at hget
  rw [insertAll_append]
  exact hget

/-- A key that is no name leads to its last claimant, if that is still a current entry. -/
theorem get?_insertAll_eq_some {given : List (Entry δ)} {key : String}
    (hfree : ¬ HasName given key) (e : Entry δ) :
    (empty.insertAll given).get? key = some e ↔
      lastClaim? given key = some e ∧ lastNamed? given (Text.foldCase e.name) = some e := by
  induction given using List.reverseRecOn with
  | nil => simp [lastClaim?, insertAll, get?, empty]
  | append_singleton given f ih =>
    have hgiven : ¬ HasName given key := by
      rintro ⟨x, hx, hkey⟩
      exact hfree ⟨x, List.mem_append_left _ hx, hkey⟩
    have hname : ¬ f.IsNamed key := fun hkey => hfree ⟨f, by simp, hkey⟩
    rw [get?_insertAll_append, lastClaim?_append, lastNamed?_append]
    by_cases hanswers : f.AnswersTo key
    · rw [if_pos (.inr ⟨hanswers, hgiven⟩), if_pos hanswers]
      constructor
      · intro hf
        obtain rfl := Option.some.inj hf
        exact ⟨rfl, if_pos rfl⟩
      · exact And.left
    · rw [if_neg fun htaken => htaken.elim hname fun hand => hanswers hand.1, if_neg hanswers,
        Option.filter_eq_some_iff, ih hgiven, and_assoc]
      refine and_congr_right fun hclaim => ?_
      by_cases hsame : e.IsNamed f.name
      · rw [if_pos hsame.symm]
        constructor
        · rintro ⟨-, hother⟩
          exact absurd hsame (by simpa using hother)
        · intro hf
          obtain rfl := Option.some.inj hf
          exact absurd (answersTo_of_lastClaim? hclaim) hanswers
      · rw [if_neg fun heq => hsame heq.symm, and_iff_left]
        simpa using hsame

theorem losesReleased_insertAll (given : List (Entry δ)) :
    (empty.insertAll given).LosesReleased given := by
  intro e he key hkey
  rw [(insertAll_spec given).1] at he
  obtain ⟨x, hx⟩ := exists_lastClaim? (mem_of_mem_current he) hkey
  by_cases hname : HasName given key
  · obtain ⟨y, hy, hyname⟩ := hasName_current.2 hname
    have hget := (faithful_insertAll given).get?_name y ((insertAll_spec given).1 ▸ hy) key hyname
    refine iff_of_false ?_ fun hreleased => hreleased.1 hname
    rw [hget]
    exact Option.some_ne_none y
  · rw [Option.eq_none_iff_forall_not_mem]
    constructor
    · intro hnone
      exact ⟨hname, x, hx, fun hlast => hnone x ((get?_insertAll_eq_some hname x).2 ⟨hx, hlast⟩)⟩
    · rintro ⟨-, y, hy, hlast⟩ z hz
      obtain ⟨hclaim, hcurrent⟩ := (get?_insertAll_eq_some hname z).1 hz
      obtain rfl := Option.some.inj (hy.symm.trans hclaim)
      exact hlast hcurrent

end Catalog

namespace Registry

/-- Whatever overlays are merged, the names and aliases that a catalog lists are known,
but for those whose last claimant has been replaced. -/
theorem losesReleased_merges (overlays : List Overlay) :
    let r := overlays.foldl merge empty
    r.mechanics.LosesReleased (overlays.flatMap (·.mechanics)) ∧
      r.targeters.LosesReleased (overlays.flatMap (·.targeters)) ∧
      r.conditions.LosesReleased (overlays.flatMap (·.conditions)) ∧
      r.triggers.LosesReleased (overlays.flatMap (·.triggers)) := by
  rw [merges_eq]
  exact ⟨Catalog.losesReleased_insertAll _, Catalog.losesReleased_insertAll _,
    Catalog.losesReleased_insertAll _, Catalog.losesReleased_insertAll _⟩

/-- Two mechanics share an alias, and then the second is replaced without it. -/
def sharedAlias : List Overlay :=
  [{ mechanics := [⟨"burn", ["x"], "", "", []⟩, ⟨"frost", ["x"], "", "", []⟩] },
    { mechanics := [⟨"frost", [], "", "", []⟩] }]

/-- The first mechanic still lists the alias, which is unknown. -/
theorem sharedAlias_unknown :
    let r := sharedAlias.foldl merge empty
    (∃ e ∈ r.mechanics.entries, "x" ∈ e.aliases) ∧ "x" ∈ r.completions .mechanic ∧
      r.mechanic? "x" = none := by
  decide +kernel

end Registry
end MobSkills
