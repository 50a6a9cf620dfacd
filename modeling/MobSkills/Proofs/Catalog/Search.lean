import Mathlib.Data.List.Forall2
import Mathlib.Data.List.TakeWhile
import Mathlib.Data.List.Perm.Subperm
import MobSkills.Catalog.Search
import MobSkills.Catalog.Standard

/-!
# What a search finds

The points of a hit are never none where the query occurs, so a search answers the entries
that mention its query and no others. They are sorted by points alone, and the sort is
stable: entries with the same points stay in the order of the catalogs. A text that contains
a longer query contains every part of it, so a part of a query finds all that the query
finds, for at least as many points. Entries are compared by what a search reads of them;
whether two of them share a name does not matter.
-/
namespace MobSkills

/-! ## Texts that contain a query -/

namespace Text

/-- The query as it is looked for: without the blanks around it, in lower case. -/
def sought (query : String) : String :=
  foldCase (String.ofList (trim query.toList))

/-- The query stands somewhere in the text, apart from blanks around it and in any case. -/
def Contains (text query : String) : Prop :=
  (sought query).toList <:+: (foldCase text).toList

instance (text query : String) : Decidable (Contains text query) :=
  decidable_of_iff _ matchesFolded_iff

/-- Where a query occurs, so does every part of it. -/
theorem matchesFolded_mono {part query text : String} (h : part.toList <:+: query.toList)
    (ht : matchesFolded query text = true) : matchesFolded part text = true :=
  matchesFolded_iff.2 (h.trans (matchesFolded_iff.1 ht))

theorem trim_eq_nil_iff {s : List Char} : trim s = [] ↔ ∀ c ∈ s, isBlank c = true := by
  rw [trim, trimRight, List.reverse_eq_nil_iff, List.dropWhile_eq_nil_iff]
  simp only [List.mem_reverse]
  constructor
  · intro h
    -- What is left of the text begins with no blank, so nothing is left of it.
    have hnil : trimLeft s = [] := by
      cases hs : trimLeft s with
      | nil => rfl
      | cons c r =>
        have hfirst := List.head?_dropWhile_not isBlank s
        rw [← trimLeft, hs] at hfirst
        have hblank := h c (hs ▸ List.mem_cons_self ..)
        rw [hfirst] at hblank
        cases hblank
    exact List.dropWhile_eq_nil_iff.1 hnil
  · intro h c hc
    exact h c ((List.dropWhile_sublist isBlank).subset hc)

theorem isEmpty_sought (query : String) : (sought query).isEmpty = allBlank query := by
  rw [Bool.eq_iff_iff, String.isEmpty_iff, ← String.toList_inj, sought, foldCase, allBlank,
    List.all_eq_true, ← trim_eq_nil_iff]
  simp

end Text

/-! ## Entries and their points -/

/-- Two hits for one entry: they differ in their points alone. -/
def SearchHit.SameEntry (a b : SearchHit) : Prop :=
  a.kind = b.kind ∧ a.name = b.name ∧ a.category = b.category ∧ a.description = b.description

namespace Entry

variable {δ : Type} {e : Entry δ} {part query : String}

/-- What a search reads of an entry. -/
def outline (e : Entry δ) : Entry Unit :=
  ⟨e.name, e.aliases, e.category, e.description, ()⟩

/-- The query stands in the name, in an alias, in the description or in the category. -/
def Mentions (e : Entry δ) (query : String) : Prop :=
  Text.Contains e.name query ∨ (∃ a ∈ e.aliases, Text.Contains a query) ∨
    Text.Contains e.description query ∨ Text.Contains e.category query

instance (e : Entry δ) (query : String) : Decidable (e.Mentions query) :=
  inferInstanceAs (Decidable (_ ∨ _ ∨ _ ∨ _))

theorem score_hit (kind : EntryKind) (e : Entry δ) (query : String) :
    (e.hit kind query).score = e.relevance query := by
  rw [hit]

/-- An entry has points exactly where it mentions the query. -/
theorem relevance_pos_iff : 0 < e.relevance (Text.sought query) ↔ e.Mentions query := by
  have hpoints (c : Prop) [Decidable c] {n : Nat} (hn : 0 < n) : 0 < (if c then n else 0) ↔ c := by
    by_cases hc : c <;> simp [hc, hn]
  simp (disch := decide) only [relevance, Nat.add_pos_iff_pos_or_pos, hpoints, List.any_eq_true,
    Text.matchesFolded_iff, or_assoc]
  rfl

/-- A part of a query scores no fewer points than the query. -/
theorem relevance_mono (h : part.toList <:+: query.toList) :
    e.relevance query ≤ e.relevance part := by
  have hpoints {c d : Bool} (hcd : c = true → d = true) (n : Nat) :
      (if c then n else 0) ≤ if d then n else 0 := by
    cases c <;> cases d <;> simp_all
  have hany : e.aliases.any (Text.matchesFolded query) = true →
      e.aliases.any (Text.matchesFolded part) = true := by
    simp only [List.any_eq_true]
    rintro ⟨a, ha, hmatch⟩
    exact ⟨a, ha, Text.matchesFolded_mono h hmatch⟩
  exact Nat.add_le_add (Nat.add_le_add (Nat.add_le_add
    (hpoints (Text.matchesFolded_mono h) 10) (hpoints hany 8))
    (hpoints (Text.matchesFolded_mono h) 5)) (hpoints (Text.matchesFolded_mono h) 3)

theorem hit_mono (e : Entry δ) (kind : EntryKind) (h : part.toList <:+: query.toList) :
    (e.hit kind query).SameEntry (e.hit kind part) ∧
      (e.hit kind query).score ≤ (e.hit kind part).score := by
  rw [score_hit, score_hit]
  exact ⟨⟨rfl, rfl, rfl, rfl⟩, relevance_mono h⟩

end Entry

/-- Each hit of the first search is a hit of the second one for the same entry, with no fewer
points, and different hits are different hits there. -/
def Narrows (hits wider : List SearchHit) : Prop :=
  ∃ kept, List.Subperm kept wider ∧
    List.Forall₂ (fun a b => a.SameEntry b ∧ a.score ≤ b.score) hits kept

/-- The hits are one for each of the given ones, the best first, and those with the same
points as they were given. -/
structure Ranks (given hits : List SearchHit) : Prop where
  perm : hits.Perm given
  sorted : hits.Pairwise fun a b => b.score ≤ a.score
  stable : ∀ score, hits.filter (·.score = score) = given.filter (·.score = score)

theorem ranks_mergeSort (given : List SearchHit) :
    Ranks given (given.mergeSort fun a b => b.score ≤ a.score) := by
  have htrans (a b c : SearchHit) (hab : decide (b.score ≤ a.score) = true)
      (hbc : decide (c.score ≤ b.score) = true) : decide (c.score ≤ a.score) = true := by
    simp only [decide_eq_true_eq] at hab hbc ⊢
    omega
  have htotal (a b : SearchHit) :
      (decide (b.score ≤ a.score) || decide (a.score ≤ b.score)) = true := by
    simp only [Bool.or_eq_true, decide_eq_true_eq]
    omega
  have hperm := given.mergeSort_perm fun a b => b.score ≤ a.score
  refine ⟨hperm, ?_, ?_⟩
  · simpa using List.pairwise_mergeSort htrans htotal given
  · intro score
    -- The hits with these points are in order as they were given, so they keep that order.
    have hequal : (given.filter (·.score = score)).Pairwise fun a b =>
        decide (b.score ≤ a.score) = true := by
      refine List.pairwise_of_forall_mem_list fun a ha b hb => ?_
      have hscore := of_decide_eq_true (List.mem_filter.1 ha).2
      have hscore' := of_decide_eq_true (List.mem_filter.1 hb).2
      exact decide_eq_true (by omega)
    have hkept := (List.sublist_mergeSort htrans htotal hequal List.filter_sublist).filter
      (·.score = score)
    rw [List.filter_filter] at hkept
    simp only [Bool.and_self] at hkept
    exact (hkept.eq_of_length (hperm.filter _).length_eq.symm).symm

/-- A ranking of fewer entries with fewer points narrows one of more. -/
theorem Narrows.of_ranks {α : Type} {narrow wide : α → SearchHit} {few many : List α}
    {hits wider : List SearchHit} (hfew : Ranks (few.map narrow) hits)
    (hmany : Ranks (many.map wide) wider) (hsub : few.Sublist many)
    (hle : ∀ a ∈ few, (narrow a).SameEntry (wide a) ∧ (narrow a).score ≤ (wide a).score) :
    Narrows hits wider := by
  have hpairs : List.Forall₂ (fun a b => a.SameEntry b ∧ a.score ≤ b.score)
      (few.map narrow) (few.map wide) := by
    rw [List.forall₂_map_left_iff, List.forall₂_map_right_iff, List.forall₂_same]
    exact hle
  obtain ⟨kept, hkept, hperm⟩ := List.perm_comp_forall₂ hfew.perm hpairs
  refine ⟨kept, hperm.subperm.trans ?_, hkept⟩
  exact (hsub.map wide).subperm.trans hmany.perm.symm.subperm

namespace Registry

/-- All entries with their kinds: mechanics, targeters, conditions and triggers, each as its
catalog lists them. -/
def outlines (r : Registry) : List (EntryKind × Entry Unit) :=
  r.mechanics.entries.map (fun e => (.mechanic, e.outline)) ++
    r.targeters.entries.map (fun e => (.targeter, e.outline)) ++
    r.conditions.entries.map (fun e => (.condition, e.outline)) ++
    r.triggers.entries.map (fun e => (.trigger, e.outline))

/-- The hits for the entries that mention the query, in the order of the catalogs. -/
def mentions (r : Registry) (query : String) : List SearchHit :=
  (r.outlines.filter (·.2.Mentions query)).map fun (kind, e) => e.hit kind (Text.sought query)

theorem scored_eq_map (r : Registry) (query : String) :
    r.scored query = r.outlines.map fun (kind, e) => e.hit kind query := by
  simp only [scored, outlines, List.map_append, List.map_map]
  rfl

theorem filter_scored (r : Registry) (query : String) :
    (r.scored (Text.sought query)).filter (0 < ·.score) = r.mentions query := by
  rw [scored_eq_map, List.filter_map, mentions]
  refine congrArg (List.map _) (List.filter_congr ?_)
  rintro ⟨kind, e⟩ -
  rw [Function.comp_apply, decide_eq_decide, Entry.score_hit]
  exact Entry.relevance_pos_iff

theorem search_eq (r : Registry) (query : String) :
    r.search query = if Text.allBlank query then [] else
      (r.mentions query).mergeSort fun a b => b.score ≤ a.score := by
  rw [← Text.isEmpty_sought, ← filter_scored]
  rfl

end Registry
end MobSkills
