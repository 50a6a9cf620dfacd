import MobSkills.Proofs.Catalog.Alias

/-!
# Overlays that are merged again

What a catalog answers is settled by three things of its history: the order in which the
names came, the last entry of each name and the last entry that claimed each key. Giving
the end of a history once more changes none of them. In between the replaced entries
release their aliases and claim them again, so the index itself is made anew; nothing is
said here of the order of its keys.
-/
namespace MobSkills
namespace Catalog

variable {δ : Type}

/-- The same entries in the same order, and the same entry under every key. -/
structure Same (c d : Catalog δ) : Prop where
  entries_eq : c.entries = d.entries
  get?_eq : ∀ key, c.get? key = d.get? key

/-! ## What settles a catalog -/

/-- A name leads to the last entry of that name. -/
theorem get?_insertAll_of_hasName {given : List (Entry δ)} {key : String}
    (h : HasName given key) :
    (empty.insertAll given).get? key = lastNamed? given (Text.foldCase key) := by
  obtain ⟨e, he, hname⟩ := h
  have hmem : Text.foldCase key ∈ given.map fun e => Text.foldCase e.name :=
    List.mem_map.2 ⟨e, he, hname⟩
  obtain ⟨x, hx⟩ := exists_lastNamed? hmem
  have hcurrent : x ∈ current given :=
    List.mem_filterMap.2 ⟨_, List.mem_eraseDups.2 hmem, hx⟩
  have hfaithful := faithful_insertAll given
  rw [hx]
  exact hfaithful.get?_name x (hfaithful.entries_eq ▸ hcurrent) key (name_of_lastNamed? hx)

theorem hasName_iff_lastNamed? {given : List (Entry δ)} {key : String} :
    HasName given key ↔ lastNamed? given (Text.foldCase key) ≠ none := by
  constructor
  · intro h
    obtain ⟨e, he, hname⟩ := h
    obtain ⟨x, hx⟩ := exists_lastNamed? (List.mem_map.2 ⟨e, he, hname⟩)
    rw [hx]
    exact Option.some_ne_none x
  · intro h
    obtain ⟨x, hx⟩ := Option.ne_none_iff_exists'.1 h
    exact ⟨x, (List.mem_filter.1 (List.mem_of_getLast? hx)).1, name_of_lastNamed? hx⟩

/-- Histories with the same last definitions and the same last claims lead every key to the
same entry. -/
theorem get?_insertAll_congr {given other : List (Entry δ)}
    (hnamed : ∀ folded, lastNamed? given folded = lastNamed? other folded)
    (hclaim : ∀ key, lastClaim? given key = lastClaim? other key) (key : String) :
    (empty.insertAll given).get? key = (empty.insertAll other).get? key := by
  have hsame : HasName given key ↔ HasName other key := by
    rw [hasName_iff_lastNamed?, hasName_iff_lastNamed?, hnamed]
  by_cases hname : HasName given key
  · rw [get?_insertAll_of_hasName hname, get?_insertAll_of_hasName (hsame.1 hname), hnamed]
  · apply Option.ext
    intro e
    rw [get?_insertAll_eq_some hname, get?_insertAll_eq_some (mt hsame.2 hname), hnamed, hclaim]

/-! ## The end of a history once more -/

theorem getLast?_filter_append_twice (p : Entry δ → Bool) (given s : List (Entry δ)) :
    ((given ++ s ++ s).filter p).getLast? = ((given ++ s).filter p).getLast? := by
  simp only [List.filter_append, List.getLast?_append]
  rw [← Option.or_assoc, Option.or_self]

theorem lastNamed?_append_twice (given s : List (Entry δ)) (folded : String) :
    lastNamed? (given ++ s ++ s) folded = lastNamed? (given ++ s) folded :=
  getLast?_filter_append_twice _ given s

theorem lastClaim?_append_twice (given s : List (Entry δ)) (key : String) :
    lastClaim? (given ++ s ++ s) key = lastClaim? (given ++ s) key :=
  getLast?_filter_append_twice _ given s

/-- Names that came before bring no new place. -/
theorem eraseDups_append_twice (given s : List String) :
    (given ++ s ++ s).eraseDups = (given ++ s).eraseDups := by
  have hnone : s.removeAll (given ++ s) = [] := by
    simp only [List.removeAll, List.filter_eq_nil_iff]
    intro name hname
    simp [hname]
  rw [List.eraseDups_append, hnone, List.eraseDups_nil, List.append_nil]

theorem current_append_twice (given s : List (Entry δ)) :
    current (given ++ s ++ s) = current (given ++ s) := by
  rw [current, current, List.map_append, List.map_append, eraseDups_append_twice]
  exact List.filterMap_congr fun folded _ => lastNamed?_append_twice given s folded

/-- Inserting entries a second time leaves the catalog as it answers. -/
theorem same_insertAll_twice (given s : List (Entry δ)) :
    (((empty.insertAll given).insertAll s).insertAll s).Same
      ((empty.insertAll given).insertAll s) := by
  have honce : (empty.insertAll given).insertAll s = empty.insertAll (given ++ s) :=
    (insertAll_append _ given s).symm
  rw [honce, ← insertAll_append]
  constructor
  · rw [(insertAll_spec _).1, (insertAll_spec _).1, current_append_twice]
  · exact get?_insertAll_congr (lastNamed?_append_twice given s) (lastClaim?_append_twice given s)

end Catalog

namespace Registry

/-- Whatever overlays came before, an overlay that is merged twice gives the entries and the
lookups that it gives when it is merged once. -/
theorem merge_merge_same (overlays : List Overlay) (o : Overlay) :
    let once := (overlays.foldl merge empty).merge o
    let twice := once.merge o
    twice.mechanics.Same once.mechanics ∧ twice.targeters.Same once.targeters ∧
      twice.conditions.Same once.conditions ∧ twice.triggers.Same once.triggers := by
  rw [merges_eq]
  exact ⟨Catalog.same_insertAll_twice _ _, Catalog.same_insertAll_twice _ _,
    Catalog.same_insertAll_twice _ _, Catalog.same_insertAll_twice _ _⟩

end Registry
end MobSkills
