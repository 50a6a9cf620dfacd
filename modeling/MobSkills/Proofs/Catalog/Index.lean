import Mathlib.Data.List.Induction
import Mathlib.Data.List.Nodup
import MobSkills.Catalog.Registry
import MobSkills.Proofs.Text.Keyed

/-!
# The index of a catalog

What holds of the index after any history of entries. One entry at a time, it is said
what a catalog then lists and where each key then leads: names lead to their entries
whatever aliases are declared, and an alias leads to the entry that claimed it last.
No property of the standard catalog is used; a history may repeat names and share
aliases in any order.
-/
namespace MobSkills

variable {δ : Type}

/-- The key is the name of the entry, in any case. -/
def Entry.IsNamed (e : Entry δ) (key : String) : Prop :=
  Text.foldCase e.name = Text.foldCase key

/-- The key is the name or an alias of the entry, in any case. -/
def Entry.AnswersTo (e : Entry δ) (key : String) : Prop :=
  e.IsNamed key ∨ ∃ a ∈ e.aliases, Text.foldCase a = Text.foldCase key

instance (e : Entry δ) (key : String) : Decidable (e.IsNamed key) :=
  inferInstanceAs (Decidable (_ = _))

instance (e : Entry δ) (key : String) : Decidable (e.AnswersTo key) :=
  inferInstanceAs (Decidable (_ ∨ _))

namespace Catalog

/-- Whether an entry has the key as its name. -/
def HasName (entries : List (Entry δ)) (key : String) : Prop :=
  ∃ x ∈ entries, x.IsNamed key

instance (entries : List (Entry δ)) (key : String) : Decidable (HasName entries key) :=
  inferInstanceAs (Decidable (∃ x ∈ entries, x.IsNamed key))

/-- How the index stands to the entries: each key leads to an entry that answers to it,
and each name leads to its own entry. -/
structure Indexed (entries : List (Entry δ)) (index : List (String × Nat)) : Prop where
  keys_nodup : (index.map Prod.fst).Nodup
  claimed : ∀ key i, index.lookup key = some i → ∃ e, entries[i]? = some e ∧ e.AnswersTo key
  named : ∀ i e, entries[i]? = some e → index.lookup (Text.foldCase e.name) = some i

end Catalog

/-! ## Lookup in an index -/

section
variable {index : List (String × Nat)} {key k : String} {i : Nat}

theorem lookup_cons_of_ne (h : k ≠ key) :
    List.lookup k ((key, i) :: index) = index.lookup k := by
  rw [List.lookup_cons, beq_false_of_ne h]

theorem lookup_eq_none_of_not_mem (h : key ∉ index.map Prod.fst) : index.lookup key = none := by
  rw [List.lookup_eq_none_iff]
  intro p hp
  rw [bne_iff_ne]
  exact fun heq => h (heq ▸ List.mem_map_of_mem hp)

/-- A key that is set leads to its new position, and every other key where it did. -/
theorem lookup_setKey :
    (Catalog.setKey index key i).lookup k = if k = key then some i else index.lookup k := by
  rw [Catalog.setKey]
  by_cases hk : k = key
  · rw [if_pos hk, hk, List.lookup_cons_self]
  · rw [if_neg hk, lookup_cons_of_ne hk]
    induction index with
    | nil => rfl
    | cons first rest ih =>
      obtain ⟨a, j⟩ := first
      by_cases ha : a = key
      · rw [List.filter_cons_of_neg (by simpa using ha), ih, lookup_cons_of_ne (ha ▸ hk)]
      · rw [List.filter_cons_of_pos (by simpa using ha), List.lookup_cons, List.lookup_cons, ih]

theorem setKey_nodup (h : (index.map Prod.fst).Nodup) :
    ((Catalog.setKey index key i).map Prod.fst).Nodup := by
  rw [Catalog.setKey, List.map_cons, List.nodup_cons]
  constructor
  · simp
  · exact h.sublist (List.filter_sublist.map Prod.fst)

/-- Forgetting a position forgets the keys that lead to it. -/
theorem lookup_forget (h : (index.map Prod.fst).Nodup) :
    (index.filter (·.2 != i)).lookup k = (index.lookup k).filter (· != i) := by
  induction index with
  | nil => rfl
  | cons first rest ih =>
    obtain ⟨a, j⟩ := first
    obtain ⟨hfresh, hrest⟩ := List.nodup_cons.1 h
    by_cases hj : j = i
    · rw [List.filter_cons_of_neg (by simpa using hj), ih hrest]
      by_cases hk : k = a
      · rw [hk, lookup_eq_none_of_not_mem hfresh, List.lookup_cons_self, Option.filter_some_neg]
        · rfl
        · simpa using hj
      · rw [lookup_cons_of_ne hk]
    · rw [List.filter_cons_of_pos (by simpa using hj)]
      by_cases hk : k = a
      · rw [hk, List.lookup_cons_self, List.lookup_cons_self, Option.filter_some_pos]
        simpa using hj
      · rw [lookup_cons_of_ne hk, lookup_cons_of_ne hk, ih hrest]

end

/-! ## One entry more -/

namespace Catalog

section
variable {entries : List (Entry δ)} {index : List (String × Nat)} {e : Entry δ} {i : Nat}

theorem Indexed.eq_of_isNamed (h : Indexed entries index) {j : Nat} {x y : Entry δ}
    (hx : entries[i]? = some x) (hy : entries[j]? = some y) (hname : x.IsNamed y.name) : i = j := by
  have hi := h.named i x hx
  rw [show Text.foldCase x.name = Text.foldCase y.name from hname, h.named j y hy] at hi
  exact (Option.some.inj hi).symm

theorem isNameKey_iff (h : Indexed entries index) {key : String} (hkey : Text.foldCase key = key) :
    isNameKey entries index key = true ↔ HasName entries key := by
  rw [isNameKey, Option.any_eq_true]
  simp only [Option.bind_eq_some_iff, Text.eqIgnoreCase_iff]
  constructor
  · rintro ⟨x, ⟨j, -, hx⟩, hname⟩
    exact ⟨x, List.mem_of_getElem? hx, hname⟩
  · rintro ⟨x, hx, hname⟩
    obtain ⟨j, hj⟩ := List.getElem?_of_mem hx
    refine ⟨x, ⟨j, ?_, hj⟩, hname⟩
    rw [← hkey, ← hname]
    exact h.named j x hj

theorem claimed_setKey
    (hc : ∀ k j, index.lookup k = some j → ∃ x, entries[j]? = some x ∧ x.AnswersTo k)
    (he : entries[i]? = some e) {key : String} (hkey : e.AnswersTo key) (k : String) (j : Nat)
    (hj : (setKey index key i).lookup k = some j) : ∃ x, entries[j]? = some x ∧ x.AnswersTo k := by
  rw [lookup_setKey] at hj
  split at hj
  · rename_i hsame
    obtain rfl := Option.some.inj hj
    exact ⟨e, he, hsame ▸ hkey⟩
  · exact hc k j hj

/-- An alias that no entry has as its name leads to the position it is added for; the
index stands to the entries as before. -/
theorem addAlias_spec (h : Indexed entries index) (he : entries[i]? = some e) {a : String}
    (ha : a ∈ e.aliases) :
    Indexed entries (addAlias entries i index a) ∧ ∀ key,
      (addAlias entries i index a).lookup (Text.foldCase key) =
        if Text.foldCase a = Text.foldCase key ∧ ¬ HasName entries key then some i
        else index.lookup (Text.foldCase key) := by
  have hiff := isNameKey_iff h (Text.foldCase_foldCase a)
  simp only [HasName, Entry.IsNamed, Text.foldCase_foldCase] at hiff
  by_cases hname : isNameKey entries index (Text.foldCase a) = true
  · rw [addAlias, if_pos hname]
    refine ⟨h, fun key => ?_⟩
    obtain ⟨x, hx, hxa⟩ := hiff.1 hname
    rw [if_neg fun hand => hand.2 ⟨x, hx, hxa.trans hand.1⟩]
  · rw [addAlias, if_neg hname]
    have hfree : ¬ HasName entries a := fun hx => hname (hiff.2 hx)
    constructor
    · constructor
      case keys_nodup => exact setKey_nodup h.keys_nodup
      case claimed =>
        exact claimed_setKey h.claimed he (.inr ⟨a, ha, (Text.foldCase_foldCase a).symm⟩)
      case named =>
        intro j x hx
        rw [lookup_setKey, if_neg]
        · exact h.named j x hx
        · exact fun hkey => hfree ⟨x, List.mem_of_getElem? hx, hkey⟩
    · intro key
      rw [lookup_setKey]
      by_cases hkey : Text.foldCase a = Text.foldCase key
      · rw [if_pos hkey.symm, if_pos]
        refine ⟨hkey, ?_⟩
        rintro ⟨x, hx, hxkey⟩
        exact hfree ⟨x, hx, hxkey.trans hkey.symm⟩
      · rw [if_neg (Ne.symm hkey), if_neg fun hand => hkey hand.1]

theorem addAliases_spec (h : Indexed entries index) (he : entries[i]? = some e)
    {aliases : List String} (ha : ∀ a ∈ aliases, a ∈ e.aliases) :
    Indexed entries (aliases.foldl (addAlias entries i) index) ∧ ∀ key,
      (aliases.foldl (addAlias entries i) index).lookup (Text.foldCase key) =
        if (∃ a ∈ aliases, Text.foldCase a = Text.foldCase key) ∧ ¬ HasName entries key
        then some i else index.lookup (Text.foldCase key) := by
  induction aliases generalizing index with
  | nil => exact ⟨h, fun key => (if_neg (by simp)).symm⟩
  | cons a aliases ih =>
    obtain ⟨hfirst, hadded⟩ := addAlias_spec h he (ha a (List.mem_cons_self ..))
    obtain ⟨hindexed, hlookup⟩ := ih hfirst fun b hb => ha b (List.mem_cons_of_mem a hb)
    refine ⟨hindexed, fun key => ?_⟩
    rw [List.foldl_cons, hlookup key, hadded key]
    by_cases hnamed : HasName entries key
    · simp [hnamed]
    · by_cases hkey : Text.foldCase a = Text.foldCase key
      · simp [hnamed, hkey]
      · simp [hnamed, hkey]

/-- An entry in its place is reached by its name and by those of its aliases that are no
names. The index before leads elsewhere, and the other names with it. -/
theorem register_spec (he : entries[i]? = some e) (hn : (index.map Prod.fst).Nodup)
    (hc : ∀ key j, index.lookup key = some j → ∃ x, entries[j]? = some x ∧ x.AnswersTo key)
    (ho : ∀ j x, j ≠ i → entries[j]? = some x →
      index.lookup (Text.foldCase x.name) = some j ∧ ¬ x.IsNamed e.name) :
    Indexed entries (register entries index i e).index ∧ ∀ key,
      (register entries index i e).get? key =
        if e.IsNamed key ∨ e.AnswersTo key ∧ ¬ HasName entries key then some e
        else (index.lookup (Text.foldCase key)).bind (entries[·]?) := by
  have hindexed : Indexed entries (setKey index (Text.foldCase e.name) i) := by
    constructor
    case keys_nodup => exact setKey_nodup hn
    case claimed => exact claimed_setKey hc he (.inl (Text.foldCase_foldCase e.name).symm)
    case named =>
      intro j x hx
      rw [lookup_setKey]
      by_cases hj : j = i
      · obtain rfl := hj
        obtain rfl := Option.some.inj (he.symm.trans hx)
        rw [if_pos rfl]
      · obtain ⟨hlookup, hne⟩ := ho j x hj hx
        rw [if_neg (show ¬ Text.foldCase x.name = Text.foldCase e.name from hne), hlookup]
  obtain ⟨hdone, hlookup⟩ := addAliases_spec hindexed he fun a ha => ha
  refine ⟨hdone, fun key => ?_⟩
  rw [get?, register, hlookup key, lookup_setKey]
  by_cases hname : e.IsNamed key
  · have hmem : HasName entries key := ⟨e, List.mem_of_getElem? he, hname⟩
    rw [if_neg fun hand => hand.2 hmem, if_pos hname.symm, if_pos (.inl hname)]
    exact he
  · rw [if_neg (Ne.symm hname)]
    by_cases halias : (∃ a ∈ e.aliases, Text.foldCase a = Text.foldCase key) ∧
        ¬ HasName entries key
    · rw [if_pos halias, if_pos (.inr ⟨.inr halias.1, halias.2⟩)]
      exact he
    · rw [if_neg halias, if_neg]
      rintro (hkey | ⟨hkey | hkey, hfree⟩)
      · exact hname hkey
      · exact hname hkey
      · exact halias ⟨hkey, hfree⟩

end

/-- The entries with one more: in the place of the entry of its name, or at the end. -/
def withEntry (entries : List (Entry δ)) (e : Entry δ) : List (Entry δ) :=
  if HasName entries e.name then entries.map fun x => if x.IsNamed e.name then e else x
  else entries ++ [e]

theorem hasName_withEntry {entries : List (Entry δ)} {e : Entry δ} {key : String} :
    HasName (withEntry entries e) key ↔ e.IsNamed key ∨ HasName entries key := by
  unfold withEntry
  split
  · rename_i hname
    constructor
    · rintro ⟨x, hx, hkey⟩
      obtain ⟨y, hy, rfl⟩ := List.mem_map.1 hx
      split at hkey
      · exact .inl hkey
      · exact .inr ⟨y, hy, hkey⟩
    · rintro (hkey | ⟨x, hx, hkey⟩)
      · obtain ⟨x, hx, hname⟩ := hname
        exact ⟨e, List.mem_map.2 ⟨x, hx, if_pos hname⟩, hkey⟩
      · by_cases hsame : x.IsNamed e.name
        · exact ⟨e, List.mem_map.2 ⟨x, hx, if_pos hsame⟩, hsame.symm.trans hkey⟩
        · exact ⟨x, List.mem_map.2 ⟨x, hx, if_neg hsame⟩, hkey⟩
  · simp [HasName, or_comm]

section
variable {c : Catalog δ}

theorem position?_eq_some_iff (h : Indexed c.entries c.index) {i : Nat} {name : String} :
    c.position? name = some i ↔ ∃ x, c.entries[i]? = some x ∧ x.IsNamed name := by
  rw [position?, Option.filter_eq_some_iff, Option.any_eq_true]
  simp only [Text.eqIgnoreCase_iff]
  constructor
  · rintro ⟨-, x, hx, hname⟩
    exact ⟨x, hx, hname⟩
  · rintro ⟨x, hx, hname⟩
    refine ⟨?_, x, hx, hname⟩
    rw [← hname]
    exact h.named i x hx

theorem not_hasName_of_position? (h : Indexed c.entries c.index) {name : String}
    (hnone : c.position? name = none) : ¬ HasName c.entries name := by
  rintro ⟨x, hx, hname⟩
  obtain ⟨i, hi⟩ := List.getElem?_of_mem hx
  rw [(position?_eq_some_iff h).2 ⟨x, hi, hname⟩] at hnone
  cases hnone

/-- Names lead to one place each, so replacing at it replaces wherever the name is. -/
theorem set_eq_map (h : Indexed c.entries c.index) {e x : Entry δ} {i : Nat}
    (hx : c.entries[i]? = some x) (hname : x.IsNamed e.name) :
    c.entries.set i e = c.entries.map fun x => if x.IsNamed e.name then e else x := by
  apply List.ext_getElem?
  intro j
  rw [List.getElem?_map, List.getElem?_set]
  cases hj : c.entries[j]? with
  | none =>
    have hlen := List.getElem?_eq_none_iff.1 hj
    by_cases hij : i = j
    · rw [hij, hj] at hx
      cases hx
    · simp [hij]
  | some y =>
    by_cases hij : i = j
    · obtain rfl := hij
      obtain rfl := Option.some.inj (hx.symm.trans hj)
      simp [hname, (List.getElem?_eq_some_iff.1 hx).1]
    · have hy : ¬ y.IsNamed e.name := fun hy => hij (h.eq_of_isNamed hx hj (hname.trans hy.symm))
      simp [hij, hy]

/-- Registering an entry at the place of its name, when the keys to that place have been
forgotten. -/
theorem register_in_place (h : Indexed c.entries c.index) {entries : List (Entry δ)}
    {index : List (String × Nat)} {i : Nat} {e : Entry δ}
    (hentries : entries = withEntry c.entries e) (he : entries[i]? = some e)
    (hothers : ∀ j, j ≠ i → entries[j]? = c.entries[j]?)
    (hplace : ∀ j x, c.entries[j]? = some x → (x.IsNamed e.name ↔ j = i))
    (hn : (index.map Prod.fst).Nodup)
    (hforgotten : ∀ key, index.lookup key = (c.index.lookup key).filter (· != i)) :
    Indexed entries (register entries index i e).index ∧ ∀ key,
      (register entries index i e).get? key =
        if e.IsNamed key ∨ e.AnswersTo key ∧ ¬ HasName c.entries key then some e
        else (c.get? key).filter fun x => ¬ x.IsNamed e.name := by
  have hc : ∀ key j, index.lookup key = some j →
      ∃ x, entries[j]? = some x ∧ x.AnswersTo key := by
    intro key j hj
    rw [hforgotten, Option.filter_eq_some_iff, bne_iff_ne] at hj
    rw [hothers j hj.2]
    exact h.claimed key j hj.1
  have ho : ∀ j x, j ≠ i → entries[j]? = some x →
      index.lookup (Text.foldCase x.name) = some j ∧ ¬ x.IsNamed e.name := by
    intro j x hj hx
    rw [hothers j hj] at hx
    refine ⟨?_, fun hname => hj ((hplace j x hx).1 hname)⟩
    rw [hforgotten, h.named j x hx, Option.filter_some_pos (by simpa using hj)]
  obtain ⟨hindexed, hget⟩ := register_spec he hn hc ho
  refine ⟨hindexed, fun key => ?_⟩
  have htaken : (e.IsNamed key ∨ e.AnswersTo key ∧ ¬ HasName entries key) ↔
      (e.IsNamed key ∨ e.AnswersTo key ∧ ¬ HasName c.entries key) := by
    rw [hentries, hasName_withEntry, not_or]
    tauto
  simp only [hget key, htaken]
  congr 1
  rw [get?, hforgotten]
  cases hj : c.index.lookup (Text.foldCase key) with
  | none => rfl
  | some j =>
    obtain ⟨x, hx, -⟩ := h.claimed _ j hj
    by_cases hij : j = i
    · have hname := (hplace j x hx).2 hij
      rw [Option.filter_some_neg (by simpa using hij), Option.bind_none, Option.bind_some, hx,
        Option.filter_some_neg (by simpa using hname)]
    · have hname : ¬ x.IsNamed e.name := fun hname => hij ((hplace j x hx).1 hname)
      rw [Option.filter_some_pos (by simpa using hij), Option.bind_some, Option.bind_some,
        hothers j hij, hx, Option.filter_some_pos (by simpa using hname)]

theorem getElem?_append_of_ne (entries : List (Entry δ)) (e : Entry δ) {j : Nat}
    (hj : j ≠ entries.length) : (entries ++ [e])[j]? = entries[j]? := by
  rcases Nat.lt_or_gt_of_ne hj with hlt | hgt
  · exact List.getElem?_append_left hlt
  · have hlen : (entries ++ [e]).length ≤ j := by
      rw [List.length_append, List.length_singleton]
      omega
    rw [List.getElem?_eq_none hlen, List.getElem?_eq_none (Nat.le_of_lt hgt)]

/-- No key leads to the place after the last entry. -/
theorem lookup_filter_length (h : Indexed c.entries c.index) (key : String) :
    (c.index.lookup key).filter (· != c.entries.length) = c.index.lookup key := by
  cases hj : c.index.lookup key with
  | none => rfl
  | some j =>
    obtain ⟨x, hx, -⟩ := h.claimed key j hj
    have hlt := (List.getElem?_eq_some_iff.1 hx).1
    rw [Option.filter_some_pos]
    simpa using Nat.ne_of_lt hlt

/-- What inserting an entry does: to the entries, to the index, and to every lookup. -/
theorem insert_spec (h : Indexed c.entries c.index) (e : Entry δ) :
    (c.insert e).entries = withEntry c.entries e ∧
      Indexed (c.insert e).entries (c.insert e).index ∧ ∀ key, (c.insert e).get? key =
        if e.IsNamed key ∨ e.AnswersTo key ∧ ¬ HasName c.entries key then some e
        else (c.get? key).filter fun x => ¬ x.IsNamed e.name := by
  cases hpos : c.position? e.name with
  | none =>
    have hfree := not_hasName_of_position? h hpos
    have hentries : c.entries ++ [e] = withEntry c.entries e := (if_neg hfree).symm
    have he : (c.entries ++ [e])[c.entries.length]? = some e := List.getElem?_concat_length
    rw [insert, hpos]
    refine ⟨hentries, register_in_place h hentries he ?_ ?_ h.keys_nodup ?_⟩
    · exact fun j hj => getElem?_append_of_ne c.entries e hj
    · intro j x hx
      have hlt := (List.getElem?_eq_some_iff.1 hx).1
      exact iff_of_false (fun hname => hfree ⟨x, List.mem_of_getElem? hx, hname⟩) (by omega)
    · exact fun key => (lookup_filter_length h key).symm
  | some i =>
    obtain ⟨x, hx, hname⟩ := (position?_eq_some_iff h).1 hpos
    have hentries : c.entries.set i e = withEntry c.entries e := by
      rw [set_eq_map h hx hname, withEntry, if_pos ⟨x, List.mem_of_getElem? hx, hname⟩]
    have he : (c.entries.set i e)[i]? = some e :=
      List.getElem?_set_self (List.getElem?_eq_some_iff.1 hx).1
    rw [insert, hpos]
    refine ⟨hentries, register_in_place h hentries he ?_ ?_ ?_ ?_⟩
    · intro j hj
      exact List.getElem?_set_ne (Ne.symm hj)
    · intro j y hy
      constructor
      · intro hyname
        exact h.eq_of_isNamed hy hx (hyname.trans hname.symm)
      · rintro rfl
        obtain rfl := Option.some.inj (hx.symm.trans hy)
        exact hname
    · exact h.keys_nodup.sublist (List.filter_sublist.map Prod.fst)
    · exact fun key => lookup_forget h.keys_nodup

end

/-! ## Histories -/

/-- The last entry of a name, which is given folded. -/
def lastNamed? (given : List (Entry δ)) (folded : String) : Option (Entry δ) :=
  (given.filter fun e => Text.foldCase e.name == folded).getLast?

/-- The last definition under each name, in the order in which the names first came. -/
def current (given : List (Entry δ)) : List (Entry δ) :=
  (given.map fun e => Text.foldCase e.name).eraseDups.filterMap (lastNamed? given)

theorem lastNamed?_append (given : List (Entry δ)) (e : Entry δ) (folded : String) :
    lastNamed? (given ++ [e]) folded =
      if Text.foldCase e.name = folded then some e else lastNamed? given folded := by
  rw [lastNamed?, List.filter_append]
  by_cases h : Text.foldCase e.name = folded
  · simp [h]
  · simp [h, lastNamed?]

theorem name_of_lastNamed? {given : List (Entry δ)} {folded : String} {e : Entry δ}
    (h : lastNamed? given folded = some e) : Text.foldCase e.name = folded := by
  have hmem := (List.mem_filter.1 (List.mem_of_getLast? h)).2
  simpa using hmem

theorem exists_lastNamed? {given : List (Entry δ)} {folded : String}
    (h : folded ∈ given.map fun e => Text.foldCase e.name) :
    ∃ x, lastNamed? given folded = some x := by
  obtain ⟨e, he, rfl⟩ := List.mem_map.1 h
  have hmem : e ∈ given.filter fun x => Text.foldCase x.name == Text.foldCase e.name :=
    List.mem_filter.2 ⟨he, beq_self_eq_true _⟩
  exact ⟨_, List.getLast?_eq_some_getLast (List.ne_nil_of_mem hmem)⟩

theorem hasName_current {given : List (Entry δ)} {key : String} :
    HasName (current given) key ↔ HasName given key := by
  constructor
  · rintro ⟨x, hx, hkey⟩
    obtain ⟨folded, -, hlast⟩ := List.mem_filterMap.1 hx
    exact ⟨x, (List.mem_filter.1 (List.mem_of_getLast? hlast)).1, hkey⟩
  · rintro ⟨x, hx, hkey⟩
    have hname : Text.foldCase x.name ∈ given.map fun e => Text.foldCase e.name :=
      List.mem_map.2 ⟨x, hx, rfl⟩
    obtain ⟨y, hy⟩ := exists_lastNamed? hname
    refine ⟨y, List.mem_filterMap.2 ⟨_, List.mem_eraseDups.2 hname, hy⟩, ?_⟩
    exact (name_of_lastNamed? hy).trans hkey

theorem current_append (given : List (Entry δ)) (e : Entry δ) :
    current (given ++ [e]) = withEntry (current given) e := by
  have hiff : HasName (current given) e.name ↔
      Text.foldCase e.name ∈ given.map fun e => Text.foldCase e.name := by
    rw [hasName_current, List.mem_map]
    rfl
  rw [current, List.map_append, List.eraseDups_append, List.filterMap_append, List.map_singleton,
    withEntry]
  by_cases hold : Text.foldCase e.name ∈ given.map fun e => Text.foldCase e.name
  · have hnone :
        [Text.foldCase e.name].removeAll (given.map fun e => Text.foldCase e.name) = [] := by
      simpa [List.removeAll] using hold
    rw [hnone, if_pos (hiff.2 hold), current, List.map_filterMap]
    simp only [List.eraseDups_nil, List.filterMap_nil, List.append_nil]
    apply List.filterMap_congr
    intro folded hfolded
    obtain ⟨x, hx⟩ := exists_lastNamed? (List.mem_eraseDups.1 hfolded)
    have hname := name_of_lastNamed? hx
    rw [lastNamed?_append, hx, Option.map_some]
    by_cases hsame : Text.foldCase e.name = folded
    · rw [if_pos hsame, if_pos (show x.IsNamed e.name from hname.trans hsame.symm)]
    · rw [if_neg hsame, if_neg fun hx : x.IsNamed e.name => hsame (hx.symm.trans hname)]
  · have hself : [Text.foldCase e.name].removeAll (given.map fun e => Text.foldCase e.name) =
        [Text.foldCase e.name] := by
      simpa [List.removeAll] using hold
    rw [hself, if_neg fun hname => hold (hiff.1 hname), current]
    congr 1
    · apply List.filterMap_congr
      intro folded hfolded
      rw [lastNamed?_append, if_neg]
      rintro rfl
      exact hold (List.mem_eraseDups.1 hfolded)
    · simp [List.eraseDups_cons, lastNamed?_append]

theorem insertAll_append (c : Catalog δ) (s t : List (Entry δ)) :
    c.insertAll (s ++ t) = (c.insertAll s).insertAll t :=
  List.foldl_append

theorem indexed_empty : Indexed (empty : Catalog δ).entries (empty : Catalog δ).index := by
  constructor
  · exact List.nodup_nil
  · intro key i h
    cases h
  · intro i e h
    cases h

/-- After a history the index stands to the entries, which are the current ones. -/
theorem insertAll_spec (given : List (Entry δ)) :
    (empty.insertAll given).entries = current given ∧
      Indexed (empty.insertAll given).entries (empty.insertAll given).index := by
  induction given using List.reverseRecOn with
  | nil => exact ⟨rfl, indexed_empty⟩
  | append_singleton given e ih =>
    obtain ⟨hentries, hindexed⟩ := ih
    obtain ⟨hwith, hstep, -⟩ := insert_spec hindexed e
    rw [insertAll_append]
    refine ⟨?_, hstep⟩
    rw [current_append, ← hentries]
    exact hwith

/-! ## What a catalog keeps -/

/-- How a catalog stands to the history of its entries. -/
structure Faithful (c : Catalog δ) (given : List (Entry δ)) : Prop where
  names_nodup : (c.entries.map fun e => Text.foldCase e.name).Nodup
  entries_eq : c.entries = current given
  get?_name : ∀ e ∈ c.entries, ∀ key, e.IsNamed key → c.get? key = some e
  get?_mem : ∀ key e, c.get? key = some e → e ∈ c.entries ∧ e.AnswersTo key
  index_lt : ∀ k ∈ c.index, k.2 < c.entries.length

theorem Indexed.names_nodup {entries : List (Entry δ)} {index : List (String × Nat)}
    (h : Indexed entries index) : (entries.map fun e => Text.foldCase e.name).Nodup := by
  rw [List.nodup_iff_getElem?_ne_getElem?]
  intro i j hij hj heq
  rw [List.length_map] at hj
  have hi : i < entries.length := Nat.lt_trans hij hj
  rw [List.getElem?_map, List.getElem?_map, List.getElem?_eq_getElem hi,
    List.getElem?_eq_getElem hj, Option.map_some, Option.map_some, Option.some_inj] at heq
  exact Nat.ne_of_lt hij
    (h.eq_of_isNamed (List.getElem?_eq_getElem hi) (List.getElem?_eq_getElem hj) heq)

theorem faithful_insertAll (given : List (Entry δ)) :
    (empty.insertAll given).Faithful given := by
  obtain ⟨hentries, h⟩ := insertAll_spec given
  refine ⟨h.names_nodup, hentries, ?_, ?_, ?_⟩
  · intro e he key hkey
    obtain ⟨i, hi⟩ := List.getElem?_of_mem he
    rw [get?, ← hkey, h.named i e hi]
    exact hi
  · intro key e he
    obtain ⟨i, hi, hget⟩ := Option.bind_eq_some_iff.1 he
    obtain ⟨x, hx, hanswers⟩ := h.claimed _ i hi
    obtain rfl := Option.some.inj (hx.symm.trans hget)
    refine ⟨List.mem_of_getElem? hget, ?_⟩
    simpa only [Entry.AnswersTo, Entry.IsNamed, Text.foldCase_foldCase] using hanswers
  · intro k hk
    obtain ⟨x, hx, -⟩ := h.claimed k.1 k.2 ((mem_iff_lookup h.keys_nodup).1 hk)
    exact (List.getElem?_eq_some_iff.1 hx).1

end Catalog

/-! ## Registries -/

namespace Registry

/-- Merging overlays one after the other inserts all their entries in order. -/
theorem merges_eq (overlays : List Overlay) :
    overlays.foldl merge empty =
      ⟨.insertAll .empty (overlays.flatMap (·.mechanics)),
        .insertAll .empty (overlays.flatMap (·.targeters)),
        .insertAll .empty (overlays.flatMap (·.conditions)),
        .insertAll .empty (overlays.flatMap (·.triggers))⟩ := by
  induction overlays using List.reverseRecOn with
  | nil => rfl
  | append_singleton overlays o ih =>
    simp only [List.foldl_append, ih, List.foldl_cons, List.foldl_nil, merge,
      List.flatMap_append, List.flatMap_singleton, Catalog.insertAll_append]

/-- Whatever overlays are merged, every catalog lists the current entries, leads each name
to its entry and nothing to an entry that does not answer to it. -/
theorem faithful_merges (overlays : List Overlay) :
    let r := overlays.foldl merge empty
    r.mechanics.Faithful (overlays.flatMap (·.mechanics)) ∧
      r.targeters.Faithful (overlays.flatMap (·.targeters)) ∧
      r.conditions.Faithful (overlays.flatMap (·.conditions)) ∧
      r.triggers.Faithful (overlays.flatMap (·.triggers)) := by
  rw [merges_eq]
  exact ⟨Catalog.faithful_insertAll _, Catalog.faithful_insertAll _,
    Catalog.faithful_insertAll _, Catalog.faithful_insertAll _⟩

end Registry
end MobSkills
