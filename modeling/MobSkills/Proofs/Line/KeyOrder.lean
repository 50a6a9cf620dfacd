import Mathlib.Data.List.Induction
import Mathlib.Data.List.Nodup
import MobSkills.Proofs.Line.GroupText
import MobSkills.Proofs.Text.Keyed

/-!
# Groups as insertion-ordered maps

The life of a group is a history of single moves: a key is set, a key is dropped, or the
whole group is started anew. The history alone settles what the group holds: a key has the
value it was last set to, unless it was removed after that, and the keys stand in the order
in which they came in, where a key that is set again keeps the place it has. Nothing is said
here of keys that differ in case alone: they are different keys, and only the lookup that
ignores case takes the first of them.
-/
namespace MobSkills.Params

/-! ## Histories -/

/-- What can be done with a group. -/
inductive Edit where
  | insert (key : String) (value : Value)
  | erase (key : String)
  | rebuild (entries : List (String × Value))

def edit (p : Params) : Edit → Params
  | .insert key value => (p.getThenInsert? key value).2
  | .erase key => (p.getThenErase? key).2
  | .rebuild entries => ofList entries

/-- The group after edits of the empty one. -/
def run (edits : List Edit) : Params :=
  edits.foldl edit empty

inductive Move where
  | set (key : String) (value : Value)
  | drop (key : String)
  | clear

/-- An edit as what it does to single keys. -/
def Edit.moves : Edit → List Move
  | .insert key value => [.set key value]
  | .erase key => [.drop key]
  | .rebuild entries => .clear :: entries.map fun e => .set e.1 e.2

def history (edits : List Edit) : List Move :=
  edits.flatMap Edit.moves

namespace Move

def Sets (key : String) : Move → Prop
  | .set k _ => k = key
  | _ => False

def Removes (key : String) : Move → Prop
  | .drop k => k = key
  | .clear => True
  | .set .. => False

end Move

/-- A move stands somewhere in a history: `P` holds of what came before it, `Q` of every
move after it. -/
def Stands (P : List Move → Prop) (x : Move) (Q : Move → Prop) (ms : List Move) : Prop :=
  ∃ before after, ms = before ++ x :: after ∧ P before ∧ ∀ m ∈ after, Q m

/-- The last insertion of a key, after its last removal, gave it this value. -/
def LastSet (ms : List Move) (key : String) (v : Value) : Prop :=
  Stands (fun _ => True) (.set key v) (fun m => ¬ m.Sets key ∧ ¬ m.Removes key) ms

/-- The key was inserted and not removed since. -/
def Live (ms : List Move) (key : String) : Prop :=
  ∃ v, Stands (fun _ => True) (.set key v) (fun m => ¬ m.Removes key) ms

/-- The move at this place is the first insertion of the key since its last removal. -/
def EnteredAt (ms : List Move) (key : String) (place : Nat) : Prop :=
  ∃ v, Stands (fun before => before.length = place ∧ ¬ Live before key) (.set key v)
    (fun m => ¬ m.Removes key) ms

/-! ## One more move -/

section Histories

variable {ms : List Move} {m : Move} {key : String} {v : Value} {place : Nat}

theorem not_stands_nil {P : List Move → Prop} {Q : Move → Prop} {x : Move} :
    ¬ Stands P x Q [] := by
  rintro ⟨before, after, h, -⟩
  simp at h

theorem stands_snoc {P : List Move → Prop} {Q : Move → Prop} {x : Move} :
    Stands P x Q (ms ++ [m]) ↔ (m = x ∧ P ms) ∨ (Q m ∧ Stands P x Q ms) := by
  constructor
  · rintro ⟨before, after, h, hP, hQ⟩
    rcases List.eq_nil_or_concat after with rfl | ⟨front, last, rfl⟩
    · obtain ⟨rfl, rfl⟩ := by simpa using List.append_inj' h rfl
      exact .inl ⟨rfl, hP⟩
    · rw [List.concat_eq_append, ← List.cons_append, ← List.append_assoc] at h
      obtain ⟨rfl, hm⟩ := List.append_inj' h rfl
      obtain rfl := List.singleton_inj.1 hm
      exact .inr ⟨hQ m (by simp), before, front, rfl, hP, fun y hy => hQ y (by simp [hy])⟩
  · rintro (⟨rfl, hP⟩ | ⟨hm, before, after, rfl, hP, hQ⟩)
    · exact ⟨ms, [], rfl, hP, by simp⟩
    · refine ⟨before, after ++ [m], by simp, hP, fun y hy => ?_⟩
      rcases List.mem_append.1 hy with hy | hy
      · exact hQ y hy
      · exact List.mem_singleton.1 hy ▸ hm

theorem live_iff : Live ms key ↔ ∃ v, LastSet ms key v := by
  induction ms using List.reverseRecOn with
  | nil => simp [Live, LastSet, not_stands_nil]
  | append_singleton ms m ih =>
    simp only [Live, LastSet] at ih
    simp only [Live, LastSet, stands_snoc, and_true, exists_or, exists_and_left, ih]
    cases m with
    | set k w => by_cases hk : k = key <;> simp [Move.Sets, Move.Removes, hk]
    | drop k => simp [Move.Sets, Move.Removes]
    | clear => simp [Move.Removes]

theorem EnteredAt.live (h : EnteredAt ms key place) : Live ms key := by
  obtain ⟨v, before, after, hms, -, hafter⟩ := h
  exact ⟨v, before, after, hms, trivial, hafter⟩

theorem EnteredAt.lt_length (h : EnteredAt ms key place) : place < ms.length := by
  obtain ⟨v, before, after, rfl, ⟨rfl, -⟩, -⟩ := h
  simp

/-- A key that is there keeps its place when any key is set. -/
theorem enteredAt_set_of_live {k : String} (h : Live ms key) :
    EnteredAt (ms ++ [.set k v]) key place ↔ EnteredAt ms key place := by
  simp [EnteredAt, stands_snoc, h, Move.Removes]

/-- A key that is not there comes in at the end. -/
theorem enteredAt_set_of_not_live (h : ¬ Live ms key) :
    EnteredAt (ms ++ [.set key v]) key place ↔ place = ms.length := by
  have hold : ¬ EnteredAt ms key place := fun hentered => h hentered.live
  simp only [EnteredAt, not_exists] at hold
  simp only [EnteredAt, stands_snoc, hold, and_false, or_false, h, not_false_eq_true, and_true]
  simp [eq_comm]

theorem enteredAt_drop {k : String} (h : k ≠ key) :
    EnteredAt (ms ++ [.drop k]) key place ↔ EnteredAt ms key place := by
  simp [EnteredAt, stands_snoc, h, Move.Removes]

theorem lastSet_set {k : String} {w : Value} :
    LastSet (ms ++ [.set k w]) key v ↔ if k = key then w = v else LastSet ms key v := by
  by_cases hk : k = key <;> simp [LastSet, stands_snoc, Move.Sets, Move.Removes, hk]

theorem lastSet_drop {k : String} :
    LastSet (ms ++ [.drop k]) key v ↔ k ≠ key ∧ LastSet ms key v := by
  simp [LastSet, stands_snoc, Move.Sets, Move.Removes]

theorem not_lastSet_clear : ¬ LastSet (ms ++ [.clear]) key v := by
  simp [LastSet, stands_snoc, Move.Removes]

end Histories

/-! ## One edit of a group -/

section Entries

variable {key : String} {v : Value} {es : List (String × Value)}

theorem replaceEntry_eq : replaceEntry key v es = (es.lookup key, insertEntry key v es) := by
  induction es with
  | nil => rfl
  | cons e es ih =>
    rw [replaceEntry, insertEntry, lookup_cons_entry, ih]
    split <;> rfl

theorem getThenInsert?_eq (p : Params) (key : String) (v : Value) :
    p.getThenInsert? key v = (p.get? key, p.insert key v) := by
  simp only [getThenInsert?, replaceEntry_eq]
  rfl

theorem lookup_eq_findIdx? : es.lookup key =
    (es.findIdx? (·.1 == key)).bind fun place => es[place]?.map (·.2) := by
  induction es with
  | nil => rfl
  | cons e es ih =>
    rw [lookup_cons_entry, List.findIdx?_cons, ih]
    by_cases h : e.1 = key
    · simp [h]
    · rewrite [if_neg h, if_neg (by simpa using h), Option.bind_map]
      rfl

theorem getThenErase?_eq (p : Params) (key : String) :
    p.getThenErase? key = (p.get? key, p.erase key) := by
  simp only [getThenErase?, get?, erase, lookup_eq_findIdx?, List.eraseP_eq_eraseIdx]
  cases p.entries.findIdx? (·.1 == key) <;> rfl

theorem lookup_insertEntry (k : String) :
    (insertEntry k v es).lookup key = if k = key then some v else es.lookup key := by
  induction es with
  | nil => rw [insertEntry, lookup_cons_entry]
  | cons e es ih =>
    rw [insertEntry]
    split
    · rename_i hk
      subst hk
      simp only [lookup_cons_entry]
      split <;> rfl
    · rename_i hk
      rw [lookup_cons_entry, lookup_cons_entry, ih]
      by_cases h : e.1 = key
      · subst h
        rw [if_pos rfl, if_pos rfl, if_neg (Ne.symm hk)]
      · rw [if_neg h, if_neg h]

theorem mem_keys_iff (p : Params) : key ∈ p.keys ↔ ∃ v, p.get? key = some v := by
  unfold keys get?
  induction p.entries with
  | nil => simp
  | cons e es ih =>
    rw [lookup_cons_entry, List.map_cons, List.mem_cons, ih]
    by_cases h : e.1 = key
    · simp [h]
    · simp [h, Ne.symm h]

theorem fst_insertEntry_of_mem (h : key ∈ es.map (·.1)) :
    (insertEntry key v es).map (·.1) = es.map (·.1) := by
  induction es with
  | nil => simp at h
  | cons e es ih =>
    rw [insertEntry]
    split
    · rename_i hk
      rw [List.map_cons, List.map_cons, hk]
    · rename_i hk
      have hes : key ∈ es.map (·.1) := (List.mem_cons.1 h).resolve_left (Ne.symm hk)
      rw [List.map_cons, List.map_cons, ih hes]

/-- A key that is there stays where it is. -/
theorem keys_insert_of_mem {p : Params} (h : key ∈ p.keys) (v : Value) :
    (p.insert key v).keys = p.keys :=
  fst_insertEntry_of_mem h

theorem keys_insert_of_not_mem {p : Params} (h : key ∉ p.keys) (v : Value) :
    (p.insert key v).keys = p.keys ++ [key] := by
  rw [keys, insert, insertEntry_of_not_mem h, List.map_append]
  rfl

theorem keys_erase (p : Params) (key : String) : (p.erase key).keys = p.keys.erase key := by
  have hsame : ((key == ·) : String → Bool) ∘ (fun e : String × Value => e.1) = (·.1 == key) := by
    funext e
    exact Bool.beq_comm
  rw [keys, keys, erase, List.erase_eq_eraseP, List.eraseP_map, hsame]

theorem lookup_eraseP {k : String} (h : (es.map (·.1)).Nodup) :
    (es.eraseP (·.1 == k)).lookup key = if k = key then none else es.lookup key := by
  induction es with
  | nil => simp
  | cons e es ih =>
    obtain ⟨hfresh, hes⟩ := List.nodup_cons.1 h
    by_cases hk : e.1 = k
    · subst hk
      rw [List.eraseP_cons_of_pos (by simp), lookup_cons_entry]
      split
      · rename_i hkey
        refine List.lookup_eq_none_iff.2 fun x hx => ?_
        have hne : e.1 ≠ x.1 := fun hsame => hfresh (List.mem_map.2 ⟨x, hx, hsame.symm⟩)
        simpa [← hkey] using hne
      · rfl
    · rw [List.eraseP_cons_of_neg (by simpa using hk), lookup_cons_entry, lookup_cons_entry, ih hes]
      by_cases hkey : e.1 = key
      · subst hkey
        rw [if_pos rfl, if_neg (Ne.symm hk), if_pos rfl]
      · rw [if_neg hkey, if_neg hkey]

/-- The entries of a group under keys other than `key`. -/
def others (p : Params) (key : String) : List (String × Value) :=
  p.entries.filter (·.1 != key)

theorem others_insert (p : Params) (key : String) (v : Value) :
    (p.insert key v).others key = p.others key := by
  unfold others insert
  dsimp only
  induction p.entries with
  | nil => simp [insertEntry]
  | cons e es ih =>
    rw [insertEntry]
    split
    · rename_i hk
      simp [hk]
    · rw [List.filter_cons, List.filter_cons, ih]

theorem others_erase (p : Params) (key : String) : (p.erase key).others key = p.others key := by
  unfold others erase
  dsimp only
  induction p.entries with
  | nil => rfl
  | cons e es ih =>
    by_cases hk : e.1 = key
    · simp [hk]
    · rw [List.eraseP_cons_of_neg (by simpa using hk), List.filter_cons, List.filter_cons, ih]

/-- The lookup that ignores case takes the first key that is the same but for case. -/
theorem findIgnoreCase?_eq_some_iff {p : Params} (h : p.keys.Nodup) {query : String} :
    p.findIgnoreCase? query = some (key, v) ↔ ∃ before after, p.keys = before ++ key :: after ∧
      (∀ k ∈ before, Text.eqIgnoreCase k query = false) ∧ Text.eqIgnoreCase key query = true ∧
        p.get? key = some v := by
  rw [findIgnoreCase?, List.find?_eq_some_iff_append]
  constructor
  · rintro ⟨hkey, before, after, hentries, hbefore⟩
    refine ⟨before.map (·.1), after.map (·.1), by simp [keys, hentries], ?_, hkey, ?_⟩
    · intro k hk
      obtain ⟨e, he, rfl⟩ := List.mem_map.1 hk
      simpa using hbefore e he
    · exact (mem_iff_lookup h).1 (by simp [hentries])
  · rintro ⟨before, after, hkeys, hbefore, hkey, hget⟩
    obtain ⟨front, rest, hentries, rfl, hrest⟩ := List.map_eq_append_iff.1 hkeys
    obtain ⟨⟨k, w⟩, back, rfl, rfl, rfl⟩ := List.map_eq_cons_iff.1 hrest
    have hw : p.get? k = some w := (mem_iff_lookup h).1 (by simp [hentries])
    obtain rfl : w = v := Option.some_inj.1 (hw.symm.trans hget)
    refine ⟨hkey, front, back, hentries, fun e he => ?_⟩
    simp [hbefore e.1 (List.mem_map_of_mem he)]

end Entries

/-! ## What a history settles -/

/-- The group holds what the history says, in the order in which the keys came in. -/
structure Follows (ms : List Move) (p : Params) : Prop where
  keys_nodup : p.keys.Nodup
  get?_eq_some : ∀ key v, p.get? key = some v ↔ LastSet ms key v
  entered : ∀ key ∈ p.keys, ∃ place, EnteredAt ms key place
  in_order : p.keys.Pairwise fun a b => ∀ i j, EnteredAt ms a i → EnteredAt ms b j → i < j

variable {ms : List Move} {p : Params}

theorem Follows.mem_keys_iff_live (h : Follows ms p) {key : String} :
    key ∈ p.keys ↔ Live ms key := by
  rw [mem_keys_iff, live_iff]
  exact exists_congr fun v => h.get?_eq_some key v

theorem follows_nil : Follows [] empty where
  keys_nodup := List.nodup_nil
  get?_eq_some key v := by simp [empty, get?, LastSet, not_stands_nil]
  entered key hkey := by simp [empty, keys] at hkey
  in_order := List.Pairwise.nil

theorem follows_clear (ms : List Move) : Follows (ms ++ [.clear]) empty where
  keys_nodup := List.nodup_nil
  get?_eq_some key v := by simp [empty, get?, not_lastSet_clear]
  entered key hkey := by simp [empty, keys] at hkey
  in_order := List.Pairwise.nil

theorem Follows.insert (h : Follows ms p) (key : String) (v : Value) :
    Follows (ms ++ [.set key v]) (p.insert key v) := by
  have hget (k : String) (w : Value) :
      (p.insert key v).get? k = some w ↔ LastSet (ms ++ [.set key v]) k w := by
    rw [lastSet_set, ← h.get?_eq_some]
    change (insertEntry key v p.entries).lookup k = some w ↔ _
    rw [lookup_insertEntry]
    split <;> simp [get?]
  have hkept (k : String) (hk : k ∈ p.keys) (i : Nat) :
      EnteredAt (ms ++ [.set key v]) k i ↔ EnteredAt ms k i :=
    enteredAt_set_of_live (h.mem_keys_iff_live.1 hk)
  have hold : p.keys.Pairwise fun a b =>
      ∀ i j, EnteredAt (ms ++ [.set key v]) a i → EnteredAt (ms ++ [.set key v]) b j → i < j :=
    h.in_order.imp_of_mem fun ha hb hlt i j hi hj =>
      hlt i j ((hkept _ ha i).1 hi) ((hkept _ hb j).1 hj)
  have hentered (k : String) (hk : k ∈ p.keys) : ∃ i, EnteredAt (ms ++ [.set key v]) k i :=
    (h.entered k hk).imp fun i hi => (hkept k hk i).2 hi
  by_cases hmem : key ∈ p.keys
  · have hkeys := keys_insert_of_mem hmem v
    exact ⟨hkeys ▸ h.keys_nodup, hget, hkeys ▸ hentered, hkeys ▸ hold⟩
  · -- The new key comes in after all that are there.
    have hkeys := keys_insert_of_not_mem hmem v
    have hlast (i : Nat) : EnteredAt (ms ++ [.set key v]) key i ↔ i = ms.length :=
      enteredAt_set_of_not_live (mt h.mem_keys_iff_live.2 hmem)
    refine ⟨?_, hget, ?_, ?_⟩
    · rw [hkeys, ← List.concat_eq_append]
      exact h.keys_nodup.concat hmem
    · intro k hk
      rw [hkeys] at hk
      rcases List.mem_append.1 hk with hk | hk
      · exact hentered k hk
      · obtain rfl := List.mem_singleton.1 hk
        exact ⟨ms.length, (hlast _).2 rfl⟩
    · rw [hkeys]
      refine List.pairwise_append.2 ⟨hold, List.pairwise_singleton _ _, ?_⟩
      intro a ha b hb i j hi hj
      obtain rfl := List.mem_singleton.1 hb
      rw [(hlast j).1 hj]
      exact ((hkept a ha i).1 hi).lt_length

theorem Follows.erase (h : Follows ms p) (key : String) :
    Follows (ms ++ [.drop key]) (p.erase key) := by
  have hkept (k : String) (hk : k ∈ p.keys.erase key) (i : Nat) :
      EnteredAt (ms ++ [.drop key]) k i ↔ EnteredAt ms k i :=
    enteredAt_drop fun hsame => by
      subst hsame
      exact h.keys_nodup.not_mem_erase hk
  refine ⟨?_, ?_, ?_, ?_⟩
  · rw [keys_erase]
    exact h.keys_nodup.erase key
  · intro k w
    rw [lastSet_drop, ← h.get?_eq_some]
    change (p.entries.eraseP (·.1 == key)).lookup k = some w ↔ _
    rw [lookup_eraseP h.keys_nodup]
    split <;> simp_all [get?]
  · intro k hk
    rw [keys_erase] at hk
    exact (h.entered k (List.mem_of_mem_erase hk)).imp fun i hi => (hkept k hk i).2 hi
  · rw [keys_erase]
    exact (h.in_order.sublist List.erase_sublist).imp_of_mem fun ha hb hlt i j hi hj =>
      hlt i j ((hkept _ ha i).1 hi) ((hkept _ hb j).1 hj)

/-! ## What edits settle -/

def play (p : Params) : Move → Params
  | .set key value => p.insert key value
  | .drop key => p.erase key
  | .clear => empty

theorem Follows.play (h : Follows ms p) (m : Move) : Follows (ms ++ [m]) (p.play m) := by
  cases m with
  | set key v => exact h.insert key v
  | drop key => exact h.erase key
  | clear => exact follows_clear ms

theorem follows_foldl_play (ms : List Move) : Follows ms (ms.foldl play empty) := by
  induction ms using List.reverseRecOn with
  | nil => exact follows_nil
  | append_singleton ms m ih =>
    rw [List.foldl_append]
    exact ih.play m

theorem edit_eq_foldl_play (p : Params) (e : Edit) : p.edit e = e.moves.foldl play p := by
  cases e with
  | insert key v => rw [edit, getThenInsert?_eq]; rfl
  | erase key => rw [edit, getThenErase?_eq]; rfl
  | rebuild entries =>
    rw [edit, ofList, Edit.moves, List.foldl_cons, List.foldl_map]
    rfl

theorem run_eq_foldl_play (edits : List Edit) :
    run edits = (history edits).foldl play empty := by
  have hsame : edit = fun p e => e.moves.foldl play p := by
    funext p e
    exact edit_eq_foldl_play p e
  rw [run, history, List.foldl_flatMap, hsame]

/-- What an insertion-ordered map of this history is: the history settles its keys, their
order and their values; an edit answers what the key had and leaves the other entries; a
lookup that ignores case finds the earliest key that is the same but for case. -/
structure IsInsertionOrdered (ms : List Move) (p : Params) : Prop extends Follows ms p where
  size_eq : p.size = p.keys.length
  fst_getThenInsert? : ∀ key v, (p.getThenInsert? key v).1 = p.get? key
  others_getThenInsert? : ∀ key v, (p.getThenInsert? key v).2.others key = p.others key
  fst_getThenErase? : ∀ key, (p.getThenErase? key).1 = p.get? key
  others_getThenErase? : ∀ key, (p.getThenErase? key).2.others key = p.others key
  findIgnoreCase?_eq_some : ∀ query key v, p.findIgnoreCase? query = some (key, v) ↔
    ∃ before after, p.keys = before ++ key :: after ∧
      (∀ k ∈ before, Text.eqIgnoreCase k query = false) ∧ Text.eqIgnoreCase key query = true ∧
        p.get? key = some v

theorem isInsertionOrdered_run (edits : List Edit) :
    IsInsertionOrdered (history edits) (run edits) := by
  have hfollows := follows_foldl_play (history edits)
  rw [← run_eq_foldl_play] at hfollows
  refine ⟨hfollows, (List.length_map _).symm, ?_, ?_, ?_, ?_, ?_⟩
  · intro key v
    rw [getThenInsert?_eq]
  · intro key v
    rw [getThenInsert?_eq]
    exact others_insert _ key v
  · intro key
    rw [getThenErase?_eq]
  · intro key
    rw [getThenErase?_eq]
    exact others_erase _ key
  · intro query key v
    exact findIgnoreCase?_eq_some_iff hfollows.keys_nodup

end MobSkills.Params
