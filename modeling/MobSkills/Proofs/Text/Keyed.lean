import Mathlib.Data.List.Nodup

/-!
# Lists of entries under keys

A lookup answers the first entry under a key. Where the keys differ, that is the only one.
-/
namespace MobSkills

variable {α : Type} {entries : List (String × α)} {key : String} {a : α}

theorem lookup_cons_entry (e : String × α) :
    (e :: entries).lookup key = if e.1 = key then some e.2 else entries.lookup key := by
  obtain ⟨k, w⟩ := e
  by_cases h : k = key
  · simp [h]
  · simp [h, List.lookup_cons, beq_false_of_ne (Ne.symm h)]

theorem mem_iff_lookup (h : (entries.map Prod.fst).Nodup) :
    (key, a) ∈ entries ↔ entries.lookup key = some a := by
  induction entries with
  | nil => simp
  | cons e entries ih =>
    obtain ⟨hfresh, hrest⟩ := List.nodup_cons.1 h
    rw [List.mem_cons, lookup_cons_entry]
    split
    · rename_i hkey
      have hnot : (key, a) ∉ entries :=
        fun hmem => hfresh (List.mem_map.2 ⟨_, hmem, hkey.symm⟩)
      simp [hnot, Prod.ext_iff, hkey, eq_comm]
    · rename_i hkey
      simp [ih hrest, Prod.ext_iff, Ne.symm hkey]

end MobSkills
