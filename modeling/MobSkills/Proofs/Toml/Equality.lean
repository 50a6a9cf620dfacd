import MobSkills.Toml.Basic

/-!
# Values are compared

Whether two values are the same can be decided part by part, so what a text means can be
computed and compared.
-/
namespace MobSkills.Toml

mutual

def beq : Toml → Toml → Bool
  | .string a, .string b => a == b
  | .integer a, .integer b => a == b
  | .real a, .real b => a == b
  | .boolean a, .boolean b => a == b
  | .datetime a, .datetime b => a == b
  | .array items, .array items' => beqItems items items'
  | .table entries, .table entries' => beqEntries entries entries'
  | _, _ => false

def beqItems : List Toml → List Toml → Bool
  | [], [] => true
  | v :: items, v' :: items' => beq v v' && beqItems items items'
  | _, _ => false

def beqEntries : List (String × Toml) → List (String × Toml) → Bool
  | [], [] => true
  | (name, v) :: entries, (name', v') :: entries' =>
    name == name' && beq v v' && beqEntries entries entries'
  | _, _ => false

end

mutual

theorem beq_iff : (v v' : Toml) → (beq v v' = true ↔ v = v')
  | .array items, v' => by cases v' <;> simp [beq, beqItems_iff items]
  | .table entries, v' => by cases v' <;> simp [beq, beqEntries_iff entries]
  | .string _, v' | .integer _, v' | .real _, v' | .boolean _, v' | .datetime _, v' => by
    cases v' <;> simp [beq]

theorem beqItems_iff : (items items' : List Toml) → (beqItems items items' = true ↔ items = items')
  | [], items' => by cases items' <;> simp [beqItems]
  | v :: items, items' => by cases items' <;> simp [beqItems, beq_iff v, beqItems_iff items]

theorem beqEntries_iff : (entries entries' : List (String × Toml)) →
    (beqEntries entries entries' = true ↔ entries = entries')
  | [], entries' => by cases entries' <;> simp [beqEntries]
  | (name, v) :: entries, entries' => by
    cases entries' <;> simp [beqEntries, beq_iff v, beqEntries_iff entries, and_assoc, Prod.ext_iff]

end

instance : DecidableEq Toml :=
  fun v v' => decidable_of_iff (beq v v' = true) (beq_iff v v')

end MobSkills.Toml
