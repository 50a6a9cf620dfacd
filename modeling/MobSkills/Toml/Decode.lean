import MobSkills.Line.Value
import MobSkills.Toml.Parse

/-!
# Records in TOML

A record is a table with its fields by name, or an array of its fields in order.
Fields of other names and items beyond the last field are ignored. A date has no
field of any name, so it counts as a record in which nothing is given.
-/
namespace MobSkills.Toml

/-- The fields of a record, and whether they are given by their order. -/
structure Fields where
  ordered : Bool
  values : List (Option Toml)

def fields? (names : List String) : Toml → Option Fields
  | .table entries => some ⟨false, names.map fun name => entries.lookup name⟩
  | .array items =>
    let given := items.take names.length
    some ⟨true, given.map some ++ List.replicate (names.length - given.length) none⟩
  | .datetime _ => some ⟨false, names.map fun _ => none⟩
  | _ => none

def toText? : Toml → Option String
  | .string s => some s
  | _ => none

def toBool? : Toml → Option Bool
  | .boolean b => some b
  | _ => none

/-- A number; an integer counts as a real, but not the reverse. -/
def toReal? : Toml → Option Binary64
  | .real x => some x
  | .integer i => some (.ofInt i.toInt)
  | _ => none

def toNat? : Toml → Option Nat
  | .integer i => if 0 ≤ i.toInt then some i.toInt.toNat else none
  | _ => none

def toList? {α : Type} (decode : Toml → Option α) : Toml → Option (List α)
  | .array items => items.mapM decode
  | _ => none

def toTexts? : Toml → Option (List String) :=
  toList? toText?

/-- A parameter value: its kind is decided by the value alone. -/
def toValue? : Toml → Option Value
  | .boolean b => some (.boolean b)
  | .integer i => some (.integer i)
  | .real x => some (.real x)
  | .string s => some (.text s)
  | .array items => (items.mapM toText?).map .list
  | .datetime _ | .table _ => none

/-- A field that may be absent. -/
def optional {α : Type} (decode : Toml → Option α) : Option Toml → Option (Option α)
  | none => some none
  | some v => (decode v).map some

/-- A field that may be absent where fields are given by name, but not where they
are given by order. -/
def optionalByName {α : Type} (ordered : Bool) (decode : Toml → Option α) :
    Option Toml → Option (Option α)
  | none => if ordered then none else some none
  | some v => (decode v).map some

def withDefault {α : Type} (default : α) (decode : Toml → Option α) : Option Toml → Option α
  | none => some default
  | some v => decode v

end MobSkills.Toml
