import MobSkills.Catalog.Registry
import MobSkills.Toml.Decode

/-!
# Schema files

A schema file lists entries of every kind. Only the name of an entry has to be
given. The parameters of a targeter are called its options.
-/
namespace MobSkills.Overlay

open MobSkills.Toml (fields? toText? toBool? toReal? toTexts? toValue? toList? optional withDefault)

def typeOf? : String → Option ParameterType
  | "string" => some .string
  | "number" => some .number
  | "boolean" => some .boolean
  | "enum" => some .enum
  | "list" | "array" => some .list
  | _ => none

def isEmptyCollection : Toml → Bool
  | .table entries => entries.isEmpty
  | .array items => items.isEmpty
  | _ => false

/-- A type: its name, or a table with the name as its key and nothing in it. -/
def toType? : Toml → Option ParameterType
  | .string name => typeOf? name
  | .table [(name, v)] => if isEmptyCollection v then typeOf? name else none
  | _ => none

def toParameter? (v : Toml) : Option ParameterSchema :=
  match fields? ["type", "required", "default", "description", "values", "min", "max",
      "aliases"] v with
  | some ⟨_, [type, required, default, description, values, min, max, aliases]⟩ => do
    let type ← withDefault .string toType? type
    let required ← withDefault false toBool? required
    let default ← optional toValue? default
    let description ← withDefault "" toText? description
    let values ← withDefault [] toTexts? values
    let min ← optional toReal? min
    let max ← optional toReal? max
    let aliases ← withDefault [] toTexts? aliases
    return ⟨type, required, default, description, values, min, max, aliases⟩
  | _ => none

def toNamedParameter? (entry : String × Toml) : Option (String × ParameterSchema) :=
  (toParameter? entry.2).map fun p => (entry.1, p)

def toTable? : Toml → Option ParameterTable
  | .table entries => (entries.mapM toNamedParameter?).map ParameterTable.ofList
  | _ => none

/-- An entry whose parameters are under the key `parameters`. -/
def entryOf? (parameters : String) (v : Toml) : Option (Entry ParameterTable) :=
  match fields? ["name", "aliases", "category", "description", parameters] v with
  | some ⟨_, [name, aliases, category, description, table]⟩ => do
    let name ← name.bind toText?
    let aliases ← withDefault [] toTexts? aliases
    let category ← withDefault "" toText? category
    let description ← withDefault "" toText? description
    let table ← withDefault [] toTable? table
    return ⟨name, aliases, category, description, table⟩
  | _ => none

def toTrigger? (v : Toml) : Option (Entry TriggerForm) :=
  match fields? ["name", "aliases", "category", "description", "has_value", "value_type"] v with
  | some ⟨_, [name, aliases, category, description, takesValue, valueType]⟩ => do
    let name ← name.bind toText?
    let aliases ← withDefault [] toTexts? aliases
    let category ← withDefault "" toText? category
    let description ← withDefault "" toText? description
    let takesValue ← withDefault false toBool? takesValue
    let valueType ← optional toType? valueType
    return ⟨name, aliases, category, description, ⟨takesValue, valueType⟩⟩
  | _ => none

def ofToml? (v : Toml) : Option Overlay :=
  match fields? ["mechanics", "targeters", "conditions", "triggers"] v with
  | some ⟨_, [mechanics, targeters, conditions, triggers]⟩ => do
    let mechanics ← withDefault [] (toList? (entryOf? "parameters")) mechanics
    let targeters ← withDefault [] (toList? (entryOf? "options")) targeters
    let conditions ← withDefault [] (toList? (entryOf? "parameters")) conditions
    let triggers ← withDefault [] (toList? toTrigger?) triggers
    return ⟨mechanics, targeters, conditions, triggers⟩
  | _ => none

/-- The overlay that the text of a schema file describes, if it does. -/
def parse? (text : String) : Option Overlay :=
  (Toml.parse? text).bind ofToml?

end MobSkills.Overlay
