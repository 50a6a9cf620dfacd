import MobSkills.Number.Decimal

/-!
# TOML values and documents

A value is what a text means. A document is the tree of its tables, in which each
key and value keeps its spelling and what is written around it, so that it can be
changed in one place and written again.
-/
namespace MobSkills

inductive Toml where
  | string (text : String)
  | integer (value : Int64)
  | real (value : Binary64)
  | boolean (value : Bool)
  | datetime (source : String)
  | array (items : List Toml)
  | table (entries : List (String × Toml))

namespace Toml

/-- The blanks, line breaks and comments around a part of a document. -/
structure Margin where
  before : String
  after : String

/-- One part of a dotted key. -/
structure Key where
  name : String
  source : String
  margin : Margin

/-- The header of a table: how many headers stand before it, and what is written
around it. -/
structure Header where
  place : Nat
  margin : Margin

/-- How a table came to be. -/
inductive Opening where
  /-- It stands on the way from a header to another table. -/
  | implied
  /-- It stands on the way to a value of a dotted key. -/
  | dotted
  | header (header : Header)

mutual

/-- A value as it is written. -/
inductive Written where
  | plain (source : String) (value : Toml)
  /-- An array; `close` is what stands before the closing bracket after the last
  item, its comma included. -/
  | array (items : List (Margin × Written)) (close : String)
  /-- A table in braces; `blank` is what stands in one without entries. -/
  | inline (blank : String) (entries : List (Key × Node))

/-- What stands under a key. -/
inductive Node where
  | leaf (margin : Margin) (value : Written)
  | table (opening : Opening) (entries : List (Key × Node))
  /-- A list of tables, each with a header of its own. -/
  | tables (items : List (Header × List (Key × Node)))

end

structure Document where
  entries : List (Key × Node)
  /-- Blank lines and comments after the last statement. -/
  ending : String

mutual

/-- What a written value means. -/
def Written.toToml : Written → Toml
  | .plain _ value => value
  | .array items _ => .array (itemValues items)
  | .inline _ entries => .table (entryValues entries)

def itemValues : List (Margin × Written) → List Toml
  | [] => []
  | (_, item) :: rest => item.toToml :: itemValues rest

def Node.toToml : Node → Toml
  | .leaf _ value => value.toToml
  | .table _ entries => .table (entryValues entries)
  | .tables items => .array (tableValues items)

def entryValues : List (Key × Node) → List (String × Toml)
  | [] => []
  | (key, node) :: rest => (key.name, node.toToml) :: entryValues rest

def tableValues : List (Header × List (Key × Node)) → List Toml
  | [] => []
  | (_, entries) :: rest => .table (entryValues entries) :: tableValues rest

end

/-- The table that a document stands for. -/
def Document.toToml (d : Document) : Toml :=
  .table (entryValues d.entries)

end Toml
end MobSkills
