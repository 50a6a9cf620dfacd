import MobSkills.Toml.Basic

/-!
# Tables from statements

Where the statements of a document put their values. A table may be opened once:
by a header, by the dotted keys of one table, or as an item of a list of tables.
A table that only stands on the way to another one may still be opened by its own
header, and then stands where that header is. Names are given once; a key keeps the
spelling in which its name came first.
-/
namespace MobSkills.Toml

/-- A statement as it is written. What comes before a header or a key belongs to
it. -/
inductive Statement where
  | entry (path : List Key) (margin : Margin) (value : Written)
  /-- A header, of one table or of the next one of a list. -/
  | header (repeated : Bool) (path : List Key) (margin : Margin)

/-- Whether dotted keys alone may add values to the table. -/
def Opening.isDotted : Opening → Bool
  | .dotted => true
  | .implied | .header _ => false

namespace Node

/-- The node under a name. -/
def lookup (name : String) : List (Key × Node) → Option Node
  | [] => none
  | (key, node) :: rest => if key.name = name then some node else lookup name rest

/-- The entries with the node under a key's name replaced, or added at the end. -/
def put (key : Key) (node : Node) : List (Key × Node) → List (Key × Node)
  | [] => [(key, node)]
  | (k, n) :: rest => if k.name = key.name then (k, node) :: rest else (k, n) :: put key node rest

/-- A change of the entries of a table, which is told whether the table belongs to
dotted keys. -/
abbrev Change := Bool → List (Key × Node) → Option (List (Key × Node))

/-- The entries after a change of the table that a path leads to. Tables on the way
are made where they are missing. The path of a dotted key does not lead through a
table that a header has opened. -/
def changeAt (dotted : Bool) (change : Change) : List Key → Change
  | [], isDotted, entries => change isDotted entries
  | key :: path, _, entries =>
    match lookup key.name entries with
    | none => do
      let inner ← changeAt dotted change path dotted []
      return put key (.table (if dotted then .dotted else .implied) inner) entries
    | some (.leaf _ _) => none
    | some (.tables items) => do
      let (header, last) ← items.getLast?
      let inner ← changeAt dotted change path false last
      return put key (.tables (items.dropLast ++ [(header, inner)])) entries
    | some (.table (.header h) inner) =>
      if dotted then none
      else do
        let inner ← changeAt dotted change path false inner
        return put key (.table (.header h) inner) entries
    | some (.table opening inner) => do
      let inner ← changeAt dotted change path opening.isDotted inner
      return put key (.table opening inner) entries

/-- The entries with a node under a dotted key. -/
def addValue (path : List Key) (node : Node) (entries : List (Key × Node)) :
    Option (List (Key × Node)) :=
  match path.getLast? with
  | none => none
  | some key =>
    let way := path.dropLast
    changeAt true (fun isDotted inner =>
      if isDotted == way.isEmpty then none
      else if (lookup key.name inner).isSome then none
      else some (inner ++ [(key, node)])) way false entries

/-- The entries with values under dotted keys. -/
def addValues (values : List (List Key × Margin × Written)) (entries : List (Key × Node)) :
    Option (List (Key × Node)) :=
  values.foldlM (fun entries (path, margin, value) => addValue path (.leaf margin value) entries)
    entries

/-- The entries with a table under a header, filled with the values after it. -/
def addTable (repeated : Bool) (path : List Key) (header : Header)
    (values : List (List Key × Margin × Written)) (entries : List (Key × Node)) :
    Option (List (Key × Node)) :=
  match path.getLast? with
  | none => none
  | some key =>
    changeAt false (fun _ inner =>
      match lookup key.name inner, repeated with
      | none, true => do
        let table ← addValues values []
        return inner ++ [(key, .tables [(header, table)])]
      | some (.tables items), true => do
        let table ← addValues values []
        return put key (.tables (items ++ [(header, table)])) inner
      | none, false => do
        let table ← addValues values []
        return inner ++ [(key, .table (.header header) table)]
      | some (.table .implied existing), false => do
        let table ← addValues values existing
        let others := inner.filter fun (k, _) => k.name != key.name
        return others ++ [(key, .table (.header header) table)]
      | _, _ => none) path.dropLast false entries

end Node

/-- The values under each header, with those before the first header. -/
def sections : List Statement →
    List (List Key × Margin × Written) ×
      List (Bool × List Key × Margin × List (List Key × Margin × Written))
  | [] => ([], [])
  | .entry path margin value :: rest =>
    let (values, later) := sections rest
    ((path, margin, value) :: values, later)
  | .header repeated path margin :: rest =>
    let (values, later) := sections rest
    ([], (repeated, path, margin, values) :: later)

/-- The tables that statements make, if each table and name is given once. -/
def tables? (statements : List Statement) : Option (List (Key × Node)) := do
  let (values, headers) := sections statements
  let top ← Node.addValues values []
  headers.zipIdx.foldlM (fun entries ((repeated, path, margin, values), place) =>
    Node.addTable repeated path ⟨place + 1, margin⟩ values entries) top

end MobSkills.Toml
