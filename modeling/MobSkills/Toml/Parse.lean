import MobSkills.Toml.Scalar
import MobSkills.Toml.Tables

/-!
# Reading TOML documents

The grammar of TOML 1.0. A document is accepted if its statements can be read and
make consistent tables, and if neither values nor keys are nested too deeply. A
byte order mark at the front is dropped.
-/
namespace MobSkills.Toml

open MobSkills.Text (Reader)

namespace Read

/-- An item read by `value`, with the blanks and comments around it. -/
def item (value : Reader Written) : Reader (Margin × Written) := fun s => do
  let (before, s) := blanks s
  let (v, s) ← value s
  let (after, s) := blanks s
  return ((⟨String.ofList before, String.ofList after⟩, v), s)

/-- An array after its opening bracket. A comma may follow the last item. -/
def arrayBody (value : Reader Written) : Reader Written := fun s =>
  let (items, s) := (Reader.separated (Reader.char ',') (item value) s).getD ([], s)
  let (comma, s) := match items, s with
    | _ :: _, ',' :: r => ([','], r)
    | _, s => ([], s)
  let (blank, s) := blanks s
  (Reader.char ']' s).map fun (_, rest) => (.array items (String.ofList (comma ++ blank)), rest)

/-- A key and an equals sign. -/
def assigned (limit : Nat) : Reader (List Key) := fun s => do
  let (path, s) ← key limit s
  let (_, s) ← Reader.char '=' s
  return (path, s)

/-- A key, an equals sign and a value in an inline table. -/
def inlineEntry (limit : Nat) (value : Reader Written) :
    Reader (List Key × Margin × Written) := fun s => do
  let (path, s) ← assigned limit s
  let (before, s) := spaces s
  let (v, s) ← value s
  let (after, s) := spaces s
  return ((path, ⟨String.ofList before, String.ofList after⟩, v), s)

/-- An inline table after its opening brace. -/
def inlineBody (limit : Nat) (value : Reader Written) : Reader Written := fun s =>
  let (values, s) :=
    (Reader.separated (Reader.char ',') (inlineEntry limit value) s).getD ([], s)
  let (blank, s) := spaces s
  do
    let (_, rest) ← Reader.char '\x7d' s
    let entries ← Node.addValues values []
    return (.inline (String.ofList blank) entries, rest)

/-- What a reader of values takes, as it is written. -/
def plain (read : Reader Toml) : Reader Written := fun s =>
  (read s).map fun (v, rest) => (.plain (takenText s rest) v, rest)

/-- A value in which arrays and tables are nested at most `depth` deep and keys are
shorter than `limit`. -/
def value (limit depth : Nat) : Reader Written := fun s =>
  match depth, s with
  | 0, '[' :: _ => none
  | 0, '\x7b' :: _ => none
  | depth + 1, '[' :: r => arrayBody (value limit depth) r
  | depth + 1, '\x7b' :: r => inlineBody limit (value limit depth) r
  | _, '"' :: _ => plain text s
  | _, '\'' :: _ => plain text s
  | _, _ => plain scalar s
where
  text : Reader Toml := fun s =>
    (string s).map fun (text, rest) => (.string (String.ofList text), rest)

/-- The blanks and the comment at the end of a line, and the end itself. -/
def lineTail : Reader String := fun s =>
  let (space, s) := spaces s
  let (remark, s) := comment s
  (lineEnd s).map fun (_, rest) => (String.ofList (space ++ remark), rest)

/-- A header in its brackets: whether it is one of a list, and its key. -/
def header (limit : Nat) : Reader (Bool × List Key)
  | '[' :: '[' :: r => do
    let (path, rest) ← key limit r
    let (_, rest) ← Reader.word "]]".toList rest
    return ((true, path), rest)
  | '[' :: r => do
    let (path, rest) ← key limit r
    let (_, rest) ← Reader.char ']' rest
    return ((false, path), rest)
  | _ => none

/-- A key with a text before it. -/
def withLead (lead : List Char) : List Key → List Key
  | [] => []
  | k :: rest =>
    { k with margin := ⟨String.ofList lead ++ k.margin.before, k.margin.after⟩ } :: rest

/-- A statement with what stands before it and the end of its line. -/
def statement (limit : Nat) : Reader Statement := fun s =>
  let (lead, s) := blanks s
  match s with
  | '[' :: _ => do
    let ((repeated, path), s) ← header limit s
    let (tail, s) ← lineTail s
    return (.header repeated path ⟨String.ofList lead, tail⟩, s)
  | _ => do
    let (path, s) ← assigned limit s
    let (before, s) := spaces s
    let (v, s) ← value limit (limit - 1) s
    let (tail, s) ← lineTail s
    return (.entry (withLead lead path) ⟨String.ofList before, tail⟩ v, s)

end Read

/-- The document of a text, if it has one. Keys have fewer parts than `limit`, and
fewer arrays and tables than that stand in each other. -/
def Document.parse? (limit : Nat) (text : String) : Option Document :=
  let s := match text.toList with
    | '\uFEFF' :: r => r
    | s => s
  let (statements, rest) := Reader.many (Read.statement limit) s
  if (Read.blanks rest).2.isEmpty then
    (tables? statements).map fun entries => ⟨entries, String.ofList rest⟩
  else none

/-- The limit for a text that is read for what it means. -/
def readingLimit : Nat := 80

/-- The limit for a text that is read to be changed. -/
def editingLimit : Nat := 128

/-- The table that a text stands for. -/
def parse? (text : String) : Option Toml :=
  (Document.parse? readingLimit text).map (·.toToml)

end MobSkills.Toml
