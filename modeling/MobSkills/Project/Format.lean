import MobSkills.Line.Render
import MobSkills.Toml.Parse
import MobSkills.Toml.Print
import MobSkills.Toml.Quote

/-!
# Formatting of project files

The skill lines in the `skills` arrays of `[[mobs]]` and `[[metaskills]]` are put
in canonical form where they have one. Nothing else in the document changes, nor
does a line with errors or warnings, whose canonical form could lose text.
-/
namespace MobSkills.Toml

-- Zero is that of core, so that sums mean the same beside other libraries.
attribute [local instance (high)] Zero.ofOfNat0

/-- A string with its canonical line in place of its text, and whether that is
another text. -/
def Written.format (options : ParseOptions) : Written → Written × Bool
  | .plain source (.string text) =>
    match SkillLine.canonical? options text with
    | some line =>
      if line = text then (.plain source (.string text), false)
      else (.plain (quote line) (.string line), true)
    | none => (.plain source (.string text), false)
  | other => (other, false)

/-- The node of an array with its strings in canonical form, and how many of them
changed. What is written around an item is kept. -/
def Node.format (options : ParseOptions) : Node → Node × Nat
  | .leaf margin (.array items close) =>
    let formatted := items.map fun (around, item) => (around, item.format options)
    (.leaf margin (.array (formatted.map fun (around, item, _) => (around, item)) close),
      formatted.countP (·.2.2))
  | other => (other, 0)

/-- The entries with the nodes of some names changed, and the sum of the counts. -/
def changeUnder (names : List String) (change : Node → Node × Nat) (entries : List (Key × Node)) :
    List (Key × Node) × Nat :=
  let changed := entries.map fun (key, node) =>
    (key, if names.contains key.name then change node else (node, 0))
  (changed.map fun (key, node, _) => (key, node), (changed.map (·.2.2)).sum)

/-- A list of tables with their `skills` in canonical form, and how many lines
changed. -/
def Node.formatOwners (options : ParseOptions) : Node → Node × Nat
  | .tables items =>
    let formatted := items.map fun (header, entries) =>
      (header, changeUnder ["skills"] (Node.format options) entries)
    (.tables (formatted.map fun (header, entries, _) => (header, entries)),
      (formatted.map (·.2.2)).sum)
  | other => (other, 0)

/-- The document in canonical form, and how many lines changed. -/
def Document.format (options : ParseOptions) (d : Document) : Document × Nat :=
  let (entries, count) :=
    changeUnder ["mobs", "metaskills"] (Node.formatOwners options) d.entries
  (⟨entries, d.ending⟩, count)

end MobSkills.Toml

namespace MobSkills.Project

/-- The text of a project file in canonical form and the number of lines that
changed, if the text is TOML at all. -/
def format? (options : ParseOptions) (text : String) : Option (String × Nat) :=
  (Toml.Document.parse? Toml.editingLimit text).map fun d =>
    let (formatted, count) := d.format options
    (formatted.print, count)

end MobSkills.Project
