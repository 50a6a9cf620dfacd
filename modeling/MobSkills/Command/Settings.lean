import MobSkills.Catalog.File
import MobSkills.Catalog.Standard
import MobSkills.Line.Parse
import MobSkills.Toml.Decode

/-!
# Settings of the command line

Settings come from a file next to the project or from one that is named. A file
that is missing or does not fit counts as no settings at all. Schema files named in
the settings are found from the folder of the settings file.
-/
namespace MobSkills

structure Settings where
  overlays : List String := []
  denyWarnings : Bool := false
  suggestionLimit : Nat := 10
  lenientChance : Bool := false
deriving DecidableEq

namespace Settings

/-- The file that is looked for where none is named. -/
def defaultFile : String := "skilline.toml"

def parseOptions (s : Settings) : ParseOptions :=
  ⟨s.lenientChance⟩

open MobSkills.Toml (fields? toTexts? toBool? toNat? withDefault)

def ofToml? (v : Toml) : Option Settings :=
  match fields? ["schema_overlays", "deny_warnings", "suggestion_limit", "lenient_chance"] v with
  | some ⟨_, [overlays, denyWarnings, limit, lenient]⟩ => do
    let overlays ← withDefault [] toTexts? overlays
    let denyWarnings ← withDefault false toBool? denyWarnings
    let limit ← withDefault 10 toNat? limit
    let lenient ← withDefault false toBool? lenient
    return ⟨overlays, denyWarnings, limit, lenient⟩
  | _ => none

/-- The names of a path, last first, without empty names and dots at its end. A dot
that the path starts with is a name. -/
def trimNames : List String → List String
  | [] => []
  | [name] => [name]
  | name :: rest => if name = "" || name = "." then trimNames rest else name :: rest

/-- The folder part of a path, if it has a last name to leave out. -/
def folderOf? (path : String) : Option String :=
  match trimNames (path.splitOn "/").reverse with
  | [] | [""] => none
  | _ :: rest =>
    match (trimNames rest).reverse with
    | [""] => some "/"
    | names => some ("/".intercalate names)

/-- A path from a folder, unless it starts at the root. -/
def inFolder (folder path : String) : String :=
  if path.toList.head? = some '/' || folder.isEmpty then path
  else if folder.toList.getLast? = some '/' then folder ++ path
  else folder ++ "/" ++ path

/-- The settings that the text of a file at `path` holds, if it does. -/
def parse? (path text : String) : Option Settings :=
  ((Toml.parse? text).bind ofToml?).map fun s =>
    match folderOf? path with
    | some folder => { s with overlays := s.overlays.map (inFolder folder) }
    | none => s

end Settings
end MobSkills
