/-!
# Files of the command line

The commands read and write whole text files through two operations, given by
whoever runs them. A folder of texts in memory is one such giver.
-/
namespace MobSkills

/-- Why a file cannot be read or written. -/
inductive FileError where
  | notFound
  | notFolder
  | isFolder
  | nameTooLong
  | nameWithNull
  | other (message : String)
deriving DecidableEq

def FileError.message : FileError → String
  | .notFound => "No such file or directory (os error 2)"
  | .notFolder => "Not a directory (os error 20)"
  | .isFolder => "Is a directory (os error 21)"
  | .nameTooLong => "File name too long (os error 36)"
  | .nameWithNull => "file name contained an unexpected NUL byte"
  | .other message => message

/-- Reading and writing of whole files. -/
structure FileAccess (m : Type → Type) where
  read : String → m (Except FileError String)
  write : String → String → m (Except FileError Unit)

/-- Text files under their paths from the folder, names divided by slashes. -/
structure Folder where
  files : List (String × String)
deriving DecidableEq

namespace Folder

/-- The names along a path. -/
def names (path : String) : List String :=
  path.splitOn "/"

/-- Where the names of a path have led. -/
inductive Location where
  /-- Down from the folder. -/
  | within (names : List String)
  /-- Up to a folder around it, of which nothing else is known. -/
  | above
  /-- Down from the root of the system. -/
  | system (names : List String)
  | unknown

/-- What stands at a location. -/
inductive Place where
  | file (path : String)
  | folder
  /-- The device that reads as an empty file and keeps nothing. -/
  | null
  | missing

/-- The folders that the root of a system is known to have. -/
def systemFolders : List String :=
  ["dev", "etc", "home", "proc", "tmp", "usr", "var"]

def placeOf (f : Folder) : Location → Place
  | .within [] => .folder
  | .within names =>
    let path := "/".intercalate names
    if f.files.any (·.1 == path) then .file path
    else if f.files.any fun (p, _) => names.isPrefixOf (Folder.names p) then .folder
    else .missing
  | .above => .folder
  | .system [] => .folder
  | .system [name] => if systemFolders.contains name then .folder else .missing
  | .system names => if names == ["dev", "null"] then .null else .missing
  | .unknown => .missing

/-- The location of the folder around a location; the root is in itself. -/
def Location.parent : Location → Location
  | .within [] => .above
  | .within names => .within names.dropLast
  | .above => .above
  | .system names => .system names.dropLast
  | .unknown => .unknown

def Location.child (name : String) : Location → Location
  | .within names => .within (names ++ [name])
  | .system names => .system (names ++ [name])
  | .above | .unknown => .unknown

/-- The most bytes in the name of a file. -/
def nameLimit : Nat := 255

/-- The most bytes in a path. -/
def pathLimit : Nat := 4095

/-- Follow the names of a path from a location. -/
def follow (f : Folder) (reached : Location) : List String → Except FileError Place
  | [] => .ok (f.placeOf reached)
  | name :: rest =>
    match f.placeOf reached with
    | .file _ | .null => .error .notFolder
    | .missing => .error .notFound
    | .folder =>
      if name = "" || name = "." then follow f reached rest
      else if name = ".." then follow f reached.parent rest
      else if nameLimit < name.utf8ByteSize then .error .nameTooLong
      else follow f (reached.child name) rest

/-- What a path leads to, from the root of the system if a slash comes first. -/
def resolve (f : Folder) (path : String) : Except FileError Place :=
  if path.toList.contains '\x00' then .error .nameWithNull
  else if path.isEmpty then .error .notFound
  else if pathLimit < path.utf8ByteSize then .error .nameTooLong
  else f.follow (if path.toList.head? = some '/' then .system [] else .within []) (names path)

def read (f : Folder) (path : String) : Except FileError String :=
  match f.resolve path with
  | .error e => .error e
  | .ok (.file path) =>
    match f.files.lookup path with
    | some text => .ok text
    | none => .error .notFound
  | .ok .folder => .error .isFolder
  | .ok .null => .ok ""
  | .ok .missing => .error .notFound

/-- The folder with another text in a file that it has. -/
def write (f : Folder) (path text : String) : Except FileError Folder :=
  match f.resolve path with
  | .error e => .error e
  | .ok (.file path) =>
    .ok ⟨f.files.map fun (p, old) => if p = path then (p, text) else (p, old)⟩
  | .ok .folder => .error .isFolder
  | .ok .null => .ok f
  | .ok .missing => .error .notFound

/-- Access to the files of a folder that is carried along. -/
def access : FileAccess (StateM Folder) where
  read path := do return (← get).read path
  write path text := do
    match (← get).write path text with
    | .error e => return .error e
    | .ok changed =>
      set changed
      return .ok ()

end Folder
end MobSkills
