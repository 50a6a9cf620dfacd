import MobSkills.Number.Decimal

/-!
# Arguments of the command line

Options start with two dashes and may stand among the other arguments, up to an
argument of two dashes alone. An option that is not known or is given twice, a
missing value and a wrong number of arguments are all errors of usage.
-/
namespace MobSkills

inductive Command where
  | parse (line : String) (json : Bool)
  | format (lines : List String)
  | check (project : String) (denyWarnings : Bool)
  | formatProject (project : String) (write : Bool)
  | complete (text : String) (cursor : Option Nat) (project : Option String)
  | search (query : String)
deriving DecidableEq

structure Invocation where
  settings : Option String
  command : Command
deriving DecidableEq

namespace Arguments

/-- The options that a command knows. -/
structure Known where
  flags : List String
  valued : List String

/-- Arguments sorted into options and the others. -/
structure Sorted where
  flags : List String := []
  values : List (String × String) := []
  others : List String := []

/-- The name of an option and the value joined to it by an equals sign. -/
def splitOption (option : List Char) : String × Option String :=
  match option.dropWhile (· != '=') with
  | [] => (String.ofList option, none)
  | _ :: value => (String.ofList (option.takeWhile (· != '=')), some (String.ofList value))

/-- Whether an argument is an option or the mark that ends them. -/
def isDashed (argument : String) : Bool :=
  argument.toList.head? = some '-' && argument != "-"

/-- An option whose value is known, unless it was given before. -/
def addValue (sorted : Sorted) (name value : String) : Option Sorted :=
  if (sorted.values.lookup name).isSome then none
  else some { sorted with values := sorted.values ++ [(name, value)] }

def addFlag (sorted : Sorted) (name : String) : Option Sorted :=
  if sorted.flags.contains name then none
  else some { sorted with flags := sorted.flags ++ [name] }

def sort (known : Known) (sorted : Sorted) : List String → Option Sorted
  | [] => some sorted
  | argument :: rest =>
    if !isDashed argument then sort known { sorted with others := sorted.others ++ [argument] } rest
    else match argument.toList with
      | ['-', '-'] => some { sorted with others := sorted.others ++ rest }
      | '-' :: '-' :: option =>
        match splitOption option with
        | (name, none) =>
          if known.flags.contains name then do sort known (← addFlag sorted name) rest
          else if known.valued.contains name then
            match rest with
            | value :: rest =>
              if isDashed value then none else do sort known (← addValue sorted name value) rest
            | [] => none
          else none
        | (name, some value) =>
          if known.valued.contains name then do sort known (← addValue sorted name value) rest
          else none
      | _ => none

/-- A path, which must not be empty. -/
def path? (value : String) : Option String :=
  if value.isEmpty then none else some value

/-- The value of an option that may be left out. -/
def option? {α : Type} (sorted : Sorted) (name : String) (read : String → Option α) :
    Option (Option α) :=
  match sorted.values.lookup name with
  | none => some none
  | some value => (read value).map some

def knownTo : String → Option Known
  | "parse" => some ⟨["json"], ["config"]⟩
  | "fmt" => some ⟨[], ["config"]⟩
  | "check" => some ⟨["deny-warnings"], ["config"]⟩
  | "fmt-project" => some ⟨["write"], ["config"]⟩
  | "complete" => some ⟨[], ["config", "cursor", "project"]⟩
  | "search" => some ⟨[], ["config"]⟩
  | _ => none

/-- The command of a name, from the arguments after it. -/
def command? (name : String) (sorted : Sorted) : Option Command :=
  match name, sorted.others with
  | "parse", [line] => some (.parse line (sorted.flags.contains "json"))
  | "fmt", first :: more => some (.format (first :: more))
  | "check", [project] =>
    (path? project).map fun p => .check p (sorted.flags.contains "deny-warnings")
  | "fmt-project", [project] =>
    (path? project).map fun p => .formatProject p (sorted.flags.contains "write")
  | "complete", [text] => do
    let cursor ← option? sorted "cursor" fun value => readWord? value.toList
    let project ← option? sorted "project" path?
    return .complete text cursor project
  | "search", [query] => some (.search query)
  | _, _ => none

/-- The settings file and the command name at the front, with what follows. -/
def leading (settings : Option String) : List String → Option (Option String × String × List String)
  | [] => none
  | argument :: rest =>
    if !isDashed argument then some (settings, argument, rest)
    else match argument.toList with
      | '-' :: '-' :: option =>
        match splitOption option, settings with
        | ("config", none), none =>
          match rest with
          | value :: rest => if isDashed value then none else leading (some value) rest
          | [] => none
        | ("config", some value), none => leading (some value) rest
        | _, _ => none
      | _ => none

/-- The invocation that arguments stand for, or none where their usage is wrong. The
settings file after the command name wins over the one before it. -/
def parse? (arguments : List String) : Option Invocation := do
  let (before, name, rest) ← leading none arguments
  let known ← knownTo name
  let sorted ← sort known {} rest
  let command ← command? name sorted
  let before ← match before with
    | none => some none
    | some value => (path? value).map some
  let after ← option? sorted "config" path?
  return ⟨after.or before, command⟩

end Arguments
end MobSkills
