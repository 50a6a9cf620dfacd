import MobSkills.Catalog.Search
import MobSkills.Command.Arguments
import MobSkills.Command.Files
import MobSkills.Command.Settings
import MobSkills.Completion.Suggestion
import MobSkills.Json.Line
import MobSkills.Json.Write
import MobSkills.Line.Listing
import MobSkills.Project.Format
import MobSkills.Project.Load
import MobSkills.Validation.Project

/-!
# Commands

What each command prints and with which code it ends: 0 for success, 1 for a
finding that counts as a failure, 2 where the command could not do its work. The
files are reached through the access that is given.
-/
namespace MobSkills

/-- What a command leaves behind. -/
structure Result where
  code : Nat := 0
  stdout : String := ""
  stderr : String := ""
deriving DecidableEq

namespace Command

/-- The code of a command that found something wrong, or nothing. -/
def codeOf (failed : Bool) : Nat :=
  if failed then 1 else 0

def unlines (lines : List String) : String :=
  String.join (lines.map (· ++ "\n"))

/-- The result of a command that could not do its work. -/
def failure (message : String) : Result :=
  { code := 2, stderr := "error: " ++ message ++ "\n" }

/-- How a message names a text that does not fit its TOML schema. -/
def malformed : String := "TOML parse error"

def problemLines (o : Outcome) : List String :=
  o.errors.map ("error: " ++ ·.display) ++ o.warnings.map ("warning: " ++ ·.display)

def runParse (options : ParseOptions) (line : String) (json : Bool) : Result :=
  match SkillLine.parse options line with
  | .error e => { code := 1, stderr := "error: " ++ e.message ++ "\n" }
  | .ok o =>
    if json then
      { code := codeOf (!o.isOk), stdout := (Json.ofOutcome o).indented ++ "\n" }
    else match o.line.listing with
      | .ok text =>
        { code := codeOf (!o.isOk), stdout := text ++ "\n", stderr := unlines (problemLines o) }
      | .error c =>
        failure ("serializing AST: Invalid identifier \"" ++ String.singleton c.symbol ++ "\"")

/-- One line in canonical form. A line with warnings is printed as it is, and one
with errors is not printed at all. -/
def formatLine (options : ParseOptions) (line : String) : Result :=
  match SkillLine.parse options line with
  | .error e => { code := 1, stderr := unlines [line, "error: " ++ e.message] }
  | .ok o =>
    if o.isClean then { stdout := o.line.render ++ "\n" }
    else if o.isOk then { stdout := line ++ "\n", stderr := unlines (problemLines o) }
    else { code := 1, stderr := unlines (line :: problemLines o) }

/-- The outputs of results one after the other, and the highest code. -/
def runFormat (options : ParseOptions) (lines : List String) : Result :=
  let results := lines.map (formatLine options)
  { code := (results.map (·.code)).foldl max 0
    stdout := String.join (results.map (·.stdout))
    stderr := String.join (results.map (·.stderr)) }

section

variable {m : Type → Type} [Monad m]

/-- The settings of a named file or of the default one. -/
def loadSettings (files : FileAccess m) (named : Option String) : m Settings := do
  let path := named.getD Settings.defaultFile
  match ← files.read path with
  | .error _ => return {}
  | .ok text => return (Settings.parse? path text).getD {}

/-- The standard registry with the overlays of the settings, or a message. -/
def loadRegistry (files : FileAccess m) (r : Registry) : List String → m (Except String Registry)
  | [] => return .ok r
  | path :: rest => do
    let place := "loading schema overlay '" ++ path ++ "': "
    match ← files.read path with
    | .error e =>
      return .error
        (place ++ "failed to read schema file " ++ path ++ ": " ++ e.message ++ ": " ++ e.message)
    | .ok text =>
      match Overlay.parse? text with
      | none => return .error (place ++ "malformed schema file: " ++ malformed)
      | some overlay => loadRegistry files (r.merge overlay) rest

/-- The project of a file, or a message. -/
def loadProject (files : FileAccess m) (options : ParseOptions) (path : String) :
    m (Except String LoadedProject) := do
  let place := "loading project '" ++ path ++ "': "
  match ← files.read path with
  | .error e =>
    return .error
      (place ++ "failed to read project file " ++ path ++ ": " ++ e.message ++ ": " ++ e.message)
  | .ok text =>
    match ProjectSource.parse? text with
    | none => return .error (place ++ "malformed project file: " ++ malformed)
    | some source => return .ok (source.load options)

/-- The lines that a check prints, and whether it fails. -/
def checkResult (r : Registry) (path : String) (loaded : LoadedProject) (denyWarnings : Bool) :
    Result :=
  let report := Validation.projectReport r loaded.project
  let issues := report.all.flatMap fun (owner, issues) =>
    issues.map fun i => owner ++ ": " ++ i.display
  let warnings := report.count .warning
  let ready := report.canExport && !loaded.hasErrors
  let summary := path ++ ": " ++ toString (report.count .error) ++ " error(s), " ++
    toString warnings ++ " warning(s)" ++ if ready then ", ready to export" else ""
  { code := codeOf (!ready || (denyWarnings && (0 < warnings || loaded.hasWarnings)))
    stdout := unlines (loaded.diagnostics.map (·.display) ++ issues ++ [summary]) }

def runCheck (files : FileAccess m) (s : Settings) (path : String) (denyWarnings : Bool) :
    m Result := do
  match ← loadRegistry files .standard s.overlays with
  | .error message => return failure message
  | .ok r =>
    match ← loadProject files s.parseOptions path with
    | .error message => return failure message
    | .ok loaded => return checkResult r path loaded (denyWarnings || s.denyWarnings)

def runFormatProject (files : FileAccess m) (s : Settings) (path : String) (write : Bool) :
    m Result := do
  match ← files.read path with
  | .error e => return failure ("reading '" ++ path ++ "': " ++ e.message)
  | .ok text =>
    match Project.format? s.parseOptions text with
    | none =>
      return failure ("formatting '" ++ path ++ "': could not edit project file: " ++ malformed)
    | some (formatted, changed) =>
      if write then
        let written ← if 0 < changed then files.write path formatted else pure (.ok ())
        match written with
        | .error e => return failure ("writing '" ++ path ++ "': " ++ e.message)
        | .ok () => return { stderr := toString changed ++ " skill line(s) rewritten\n" }
      else return { stdout := formatted }

def suggestionLine (s : Suggestion) : String :=
  s.text ++ "\t" ++ s.category.getD "" ++ "\t" ++ s.description.getD ""

def runComplete (files : FileAccess m) (s : Settings) (text : String) (cursor : Option Nat)
    (project : Option String) : m Result := do
  match ← loadRegistry files .standard s.overlays with
  | .error message => return failure message
  | .ok r =>
    let loaded : Except String (List Metaskill) ← match project with
      | none => pure (.ok [])
      | some path => do
        match ← loadProject files s.parseOptions path with
        | .error message => pure (.error message)
        | .ok loaded => pure (.ok loaded.project.metaskills)
    match loaded with
    | .error message => return failure message
    | .ok metaskills =>
      let context := Completion.contextAt text (cursor.getD (Text.byteLength text.toList))
      let found := Completion.suggestions r context metaskills s.suggestionLimit
      return { stdout := unlines (found.map suggestionLine) }

/-- A hit as one line, with the kind in a column of nine. -/
def hitLine (h : SearchHit) : String :=
  h.kind.label ++ String.ofList (List.replicate (9 - h.kind.label.length) ' ') ++ " " ++
    h.kind.sigil ++ h.name ++ " (" ++ toString h.score ++ ") " ++ h.description

def runSearch (files : FileAccess m) (s : Settings) (query : String) : m Result := do
  match ← loadRegistry files .standard s.overlays with
  | .error message => return failure message
  | .ok r =>
    let hits := r.search query
    return { code := codeOf hits.isEmpty, stdout := unlines (hits.map hitLine) }

/-- Run one invocation. -/
def run (files : FileAccess m) (i : Invocation) : m Result := do
  let s ← loadSettings files i.settings
  match i.command with
  | .parse line json => return runParse s.parseOptions line json
  | .format lines => return runFormat s.parseOptions lines
  | .check path denyWarnings => runCheck files s path denyWarnings
  | .formatProject path write => runFormatProject files s path write
  | .complete text cursor project => runComplete files s text cursor project
  | .search query => runSearch files s query

end

end Command
end MobSkills
