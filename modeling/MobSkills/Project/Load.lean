import MobSkills.Line.Parse
import MobSkills.Project.Source

/-!
# Loading of projects

Every skill line of a project is parsed in its place. What the parser has to say
about a line is kept beside the project; a line that cannot be scanned becomes an
empty one, so that the places of the others do not change.
-/
namespace MobSkills

/-- What is wrong or odd about one skill line of a project. -/
structure LineDiagnostic where
  owner : String
  index : Nat
  source : String
  errors : List String
  warnings : List String
deriving DecidableEq

namespace LineDiagnostic

/-- One message after the place of its line. -/
def messageLine (d : LineDiagnostic) (kind message : String) : String :=
  d.owner ++ " skills[" ++ toString d.index ++ "]: " ++ kind ++ ": " ++ message ++ "\n"

/-- The messages, one a line, and the source of the line under them. -/
def display (d : LineDiagnostic) : String :=
  String.join (d.errors.map (d.messageLine "error")) ++
    String.join (d.warnings.map (d.messageLine "warning")) ++ "    " ++ d.source

/-- Whether there is anything to say. -/
def isPresent (d : LineDiagnostic) : Bool :=
  !d.errors.isEmpty || !d.warnings.isEmpty

end LineDiagnostic

structure LoadedProject where
  project : Project
  diagnostics : List LineDiagnostic
deriving DecidableEq

namespace LoadedProject

def hasErrors (l : LoadedProject) : Bool :=
  l.diagnostics.any (!·.errors.isEmpty)

def hasWarnings (l : LoadedProject) : Bool :=
  l.diagnostics.any (!·.warnings.isEmpty)

end LoadedProject

namespace ProjectSource

/-- A parsed line and what there is to say about it. -/
def loadLine (options : ParseOptions) (owner : String) (index : Nat) (source : String) :
    SkillLine × LineDiagnostic :=
  match SkillLine.parse options source with
  | .ok o =>
    (o.line, ⟨owner, index, source, o.errors.map Problem.display, o.warnings.map Problem.display⟩)
  | .error e => ({}, ⟨owner, index, source, [e.message], []⟩)

/-- The lines of one owner, each in its place. -/
def loadLines (options : ParseOptions) (owner : String) (lines : List String) :
    List (SkillLine × LineDiagnostic) :=
  lines.zipIdx.map fun (source, index) => loadLine options owner index source

def skillsOf (loaded : List (SkillLine × LineDiagnostic)) : List SkillLine :=
  loaded.map Prod.fst

def diagnosticsOf (loaded : List (SkillLine × LineDiagnostic)) : List LineDiagnostic :=
  (loaded.map Prod.snd).filter (·.isPresent)

def mobLines (options : ParseOptions) (s : Source Mob) : List (SkillLine × LineDiagnostic) :=
  loadLines options ("mob " ++ s.definition.name) s.lines

def metaskillLines (options : ParseOptions) (s : Source Metaskill) :
    List (SkillLine × LineDiagnostic) :=
  loadLines options ("metaskill " ++ s.definition.name) s.lines

/-- The definitions with their parsed lines, and the diagnostics in their order. -/
def load (options : ParseOptions) (p : ProjectSource) : LoadedProject where
  project :=
    { mobs := p.mobs.map fun s =>
        { s.definition with skills := skillsOf (mobLines options s) }
      metaskills := p.metaskills.map fun s =>
        { s.definition with skills := skillsOf (metaskillLines options s) } }
  diagnostics :=
    p.mobs.flatMap (fun s => diagnosticsOf (mobLines options s)) ++
      p.metaskills.flatMap fun s => diagnosticsOf (metaskillLines options s)

end ProjectSource
end MobSkills
