import MobSkills.Line.Parse

/-!
# Canonical text of skill lines

The one way a line is written: its parts in the order of the grammar with single
spaces between them, absent parts and empty groups left out. Text is quoted
unless it scans as one token that would be read back as the same text.
-/
namespace MobSkills

/-- Whether a text scans as one token equal to it whose value is that text: a
word that is not a truth word, or a percentage. -/
def isBareText (text : String) : Bool :=
  match Token.scan text with
  | .ok [t, last] =>
    last.kind = .endOfInput && t.text == text &&
      (if t.kind = .identifier then !Reading.isTruthWord text
        else t.kind = .number && text.toList.getLast? == some '%')
  | _ => false

/-- The characters with a backslash before each double quote and backslash. -/
def escapeQuoted (s : List Char) : List Char :=
  s.flatMap fun c => if c = '"' || c = '\\' then ['\\', c] else [c]

def renderText (text : String) : List Char :=
  if isBareText text then text.toList else '"' :: escapeQuoted text.toList ++ ['"']

/-- Texts with a separator between each two. -/
def joinWith (separator : List Char) (texts : List (List Char)) : List Char :=
  List.flatten (texts.intersperse separator)

namespace Value

def render : Value → List Char
  | .boolean b => if b then "true".toList else "false".toList
  | .integer i => (toString i.toInt).toList
  | .real x => x.pointed
  | .text s => renderText s
  | .list items => '[' :: joinWith [' '] (items.map String.toList) ++ [']']

end Value

namespace Params

/-- The entries in braces, in order. -/
def render (p : Params) : List Char :=
  let entries := p.entries.map fun (key, value) => key.toList ++ '=' :: value.render
  '\x7b' :: joinWith [';'] entries ++ ['\x7d']

/-- A group that may be absent; an empty one is written like an absent one. -/
def renderOption : Option Params → List Char
  | some p => if p.isEmpty then [] else p.render
  | none => []

end Params

namespace SkillLine

/-- The parts of a line that are there, each as its text. -/
def parts (line : SkillLine) : List (List Char) :=
  [line.mechanic.toList ++ Params.renderOption line.parameters] ++
    (line.targeter.map fun t => '@' :: t.kind.toList ++ Params.renderOption t.options).toList ++
    (line.trigger.map fun t => '~' :: t.display.toList).toList ++
    line.conditions.map (fun c => '?' :: c.display.toList) ++
    (line.health.map fun h => h.comparison.symbol :: h.value.toList).toList ++
    (line.chance.map Binary64.pointed).toList

/-- The canonical text of a line. -/
def render (line : SkillLine) : String :=
  String.ofList (joinWith [' '] line.parts)

/-- The canonical text of a source line that parses without errors and warnings.
Any other line has none, because text that was passed over would be lost. -/
def canonical? (options : ParseOptions) (source : String) : Option String :=
  match parse options source with
  | .ok outcome => if outcome.isClean then some outcome.line.render else none
  | .error _ => none

end SkillLine
end MobSkills
