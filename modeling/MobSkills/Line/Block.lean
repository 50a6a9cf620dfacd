import MobSkills.Line.Render
import MobSkills.Text.Lines

/-!
# Blocks of skill lines

A block holds one skill line a line, each after a list marker. Blank lines and
comment lines are passed over but counted.
-/
namespace MobSkills

structure BlockLine where
  /-- The number of the line in the block, from 1. -/
  number : Nat
  source : String
  outcome : Except ScanError Outcome

namespace SkillLine

/-- The parsed lines of a block. -/
def parseBlock (options : ParseOptions) (text : String) : List BlockLine :=
  (Text.lines text.toList).zipIdx.filterMap fun (raw, index) =>
    let source := Text.trim raw
    if source.isEmpty || source.head? = some '#' then none
    else some ⟨index + 1, String.ofList source, parse options (String.ofList source)⟩

/-- One list item for each line, in order, each ended by a line feed. -/
def renderBlock (lines : List SkillLine) : String :=
  String.join (lines.map fun line => "- " ++ line.render ++ "\n")

end SkillLine
end MobSkills
