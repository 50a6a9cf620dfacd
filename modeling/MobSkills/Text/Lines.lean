import MobSkills.Text.Blank

/-!
# Lines of a text

A line ends at a line feed, and one carriage return before that line feed
belongs to the break. No empty line follows a final line feed, and a carriage
return that ends the text without a line feed stays in its line.
-/
namespace MobSkills.Text

/-- The pieces between line feeds, each with whether a line feed ended it. -/
def rawLines : List Char → List (List Char × Bool)
  | [] => []
  | c :: r =>
    if c = '\n' then ([], true) :: rawLines r
    else match rawLines r with
      | [] => [([c], false)]
      | (piece, ended) :: more => (c :: piece, ended) :: more

/-- A piece without the carriage return that belongs to its line break. -/
def dropReturn (piece : List Char) : List Char :=
  if piece.getLast? = some '\r' then piece.dropLast else piece

def lines (s : List Char) : List (List Char) :=
  (rawLines s).map fun (piece, ended) => if ended then dropReturn piece else piece

end MobSkills.Text
