import MobSkills.Toml.Basic

/-!
# Writing TOML documents

A document is written table by table in the order of its headers. The values of
dotted keys stand together where the first of them stood, and a part that keys
share is spelled each time as it was the first time. Line feeds alone end lines.
-/
namespace MobSkills.Toml

def Margin.around (m : Margin) (s : List Char) : List Char :=
  m.before.toList ++ s ++ m.after.toList

def printKey (path : List Key) : List Char :=
  List.intercalate ['.'] (path.map fun k => k.margin.around k.source.toList)

mutual

def Written.print : Written → List Char
  | .plain source _ => source.toList
  | .array items close =>
    '[' :: List.intercalate [','] (printItems items) ++ close.toList ++ [']']
  | .inline blank entries =>
    '\x7b' :: blank.toList ++ List.intercalate [','] (printEntries [] entries) ++ ['\x7d']

def printItems : List (Margin × Written) → List (List Char)
  | [] => []
  | (margin, item) :: rest => margin.around item.print :: printItems rest

/-- The values that one table gives under a key, each with its dotted key. -/
def Node.printValues (path : List Key) : Node → List (List Char)
  | .leaf margin value => [printKey path ++ '=' :: margin.around value.print]
  | .table .dotted entries => printEntries path entries
  | .table _ _ | .tables _ => []

def printEntries (path : List Key) : List (Key × Node) → List (List Char)
  | [] => []
  | (key, node) :: rest => node.printValues (path ++ [key]) ++ printEntries path rest

end

/-- The lines of one table, and the place of its header if it has one. -/
structure Section where
  place : Option Nat
  text : List Char

def unlines (lines : List (List Char)) : List Char :=
  lines.flatMap (· ++ ['\n'])

/-- A table with its own header. -/
def Section.ofTable (brackets : List Char × List Char) (path : List Key) (header : Header)
    (entries : List (Key × Node)) : Section :=
  ⟨header.place,
    unlines (header.margin.around (brackets.1 ++ printKey path ++ brackets.2) ::
      printEntries [] entries)⟩

/-- A table without a header. One is made for it if dotted keys of another table
have put values into it. -/
def Section.ofImplied (path : List Key) (entries : List (Key × Node)) : Section :=
  let lines := printEntries [] entries
  ⟨none, if lines.isEmpty then [] else unlines ([] :: ('[' :: printKey path ++ [']']) :: lines)⟩

mutual

/-- The tables at and below a key, outer ones first. What is written around a key
that stands only in dotted keys is not written in a header. -/
def Node.sections (path : List Key) (key : Key) : Node → List Section
  | .leaf _ _ => []
  | .table .dotted entries => sectionsIn (path ++ [{ key with margin := ⟨"", ""⟩ }]) entries
  | .table .implied entries =>
    .ofImplied (path ++ [key]) entries :: sectionsIn (path ++ [key]) entries
  | .table (.header h) entries =>
    .ofTable (['['], [']']) (path ++ [key]) h entries :: sectionsIn (path ++ [key]) entries
  | .tables items => sectionsOf (path ++ [key]) items

def sectionsIn (path : List Key) : List (Key × Node) → List Section
  | [] => []
  | (key, node) :: rest => node.sections path key ++ sectionsIn path rest

def sectionsOf (path : List Key) : List (Header × List (Key × Node)) → List Section
  | [] => []
  | (h, entries) :: rest =>
    .ofTable (['[', '['], [']', ']']) path h entries ::
      (sectionsIn path entries ++ sectionsOf path rest)

end

/-- The texts with their places; one without a place follows the one before it. -/
def placed (last : Nat) : List Section → List (Nat × List Char)
  | [] => []
  | s :: rest =>
    let place := s.place.getD last
    (place, s.text) :: placed place rest

def Document.print (d : Document) : String :=
  let top : Section := ⟨some 0, unlines (printEntries [] d.entries)⟩
  let inOrder := (placed 0 (top :: sectionsIn [] d.entries)).mergeSort (·.1 ≤ ·.1)
  String.ofList ((inOrder.flatMap (·.2) ++ d.ending.toList).filter (· != '\r'))

end MobSkills.Toml
