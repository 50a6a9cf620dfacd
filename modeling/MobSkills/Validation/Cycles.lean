import MobSkills.Definition
import MobSkills.Validation.Skill

/-!
# Invocation cycles

Metaskills invoke each other by name, and a name leads to the first metaskill
that has it. A cycle is listed once, from its earliest member on: the search from
a member only visits later ones. Self-invocation is not a cycle here.
-/
namespace MobSkills.Validation

/-- The place of the first metaskill of a name. -/
def firstNamed? (p : Project) (name : String) : Option Nat :=
  p.metaskillNames.idxOf? name

/-- The other metaskills that a metaskill invokes, each once, as first invoked. -/
def edges (r : Registry) (p : Project) (index : Nat) : List Nat :=
  match p.metaskills[index]? with
  | none => []
  | some m =>
    ((m.skills.filterMap (invoked? r)).filterMap (firstNamed? p)).foldl (fun found target =>
      if target = index || found.contains target then found else found ++ [target]) []

/-- The cycles that go along `path` to `node` and back to `start`, through nodes
of `available` alone. -/
def cyclesFrom (next : Nat → List Nat) (start : Nat) (available path : List Nat) (node : Nat) :
    List (List Nat) :=
  (next node).flatMap fun target =>
    if target = start then [path ++ [node]]
    else if _h : target ∈ available then
      cyclesFrom next start (available.erase target) (path ++ [node]) target
    else []
termination_by available.length
decreasing_by
  rw [List.length_erase_of_mem _h]
  exact Nat.sub_lt (List.length_pos_of_mem _h) Nat.one_pos

/-- The cycles of a graph on the first `count` numbers, by their least member. -/
def simpleCycles (next : Nat → List Nat) (count : Nat) : List (List Nat) :=
  (List.range count).flatMap fun start =>
    cyclesFrom next start (List.range' (start + 1) (count - (start + 1))) [] start

/-- The names along a cycle, closed by repeating the first. -/
def cycleNames (p : Project) (cycle : List Nat) : List String :=
  let names := cycle.filterMap (p.metaskillNames[·]?)
  names ++ names.head?.toList

/-- The invocation cycles of two or more metaskills. -/
def invocationCycles (r : Registry) (p : Project) : List (List String) :=
  (simpleCycles (edges r p) p.metaskills.length).map (cycleNames p)

end MobSkills.Validation
