/-!
# Letter case and occurrence

Names are compared over the letters A to Z alone: every other character keeps
its case, so no locale or Unicode table is involved.
-/
namespace MobSkills.Text

/-- The text with the letters A to Z lowered. -/
def foldCase (s : String) : String :=
  String.ofList (s.toList.map Char.toLower)

@[simp] theorem foldCase_foldCase (s : String) : foldCase (foldCase s) = foldCase s := by
  have hchar : Char.toLower ∘ Char.toLower = Char.toLower := by
    funext c
    unfold Char.toLower
    grind
  rw [foldCase, foldCase, String.toList_ofList, List.map_map, hchar]

def eqIgnoreCase (a b : String) : Bool :=
  foldCase a == foldCase b

theorem eqIgnoreCase_iff {a b : String} : eqIgnoreCase a b = true ↔ foldCase a = foldCase b :=
  beq_iff_eq

/-- Whether `needle` stands somewhere in a list of characters. -/
def occursIn (needle : List Char) : List Char → Bool
  | [] => needle.isEmpty
  | c :: r => needle.isPrefixOf (c :: r) || occursIn needle r

theorem occursIn_iff {needle s : List Char} : occursIn needle s = true ↔ needle <:+: s := by
  induction s with
  | nil => rw [occursIn, List.isEmpty_iff, List.infix_nil]
  | cons c r ih =>
    rw [occursIn, Bool.or_eq_true, ih, List.isPrefixOf_iff_prefix, List.infix_cons_iff]

/-- Whether a folded query occurs in a text, whatever the case of the text. -/
def matchesFolded (query text : String) : Bool :=
  occursIn query.toList (foldCase text).toList

theorem matchesFolded_iff {query text : String} :
    matchesFolded query text = true ↔ query.toList <:+: (foldCase text).toList :=
  occursIn_iff

/-- The parts before and after the first `c`, if there is one. -/
def splitOnce (c : Char) (s : List Char) : Option (List Char × List Char) :=
  match s.dropWhile (· != c) with
  | [] => none
  | _ :: rest => some (s.takeWhile (· != c), rest)

/-- What stands after the last `c`, or everything. -/
def afterLast (c : Char) (s : List Char) : List Char :=
  (s.reverse.takeWhile (· != c)).reverse

/-- The text without a leading `c`. -/
def dropLeading (c : Char) (s : String) : String :=
  match s.toList with
  | d :: r => if d = c then String.ofList r else s
  | [] => s

end MobSkills.Text
