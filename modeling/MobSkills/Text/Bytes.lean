/-!
# Byte offsets into text

Positions are counted in the bytes of UTF-8. An offset past the end or inside a
character is pulled back to the nearest character boundary below it.
-/
namespace MobSkills.Text

/-- The number of bytes the characters take in UTF-8. -/
def byteLength : List Char → Nat
  | [] => 0
  | c :: r => c.utf8Size + byteLength r

@[simp] theorem byteLength_nil : byteLength [] = 0 := rfl

@[simp] theorem byteLength_cons (c : Char) (r : List Char) :
    byteLength (c :: r) = c.utf8Size + byteLength r := rfl

@[simp] theorem byteLength_append (a b : List Char) :
    byteLength (a ++ b) = byteLength a + byteLength b := by
  induction a with
  | nil => simp
  | cons c r ih => simp [ih, Nat.add_assoc]

/-- The longest prefix of at most `n` bytes, and what follows it. -/
def splitAtByte : Nat → List Char → List Char × List Char
  | _, [] => ([], [])
  | n, c :: r =>
    if c.utf8Size ≤ n then
      let (before, after) := splitAtByte (n - c.utf8Size) r
      (c :: before, after)
    else ([], c :: r)

theorem splitAtByte_append (n : Nat) (s : List Char) :
    (splitAtByte n s).1 ++ (splitAtByte n s).2 = s := by
  induction s generalizing n with
  | nil => rfl
  | cons c r ih =>
    by_cases h : c.utf8Size ≤ n
    · simp [splitAtByte, h, ih]
    · simp [splitAtByte, h]

/-- An offset pulled back to a character boundary of the text. -/
def clampOffset (s : List Char) (n : Nat) : Nat :=
  byteLength (splitAtByte n s).1

end MobSkills.Text
