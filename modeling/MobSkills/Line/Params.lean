import MobSkills.Line.Value

/-!
# Parameter groups

A group keeps its keys in the order of their first insertion, because a line is
written back in that order. Inserting a key again replaces its value in place.
-/
namespace MobSkills

structure Params where
  entries : List (String × Value)
deriving DecidableEq

namespace Params

def empty : Params := ⟨[]⟩

def keys (p : Params) : List String :=
  p.entries.map (·.1)

def size (p : Params) : Nat :=
  p.entries.length

def isEmpty (p : Params) : Bool :=
  p.entries.isEmpty

def get? (p : Params) (key : String) : Option Value :=
  p.entries.lookup key

/-- The first entry whose key is `key` in any case, with the key as written. -/
def findIgnoreCase? (p : Params) (key : String) : Option (String × Value) :=
  p.entries.find? fun entry => Text.eqIgnoreCase entry.1 key

/-- Entries with the value of `key` replaced, or a new entry at the end. -/
def insertEntry (key : String) (value : Value) : List (String × Value) → List (String × Value)
  | [] => [(key, value)]
  | entry :: rest =>
    if entry.1 = key then (key, value) :: rest
    else entry :: insertEntry key value rest

def insert (p : Params) (key : String) (value : Value) : Params :=
  ⟨insertEntry key value p.entries⟩

/-- The group without `key`; the other entries keep their order. -/
def erase (p : Params) (key : String) : Params :=
  ⟨p.entries.eraseP (·.1 == key)⟩

/-- `insertEntry` together with the value that the key had before. -/
def replaceEntry (key : String) (value : Value) :
    List (String × Value) → Option Value × List (String × Value)
  | [] => (none, [(key, value)])
  | entry :: rest =>
    if entry.1 = key then (some entry.2, (key, value) :: rest)
    else
      let (before, rest) := replaceEntry key value rest
      (before, entry :: rest)

/-- The value of `key` before an insertion, and the group after it. -/
def getThenInsert? (p : Params) (key : String) (value : Value) : Option Value × Params :=
  let (before, entries) := replaceEntry key value p.entries
  (before, ⟨entries⟩)

/-- The value of `key`, and the group without it. -/
def getThenErase? (p : Params) (key : String) : Option Value × Params :=
  match p.entries.findIdx? (·.1 == key) with
  | none => (none, p)
  | some place => (p.entries[place]?.map (·.2), ⟨p.entries.eraseIdx place⟩)

/-- The group made by inserting entries one after the other. -/
def ofList (entries : List (String × Value)) : Params :=
  entries.foldl (fun p entry => p.insert entry.1 entry.2) empty

/-- Equality entry by entry, in which reals compare as numbers. -/
def same (p q : Params) : Bool :=
  p.size == q.size &&
    (p.entries.zip q.entries).all fun (a, b) => a.1 == b.1 && a.2.same b.2

end Params
end MobSkills
