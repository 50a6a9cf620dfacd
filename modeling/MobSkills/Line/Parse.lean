import MobSkills.Line.Group

/-!
# Parsing of skill lines

A line is read part by part in the order of the grammar. A structural problem
ends the parse with the parts read so far; what is merely odd becomes a warning.
Only scanning can fail outright.
-/
namespace MobSkills

structure ParseOptions where
  /-- Take any number with a point as the chance, with a warning where it is not
  between 0 and 1, instead of leaving it. -/
  lenientChance : Bool := false
deriving DecidableEq

structure Outcome where
  line : SkillLine
  errors : List Problem
  warnings : List Problem
deriving DecidableEq

namespace Outcome

def isOk (o : Outcome) : Bool :=
  o.errors.isEmpty

/-- Neither errors nor warnings. -/
def isClean (o : Outcome) : Bool :=
  o.errors.isEmpty && o.warnings.isEmpty

end Outcome

namespace Reading

/-- A number token that counts ticks: digits after an optional minus. -/
def ticks? : List Token → Option (String × List Token)
  | t :: r =>
    if t.kind = .number && (Text.dropLeading '-' t.text).toList.all Char.isDigit then
      some (t.text, r)
    else none
  | [] => none

/-- A trigger after its tilde: one word, or a word and a tick count with a colon
between them that may be part of the word. -/
def trigger (tokens : List Token) : Reading Trigger :=
  match expect .identifier .triggerName tokens with
  | .error f => .error f
  | .ok (t, rest) =>
    let word := t.text.toList
    let fused :=
      if word.getLast? = some ':' then
        (ticks? rest).map fun (value, left) => (⟨String.ofList word.dropLast, some value⟩, left)
      else none
    let split := (skip? .colon rest).bind fun onward =>
      (ticks? onward).map fun (value, left) => (⟨t.text, some value⟩, left)
    .ok ((fused.or split).getD (.ofWord t.text, rest))

/-- A condition after its question mark. -/
def condition (tokens : List Token) : Reading Condition :=
  let (negated, tokens) := match skip? .bang tokens with
    | some r => (true, r)
    | none => (false, tokens)
  match expect .identifier .conditionName tokens with
  | .error f => .error f
  | .ok (name, tokens) =>
    match tokens with
    | [] => .ok (⟨negated, name.text, none⟩, [])
    | t :: r =>
      if t.kind = .openBrace then
        match braceText 0 r with
        | .ok (text, rest) => .ok (⟨negated, name.text, some (t.text ++ text)⟩, rest)
        | .error f => .error f
      else .ok (⟨negated, name.text, none⟩, t :: r)

theorem length_braceText {depth : Nat} {tokens rest : List Token} {text : String}
    (h : braceText depth tokens = .ok (text, rest)) : rest.length < tokens.length := by
  induction tokens generalizing depth text with
  | nil => simp [braceText] at h
  | cons t r ih =>
    rw [braceText] at h
    split at h
    · cases h
    split at h
    · cases h; simp
    split at h
    · rename_i hi
      cases h
      have := ih hi
      simp only [List.length_cons]
      omega
    · cases h

theorem length_skipBang (tokens : List Token) :
    (match skip? .bang tokens with
      | some r => (true, r)
      | none => (false, tokens)).2.length ≤ tokens.length := by
  split
  · rename_i h
    exact Nat.le_of_lt (length_skip? h)
  · exact Nat.le_refl _

theorem length_condition {tokens rest : List Token} {c : Condition}
    (h : condition tokens = .ok (c, rest)) : rest.length < tokens.length := by
  have hb := length_skipBang tokens
  simp only [condition] at h
  split at h
  · cases h
  rename_i he
  have he := length_expect he
  split at h
  · cases h
    simp only [List.length_nil] at he ⊢
    omega
  split at h
  · split at h
    · rename_i hr
      cases h
      have := length_braceText hr
      simp only [List.length_cons] at he
      omega
    · cases h
  · cases h
    omega

/-- All conditions in a row, each with its question mark. Those before a failing
one are kept beside the failure. -/
def conditions (tokens : List Token) :
    Except (List Condition × Failure) (List Condition × List Token) :=
  match _hs : skip? .question tokens with
  | none => .ok ([], tokens)
  | some onward =>
    match _hc : condition onward with
    | .error f => .error ([], f)
    | .ok (c, rest) =>
      match conditions rest with
      | .ok (more, left) => .ok (c :: more, left)
      | .error (more, f) => .error (c :: more, f)
termination_by tokens.length
decreasing_by
  have := length_skip? _hs
  have := length_condition _hc
  omega

/-- A number, with a minus that stands apart before it. -/
def signedNumber? : List Token → Option (String × List Token)
  | t :: r =>
    if t.kind = .number then some (t.text, r)
    else if t.kind = .minus then
      match r with
      | u :: r' => if u.kind = .number then some ("-" ++ u.text, r') else none
      | [] => none
    else none
  | [] => none

/-- The upper bound of a health range: a number with a minus before or in it. -/
def rangeEnd? (tokens : List Token) : Option (String × List Token) :=
  (signedNumber? tokens).filter fun (text, _) => text.toList.head? = some '-'

def comparison? (t : Token) : Option Comparison :=
  match t.kind with
  | .less => some .below
  | .equals => some .equal
  | .greater => some .above
  | _ => none

/-- A health value: a number or a range, empty with a warning where none is. -/
def healthValue (tokens : List Token) : String × List Problem × List Token :=
  match signedNumber? tokens with
  | none => ("", (tokens.head?.map (Problem.atToken .noHealthValue)).toList, tokens)
  | some (low, rest) =>
    match rangeEnd? rest with
    | some (high, left) => (low ++ high, [], left)
    | none => (low, [], rest)

/-- Whether a value is a chance: from 0 to 1, both included. -/
def inUnitRange (x : Binary64) : Bool :=
  Binary64.le .zero x && Binary64.le x (.ofInt 1)

/-- A number with a point and no percent sign, if its value may be the chance. -/
def chance (options : ParseOptions) (tokens : List Token) :
    Option Binary64 × List Problem × List Token :=
  match tokens with
  | [] => (none, [], [])
  | t :: r =>
    let s := t.text.toList
    if t.kind = .number && s.contains '.' && s.getLast? != some '%' then
      match Binary64.read? s with
      | none => (none, [], tokens)
      | some x =>
        if inUnitRange x then (some x, [], r)
        else if options.lenientChance then (some x, [.atToken (.chanceOutOfRange x) t], r)
        else (none, [], tokens)
    else (none, [], tokens)

/-- A targeter, if an at sign comes first. -/
def targeter (tokens : List Token) : Reading (Option Targeter) :=
  match skip? .atSign tokens with
  | none => .ok (none, tokens)
  | some onward =>
    match expect .identifier .targeterKind onward with
    | .error f => .error f
    | .ok (kind, rest) =>
      match group rest with
      | .ok (options, left) => .ok (some ⟨kind.text, options⟩, left)
      | .error f => .error f

/-- A trigger, if a tilde comes first. -/
def optionalTrigger (tokens : List Token) : Reading (Option Trigger) :=
  match skip? .tilde tokens with
  | none => .ok (none, tokens)
  | some onward =>
    match trigger onward with
    | .ok (t, rest) => .ok (some t, rest)
    | .error f => .error f

/-- The parts whose shape can be wrong, up to the conditions, with the tokens
after them; or the parts before the one that failed. -/
def structuralParts (tokens : List Token) :
    Except (SkillLine × Failure) (SkillLine × List Token) := do
  let tokens := (skip? .minus tokens).getD tokens
  let (name, tokens) ← (expect .identifier .mechanicName tokens).mapError (({}, ·))
  let line : SkillLine := { mechanic := name.text }
  let (parameters, tokens) ← (group tokens).mapError ((line, ·))
  let line := { line with parameters }
  let (targeter, tokens) ← (targeter tokens).mapError ((line, ·))
  let line := { line with targeter }
  let (trigger, tokens) ← (optionalTrigger tokens).mapError ((line, ·))
  let line := { line with trigger }
  let (conditions, tokens) ← (conditions tokens).mapError fun (read, f) =>
    ({ line with conditions := read }, f)
  return ({ line with conditions }, tokens)

/-- The health gate and the chance, which may be odd but not wrong. -/
def looseParts (options : ParseOptions) (line : SkillLine) (tokens : List Token) :
    SkillLine × List Problem × List Token :=
  let (health, odd, tokens) := match tokens with
    | [] => (none, [], [])
    | t :: r =>
      match comparison? t with
      | none => (none, [], t :: r)
      | some c =>
        let (value, odd, rest) := healthValue r
        (some ⟨c, value⟩, odd, rest)
  let (chance, odd', tokens) := chance options tokens
  ({ line with health, chance }, odd ++ odd', tokens)

/-- A warning about the tokens no part of the grammar has taken. -/
def trailing : List Token → List Problem
  | [] => []
  | t :: _ => if t.kind = .endOfInput then [] else [.atToken (.trailingInput t.text) t]

end Reading

namespace SkillLine

/-- Parse tokens, which need not come from a scan nor end with an end marker. -/
def parseTokens (options : ParseOptions) (tokens : List Token) : Outcome :=
  match Reading.structuralParts tokens with
  | .error (line, f) =>
    ⟨line, [f.problem ((tokens.getLast?.map (·.position)).getD 0)], []⟩
  | .ok (line, rest) =>
    let (line, odd, rest) := Reading.looseParts options line rest
    ⟨line, [], odd ++ Reading.trailing rest⟩

def parse (options : ParseOptions) (text : String) : Except ScanError Outcome :=
  (Token.scan text).map (parseTokens options)

end SkillLine
end MobSkills
