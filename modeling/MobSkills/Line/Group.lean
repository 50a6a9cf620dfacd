import MobSkills.Line.Problem

/-!
# Groups in braces and brackets

Reading of parameter groups, bracketed lists and the opaque brace groups of
conditions from tokens. Every reader answers the tokens it leaves, or the
expectation that was not met and where. A value takes its kind from its token.
-/
namespace MobSkills

/-- What was read and the tokens left, or the failure. -/
abbrev Reading (α : Type) := Except Failure (α × List Token)

namespace Reading

/-- The tokens after one of the given kind, if it comes first. -/
def skip? (kind : TokenKind) : List Token → Option (List Token)
  | t :: r => if t.kind = kind then some r else none
  | [] => none

/-- The first token, which has to be of the given kind. -/
def expect (kind : TokenKind) (expected : Expectation) : List Token → Reading Token
  | t :: r => if t.kind = kind then .ok (t, r) else .error ⟨expected, t :: r⟩
  | [] => .error ⟨expected, []⟩

/-- The characters without backslashes, each of which keeps the next one. -/
def decodeEscapes : List Char → List Char
  | [] => []
  | c :: r =>
    if c = '\\' then
      match r with
      | [] => []
      | d :: r' => d :: decodeEscapes r'
    else c :: decodeEscapes r

/-- The text of a quoted token: its opening quote dropped, its closing quote
dropped where it is there, and its escapes decoded. -/
def unquote (text : String) : String :=
  match text.toList with
  | [] => ""
  | quote :: inner =>
    let inner := if inner.getLast? = some quote then inner.dropLast else inner
    String.ofList (decodeEscapes inner)

/-- A percentage stays text, a point makes a real, and an integer that does not
fit stays text. -/
def numberValue (text : String) : Value :=
  let s := text.toList
  if s.getLast? = some '%' then .text text
  else if s.contains '.' then
    match Binary64.read? s with
    | some x => .real x
    | none => .text text
  else match readInt64? s with
    | some i => .integer i
    | none => .text text

/-- Whether a word stands for a truth value. -/
def isTruthWord (text : String) : Bool :=
  Text.eqIgnoreCase text "true" || Text.eqIgnoreCase text "false"

def wordValue (text : String) : Value :=
  if isTruthWord text then .boolean (Text.eqIgnoreCase text "true") else .text text

/-- How many inner pairs are open after a token, or none when the token closes the
group itself. -/
def nesting? (opening closing kind : TokenKind) (depth : Nat) : Option Nat :=
  if kind = opening then some (depth + 1)
  else if kind = closing then
    match depth with
    | 0 => none
    | depth + 1 => some depth
  else some depth

/-- The texts of the tokens up to the bracket that closes the list; `depth` is
the number of inner brackets still open. -/
def items (depth : Nat) : List Token → Reading (List String)
  | [] => .error ⟨.listEnd, []⟩
  | t :: r =>
    if t.kind = .endOfInput then .error ⟨.listEnd, t :: r⟩
    else match nesting? .openBracket .closeBracket t.kind depth with
      | none => .ok ([], r)
      | some depth =>
        match items depth r with
        | .ok (texts, rest) => .ok (t.text :: texts, rest)
        | .error f => .error f

/-- The joined texts of the tokens up to and with the brace that closes the
group; `depth` is the number of inner braces still open. -/
def braceText (depth : Nat) : List Token → Reading String
  | [] => .error ⟨.conditionEnd, []⟩
  | t :: r =>
    if t.kind = .endOfInput then .error ⟨.conditionEnd, t :: r⟩
    else match nesting? .openBrace .closeBrace t.kind depth with
      | none => .ok (t.text, r)
      | some depth =>
        match braceText depth r with
        | .ok (text, rest) => .ok (t.text ++ text, rest)
        | .error f => .error f

def value : List Token → Reading Value
  | [] => .error ⟨.parameterValue, []⟩
  | t :: r =>
    match t.kind with
    | .string => .ok (.text (unquote t.text), r)
    | .number => .ok (numberValue t.text, r)
    | .identifier => .ok (wordValue t.text, r)
    | .openBracket =>
      match items 0 r with
      | .ok (texts, rest) => .ok (.list texts, rest)
      | .error f => .error f
    | _ => .error ⟨.parameterValue, t :: r⟩

/-- `key = value` -/
def entry (tokens : List Token) : Reading (String × Value) :=
  match expect .identifier .parameterName tokens with
  | .error f => .error f
  | .ok (key, tokens) =>
    match expect .equals .equalsSign tokens with
    | .error f => .error f
    | .ok (_, tokens) =>
      match value tokens with
      | .error f => .error f
      | .ok (v, tokens) => .ok ((key.text, v), tokens)

theorem length_skip? {kind : TokenKind} {tokens rest : List Token}
    (h : skip? kind tokens = some rest) : rest.length < tokens.length := by
  cases tokens with
  | nil => simp [skip?] at h
  | cons t r =>
    simp only [skip?, Option.ite_none_right_eq_some, Option.some.injEq] at h
    obtain ⟨-, rfl⟩ := h
    simp

theorem length_expect {kind : TokenKind} {e : Expectation} {tokens rest : List Token} {t : Token}
    (h : expect kind e tokens = .ok (t, rest)) : rest.length < tokens.length := by
  cases tokens with
  | nil => simp [expect] at h
  | cons u r =>
    simp only [expect] at h
    split at h
    · simp only [Except.ok.injEq, Prod.mk.injEq] at h
      obtain ⟨-, rfl⟩ := h
      simp
    · simp at h

theorem length_items {depth : Nat} {tokens rest : List Token} {texts : List String}
    (h : items depth tokens = .ok (texts, rest)) : rest.length < tokens.length := by
  induction tokens generalizing depth texts with
  | nil => simp [items] at h
  | cons t r ih =>
    rw [items] at h
    split at h
    · cases h
    split at h
    · cases h; simp
    split at h
    · rename_i hi
      cases h
      have := ih hi
      simp only [List.length_cons]
      omega
    · cases h

theorem length_value {tokens rest : List Token} {v : Value}
    (h : value tokens = .ok (v, rest)) : rest.length < tokens.length := by
  cases tokens with
  | nil => simp [value] at h
  | cons t r =>
    simp only [value] at h
    split at h
    · cases h; simp
    · cases h; simp
    · cases h; simp
    · split at h
      · rename_i hi
        cases h
        have := length_items hi
        simp only [List.length_cons]
        omega
      · cases h
    · cases h

theorem length_entry {tokens rest : List Token} {e : String × Value}
    (h : entry tokens = .ok (e, rest)) : rest.length < tokens.length := by
  unfold entry at h
  split at h
  · cases h
  rename_i hk
  split at h
  · cases h
  rename_i he
  split at h
  · cases h
  rename_i hv
  cases h
  have := length_expect hk
  have := length_expect he
  have := length_value hv
  omega

/-- The entries of a group after its opening brace, inserted into `given`. One
semicolon may stand before the closing brace. -/
def entries (given : Params) (tokens : List Token) : Reading Params :=
  match _he : entry tokens with
  | .error f => .error f
  | .ok ((key, v), rest) =>
    let given := given.insert key v
    match _hs : skip? .semicolon rest with
    | some onward =>
      match skip? .closeBrace onward with
      | some left => .ok (given, left)
      | none => entries given onward
    | none =>
      match skip? .closeBrace rest with
      | some left => .ok (given, left)
      | none => .error ⟨.separator, rest⟩
termination_by tokens.length
decreasing_by
  have := length_entry _he
  have := length_skip? _hs
  omega

/-- A group that may be absent. An empty pair of braces counts as absent. -/
def group (tokens : List Token) : Reading (Option Params) :=
  match skip? .openBrace tokens with
  | none => .ok (none, tokens)
  | some inner =>
    match skip? .closeBrace inner with
    | some rest => .ok (none, rest)
    | none =>
      match entries .empty inner with
      | .ok (p, rest) => .ok (some p, rest)
      | .error f => .error f

end Reading
end MobSkills
