import MobSkills.Text.Bytes

/-!
# Tokens of a skill line

A line is cut into words, numbers, quoted strings and single symbols. Blanks and
characters of no kind separate tokens and leave no trace. The only failure is a
quote that never closes.
-/
namespace MobSkills

inductive TokenKind where
  | identifier
  | number
  | string
  | openBrace
  | closeBrace
  | openBracket
  | closeBracket
  | semicolon
  | equals
  | atSign
  | tilde
  | question
  | less
  | greater
  | bang
  | colon
  | minus
  | endOfInput
deriving DecidableEq

namespace TokenKind

def ofSymbol? : Char → Option TokenKind
  | '\x7b' => some .openBrace
  | '\x7d' => some .closeBrace
  | '[' => some .openBracket
  | ']' => some .closeBracket
  | ';' => some .semicolon
  | '=' => some .equals
  | '@' => some .atSign
  | '~' => some .tilde
  | '?' => some .question
  | '<' => some .less
  | '>' => some .greater
  | '!' => some .bang
  | ':' => some .colon
  | '-' => some .minus
  | _ => none

/-- The kind as a listing names it: a symbol stands in single quotes. -/
def label : TokenKind → String
  | .identifier => "identifier"
  | .number => "number"
  | .string => "string"
  | .openBrace => "'\x7b'"
  | .closeBrace => "'\x7d'"
  | .openBracket => "'['"
  | .closeBracket => "']'"
  | .semicolon => "';'"
  | .equals => "'='"
  | .atSign => "'@'"
  | .tilde => "'~'"
  | .question => "'?'"
  | .less => "'<'"
  | .greater => "'>'"
  | .bang => "'!'"
  | .colon => "':'"
  | .minus => "'-'"
  | .endOfInput => "end of input"

end TokenKind

structure Token where
  kind : TokenKind
  /-- The characters as written; a string keeps its quotes and escapes. -/
  text : String
  /-- The byte offset of the first character in the line. -/
  position : Nat
deriving DecidableEq

inductive ScanError where
  | unterminatedString (position : Nat)
deriving DecidableEq

def ScanError.message : ScanError → String
  | .unterminatedString position =>
    "unterminated string starting at position " ++ toString position

namespace Token

/-- The characters that separate tokens: space, tab, return and line feed. -/
def isGap (c : Char) : Bool :=
  c == ' ' || c == '\t' || c == '\r' || c == '\n'

def isQuote (c : Char) : Bool :=
  c == '"' || c == '\''

/-- The characters of a word after its first letter. -/
def isWordChar (c : Char) : Bool :=
  c.isAlphanum || c == '_' || c == ':' || c == '-'

/-- The string opened by `quote` up to and with its closing quote, and the rest.
A backslash takes the next character with it. -/
def splitString (quote : Char) : List Char → Option (List Char × List Char)
  | [] => none
  | c :: r =>
    if c = '\\' then
      match r with
      | [] => none
      | d :: r' => (splitString quote r').map fun (body, rest) => (c :: d :: body, rest)
    else if c = quote then some ([c], r)
    else (splitString quote r).map fun (body, rest) => (c :: body, rest)

/-- A fraction: a point that a digit follows, and the digits. -/
def splitFraction : List Char → List Char × List Char
  | '.' :: d :: r =>
    if d.isDigit then ('.' :: d :: r.takeWhile Char.isDigit, r.dropWhile Char.isDigit)
    else ([], '.' :: d :: r)
  | s => ([], s)

def splitPercent : List Char → List Char × List Char
  | '%' :: r => (['%'], r)
  | s => ([], s)

/-- What a number has after its sign or first digit: digits, a fraction and a
percent sign, each as far as present. -/
def splitNumber (s : List Char) : List Char × List Char :=
  let whole := s.takeWhile Char.isDigit
  let (fraction, rest) := splitFraction (s.dropWhile Char.isDigit)
  let (percent, rest) := splitPercent rest
  (whole ++ fraction ++ percent, rest)

def splitWord (s : List Char) : List Char × List Char :=
  (s.takeWhile isWordChar, s.dropWhile isWordChar)

/-- What begins at a character. -/
inductive Step where
  /-- No token; the character is passed over. -/
  | gap
  /-- A token made of the character and `tail`. -/
  | token (kind : TokenKind) (tail rest : List Char)
  | unterminated
deriving DecidableEq

def startsWithDigit : List Char → Bool
  | c :: _ => c.isDigit
  | [] => false

def step (c : Char) (r : List Char) : Step :=
  if isGap c then .gap
  else if isQuote c then
    match splitString c r with
    | some (tail, rest) => .token .string tail rest
    | none => .unterminated
  else if c.isDigit || (c == '-' && startsWithDigit r) then
    .token .number (splitNumber r).1 (splitNumber r).2
  else if c.isAlpha then .token .identifier (splitWord r).1 (splitWord r).2
  else match TokenKind.ofSymbol? c with
    | some kind => .token kind [] r
    | none => .gap

theorem splitString_append {quote : Char} {s body rest : List Char}
    (h : splitString quote s = some (body, rest)) : body ++ rest = s := by
  fun_induction splitString quote s generalizing body with
  | case1 => simp at h
  | case2 => simp at h
  | case3 d r' ih =>
    obtain ⟨⟨b, t⟩, hb, he⟩ := Option.map_eq_some_iff.1 h
    obtain ⟨rfl, rfl⟩ := Prod.mk.inj he
    simp [ih hb]
  | case4 r hc =>
    obtain ⟨rfl, rfl⟩ := Prod.mk.inj (Option.some.inj h)
    simp
  | case5 c r hc hq ih =>
    obtain ⟨⟨b, t⟩, hb, he⟩ := Option.map_eq_some_iff.1 h
    obtain ⟨rfl, rfl⟩ := Prod.mk.inj he
    simp [ih hb]

theorem splitFraction_append (s : List Char) :
    (splitFraction s).1 ++ (splitFraction s).2 = s := by
  unfold splitFraction
  split
  · split <;> simp
  · rfl

theorem splitPercent_append (s : List Char) :
    (splitPercent s).1 ++ (splitPercent s).2 = s := by
  unfold splitPercent
  split <;> rfl

theorem splitNumber_append (s : List Char) :
    (splitNumber s).1 ++ (splitNumber s).2 = s := by
  simp only [splitNumber, List.append_assoc, splitPercent_append, splitFraction_append,
    List.takeWhile_append_dropWhile]

theorem splitWord_append (s : List Char) : (splitWord s).1 ++ (splitWord s).2 = s :=
  List.takeWhile_append_dropWhile

/-- A token and what follows it are the characters they were cut from. -/
theorem step_append {c : Char} {r tail rest : List Char} {kind : TokenKind}
    (h : step c r = .token kind tail rest) : tail ++ rest = r := by
  unfold step at h
  split at h
  · simp at h
  split at h
  · split at h
    · rename_i hs
      simp only [Step.token.injEq] at h
      obtain ⟨-, rfl, rfl⟩ := h
      exact splitString_append hs
    · simp at h
  split at h
  · simp only [Step.token.injEq] at h
    obtain ⟨-, rfl, rfl⟩ := h
    exact splitNumber_append r
  split at h
  · simp only [Step.token.injEq] at h
    obtain ⟨-, rfl, rfl⟩ := h
    exact splitWord_append r
  split at h
  · simp only [Step.token.injEq] at h
    obtain ⟨-, rfl, rfl⟩ := h
    rfl
  · simp at h

theorem length_rest_le {c : Char} {r tail rest : List Char} {kind : TokenKind}
    (h : step c r = .token kind tail rest) : rest.length ≤ r.length := by
  have := congrArg List.length (step_append h)
  simp only [List.length_append] at this
  omega

/-- The tokens of the characters from a byte offset on, with the end at last. -/
def scanFrom (position : Nat) (s : List Char) : Except ScanError (List Token) :=
  match s with
  | [] => .ok [⟨.endOfInput, "", position⟩]
  | c :: r =>
    match h : step c r with
    | .gap => scanFrom (position + c.utf8Size) r
    | .unterminated => .error (.unterminatedString position)
    | .token kind tail rest =>
      have : rest.length ≤ r.length := length_rest_le h
      match scanFrom (position + Text.byteLength (c :: tail)) rest with
      | .ok tokens => .ok (⟨kind, String.ofList (c :: tail), position⟩ :: tokens)
      | .error e => .error e
termination_by s.length
decreasing_by all_goals simp_wf; try omega

def scan (line : String) : Except ScanError (List Token) :=
  scanFrom 0 line.toList

end Token
end MobSkills
