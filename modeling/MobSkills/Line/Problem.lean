import MobSkills.Line.Basic
import MobSkills.Line.Token

/-!
# Problems of a skill line

What a parse may complain about. A problem carries its cause, and the wording is
one function of the cause. A structural problem ends the parse; the other causes
leave the shape of the line alone.
-/
namespace MobSkills

/-- What the grammar asks for at a place. -/
inductive Expectation where
  | mechanicName
  | targeterKind
  | triggerName
  | conditionName
  | parameterName
  | equalsSign
  | parameterValue
  | separator
  | listEnd
  | conditionEnd
deriving DecidableEq

def Expectation.message : Expectation → String
  | .mechanicName => "Expected mechanic name"
  | .targeterKind => "Expected targeter type after '@'"
  | .triggerName => "Expected trigger name after '~'"
  | .conditionName => "Expected condition name after '?'"
  | .parameterName => "Expected parameter name"
  | .equalsSign => "Expected '=' after parameter name"
  | .parameterValue => "Expected parameter value"
  | .separator => "Expected ';' or '\x7d' in parameter list"
  | .listEnd => "Unterminated list value, expected ']'"
  | .conditionEnd => "Unterminated condition parameters, expected '\x7d'"

inductive Cause where
  /-- Something else stands where the grammar asks for `what`. -/
  | found (what : Expectation) (text : String)
  /-- The end marker stands there. -/
  | foundEnd (what : Expectation)
  /-- The tokens run out there without an end marker. -/
  | exhausted (what : Expectation)
  | noHealthValue
  | chanceOutOfRange (value : Binary64)
  | trailingInput (text : String)
deriving DecidableEq

def Cause.message : Cause → String
  | .found what text => what.message ++ ", found '" ++ text ++ "'"
  | .foundEnd what => what.message ++ ", found end of input"
  | .exhausted what => what.message
  | .noHealthValue => "Health modifier has no value"
  | .chanceOutOfRange value =>
    "Chance " ++ value.text ++ " is outside the typical range 0.0-1.0"
  | .trailingInput text => "Ignored trailing input starting at '" ++ text ++ "'"

structure Problem where
  cause : Cause
  position : Nat
  /-- The text of the token at fault, unless it is the end marker. -/
  token : Option String
deriving DecidableEq

namespace Problem

def message (p : Problem) : String :=
  p.cause.message

def display (p : Problem) : String :=
  p.message ++ " at position " ++ toString p.position

/-- A problem with a token that is there. -/
def atToken (cause : Cause) (t : Token) : Problem :=
  ⟨cause, t.position, if t.kind = .endOfInput then none else some t.text⟩

end Problem

/-- An expectation that the remaining tokens do not meet. -/
structure Failure where
  expected : Expectation
  remaining : List Token
deriving DecidableEq

/-- The problem a failure is reported as. Where no token is left, it stands at
`last`, the position of the last token of the line. -/
def Failure.problem (last : Nat) (f : Failure) : Problem :=
  match f.remaining with
  | [] => ⟨.exhausted f.expected, last, none⟩
  | t :: _ =>
    .atToken (if t.kind = .endOfInput then .foundEnd f.expected else .found f.expected t.text) t

end MobSkills
