import MobSkills.Line.Parse
import MobSkills.Proofs.Number.ReadBack

/-!
# The grammar of skill lines

The language of a line over its tokens, each phrase with what it stands for. The
relations follow the grammar alone: an optional part may be taken or left wherever
the grammar has one, so a line can have more than one derivation. How a reader
chooses between them is not part of this module.
-/
namespace MobSkills.Grammar

/-- Kinds in which every closing one ends the last opening one before it. The end
marker is none of them. -/
inductive Balanced (opening closing : TokenKind) : List TokenKind → Prop
  | nil : Balanced opening closing []
  | other {k : TokenKind} {ks : List TokenKind} (ho : k ≠ opening) (hc : k ≠ closing)
      (he : k ≠ .endOfInput) (h : Balanced opening closing ks) : Balanced opening closing (k :: ks)
  | nested {inner ks : List TokenKind} (hi : Balanced opening closing inner)
      (h : Balanced opening closing ks) :
      Balanced opening closing (opening :: (inner ++ closing :: ks))

/-- An optional phrase. -/
inductive Maybe {α : Type} (P : List Token → α → Prop) : List Token → Option α → Prop
  | absent : Maybe P [] none
  | present {ts : List Token} {a : α} (h : P ts a) : Maybe P ts (some a)

/-- An optional symbol. -/
inductive Mark (kind : TokenKind) : List Token → Bool → Prop
  | absent : Mark kind [] false
  | present {t : Token} (h : t.kind = kind) : Mark kind [t] true

/-! ## Parameters -/

/-- STRING, NUMBER, IDENT, or any tokens in brackets whose brackets balance. -/
inductive ValueOf : List Token → Value → Prop
  | text {t : Token} (h : t.kind = .string) : ValueOf [t] (.text (Reading.unquote t.text))
  | number {t : Token} (h : t.kind = .number) : ValueOf [t] (Reading.numberValue t.text)
  | word {t : Token} (h : t.kind = .identifier) : ValueOf [t] (Reading.wordValue t.text)
  | list {o c : Token} {inner : List Token} (ho : o.kind = .openBracket)
      (hc : c.kind = .closeBracket)
      (h : Balanced .openBracket .closeBracket (inner.map Token.kind)) :
      ValueOf (o :: (inner ++ [c])) (.list (inner.map Token.text))

/-- IDENT `=` Value -/
inductive EntryOf : List Token → String × Value → Prop
  | mk {k e : Token} {ts : List Token} {v : Value} (hk : k.kind = .identifier)
      (he : e.kind = .equals) (hv : ValueOf ts v) : EntryOf (k :: e :: ts) (k.text, v)

/-- One entry or more, with a semicolon between each two and perhaps one at the end. -/
inductive EntriesOf : List Token → List (String × Value) → Prop
  | last {ts us : List Token} {e : String × Value} {marked : Bool} (h : EntryOf ts e)
      (hu : Mark .semicolon us marked) : EntriesOf (ts ++ us) [e]
  | cons {ts us : List Token} {s : Token} {e : String × Value} {es : List (String × Value)}
      (h : EntryOf ts e) (hs : s.kind = .semicolon) (hr : EntriesOf us es) :
      EntriesOf (ts ++ s :: us) (e :: es)

/-- An optional group of entries in braces; an empty pair of braces is no group. -/
inductive GroupOf : List Token → Option Params → Prop
  | absent : GroupOf [] none
  | empty {o c : Token} (ho : o.kind = .openBrace) (hc : c.kind = .closeBrace) :
      GroupOf [o, c] none
  | entries {o c : Token} {ts : List Token} {es : List (String × Value)}
      (ho : o.kind = .openBrace) (hc : c.kind = .closeBrace) (h : EntriesOf ts es) :
      GroupOf (o :: (ts ++ [c])) (some (Params.ofList es))

/-! ## Targeter, trigger and conditions -/

/-- `@` IDENT [Params] -/
inductive TargeterOf : List Token → Targeter → Prop
  | mk {a k : Token} {ts : List Token} {options : Option Params} (ha : a.kind = .atSign)
      (hk : k.kind = .identifier) (h : GroupOf ts options) :
      TargeterOf (a :: k :: ts) ⟨k.text, options⟩

/-- INT: a NUMBER made of digits after an optional minus sign. -/
def IsTicks (t : Token) : Prop :=
  t.kind = .number ∧ ∃ negative digits, t.text.toList = Binary64.signText negative ++ digits ∧
    digits ≠ [] ∧ AllDigits digits

/-- IDENT, or IDENT `:` INT, or an IDENT that ends in a colon and INT. -/
inductive NameOf : List Token → Trigger → Prop
  | word {t : Token} (h : t.kind = .identifier) : NameOf [t] (.ofWord t.text)
  | parted {t c n : Token} (h : t.kind = .identifier) (hc : c.kind = .colon) (hn : IsTicks n) :
      NameOf [t, c, n] ⟨t.text, some n.text⟩
  | fused {t n : Token} {name : List Char} (h : t.kind = .identifier)
      (ht : t.text.toList = name ++ [':']) (hn : IsTicks n) :
      NameOf [t, n] ⟨String.ofList name, some n.text⟩

/-- `~` Trig -/
inductive TriggerOf : List Token → Trigger → Prop
  | mk {s : Token} {ts : List Token} {t : Trigger} (hs : s.kind = .tilde) (h : NameOf ts t) :
      TriggerOf (s :: ts) t

/-- Any tokens in braces whose braces balance, with all their text. -/
inductive BracesOf : List Token → String → Prop
  | mk {o c : Token} {inner : List Token} (ho : o.kind = .openBrace) (hc : c.kind = .closeBrace)
      (h : Balanced .openBrace .closeBrace (inner.map Token.kind)) :
      BracesOf (o :: (inner ++ [c])) (String.join ((o :: (inner ++ [c])).map Token.text))

/-- `?` [`!`] IDENT [braces] -/
inductive ConditionOf : List Token → Condition → Prop
  | mk {q n : Token} {ms ts : List Token} {negated : Bool} {group : Option String}
      (hq : q.kind = .question) (hm : Mark .bang ms negated) (hn : n.kind = .identifier)
      (h : Maybe BracesOf ts group) :
      ConditionOf (q :: (ms ++ n :: ts)) ⟨negated, n.text, group⟩

inductive ConditionsOf : List Token → List Condition → Prop
  | nil : ConditionsOf [] []
  | cons {ts us : List Token} {c : Condition} {cs : List Condition} (h : ConditionOf ts c)
      (hr : ConditionsOf us cs) : ConditionsOf (ts ++ us) (c :: cs)

/-! ## Health and chance -/

/-- [`-`] NUMBER -/
inductive SignedOf : List Token → String → Prop
  | plain {n : Token} (hn : n.kind = .number) : SignedOf [n] n.text
  | minus {m n : Token} (hm : m.kind = .minus) (hn : n.kind = .number) :
      SignedOf [m, n] ("-" ++ n.text)

/-- `-` NUMBER, or a NUMBER that starts with a minus sign. -/
def BoundOf (ts : List Token) (text : String) : Prop :=
  SignedOf ts text ∧ text.toList.head? = some '-'

/-- What a health value holds: one number, or two that make a range. -/
inductive AmountOf : List Token → String → Prop
  | single {ts : List Token} {low : String} (h : SignedOf ts low) : AmountOf ts low
  | range {ts us : List Token} {low high : String} (h : SignedOf ts low) (hu : BoundOf us high) :
      AmountOf (ts ++ us) (low ++ high)

inductive SignOf : TokenKind → Comparison → Prop
  | below : SignOf .less .below
  | equal : SignOf .equals .equal
  | above : SignOf .greater .above

/-- (`<` or `=` or `>`) and an amount -/
inductive HealthOf : List Token → HealthGate → Prop
  | mk {t : Token} {ts : List Token} {c : Comparison} {value : String}
      (ht : SignOf t.kind c) (h : AmountOf ts value) : HealthOf (t :: ts) ⟨c, value⟩

/-- A NUMBER with a point, without a percent sign at the end, whose value is from
0 to 1. -/
inductive ChanceOf : List Token → Binary64 → Prop
  | mk {t : Token} {x : Binary64} (ht : t.kind = .number) (hp : '.' ∈ t.text.toList)
      (hs : t.text.toList.getLast? ≠ some '%') (hx : Binary64.read? t.text.toList = some x)
      (hr : Reading.inUnitRange x = true) : ChanceOf [t] x

/-! ## Lines -/

/-- [`-`] IDENT [Params] [Targeter] [Trigger] Cond* -/
inductive HeadOf : List Token → SkillLine → Prop
  | mk {ms ps as ss cs : List Token} {n : Token} {marked : Bool} {parameters : Option Params}
      {targeter : Option Targeter} {trigger : Option Trigger} {conditions : List Condition}
      (hm : Mark .minus ms marked) (hn : n.kind = .identifier) (hp : GroupOf ps parameters)
      (ha : Maybe TargeterOf as targeter) (hs : Maybe TriggerOf ss trigger)
      (hc : ConditionsOf cs conditions) :
      HeadOf (ms ++ n :: (ps ++ (as ++ (ss ++ cs))))
        { mechanic := n.text, parameters, targeter, trigger, conditions }

/-- The grammar of lines: a head, a health gate that may be absent and a chance that
may be absent. -/
inductive LineOf : List Token → SkillLine → Prop
  | mk {ts hs cs : List Token} {line : SkillLine} {health : Option HealthGate}
      {chance : Option Binary64} (h : HeadOf ts line) (hh : Maybe HealthOf hs health)
      (hc : Maybe ChanceOf cs chance) :
      LineOf (ts ++ (hs ++ cs)) { line with health, chance }

end MobSkills.Grammar
