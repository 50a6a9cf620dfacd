import MobSkills.Proofs.Line.Acceptance
import MobSkills.Proofs.Line.ConditionText

/-!
# Seams between joined tokens

The text of a condition's braces is that of their tokens, joined without what stood between
them. A scan finds the tokens again where it finds each seam, and it misses a seam exactly
where the second token begins with a character that the first one takes. So the braces keep
their tokens exactly when no two neighbours run together in this way.
-/
namespace MobSkills

open Token (IsLexeme Cut Spells)

namespace Token

/-- What follows a text of the kind does not begin with a character that a token of this text
would take: a word takes what can be part of a word, and a number without a percent sign and
a minus sign take a digit. -/
def Seam (kind : TokenKind) (text after : List Char) : Prop :=
  ∀ c ∈ after.head?, match kind with
    | .identifier => isWordChar c = false
    | .number => c.isDigit = true → text.getLast? = some '%'
    | .minus => c.isDigit = false
    | _ => True

/-- The two tokens do not run together where they stand side by side. -/
def Apart (t u : Token) : Prop :=
  Seam t.kind t.text.toList u.text.toList

/-- A scan of the text finds tokens of these kinds and texts before the end. -/
def ScansAs (text : String) (ts : List Token) : Prop :=
  ∃ us, scan text = .ok (us ++ [endAt (Text.byteLength text.toList)]) ∧
    us.map kind = ts.map kind ∧ us.map Token.text = ts.map Token.text

/-! ## Numbers and what follows them -/

theorem splitFraction_percent {fraction : List Char} (h : IsFraction fraction) (b : List Char) :
    splitFraction (fraction ++ '%' :: b) = (fraction, '%' :: b) := by
  rcases h with rfl | ⟨digits, hn, hd, rfl⟩
  · rfl
  · obtain ⟨c, r, rfl⟩ := List.exists_cons_of_ne_nil hn
    have hr : AllDigits r := fun d hd' => hd d (List.mem_cons_of_mem c hd')
    have hstop : ∀ d ∈ ('%' :: b).head?, d.isDigit = false := by
      intro d hd
      cases hd
      rfl
    simp only [List.cons_append, splitFraction, hd c (List.mem_cons_self ..), ↓reduceIte,
      takeWhile_append_stop hstop, dropWhile_append_stop hstop, List.takeWhile_eq_self_iff.2 hr,
      List.dropWhile_eq_nil_iff.2 hr, List.nil_append]

/-- Nothing is added to a number that ends in a percent sign. -/
theorem splitNumber_append_of_percent {s : List Char} (hs : IsNumeralTail s)
    (hp : s.getLast? = some '%') (b : List Char) : splitNumber (s ++ b) = (s, b) := by
  obtain ⟨whole, fraction, percent, rfl, hw, hf, hpercent⟩ := hs
  rcases hpercent with rfl | rfl
  · have hmem : '%' ∈ whole ++ (fraction ++ []) := List.mem_of_getLast? hp
    rw [List.append_nil, List.mem_append] at hmem
    rcases hmem with hmem | hmem
    · exact absurd (hw _ hmem) (by decide)
    · rcases hf with rfl | ⟨digits, -, hd, rfl⟩
      · cases hmem
      rcases List.mem_cons.1 hmem with hpoint | hmem
      · cases hpoint
      · exact absurd (hd _ hmem) (by decide)
  · have hstop : ∀ c ∈ (fraction ++ '%' :: b).head?, c.isDigit = false := by
      intro c hc
      rcases hf with rfl | ⟨digits, -, -, rfl⟩ <;> cases hc <;> rfl
    simp only [splitNumber, List.append_assoc, List.singleton_append, takeWhile_append_stop hstop,
      dropWhile_append_stop hstop, List.takeWhile_eq_self_iff.2 hw, List.dropWhile_eq_nil_iff.2 hw,
      List.nil_append, splitFraction_percent hf, splitPercent]

theorem not_isDigit_splitFraction (s : List Char) :
    ∀ c ∈ (splitFraction (s.dropWhile Char.isDigit)).2.head?, c.isDigit = false := by
  have hstop (r : List Char) : ∀ c ∈ (r.dropWhile Char.isDigit).head?, c.isDigit = false := by
    intro c hc
    have hhead := List.head?_dropWhile_not Char.isDigit r
    rwa [Option.mem_def.1 hc] at hhead
  unfold splitFraction
  split
  · rename_i d r hs
    split
    · exact hstop r
    · rw [← hs]
      exact hstop s
  · exact hstop s

/-- A digit that follows a number was not taken because of a percent sign. -/
theorem getLast?_of_splitNumber {s a b : List Char} {d : Char} (h : splitNumber s = (a, d :: b))
    (hd : d.isDigit = true) : a.getLast? = some '%' := by
  have hstop := not_isDigit_splitFraction s
  simp only [splitNumber, Prod.mk.injEq] at h
  obtain ⟨ha, hb⟩ := h
  generalize splitFraction (s.dropWhile Char.isDigit) = parts at ha hb hstop
  obtain ⟨fraction, rest⟩ := parts
  unfold splitPercent at ha hb
  split at hb
  · rename_i r hrest
    dsimp only at hrest
    subst hrest
    rw [← ha]
    simp
  · dsimp only at hb hstop
    have hdigit := hstop d (by rw [hb]; rfl)
    rw [hd] at hdigit
    cases hdigit

/-! ## One seam -/

section
variable {c : Char} {r b : List Char} {kind : TokenKind}

/-- A lexeme begins with neither a point nor a percent sign. -/
theorem IsLexeme.head?_ne {s : List Char} (h : IsLexeme kind s) :
    ∀ d ∈ s.head?, d ≠ '.' ∧ d ≠ '%' := by
  cases s with
  | nil => cases h
  | cons c r =>
    intro d hd
    obtain rfl : c = d := by simpa using hd
    constructor
    · rintro rfl
      cases h
    · rintro rfl
      cases h

theorem getLast?_tail_of_percent (hc : c ≠ '%') (h : (c :: r).getLast? = some '%') :
    r.getLast? = some '%' := by
  cases r with
  | nil => exact absurd (Option.some.inj h) hc
  | cons d r => rwa [List.getLast?_cons_cons] at h

/-- At a seam, a lexeme is taken as it is. -/
theorem step_of_seam (h : IsLexeme kind (c :: r)) (hs : Seam kind (c :: r) b)
    (hb : ∀ d ∈ b.head?, d ≠ '.' ∧ d ≠ '%') : step c (r ++ b) = .token kind r b := by
  have htake (hstops : Stops kind b) : step c (r ++ b) = .token kind r b := by
    have happ := step_append_stop h hstops
    rwa [List.nil_append] at happ
  rcases step_eq_token h with ⟨rfl, -, -⟩ | ⟨rfl, hn, hr⟩ | ⟨rfl, -, -⟩ | ⟨hk, -, -, -⟩
  · exact htake fun d hd => trivial
  · by_cases hp : (c :: r).getLast? = some '%'
    · have hc : c ≠ '%' := (h.head?_ne c rfl).2
      have htail : IsNumeralTail r := by
        have hsplit := isNumeralTail_splitNumber r
        rwa [hr] at hsplit
      have hstart : c.isDigit = true ∨ c = '-' ∧ startsWithDigit (r ++ b) = true := by
        refine hn.imp_right fun ⟨hminus, hdigit⟩ => ⟨hminus, ?_⟩
        cases r with
        | nil => cases hdigit
        | cons d r => exact hdigit
      rw [step_number hstart,
        splitNumber_append_of_percent htail (getLast?_tail_of_percent hc hp) b]
    · refine htake fun d hd => ⟨?_, hb d hd⟩
      exact eq_false_of_ne_true fun hdigit => hp (hs d hd hdigit)
  · exact htake hs
  · apply htake
    intro d hd
    obtain ⟨hi, hnum, -⟩ := ofSymbol?_kind hk
    have hseam := hs d hd
    cases kind with
    | identifier => exact absurd rfl hi
    | number => exact absurd rfl hnum
    | minus => exact hseam
    | _ => trivial

/-- Where a lexeme is taken as it is, there is a seam. -/
theorem seam_of_step (h : step c (r ++ b) = .token kind r b) : Seam kind (c :: r) b := by
  intro d hd
  rcases step_eq_token h with ⟨rfl, -, -⟩ | ⟨rfl, -, hr⟩ | ⟨rfl, -, hr⟩ | ⟨hk, hminus, rfl, -⟩
  · trivial
  · intro hdigit
    cases b with
    | nil => cases hd
    | cons e b =>
      obtain rfl : e = d := by simpa using hd
      have hlast := getLast?_of_splitNumber hr hdigit
      cases r with
      | nil => cases hlast
      | cons x r => rwa [List.getLast?_cons_cons]
  · have hstop := List.head?_dropWhile_not isWordChar (r ++ b)
    have hrest : (r ++ b).dropWhile isWordChar = b := (Prod.mk.inj hr).2
    rwa [hrest, Option.mem_def.1 hd] at hstop
  · obtain ⟨hi, hnum, -⟩ := ofSymbol?_kind hk
    cases kind with
    | identifier => exact absurd rfl hi
    | number => exact absurd rfl hnum
    | minus =>
      obtain rfl := ofSymbol?_injective hk (d := '-') rfl
      cases b with
      | nil => cases hd
      | cons e b =>
        obtain rfl : e = d := by simpa using hd
        exact hminus rfl
    | _ => trivial

end

/-! ## All seams of a joined text -/

section
variable {ts : List Token}

theorem IsLexeme.exists_cons {kind : TokenKind} {s : List Char} (h : IsLexeme kind s) :
    ∃ c r, s = c :: r := by
  cases s with
  | nil => cases h
  | cons c r => exact ⟨c, r, rfl⟩

theorem toList_join_cons (t : Token) (ts : List Token) :
    (String.join ((t :: ts).map Token.text)).toList =
      t.text.toList ++ (String.join (ts.map Token.text)).toList := by
  rw [List.map_cons, String.join_cons, String.toList_append]

/-- A joined text begins as its first token does. -/
theorem head?_join {u : Token} (hu : IsLexeme u.kind u.text.toList) (ts : List Token) :
    (String.join ((u :: ts).map Token.text)).toList.head? = u.text.toList.head? := by
  obtain ⟨c, r, hc⟩ := hu.exists_cons
  rw [toList_join_cons, hc]
  rfl

/-- Tokens that are apart are found again in their joined text. -/
theorem exists_cut_of_isChain (hl : ∀ t ∈ ts, IsLexeme t.kind t.text.toList)
    (h : ts.IsChain Apart) (p : Nat) :
    ∃ us, Cut p (String.join (ts.map Token.text)).toList us ∧ us.map kind = ts.map kind ∧
      us.map Token.text = ts.map Token.text := by
  induction ts generalizing p with
  | nil => exact ⟨[], .done p, rfl, rfl⟩
  | cons t ts ih =>
    have ht := hl t (List.mem_cons_self ..)
    have hts : ∀ u ∈ ts, IsLexeme u.kind u.text.toList := fun u hu => hl u (List.mem_cons_of_mem t hu)
    obtain ⟨us, hcut, hk, htext⟩ := ih hts h.of_cons (p + Text.byteLength t.text.toList)
    have hseam : Seam t.kind t.text.toList (String.join (ts.map Token.text)).toList ∧
        ∀ d ∈ (String.join (ts.map Token.text)).toList.head?, d ≠ '.' ∧ d ≠ '%' := by
      cases ts with
      | nil =>
        refine ⟨?_, ?_⟩ <;> intro d hd <;> cases hd
      | cons u ts =>
        have hu := hts u (List.mem_cons_self ..)
        rw [Seam, head?_join hu]
        exact ⟨(List.isChain_cons_cons.1 h).1, hu.head?_ne⟩
    obtain ⟨c, r, hc⟩ := ht.exists_cons
    rw [toList_join_cons]
    rw [hc] at ht hseam hcut ⊢
    refine ⟨_, .token (step_of_seam ht hseam.1 hseam.2) hcut, ?_, ?_⟩
    · rw [List.map_cons, List.map_cons, hk]
    · rw [List.map_cons, List.map_cons, htext, ← hc, String.ofList_toList]

/-- Tokens that are found again in their joined text are apart. -/
theorem isChain_of_cut (hl : ∀ t ∈ ts, IsLexeme t.kind t.text.toList) {p : Nat}
    {us : List Token} (hcut : Cut p (String.join (ts.map Token.text)).toList us)
    (hk : us.map kind = ts.map kind) (htext : us.map Token.text = ts.map Token.text) :
    ts.IsChain Apart := by
  induction ts generalizing p us with
  | nil => exact .nil
  | cons t ts ih =>
    have ht := hl t (List.mem_cons_self ..)
    have hts : ∀ u ∈ ts, IsLexeme u.kind u.text.toList := fun u hu => hl u (List.mem_cons_of_mem t hu)
    obtain ⟨c, r, hc⟩ := ht.exists_cons
    rw [toList_join_cons, hc, List.cons_append] at hcut
    rw [hc] at ht
    obtain ⟨v, us, rfl, hkind, hkinds⟩ := List.map_eq_cons_iff.1 hk
    obtain ⟨hvtext, htexts⟩ := List.cons.inj htext
    cases hcut with
    | gap hstep _ =>
      have hgap := step_eq_gap hstep r
      rw [show step c r = .token t.kind r [] from ht] at hgap
      cases hgap
    | @token _ _ _ tail rest _ _ hstep hrest =>
      -- The first token has the text of `t`, so what is left is the joined text of the others.
      have htail : tail = r := by
        have hlist := congrArg String.toList hvtext
        rw [String.toList_ofList, hc] at hlist
        exact (List.cons.inj hlist).2
      subst htail
      obtain rfl : rest = (String.join (ts.map Token.text)).toList :=
        List.append_cancel_left (step_append hstep)
      have hchain := ih hts hrest hkinds htexts
      dsimp only at hkind
      rw [hkind] at hstep
      have hseam := seam_of_step hstep
      rw [← hc] at hseam
      cases ts with
      | nil => exact .singleton t
      | cons u ts =>
        rw [Seam, head?_join (hts u (List.mem_cons_self ..))] at hseam
        exact .cons_cons hseam hchain

theorem scansAs_join_iff (hl : ∀ t ∈ ts, IsLexeme t.kind t.text.toList) :
    ScansAs (String.join (ts.map Token.text)) ts ↔ ts.IsChain Apart := by
  constructor
  · intro h
    obtain ⟨us, hscan, hk, htext⟩ := h
    obtain ⟨vs, hcut, happ⟩ := scan_eq_ok_iff.1 hscan
    obtain ⟨rfl, -⟩ := List.append_inj' happ rfl
    exact isChain_of_cut hl hcut hk htext
  · intro h
    obtain ⟨us, hcut, hk, htext⟩ := exists_cut_of_isChain hl h 0
    exact ⟨us, scan_eq_ok_iff.2 ⟨us, hcut, rfl⟩, hk, htext⟩

end
end Token

/-! ## The braces of a line -/

open Token (ScansAs Apart)
open Grammar

/-- The condition is read from the tokens, and its brace text has the tokens of their braces
exactly where no two neighbours of them run together. -/
def KeepsSeams (tokens : List Token) (c : Condition) : Prop :=
  ConditionOf tokens c ∧ ∀ g ∈ c.group, ∃ lead braces, tokens = lead ++ braces ∧
    BracesOf braces g ∧ (ScansAs g braces ↔ braces.IsChain Apart)

theorem keepsSeams_of_conditionOf {ts : List Token} {c : Condition} (h : ConditionOf ts c)
    (hl : ∀ t ∈ ts, IsLexeme t.kind t.text.toList) : KeepsSeams ts c := by
  refine ⟨h, ?_⟩
  intro g hg
  cases h with
  | @mk q n ms bs negated group _ _ _ hbraces =>
    cases hbraces with
    | absent => cases hg
    | present hbraces =>
      obtain rfl := Option.some.inj hg
      refine ⟨q :: (ms ++ [n]), bs, by simp, hbraces, ?_⟩
      rw [bracesOf_eq_join hbraces]
      exact Token.scansAs_join_iff fun t ht => hl t (by simp [ht])

theorem exists_slices {ts : List Token} {cs : List Condition} (h : ConditionsOf ts cs)
    (hl : ∀ t ∈ ts, IsLexeme t.kind t.text.toList) :
    ∃ slices : List (List Token), ts = slices.flatten ∧ List.Forall₂ KeepsSeams slices cs := by
  induction h with
  | nil => exact ⟨[], rfl, .nil⟩
  | @cons ts us c cs h _ ih =>
    obtain ⟨slices, rfl, hslices⟩ := ih fun t ht => hl t (List.mem_append_right _ ht)
    have hfirst := keepsSeams_of_conditionOf h fun t ht => hl t (List.mem_append_left _ ht)
    exact ⟨ts :: slices, rfl, .cons hfirst hslices⟩

/-- The conditions of a head stand behind its other parts. -/
theorem Grammar.HeadOf.exists_conditionsOf {ts : List Token} {line : SkillLine} (h : HeadOf ts line) :
    ∃ before cs, ts = before ++ cs ∧
      HeadOf before { line with conditions := [], health := none, chance := none } ∧
      ConditionsOf cs line.conditions := by
  cases h with
  | @mk ms ps as ss cs n marked parameters targeter trigger conditions hm hn hp ha hs hc =>
    exact ⟨ms ++ n :: (ps ++ (as ++ (ss ++ []))), cs, by simp, .mk hm hn hp ha hs .nil, hc⟩

/-- A line without errors has the head that its structural parts give. -/
theorem exists_headOf_of_errors_eq_nil {options : ParseOptions} {ts : List Token}
    (hl : Lexed ts) (h : (SkillLine.parseTokens options ts).errors = []) :
    ∃ front rest line health chance, ts = front ++ rest ∧ HeadOf front line ∧
      (SkillLine.parseTokens options ts).line = { line with health, chance } := by
  cases hparts : Reading.structuralParts ts with
  | error e =>
    rw [SkillLine.parseTokens, hparts] at h
    cases h
  | ok parts =>
    obtain ⟨line, rest⟩ := parts
    obtain ⟨front, rfl, hhead⟩ := exists_headOf hl hparts
    generalize hread : (Reading.looseParts options line rest).1 = read
    refine ⟨front, rest, line, read.health, read.chance, rfl, hhead, ?_⟩
    rw [SkillLine.parseTokens, hparts, ← hread]
    rfl

/-- In a line without errors, the conditions stand one after the other behind the trigger, and
the brace text of each has the tokens of its braces exactly where no two neighbours of them
run together without what stood between them. -/
theorem braces_scan_iff_apart {options : ParseOptions} {text : String} {outcome : Outcome}
    (h : SkillLine.parse options text = .ok outcome) (herrors : outcome.errors = []) :
    ∃ before slices after,
      Token.scan text = .ok (before ++ (slices.flatten ++ after)) ∧
      HeadOf before { outcome.line with conditions := [], health := none, chance := none } ∧
      List.Forall₂ KeepsSeams slices outcome.line.conditions := by
  cases hscan : Token.scan text with
  | error e =>
    rw [SkillLine.parse, hscan] at h
    cases h
  | ok tokens =>
    rw [SkillLine.parse, hscan] at h
    obtain rfl := Except.ok.inj h
    obtain ⟨ts, hcut, rfl⟩ := Token.scan_eq_ok_iff.1 hscan
    obtain ⟨hl, -⟩ := lexed_of_cut hcut
    obtain ⟨front, rest, line, health, chance, happ, hhead, hline⟩ :=
      exists_headOf_of_errors_eq_nil (hl.concat_end rfl) herrors
    obtain ⟨us, rfl, rfl⟩ := hhead.inside.exists_rest rfl happ
    obtain ⟨before, cs, rfl, hbefore, hconditions⟩ := hhead.exists_conditionsOf
    obtain ⟨slices, rfl, hslices⟩ :=
      exists_slices hconditions fun t ht => hcut.isLexeme t (by simp [ht])
    refine ⟨before, slices, us ++ [Token.endAt (Text.byteLength text.toList)], ?_, ?_, ?_⟩
    · simp only [List.append_assoc]
    · rw [hline]
      exact hbefore
    · rw [hline]
      exact hslices

/-- The word and the number of the first group run together, the two numbers of the second
group do not. -/
theorem braces_scan_iff_apart_groups :
    ∃ outcome, SkillLine.parse {} "m ?c\x7ba 5.5\x7d ?!d\x7bx=5% 5;'s'y\x7d" = .ok outcome ∧
      outcome.errors = [] ∧ outcome.line.conditions =
        [⟨false, "c", some "\x7ba5.5\x7d"⟩, ⟨true, "d", some "\x7bx=5%5;'s'y\x7d"⟩] ∧
      ∃ before slices after,
        Token.scan "m ?c\x7ba 5.5\x7d ?!d\x7bx=5% 5;'s'y\x7d" =
          .ok (before ++ (slices.flatten ++ after)) ∧
        HeadOf before { outcome.line with conditions := [], health := none, chance := none } ∧
        List.Forall₂ KeepsSeams slices outcome.line.conditions := by
  have hparse : SkillLine.parse {} "m ?c\x7ba 5.5\x7d ?!d\x7bx=5% 5;'s'y\x7d" = .ok ⟨
      { mechanic := "m", conditions :=
        [⟨false, "c", some "\x7ba5.5\x7d"⟩, ⟨true, "d", some "\x7bx=5%5;'s'y\x7d"⟩] },
      [], []⟩ := by
    rw [eq_ok_iff_toOption, SkillLine.parse, Token.scan_ofList]
    decide +kernel
  exact ⟨_, hparse, rfl, rfl, braces_scan_iff_apart hparse rfl⟩

/-- Two words of a group become one. -/
theorem braces_merge_words :
    let braces : List Token := [⟨.openBrace, "\x7b", 4⟩, ⟨.identifier, "a", 5⟩,
      ⟨.identifier, "b", 7⟩, ⟨.closeBrace, "\x7d", 8⟩]
    Token.scan "m ?c\x7ba b\x7d" = .ok ([⟨.identifier, "m", 0⟩, ⟨.question, "?", 2⟩,
        ⟨.identifier, "c", 3⟩] ++ (braces ++ [⟨.endOfInput, "", 9⟩])) ∧
      SkillLine.parse {} "m ?c\x7ba b\x7d" = .ok ⟨
        { mechanic := "m", conditions := [⟨false, "c", some "\x7bab\x7d"⟩] }, [], []⟩ ∧
      BracesOf braces "\x7bab\x7d" ∧ ¬ ScansAs "\x7bab\x7d" braces := by
  intro braces
  have hscan : Token.scan "m ?c\x7ba b\x7d" = .ok ([⟨.identifier, "m", 0⟩, ⟨.question, "?", 2⟩,
      ⟨.identifier, "c", 3⟩] ++ (braces ++ [⟨.endOfInput, "", 9⟩])) := by
    refine Token.scan_eq_of_cut ?_ rfl
    repeat first | exact .done _ | refine .token rfl ?_ | refine .gap rfl ?_
  have hparse : SkillLine.parse {} "m ?c\x7ba b\x7d" = .ok ⟨
      { mechanic := "m", conditions := [⟨false, "c", some "\x7bab\x7d"⟩] }, [], []⟩ := by
    rw [SkillLine.parse, hscan]
    cbv
  have hwords : Balanced .openBrace .closeBrace [.identifier, .identifier] :=
    .other (by decide) (by decide) (by decide)
      (.other (by decide) (by decide) (by decide) .nil)
  have hbraces : BracesOf (⟨.openBrace, "\x7b", 4⟩ :: ([⟨.identifier, "a", 5⟩,
      ⟨.identifier, "b", 7⟩] ++ [⟨.closeBrace, "\x7d", 8⟩])) "\x7bab\x7d" :=
    .mk rfl rfl hwords
  have hmerged : Token.scan "\x7bab\x7d" = .ok ([⟨.openBrace, "\x7b", 0⟩,
      ⟨.identifier, "ab", 1⟩, ⟨.closeBrace, "\x7d", 3⟩] ++ [Token.endAt 4]) := by
    refine Token.scan_eq_of_cut ?_ rfl
    repeat first | exact .done _ | refine .token rfl ?_ | refine .gap rfl ?_
  refine ⟨hscan, hparse, hbraces, ?_⟩
  intro h
  obtain ⟨us, hus, hkinds, -⟩ := h
  have hsame := Except.ok.inj (hus.symm.trans hmerged)
  obtain ⟨rfl, -⟩ := List.append_inj' hsame rfl
  cases hkinds

end MobSkills
