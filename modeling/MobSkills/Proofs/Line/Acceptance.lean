import MobSkills.Proofs.Line.Clauses
import MobSkills.Proofs.Line.Tail

/-!
# The parser accepts its grammar

A line parses without errors and warnings exactly when its tokens derive from the
grammar. The readers of the parts are put together here: what follows a part never
begins with a token the part could still take, and no part takes the end marker, so a
parse without complaint has used up every token before it.
-/
namespace MobSkills.Grammar

open Reading (skip? structuralParts looseParts trailing ticks?)

/-! ## The structural parts -/

theorem mapError_bind_eq_ok {ε δ α β : Type} {x : Except ε α} {f : ε → δ} {g : α → Except δ β}
    {b : β} : (x.mapError f >>= g) = .ok b ↔ ∃ a, x = .ok a ∧ g a = .ok b := by
  cases x with
  | error e =>
    constructor
    · intro h
      cases h
    · intro h
      obtain ⟨a, h, -⟩ := h
      cases h
  | ok a =>
    constructor
    · intro h
      exact ⟨a, rfl, h⟩
    · intro h
      obtain ⟨c, hc, h⟩ := h
      cases hc
      exact h

/-- A line starts with a mark or without one. -/
theorem exists_mark_skip? (kind : TokenKind) (tokens : List Token) :
    ∃ ms marked onward, Mark kind ms marked ∧ tokens = ms ++ onward ∧
      (skip? kind tokens).getD tokens = onward := by
  cases hmark : skip? kind tokens with
  | none => exact ⟨[], false, tokens, .absent, rfl, rfl⟩
  | some r =>
    obtain ⟨m, rfl, hm⟩ := skip?_eq_some.1 hmark
    exact ⟨[m], true, r, .present hm, rfl, rfl⟩

theorem exists_headOf {tokens rest : List Token} {line : SkillLine} (hl : Lexed tokens)
    (h : structuralParts tokens = .ok (line, rest)) :
    ∃ front, tokens = front ++ rest ∧ HeadOf front line := by
  obtain ⟨ms, marked, onward, hm, rfl, hskip⟩ := exists_mark_skip? .minus tokens
  simp only [structuralParts, hskip] at h
  obtain ⟨⟨n, afterName⟩, hname, hparts⟩ := mapError_bind_eq_ok.1 h
  obtain ⟨rfl, hn⟩ := expect_eq_ok.1 hname
  obtain ⟨⟨parameters, afterGroup⟩, hgroup, hparts⟩ := mapError_bind_eq_ok.1 hparts
  obtain ⟨ps, rfl, hp⟩ := exists_groupOf hgroup
  obtain ⟨⟨targeter, afterTargeter⟩, htargeter, hparts⟩ := mapError_bind_eq_ok.1 hparts
  obtain ⟨as, rfl, ha⟩ := exists_targeterOf htargeter
  obtain ⟨⟨trigger, afterTrigger⟩, htrigger, hparts⟩ := mapError_bind_eq_ok.1 hparts
  obtain ⟨ss, rfl, hs⟩ :=
    exists_triggerOf hl.append_right.tail.append_right.append_right htrigger
  obtain ⟨⟨conditions, afterConditions⟩, hconditions, hparts⟩ := mapError_bind_eq_ok.1 hparts
  obtain ⟨cs, rfl, hc⟩ := exists_conditionsOf hconditions
  cases hparts
  exact ⟨ms ++ n :: (ps ++ (as ++ (ss ++ cs))), by simp, .mk hm hn hp ha hs hc⟩

/-- The kinds a token after the conditions can have. -/
def tailKinds : List TokenKind :=
  [.less, .equals, .greater, .number, .endOfInput]

theorem Maybe.begins {α : Type} {P : List Token → α → Prop} {kind : TokenKind}
    {kinds : List TokenKind} {ts rest : List Token} {a : Option α} (h : Maybe P ts a)
    (hp : ∀ ts a, P ts a → ∃ t us, ts = t :: us ∧ t.kind = kind) (hr : Begins kinds rest) :
    Begins (kind :: kinds) (ts ++ rest) := by
  cases h with
  | absent => exact hr.mono fun k hk => List.mem_cons_of_mem kind hk
  | present h =>
    obtain ⟨t, us, rfl, ht⟩ := hp _ _ h
    exact begins_cons (by simp [ht])

theorem TargeterOf.exists_cons {ts : List Token} {a : Targeter} (h : TargeterOf ts a) :
    ∃ t us, ts = t :: us ∧ t.kind = .atSign := by
  cases h with
  | mk ha _ _ => exact ⟨_, _, rfl, ha⟩

theorem TriggerOf.exists_cons {ts : List Token} {a : Trigger} (h : TriggerOf ts a) :
    ∃ t us, ts = t :: us ∧ t.kind = .tilde := by
  cases h with
  | mk hs _ => exact ⟨_, _, rfl, hs⟩

theorem ConditionsOf.ticks?_eq_none {ts rest : List Token} {cs : List Condition}
    (h : ConditionsOf ts cs) (hr : ticks? rest = none) : ticks? (ts ++ rest) = none := by
  cases h with
  | nil => exact hr
  | cons h _ =>
    cases h with
    | mk hq _ _ _ => simp [ticks?, hq]

theorem Mark.skip?_getD {kind : TokenKind} {ts rest : List Token} {marked : Bool} {t : Token}
    (h : Mark kind ts marked) (ht : t.kind ≠ kind) :
    (skip? kind (ts ++ t :: rest)).getD (ts ++ t :: rest) = t :: rest := by
  cases h with
  | absent => rw [List.nil_append, skip?_cons_none ht, Option.getD_none]
  | present h => rw [List.singleton_append, skip?_cons h, Option.getD_some]

theorem structuralParts_of_headOf {ts rest : List Token} {line : SkillLine} (h : HeadOf ts line)
    (hr : Begins tailKinds rest) (hticks : ticks? rest = none) :
    structuralParts (ts ++ rest) = .ok (line, rest) := by
  cases h with
  | @mk ms ps as ss cs n marked parameters targeter trigger conditions hm hn hp ha hs hc =>
    have hafterTrigger : Begins (.question :: tailKinds) (cs ++ rest) :=
      hc.begins (hr.mono (by decide)) (by decide)
    have hafterTargeter : Begins (.tilde :: .question :: tailKinds) (ss ++ (cs ++ rest)) :=
      hs.begins (fun _ _ h => h.exists_cons) hafterTrigger
    have hafterGroup : Begins (.atSign :: .tilde :: .question :: tailKinds)
        (as ++ (ss ++ (cs ++ rest))) :=
      ha.begins (fun _ _ h => h.exists_cons) hafterTargeter
    have hminus : n.kind ≠ .minus := by simp [hn]
    simp only [structuralParts, List.append_assoc, List.cons_append, hm.skip?_getD hminus]
    refine mapError_bind_eq_ok.2 ⟨_, expect_cons hn _, ?_⟩
    have hgroup := group_of_groupOf hp (hafterGroup.skip?_eq_none (by decide))
    refine mapError_bind_eq_ok.2 ⟨_, hgroup, ?_⟩
    have htargeter := targeter_of_targeterOf ha (hafterTargeter.skip?_eq_none (by decide))
      (hafterTargeter.skip?_eq_none (by decide))
    refine mapError_bind_eq_ok.2 ⟨_, htargeter, ?_⟩
    have htrigger := optionalTrigger_of_triggerOf hs (hafterTrigger.skip?_eq_none (by decide))
      (hafterTrigger.skip?_eq_none (by decide)) (hc.ticks?_eq_none hticks)
    refine mapError_bind_eq_ok.2 ⟨_, htrigger, ?_⟩
    have hconditions := conditions_of_conditionsOf hc (hr.skip?_eq_none (by decide))
      (hr.skip?_eq_none (by decide))
    refine mapError_bind_eq_ok.2 ⟨_, hconditions, ?_⟩
    rfl

/-! ## No phrase holds the end marker -/

/-- None of the tokens is the end marker. -/
def Inside (ts : List Token) : Prop :=
  ∀ t ∈ ts, t.kind ≠ .endOfInput

theorem inside_nil : Inside [] := by
  intro t ht
  cases ht

theorem inside_cons {t : Token} {ts : List Token} :
    Inside (t :: ts) ↔ t.kind ≠ .endOfInput ∧ Inside ts :=
  List.forall_mem_cons

theorem inside_append {ts us : List Token} : Inside (ts ++ us) ↔ Inside ts ∧ Inside us :=
  List.forall_mem_append

/-- What follows a phrase in a line still has the end marker. -/
theorem Inside.exists_rest {ts front rest : List Token} {last : Token} (hf : Inside front)
    (hlast : last.kind = .endOfInput) (h : ts ++ [last] = front ++ rest) :
    ∃ us, rest = us ++ [last] ∧ ts = front ++ us := by
  rcases List.eq_nil_or_concat rest with rfl | ⟨us, t, hus⟩
  · rw [List.append_nil] at h
    exact absurd hlast (hf last (by rw [← h]; simp))
  · rw [List.concat_eq_append] at hus
    subst hus
    rw [← List.append_assoc] at h
    obtain ⟨rfl, hend⟩ := List.append_inj' h rfl
    exact ⟨us, by rw [hend], rfl⟩

theorem Maybe.inside {α : Type} {P : List Token → α → Prop} {ts : List Token} {a : Option α}
    (h : Maybe P ts a) (hp : ∀ ts a, P ts a → Inside ts) : Inside ts := by
  cases h with
  | absent => exact inside_nil
  | present h => exact hp _ _ h

theorem Mark.inside {kind : TokenKind} {ts : List Token} {marked : Bool} (h : Mark kind ts marked)
    (hk : kind ≠ .endOfInput) : Inside ts := by
  cases h with
  | absent => exact inside_nil
  | present h => simp [inside_cons, inside_nil, h, hk]

theorem Balanced.inside {opening closing : TokenKind} {ts : List Token}
    (h : Balanced opening closing (ts.map Token.kind)) (ho : opening ≠ .endOfInput)
    (hc : closing ≠ .endOfInput) : Inside ts := by
  intro t ht hk
  exact h.not_end ho hc (hk ▸ List.mem_map_of_mem ht)

theorem ValueOf.inside {ts : List Token} {v : Value} (h : ValueOf ts v) : Inside ts := by
  cases h with
  | text h => simp [inside_cons, inside_nil, h]
  | number h => simp [inside_cons, inside_nil, h]
  | word h => simp [inside_cons, inside_nil, h]
  | list ho hc h =>
    simp [inside_cons, inside_append, inside_nil, ho, hc, h.inside (by decide) (by decide)]

theorem EntryOf.inside {ts : List Token} {e : String × Value} (h : EntryOf ts e) : Inside ts := by
  cases h with
  | mk hk he hv => simp [inside_cons, hk, he, hv.inside]

theorem EntriesOf.inside {ts : List Token} {es : List (String × Value)} (h : EntriesOf ts es) :
    Inside ts := by
  induction h with
  | last h hu => exact inside_append.2 ⟨h.inside, hu.inside (by decide)⟩
  | cons h hs _ ih => simp [inside_cons, inside_append, h.inside, hs, ih]

theorem GroupOf.inside {ts : List Token} {g : Option Params} (h : GroupOf ts g) : Inside ts := by
  cases h with
  | absent => exact inside_nil
  | empty ho hc => simp [inside_cons, inside_nil, ho, hc]
  | entries ho hc h => simp [inside_cons, inside_append, inside_nil, ho, hc, h.inside]

theorem TargeterOf.inside {ts : List Token} {t : Targeter} (h : TargeterOf ts t) : Inside ts := by
  cases h with
  | mk ha hk h => simp [inside_cons, ha, hk, h.inside]

theorem TriggerOf.inside {ts : List Token} {t : Trigger} (h : TriggerOf ts t) : Inside ts := by
  cases h with
  | mk hs h =>
    cases h with
    | word h => simp [inside_cons, inside_nil, hs, h]
    | parted h hc hn => simp [inside_cons, inside_nil, hs, h, hc, hn.1]
    | fused h _ hn => simp [inside_cons, inside_nil, hs, h, hn.1]

theorem BracesOf.inside {ts : List Token} {text : String} (h : BracesOf ts text) : Inside ts := by
  cases h with
  | mk ho hc h =>
    simp [inside_cons, inside_append, inside_nil, ho, hc, h.inside (by decide) (by decide)]

theorem ConditionsOf.inside {ts : List Token} {cs : List Condition} (h : ConditionsOf ts cs) :
    Inside ts := by
  induction h with
  | nil => exact inside_nil
  | cons h _ ih =>
    refine inside_append.2 ⟨?_, ih⟩
    cases h with
    | mk hq hm hn hg =>
      simp [inside_cons, inside_append, hq, hn, hm.inside,
        hg.inside fun _ _ h => BracesOf.inside h]

theorem HeadOf.inside {ts : List Token} {line : SkillLine} (h : HeadOf ts line) : Inside ts := by
  cases h with
  | mk hm hn hp ha hs hc =>
    simp [inside_cons, inside_append, hn, hm.inside, hp.inside, hc.inside,
      ha.inside fun _ _ h => TargeterOf.inside h, hs.inside fun _ _ h => TriggerOf.inside h]

/-- A line names its mechanic by a word. -/
theorem HeadOf.isWord {ts : List Token} {line : SkillLine} (hl : Lexed ts) (h : HeadOf ts line) :
    Token.IsWord line.mechanic.toList := by
  cases h with
  | @mk _ _ _ _ _ n _ _ _ _ _ _ hn _ _ _ _ =>
    have hlexeme := hl n (by simp) (by rw [hn]; decide)
    exact hlexeme.isWord hn

theorem SignedOf.inside {ts : List Token} {text : String} (h : SignedOf ts text) : Inside ts := by
  cases h with
  | plain hn => simp [inside_cons, inside_nil, hn]
  | minus hm hn => simp [inside_cons, inside_nil, hm, hn]

theorem SignOf.ne_end {kind : TokenKind} {c : Comparison} (h : SignOf kind c) :
    kind ≠ .endOfInput := by
  cases h <;> decide

theorem ChanceOf.inside {ts : List Token} {x : Binary64} (h : ChanceOf ts x) : Inside ts := by
  cases h with
  | mk ht _ _ _ _ => simp [inside_cons, inside_nil, ht]

theorem TailOf.inside {ts : List Token} {health : Option HealthGate} {chance : Option Binary64}
    (h : TailOf ts health chance) : Inside ts := by
  have hchance {cs : List Token} {x : Option Binary64} (hc : Maybe ChanceOf cs x) : Inside cs :=
    hc.inside fun _ _ h => ChanceOf.inside h
  cases h with
  | bare hc => exact hchance hc
  | single ht h hc _ => simp [inside_cons, inside_append, ht.ne_end, h.inside, hchance hc]
  | range ht h hu hc =>
    simp [inside_cons, inside_append, ht.ne_end, h.inside, hu.1.inside, hchance hc]

/-! ## Lines -/

/-- The derivation of a line that the parser follows. -/
inductive ParsedAs : List Token → SkillLine → Prop
  | mk {ts us : List Token} {line : SkillLine} {health : Option HealthGate}
      {chance : Option Binary64} (h : HeadOf ts line) (ht : TailOf us health chance) :
      ParsedAs (ts ++ us) { line with health, chance }

/-- A line without a health gate and a chance. -/
theorem HeadOf.parsedAs {ts : List Token} {line : SkillLine} (h : HeadOf ts line) :
    ParsedAs ts line := by
  have hline := ParsedAs.mk h (TailOf.bare (Maybe.absent (P := ChanceOf)))
  rw [List.append_nil] at hline
  cases h
  exact hline

/-- Every derivable line has the derivation that the parser follows, and no other lines
have. -/
theorem exists_parsedAs_iff {ts : List Token} :
    (∃ line, ParsedAs ts line) ↔ ∃ line, LineOf ts line := by
  constructor
  · intro h
    obtain ⟨_, h, ht⟩ := h
    obtain ⟨hs, cs, rfl, hh, hc⟩ := ht.exists_parts
    exact ⟨_, .mk h hh hc⟩
  · intro h
    obtain ⟨_, h, hh, hc⟩ := h
    obtain ⟨health, chance, ht⟩ := exists_tailOf hh hc
    exact ⟨_, .mk h ht⟩

theorem mem_dropLeading {text : String} {c d : Char} (h : d ∈ text.toList) (hd : d ≠ c) :
    d ∈ (Text.dropLeading c text).toList := by
  unfold Text.dropLeading
  split
  · rename_i e r he
    split
    · rename_i hc
      subst hc
      rw [he] at h
      simpa [hd] using h
    · exact h
  · exact h

theorem TailOf.begins {ts rest : List Token} {health : Option HealthGate}
    {chance : Option Binary64} (h : TailOf ts health chance) (hr : Begins [.endOfInput] rest) :
    Begins tailKinds (ts ++ rest) ∧ ticks? (ts ++ rest) = none := by
  have hsign {t : Token} {more : List Token} {c : Comparison} (ht : SignOf t.kind c) :
      Begins tailKinds (t :: more) ∧ ticks? (t :: more) = none := by
    have hk : t.kind ∈ tailKinds ∧ t.kind ≠ .number := by
      generalize t.kind = k at ht
      cases ht <;> decide
    exact ⟨begins_cons hk.1, by simp [ticks?, hk.2]⟩
  cases h with
  | bare hc =>
    cases hc with
    | absent =>
      refine ⟨hr.mono (by decide), ?_⟩
      cases rest with
      | nil => rfl
      | cons t r =>
        have ht : t.kind = .endOfInput := by simpa using hr t rfl
        simp [ticks?, ht]
    | present hc =>
      cases hc with
      | @mk t x hk hp hs hx hu =>
        refine ⟨begins_cons (by simp [hk, tailKinds]), ?_⟩
        have hpoint := mem_dropLeading hp (show '.' ≠ '-' by decide)
        have hall : (Text.dropLeading '-' t.text).toList.all Char.isDigit = false := by
          rw [List.all_eq_false]
          exact ⟨'.', hpoint, by decide⟩
        simp [ticks?, hall]
  | single ht _ _ _ => exact hsign ht
  | range ht _ _ _ => exact hsign ht

/-- The parser answers a line without complaint exactly when it follows a derivation. -/
theorem parseTokens_eq_clean_iff {options : ParseOptions} {ts : List Token} {last : Token}
    {line : SkillLine} (hl : Lexed ts) (hts : Inside ts) (hlast : last.kind = .endOfInput) :
    SkillLine.parseTokens options (ts ++ [last]) = ⟨line, [], []⟩ ↔ ParsedAs ts line := by
  have hr : Begins [.endOfInput] [last] := begins_cons (by simp [hlast])
  constructor
  · intro h
    unfold SkillLine.parseTokens at h
    split at h
    · cases h
    rename_i head rest hparts
    generalize hloose : looseParts options head rest = answer at h
    obtain ⟨read, odd, left⟩ := answer
    simp only [Outcome.mk.injEq, List.append_eq_nil_iff, true_and] at h
    obtain ⟨rfl, rfl, htrailing⟩ := h
    obtain ⟨front, happ, hhead⟩ := exists_headOf (hl.concat_end hlast) hparts
    obtain ⟨us, rfl, rfl⟩ := hhead.inside.exists_rest hlast happ
    obtain ⟨back, health, chance, hback, htail, rfl⟩ :=
      exists_tailOf_looseParts ⟨us, last, rfl, hlast⟩ hloose
    obtain ⟨vs, rfl, rfl⟩ := htail.inside.exists_rest hlast hback
    cases vs with
    | nil =>
      rw [List.append_nil]
      exact .mk hhead htail
    | cons v vs =>
      have hv : v.kind ≠ .endOfInput := hts v (by simp)
      simp [trailing, hv] at htrailing
  · intro h
    obtain ⟨hhead, htail⟩ := h
    obtain ⟨hbegins, hticks⟩ := htail.begins hr
    rw [List.append_assoc]
    simp only [SkillLine.parseTokens, structuralParts_of_headOf hhead hbegins hticks,
      looseParts_of_tailOf htail hr]
    simp [trailing, hlast]

theorem lexed_of_cut {p : Nat} {s : List Char} {ts : List Token} (h : Token.Cut p s ts) :
    Lexed ts ∧ Inside ts :=
  ⟨fun t ht _ => h.isLexeme t ht, fun t ht => (h.isLexeme t ht).kind_ne_endOfInput⟩

/-- A text that is cut into tokens parses to a line without complaint exactly when the
parser's derivation of the tokens gives it. -/
theorem parse_eq_clean_iff {options : ParseOptions} {text : String} {ts : List Token}
    {line : SkillLine} (h : Token.Cut 0 text.toList ts) :
    SkillLine.parse options text = .ok ⟨line, [], []⟩ ↔ ParsedAs ts line := by
  obtain ⟨hl, hts⟩ := lexed_of_cut h
  have hscan := Token.scan_eq_ok_iff.2 ⟨ts, h, rfl⟩
  have hlast : (Token.endAt (Text.byteLength text.toList)).kind = .endOfInput := rfl
  rw [SkillLine.parse, hscan, ← parseTokens_eq_clean_iff hl hts hlast]
  exact ⟨Except.ok.inj, congrArg Except.ok⟩

/-- The tokens of a text that parses without complaint follow a derivation. -/
theorem exists_cut_of_parse {options : ParseOptions} {text : String} {line : SkillLine}
    (h : SkillLine.parse options text = .ok ⟨line, [], []⟩) :
    ∃ ts, Token.Cut 0 text.toList ts ∧ ParsedAs ts line := by
  cases hscan : Token.scan text with
  | error e =>
    rw [SkillLine.parse, hscan] at h
    cases h
  | ok tokens =>
    obtain ⟨ts, hcut, -⟩ := Token.scan_eq_ok_iff.1 hscan
    exact ⟨ts, hcut, (parse_eq_clean_iff hcut).1 h⟩

/-- The parser accepts exactly its grammar: a line that scans parses without errors and
warnings if and only if its tokens before the end marker derive from `LineOf`. -/
theorem parse_isClean_iff_lineOf {text : String} {tokens : List Token}
    (h : Token.scan text = .ok tokens) :
    (∃ outcome, SkillLine.parse {} text = .ok outcome ∧ outcome.isClean = true) ↔
      ∃ line, LineOf (tokens.takeWhile fun t => t.kind ≠ .endOfInput) line := by
  obtain ⟨ts, hcut, rfl⟩ := Token.scan_eq_ok_iff.1 h
  have hbefore : (ts ++ [Token.endAt (Text.byteLength text.toList)]).takeWhile
      (fun t => t.kind ≠ .endOfInput) = ts := by
    rw [List.takeWhile_append_of_pos]
    · simp [Token.endAt]
    · intro t ht
      simpa using (lexed_of_cut hcut).2 t ht
  rw [hbefore, ← exists_parsedAs_iff]
  constructor
  · intro h
    obtain ⟨⟨line, errors, warnings⟩, hparse, hclean⟩ := h
    simp only [Outcome.isClean, Bool.and_eq_true, List.isEmpty_iff] at hclean
    obtain ⟨rfl, rfl⟩ := hclean
    exact ⟨line, (parse_eq_clean_iff hcut).1 hparse⟩
  · intro h
    obtain ⟨line, hline⟩ := h
    exact ⟨_, (parse_eq_clean_iff hcut).2 hline, rfl⟩

/-- A line with a list, a late semicolon, a tick count and a range is accepted, and so
it derives. -/
theorem lineOf_strike :
    ∃ tokens, Token.scan
        "- strike\x7ba=[b [c]];\x7d @T ~onTimer: 20 ?!near\x7bd\x7be\x7d\x7d <50 -0.5 0.25" =
          .ok tokens ∧
      ∃ line, LineOf (tokens.takeWhile fun t => t.kind ≠ .endOfInput) line := by
  have hclean : (SkillLine.parse {}
      "- strike\x7ba=[b [c]];\x7d @T ~onTimer: 20 ?!near\x7bd\x7be\x7d\x7d <50 -0.5 0.25"
        ).toOption.map Outcome.isClean = some true := by
    rw [SkillLine.parse, Token.scan_ofList]
    decide +kernel
  obtain ⟨outcome, hparse, hclean⟩ := Option.map_eq_some_iff.1 hclean
  cases hscan : Token.scan
      "- strike\x7ba=[b [c]];\x7d @T ~onTimer: 20 ?!near\x7bd\x7be\x7d\x7d <50 -0.5 0.25" with
  | error e =>
    rw [SkillLine.parse, hscan] at hparse
    cases hparse
  | ok tokens =>
    refine ⟨tokens, rfl, ?_⟩
    exact (parse_isClean_iff_lineOf hscan).1 ⟨outcome, eq_ok_iff_toOption.2 hparse, hclean⟩

end MobSkills.Grammar
