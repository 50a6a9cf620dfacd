import MobSkills.Proofs.Line.Acceptance

/-!
# Lines that break off

A structural problem ends the parse inside of one component of the line. Each reader is
inverted where it fails, as it was where it answers: the components before are phrases of
the grammar, and the failing one has left nothing behind. So the line that is answered is
the one of the tokens before that component, and those tokens parse without complaint.
Which problem is found first inside of a component is left to its reader.
-/
namespace MobSkills

/-- What a problem misses, if it is a structural one. -/
def Cause.expected? : Cause → Option Expectation
  | .found what _ | .foundEnd what | .exhausted what => some what
  | .noHealthValue | .chanceOutOfRange _ | .trailingInput _ => none

theorem Failure.expected?_problem (last : Nat) (f : Failure) :
    (f.problem last).cause.expected? = some f.expected := by
  unfold problem
  split
  · rfl
  · unfold Problem.atToken
    dsimp only
    split <;> rfl

namespace Grammar

open Reading (skip? expect value entry entries group items braceText targeter trigger
  optionalTrigger condition conditions structuralParts)

variable {tokens : List Token} {f : Failure}

/-! ## What the readers of a component miss -/

/-- What can be missed in a group of parameters. -/
def groupExpectations : List Expectation :=
  [.parameterName, .equalsSign, .parameterValue, .separator, .listEnd]

theorem expect_eq_error {kind : TokenKind} {e : Expectation}
    (h : expect kind e tokens = .error f) : f.expected = e := by
  unfold expect at h
  split at h
  · split at h <;> cases h
    rfl
  · cases h
    rfl

theorem items_eq_error {depth : Nat} (h : items depth tokens = .error f) :
    f.expected = .listEnd := by
  induction tokens generalizing depth with
  | nil =>
    cases h
    rfl
  | cons t r ih =>
    rw [items] at h
    split at h
    · cases h
      rfl
    split at h
    · cases h
    split at h
    · cases h
    · cases h
      exact ih ‹_›

theorem braceText_eq_error {depth : Nat} (h : braceText depth tokens = .error f) :
    f.expected = .conditionEnd := by
  induction tokens generalizing depth with
  | nil =>
    cases h
    rfl
  | cons t r ih =>
    rw [braceText] at h
    split at h
    · cases h
      rfl
    split at h
    · cases h
    split at h
    · cases h
    · cases h
      exact ih ‹_›

theorem value_eq_error (h : value tokens = .error f) : f.expected ∈ groupExpectations := by
  unfold value at h
  split at h
  · cases h
    decide
  split at h
  · cases h
  · cases h
  · cases h
  · split at h
    · cases h
    · rename_i hitems
      cases h
      rw [items_eq_error hitems]
      decide
  · cases h
    exact List.mem_of_elem_eq_true rfl

theorem entry_eq_error (h : entry tokens = .error f) : f.expected ∈ groupExpectations := by
  unfold entry at h
  split at h
  · rename_i hkey
    cases h
    rw [expect_eq_error hkey]
    decide
  split at h
  · rename_i hequals
    cases h
    rw [expect_eq_error hequals]
    decide
  split at h
  · rename_i hvalue
    cases h
    exact value_eq_error hvalue
  · cases h

theorem entries_eq_error {given : Params} (h : entries given tokens = .error f) :
    f.expected ∈ groupExpectations := by
  induction hn : tokens.length using Nat.strongRecOn generalizing given tokens with
  | ind n ih =>
    rw [entries] at h
    split at h
    · rename_i hentry
      cases h
      exact entry_eq_error hentry
    rename_i key v rest hentry
    have hlength := Reading.length_entry hentry
    split at h
    · rename_i onward hskip
      have hshorter := Reading.length_skip? hskip
      split at h
      · cases h
      · exact ih onward.length (by omega) h rfl
    · split at h
      · cases h
      · cases h
        exact List.mem_of_elem_eq_true rfl

theorem group_eq_error (h : group tokens = .error f) :
    (∃ o r, tokens = o :: r ∧ o.kind = .openBrace) ∧ f.expected ∈ groupExpectations := by
  unfold group at h
  split at h
  · cases h
  rename_i inner hopen
  obtain ⟨o, rfl, ho⟩ := skip?_eq_some.1 hopen
  refine ⟨⟨o, inner, rfl, ho⟩, ?_⟩
  split at h
  · cases h
  split at h
  · cases h
  · rename_i hentries
    cases h
    exact entries_eq_error hentries

theorem targeter_eq_error (h : targeter tokens = .error f) :
    (∃ a r, tokens = a :: r ∧ a.kind = .atSign) ∧ f.expected ∈ .targeterKind :: groupExpectations := by
  unfold targeter at h
  split at h
  · cases h
  rename_i onward hsign
  obtain ⟨a, rfl, ha⟩ := skip?_eq_some.1 hsign
  refine ⟨⟨a, onward, rfl, ha⟩, ?_⟩
  split at h
  · rename_i hkind
    cases h
    rw [expect_eq_error hkind]
    decide
  split at h
  · cases h
  · rename_i hgroup
    cases h
    exact List.mem_cons_of_mem _ (group_eq_error hgroup).2

theorem optionalTrigger_eq_error (h : optionalTrigger tokens = .error f) :
    (∃ s r, tokens = s :: r ∧ s.kind = .tilde) ∧ f.expected = .triggerName := by
  unfold optionalTrigger at h
  split at h
  · cases h
  rename_i onward htilde
  obtain ⟨s, rfl, hs⟩ := skip?_eq_some.1 htilde
  refine ⟨⟨s, onward, rfl, hs⟩, ?_⟩
  split at h
  · cases h
  rename_i hname
  cases h
  unfold trigger at hname
  split at hname
  · rename_i hword
    cases hname
    exact expect_eq_error hword
  · cases hname

theorem condition_eq_error (h : condition tokens = .error f) :
    f.expected ∈ [.conditionName, .conditionEnd] := by
  obtain ⟨ms, negated, onward, rfl, hm, hbang⟩ := exists_mark tokens
  rw [condition_of_mark hm hbang] at h
  split at h
  · rename_i hname
    cases h
    rw [expect_eq_error hname]
    decide
  split at h
  · cases h
  split at h
  · split at h
    · cases h
    · rename_i hbraces
      cases h
      rw [braceText_eq_error hbraces]
      decide
  · cases h

/-- Conditions fail at one of them, and those before it are kept. -/
theorem conditions_eq_error {read : List Condition} (h : conditions tokens = .error (read, f)) :
    ∃ front q r, tokens = front ++ q :: r ∧ ConditionsOf front read ∧ q.kind = .question ∧
      condition r = .error f := by
  induction hn : tokens.length using Nat.strongRecOn generalizing tokens read with
  | ind n ih =>
    rw [conditions] at h
    split at h
    · cases h
    rename_i onward hquestion
    have hskip := Reading.length_skip? hquestion
    obtain ⟨q, rfl, hq⟩ := skip?_eq_some.1 hquestion
    split at h
    · rename_i hcondition
      cases h
      exact ⟨[], q, onward, rfl, .nil, hq, hcondition⟩
    rename_i c left hread
    have hlength := Reading.length_condition hread
    obtain ⟨front, happ, hc⟩ := exists_conditionOf hq hread
    split at h
    · cases h
    · rename_i hmore
      cases h
      obtain ⟨more, q', r, rfl, hcs, hq', hfail⟩ := ih left.length (by omega) hmore rfl
      exact ⟨front ++ more, q', r, by rw [happ, List.append_assoc], .cons hc hcs, hq', hfail⟩

/-! ## The component that fails -/

/-- The component that the first of the later tokens opens cannot be read. A group of
parameters counts only right after the mechanic. -/
inductive BreaksAt : List Token → List Token → Failure → Prop
  | parameters {ms r : List Token} {n o : Token} {marked : Bool} {f : Failure}
      (hm : Mark .minus ms marked) (hn : n.kind = .identifier) (ho : o.kind = .openBrace)
      (h : group (o :: r) = .error f) : BreaksAt (ms ++ [n]) (o :: r) f
  | targeter {before r : List Token} {a : Token} {f : Failure} (ha : a.kind = .atSign)
      (h : targeter (a :: r) = .error f) : BreaksAt before (a :: r) f
  | trigger {before r : List Token} {s : Token} {f : Failure} (hs : s.kind = .tilde)
      (h : optionalTrigger (s :: r) = .error f) : BreaksAt before (s :: r) f
  | condition {before r : List Token} {q : Token} {f : Failure} (hq : q.kind = .question)
      (h : condition r = .error f) : BreaksAt before (q :: r) f

theorem BreaksAt.expected_ne {before component : List Token} (h : BreaksAt before component f) :
    f.expected ≠ .mechanicName := by
  have hmem : f.expected ∈
      ([.targeterKind, .triggerName, .conditionName, .conditionEnd] : List Expectation) ++
        groupExpectations := by
    cases h with
    | parameters _ _ _ h => exact List.mem_append_right _ (group_eq_error h).2
    | targeter _ h =>
      rcases List.mem_cons.1 (targeter_eq_error h).2 with he | he
      · simp [he]
      · exact List.mem_append_right _ he
    | trigger _ h => simp [(optionalTrigger_eq_error h).2]
    | condition _ h =>
      exact List.mem_append_left _
        (List.mem_cons_of_mem _ (List.mem_cons_of_mem _ (condition_eq_error h)))
  intro he
  rw [he] at hmem
  exact absurd hmem (by decide)

theorem mapError_bind_eq_error {ε δ α β : Type} {x : Except ε α} {g : ε → δ}
    {k : α → Except δ β} {d : δ} :
    (x.mapError g >>= k) = .error d ↔
      (∃ e, x = .error e ∧ g e = d) ∨ ∃ a, x = .ok a ∧ k a = .error d := by
  cases x with
  | error e =>
    constructor
    · intro h
      cases h
      exact .inl ⟨e, rfl, rfl⟩
    · intro h
      obtain ⟨_, he, rfl⟩ | ⟨_, ha, -⟩ := h
      · cases he
        rfl
      · cases ha
  | ok a =>
    constructor
    · intro h
      exact .inr ⟨a, rfl, h⟩
    · intro h
      obtain ⟨_, he, -⟩ | ⟨_, ha, h⟩ := h
      · cases he
      · cases ha
        exact h

/-- The structural parts fail at the name of the mechanic, with nothing read, or at a
component, with the head of a line before it read. -/
theorem structuralParts_eq_error {line : SkillLine} (hl : Lexed tokens)
    (h : structuralParts tokens = .error (line, f)) :
    (line = {} ∧ f.expected = .mechanicName) ∨
      ∃ before component, tokens = before ++ component ∧ HeadOf before line ∧
        BreaksAt before component f := by
  obtain ⟨ms, marked, onward, hm, rfl, hskip⟩ := exists_mark_skip? .minus tokens
  simp only [structuralParts, hskip] at h
  rcases mapError_bind_eq_error.1 h with ⟨_, hname, he⟩ | ⟨⟨n, afterName⟩, hname, hlater⟩
  · cases he
    exact .inl ⟨rfl, expect_eq_error hname⟩
  obtain ⟨rfl, hn⟩ := expect_eq_ok.1 hname
  rcases mapError_bind_eq_error.1 hlater with
    ⟨_, hgroup, he⟩ | ⟨⟨parameters, afterGroup⟩, hgroup, hafterGroup⟩
  · cases he
    obtain ⟨o, r, rfl, ho⟩ := (group_eq_error hgroup).1
    exact .inr ⟨ms ++ [n], o :: r, by simp, .mk hm hn .absent .absent .absent .nil,
      .parameters hm hn ho hgroup⟩
  obtain ⟨ps, rfl, hp⟩ := exists_groupOf hgroup
  rcases mapError_bind_eq_error.1 hafterGroup with
    ⟨_, htargeter, he⟩ | ⟨⟨targeter, afterTargeter⟩, htargeter, hafterTargeter⟩
  · cases he
    obtain ⟨a, r, rfl, ha⟩ := (targeter_eq_error htargeter).1
    exact .inr ⟨_, a :: r, by simp, .mk hm hn hp .absent .absent .nil, .targeter ha htargeter⟩
  obtain ⟨as, rfl, ha⟩ := exists_targeterOf htargeter
  rcases mapError_bind_eq_error.1 hafterTargeter with
    ⟨_, htrigger, he⟩ | ⟨⟨trigger, afterTrigger⟩, htrigger, hafterTrigger⟩
  · cases he
    obtain ⟨s, r, rfl, hs⟩ := (optionalTrigger_eq_error htrigger).1
    exact .inr ⟨_, s :: r, by simp, .mk hm hn hp ha .absent .nil, .trigger hs htrigger⟩
  obtain ⟨ss, rfl, hs⟩ :=
    exists_triggerOf hl.append_right.tail.append_right.append_right htrigger
  rcases mapError_bind_eq_error.1 hafterTrigger with ⟨⟨read, _⟩, hconditions, he⟩ | ⟨_, _, hdone⟩
  · cases he
    obtain ⟨cs, q, r, rfl, hc, hq, hfail⟩ := conditions_eq_error hconditions
    exact .inr ⟨_, q :: r, by simp, .mk hm hn hp ha hs hc, .condition hq hfail⟩
  · cases hdone

/-! ## The line that is answered -/

/-- A parse has one problem at most that ends it, and then no others. Where the name of the
mechanic is missing, nothing is read. Elsewhere one component breaks off, and the line that is
answered is exactly the one of the tokens before it, which parse without complaint in front
of any end marker. -/
theorem parseTokens_broken {options : ParseOptions} {text : String} {tokens : List Token}
    (h : Token.scan text = .ok tokens) :
    let outcome := SkillLine.parseTokens options tokens
    outcome.errors.length ≤ 1 ∧ (outcome.errors ≠ [] → outcome.warnings = []) ∧
      ∀ e ∈ outcome.errors,
        (e.cause.expected? = some .mechanicName → outcome.line = {}) ∧
        (e.cause.expected? ≠ some .mechanicName →
          ∃ before component f, tokens = before ++ component ∧ BreaksAt before component f ∧
            e = f.problem (Text.byteLength text.toList) ∧
            ∀ last : Token, last.kind = .endOfInput →
              SkillLine.parseTokens options (before ++ [last]) = ⟨outcome.line, [], []⟩) := by
  obtain ⟨ts, hcut, rfl⟩ := Token.scan_eq_ok_iff.1 h
  have hl : Lexed (ts ++ [Token.endAt (Text.byteLength text.toList)]) := by
    intro t ht hk
    rcases List.mem_append.1 ht with ht | ht
    · exact hcut.isLexeme t ht
    · obtain rfl := List.mem_singleton.1 ht
      exact absurd rfl hk
  intro outcome
  cases hparts : structuralParts (ts ++ [Token.endAt (Text.byteLength text.toList)]) with
  | ok read =>
    have herrors : outcome.errors = [] := by
      simp only [outcome, SkillLine.parseTokens, hparts]
    simp [herrors]
  | error broken =>
    obtain ⟨line, f⟩ := broken
    have houtcome : outcome = ⟨line, [f.problem (Text.byteLength text.toList)], []⟩ := by
      simp only [outcome, SkillLine.parseTokens, hparts, List.getLast?_concat, Option.map_some,
        Option.getD_some]
      rfl
    rw [houtcome]
    refine ⟨Nat.le_refl 1, fun _ => rfl, fun e he => ?_⟩
    obtain rfl := List.mem_singleton.1 he
    rw [Failure.expected?_problem, ne_eq, Option.some.injEq]
    rcases structuralParts_eq_error hl hparts with
      ⟨rfl, hname⟩ | ⟨before, component, happ, hhead, hbreaks⟩
    · exact ⟨fun _ => rfl, fun hother => absurd hname hother⟩
    · refine ⟨fun hname => absurd hname hbreaks.expected_ne, fun _ => ?_⟩
      refine ⟨before, component, f, happ, hbreaks, rfl, fun last hlast => ?_⟩
      rw [happ] at hl
      exact (parseTokens_eq_clean_iff hl.append_left hhead.inside hlast).2 hhead.parsedAs

/-- The second condition is not closed; all that stands before it is kept. -/
def gateLine : String :=
  "- burn\x7ba=[b];\x7d @T\x7br=2\x7d ~onTimer: 5 ?!x\x7by\x7d ?z\x7b[q <50%"

theorem parseTokens_broken_gateLine :
    ∃ tokens, Token.scan gateLine = .ok tokens ∧
      ∃ e ∈ (SkillLine.parseTokens {} tokens).errors, e.cause = .foundEnd .conditionEnd ∧
        ∃ before component f, tokens = before ++ component ∧ BreaksAt before component f ∧
          e = f.problem (Text.byteLength gateLine.toList) ∧
          ∀ last : Token, last.kind = .endOfInput → SkillLine.parseTokens {} (before ++ [last]) =
            ⟨(SkillLine.parseTokens {} tokens).line, [], []⟩ := by
  have hcause : (Token.scan gateLine).toOption.map
      (fun tokens => (SkillLine.parseTokens {} tokens).errors.map Problem.cause) =
        some [.foundEnd .conditionEnd] := by
    rw [gateLine, Token.scan_ofList]
    decide +kernel
  cases hscan : Token.scan gateLine with
  | error e =>
    rw [hscan] at hcause
    cases hcause
  | ok tokens =>
    rw [hscan] at hcause
    obtain ⟨e, herrors, he⟩ := List.map_eq_singleton_iff.1 (Option.some.inj hcause)
    have hmem : e ∈ (SkillLine.parseTokens {} tokens).errors := by simp [herrors]
    have hother : e.cause.expected? ≠ some .mechanicName := by
      rw [he]
      decide
    exact ⟨tokens, rfl, e, hmem, he, ((parseTokens_broken hscan).2.2 e hmem).2 hother⟩

end Grammar
end MobSkills
