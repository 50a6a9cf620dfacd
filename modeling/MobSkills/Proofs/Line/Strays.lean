import MobSkills.Line.Render
import MobSkills.Proofs.Line.Seams
import MobSkills.Proofs.Line.Tiling

/-!
# What no token takes

Some characters are passed over by the scan although they are no blanks, and they leave no
trace in its tokens. A line with spaces in their place has the same tokens at the same
offsets, so it is parsed and formatted in the same way: an accepted line loses in its
canonical form what stands between the tokens, unless nothing but blanks does.
-/
namespace MobSkills.Token

open Text (byteLength)

/-- A blank as it is; in place of any other character as many spaces as it has bytes. -/
def blankFor (c : Char) : List Char :=
  if isGap c then [c] else List.replicate c.utf8Size ' '

/-- The characters with spaces for those that no token takes. -/
def withoutStrays (s : List Char) : List Char :=
  match s with
  | [] => []
  | c :: r =>
    match h : step c r with
    | .gap => blankFor c ++ withoutStrays r
    | .unterminated => c :: r
    | .token _ tail rest =>
      have : rest.length ≤ r.length := length_rest_le h
      c :: (tail ++ withoutStrays rest)
termination_by s.length
decreasing_by all_goals simp_wf; try omega

/-- Each of the characters, which start at the byte offset `p`, is a blank or stands in a
token. -/
def AllTaken (p : Nat) (s : List Char) (ts : List Token) : Prop :=
  ∀ before c after, s = before ++ c :: after → isGap c = false →
    ∃ t ∈ ts, t.position ≤ p + byteLength before ∧ p + byteLength before < t.finish

section
variable {c : Char} {r tail rest : List Char} {kind : TokenKind}

theorem withoutStrays_gap (h : step c r = .gap) :
    withoutStrays (c :: r) = blankFor c ++ withoutStrays r := by
  rw [withoutStrays]
  split <;> rename_i h' <;> rw [h] at h' <;> cases h'

theorem withoutStrays_unterminated (h : step c r = .unterminated) :
    withoutStrays (c :: r) = c :: r := by
  rw [withoutStrays]
  split <;> rename_i h' <;> rw [h] at h' <;> cases h'

theorem withoutStrays_token (h : step c r = .token kind tail rest) :
    withoutStrays (c :: r) = c :: (tail ++ withoutStrays rest) := by
  rw [withoutStrays]
  split <;> rename_i h' <;> rw [h] at h' <;> cases h'
  rfl

end

/-! ## Spaces in place of strays -/

theorem isGap_of_mem_blankFor {c d : Char} (h : d ∈ blankFor c) : isGap d = true := by
  unfold blankFor at h
  split at h
  · rename_i hc
    rw [List.mem_singleton.1 h]
    exact hc
  · rw [List.eq_of_mem_replicate h]
    rfl

theorem byteLength_blankFor (c : Char) : byteLength (blankFor c) = c.utf8Size := by
  unfold blankFor
  split
  · simp [Text.byteLength_cons, Text.byteLength_nil]
  · generalize c.utf8Size = n
    induction n with
    | zero => rfl
    | succ n ih =>
      rw [List.replicate_succ, Text.byteLength_cons, ih, Nat.add_comm]
      rfl

theorem scanFrom_blanks {blanks : List Char} (h : ∀ d ∈ blanks, isGap d = true) (p : Nat)
    (s : List Char) : scanFrom p (blanks ++ s) = scanFrom (p + byteLength blanks) s := by
  induction blanks generalizing p with
  | nil => rfl
  | cons d blanks ih =>
    have hd := step_isGap (h d (List.mem_cons_self ..)) (blanks ++ s)
    rw [List.cons_append, scanFrom_gap hd, ih fun e he => h e (List.mem_cons_of_mem d he),
      Text.byteLength_cons, Nat.add_assoc]

/-- The text begins as before, with a character that begins no fraction and no percent sign,
or with a blank. -/
theorem head?_withoutStrays (s : List Char) :
    ∀ d ∈ (withoutStrays s).head?, isGap d = true ∨ (d ∈ s.head? ∧ d ≠ '.' ∧ d ≠ '%') := by
  cases s with
  | nil =>
    intro d hd
    rw [withoutStrays] at hd
    cases hd
  | cons c r =>
    intro d hd
    cases hs : step c r with
    | gap =>
      rw [withoutStrays_gap hs] at hd
      refine .inl (isGap_of_mem_blankFor (c := c) ?_)
      have hn : blankFor c ≠ [] := by
        intro hnil
        have hlength := byteLength_blankFor c
        rw [hnil, Text.byteLength_nil] at hlength
        exact absurd hlength (Nat.ne_of_lt c.utf8Size_pos)
      obtain ⟨e, blanks, he⟩ := List.exists_cons_of_ne_nil hn
      rw [he, List.cons_append] at hd
      rw [he, Option.some.inj hd]
      exact List.mem_cons_self ..
    | unterminated =>
      rw [withoutStrays_unterminated hs] at hd
      refine .inr ⟨hd, ?_⟩
      obtain rfl : c = d := Option.some.inj hd
      constructor <;> rintro rfl <;> cases (step_eq_unterminated_iff.1 hs).1
    | token kind tail rest =>
      rw [withoutStrays_token hs] at hd
      obtain rfl : c = d := Option.some.inj hd
      exact .inr ⟨rfl, (isLexeme_of_step hs).head?_ne c rfl⟩

/-- A token ends where it ended before. -/
theorem step_withoutStrays {c : Char} {r tail rest : List Char} {kind : TokenKind}
    (h : step c r = .token kind tail rest) :
    step c (tail ++ withoutStrays rest) = .token kind tail (withoutStrays rest) := by
  have hseam : Seam kind (c :: tail) rest := seam_of_step (by rw [step_append h]; exact h)
  apply step_of_seam (isLexeme_of_step h)
  · intro d hd
    rcases head?_withoutStrays rest d hd with hgap | ⟨hd, -⟩
    · simp only [isGap, Bool.or_eq_true, beq_iff_eq] at hgap
      rcases hgap with ((rfl | rfl) | rfl) | rfl <;> cases kind <;> simp [isWordChar]
    · exact hseam d hd
  · intro d hd
    rcases head?_withoutStrays rest d hd with hgap | ⟨-, hne⟩
    · constructor <;> rintro rfl <;> cases hgap
    · exact hne

/-- The scan does not see the strays: it has the same tokens at the same offsets without
them, and it fails at the same place. -/
theorem scanFrom_withoutStrays (p : Nat) (s : List Char) :
    scanFrom p (withoutStrays s) = scanFrom p s := by
  induction hn : s.length using Nat.strongRecOn generalizing p s with
  | ind n ih =>
    cases s with
    | nil => rw [withoutStrays]
    | cons c r =>
      cases hs : step c r with
      | gap =>
        rw [withoutStrays_gap hs, scanFrom_blanks fun d hd => isGap_of_mem_blankFor hd,
          byteLength_blankFor, scanFrom_gap hs, ih r.length (by simp [← hn]) _ r rfl]
      | unterminated => rw [withoutStrays_unterminated hs]
      | token kind tail rest =>
        have hlt : rest.length < n := by
          have := length_rest_le hs
          rw [← hn, List.length_cons]
          omega
        rw [withoutStrays_token hs, scanFrom_token (step_withoutStrays hs), scanFrom_token hs,
          ih rest.length hlt _ rest rfl]

/-! ## Lines without strays -/

section
variable {p : Nat} {s : List Char} {ts : List Token}

/-- No token stands before the characters it was cut from. -/
theorem Cut.position_ge (h : Cut p s ts) : ∀ t ∈ ts, p ≤ t.position :=
  fun t ht => (h.tiles.written t ht).position_ge

theorem allTaken_blanks {blanks : List Char} (hgap : ∀ d ∈ blanks, isGap d = true)
    (h : AllTaken (p + byteLength blanks) s ts) : AllTaken p (blanks ++ s) ts := by
  intro before c after happ hc
  rcases List.append_eq_append_iff.1 happ with ⟨between, rfl, rfl⟩ | ⟨inner, rfl, hinner⟩
  · rw [Text.byteLength_append, ← Nat.add_assoc]
    exact h between c after rfl hc
  · cases inner with
    | nil =>
      rw [List.append_nil] at h
      exact h [] c after hinner.symm hc
    | cons d inner =>
      obtain ⟨rfl, -⟩ := List.cons.inj hinner
      rw [hgap c (by simp)] at hc
      cases hc

theorem finish_ofList (kind : TokenKind) (text : List Char) (p : Nat) :
    finish ⟨kind, String.ofList text, p⟩ = p + byteLength text := by
  rw [finish, String.toList_ofList]

theorem allTaken_token {kind : TokenKind} {text : List Char}
    (h : AllTaken (p + byteLength text) s ts) :
    AllTaken p (text ++ s) (⟨kind, String.ofList text, p⟩ :: ts) := by
  intro before c after happ hc
  have hlater (between : List Char) (hs : s = between ++ c :: after) :
      ∃ t ∈ (⟨kind, String.ofList text, p⟩ :: ts : List Token),
        t.position ≤ p + byteLength text + byteLength between ∧
          p + byteLength text + byteLength between < t.finish := by
    obtain ⟨t, ht, hin⟩ := h between c after hs hc
    exact ⟨t, List.mem_cons_of_mem _ ht, hin⟩
  rcases List.append_eq_append_iff.1 happ with ⟨between, rfl, hs⟩ | ⟨inner, rfl, hinner⟩
  · rw [Text.byteLength_append, ← Nat.add_assoc]
    exact hlater between hs
  · cases inner with
    | nil => simpa [Text.byteLength_nil] using hlater [] hinner.symm
    | cons d inner =>
      obtain ⟨rfl, -⟩ := List.cons.inj hinner
      have hpos := c.utf8Size_pos
      refine ⟨_, List.mem_cons_self .., Nat.le_add_right .., ?_⟩
      rw [finish_ofList, Text.byteLength_append, Text.byteLength_cons]
      omega

/-- Without strays there are blanks and tokens only. -/
theorem Cut.allTaken_withoutStrays (h : Cut p s ts) : AllTaken p (withoutStrays s) ts := by
  induction h with
  | done p =>
    intro before c after happ
    rw [withoutStrays] at happ
    simp at happ
  | @gap p c r ts h _ ih =>
    rw [withoutStrays_gap h]
    apply allTaken_blanks fun d hd => isGap_of_mem_blankFor hd
    rwa [byteLength_blankFor]
  | @token p c r tail rest kind ts h _ ih =>
    rw [withoutStrays_token h, ← List.cons_append]
    exact allTaken_token ih

/-- Characters that are all blanks or in tokens are as they are without strays. -/
theorem Cut.withoutStrays_eq (h : Cut p s ts) (hall : AllTaken p s ts) : withoutStrays s = s := by
  induction h with
  | done p => rw [withoutStrays]
  | @gap p c r ts h hr ih =>
    have hc : isGap c = true := by
      rw [← Bool.not_eq_false]
      intro hstray
      obtain ⟨t, ht, hle, -⟩ := hall [] c r rfl hstray
      have hge := hr.position_ge t ht
      have hpos := c.utf8Size_pos
      rw [Text.byteLength_nil] at hle
      omega
    have hrest : AllTaken (p + c.utf8Size) r ts := by
      intro before d after happ hd
      rw [Nat.add_assoc, ← Text.byteLength_cons]
      exact hall (c :: before) d after (by rw [happ]; rfl) hd
    rw [withoutStrays_gap h, ih hrest, blankFor, if_pos hc]
    rfl
  | @token p c r tail rest kind ts h hr ih =>
    have happ := step_append h
    have hrest : AllTaken (p + byteLength (c :: tail)) rest ts := by
      intro before d after hsplit hd
      obtain ⟨t, ht, hin⟩ := hall (c :: tail ++ before) d after
        (by rw [← happ, hsplit, List.cons_append, List.cons_append, List.append_assoc]) hd
      rw [Text.byteLength_append, ← Nat.add_assoc] at hin
      rcases List.mem_cons.1 ht with rfl | ht
      · rw [finish_ofList, Nat.add_assoc] at hin
        exact absurd (Nat.lt_of_add_lt_add_left hin.2) (Nat.not_lt.2 (Nat.le_add_right ..))
      · exact ⟨t, ht, hin⟩
    rw [withoutStrays_token h, ih hrest, happ]

/-- All characters are blanks or in tokens exactly where there are no strays. -/
theorem Cut.allTaken_iff (h : Cut p s ts) : AllTaken p s ts ↔ withoutStrays s = s := by
  constructor
  · exact h.withoutStrays_eq
  · intro hsame
    rw [← hsame]
    exact h.allTaken_withoutStrays

end

/-! ## Strays and the canonical form -/

/-- The line with spaces for the characters that no token takes. -/
def cleared (line : String) : String :=
  String.ofList (withoutStrays line.toList)

theorem scan_cleared (line : String) : scan (cleared line) = scan line := by
  rw [scan, cleared, String.toList_ofList, scanFrom_withoutStrays, scan]

/-- The end marker takes nothing. -/
theorem allTaken_append_endAt {p q : Nat} {s : List Char} {ts : List Token} :
    AllTaken p s (ts ++ [endAt q]) ↔ AllTaken p s ts := by
  constructor
  · intro h before c after hs hc
    obtain ⟨t, ht, hle, hlt⟩ := h before c after hs hc
    rcases List.mem_append.1 ht with ht | ht
    · exact ⟨t, ht, hle, hlt⟩
    · rw [List.mem_singleton.1 ht] at hle hlt
      exact absurd hlt (Nat.not_lt.2 hle)
  · intro h before c after hs hc
    obtain ⟨t, ht, hin⟩ := h before c after hs hc
    exact ⟨t, List.mem_append_left _ ht, hin⟩

section
variable {line : String} {tokens : List Token}

theorem allTaken_cleared (h : scan line = .ok tokens) : AllTaken 0 (cleared line).toList tokens := by
  obtain ⟨ts, hcut, rfl⟩ := scan_eq_ok_iff.1 h
  rw [cleared, String.toList_ofList]
  exact allTaken_append_endAt.2 hcut.allTaken_withoutStrays

theorem allTaken_iff_cleared (h : scan line = .ok tokens) :
    AllTaken 0 line.toList tokens ↔ cleared line = line := by
  obtain ⟨ts, hcut, rfl⟩ := scan_eq_ok_iff.1 h
  rw [allTaken_append_endAt, hcut.allTaken_iff, ← String.toList_inj, cleared, String.toList_ofList]

end
end Token

open Token (scan cleared AllTaken)

namespace SkillLine

theorem parse_cleared (options : ParseOptions) (source : String) :
    parse options (cleared source) = parse options source := by
  rw [parse, Token.scan_cleared, parse]

theorem canonical?_cleared (options : ParseOptions) (source : String) :
    canonical? options (cleared source) = canonical? options source := by
  rw [canonical?, parse_cleared, canonical?]

theorem exists_scan_of_canonical? {options : ParseOptions} {source formed : String}
    (h : canonical? options source = some formed) : ∃ tokens, scan source = .ok tokens := by
  cases hscan : scan source with
  | ok tokens => exact ⟨tokens, rfl⟩
  | error e =>
    rw [canonical?, parse, hscan] at h
    cases h

/-- A line that has a canonical form shares it with the line that has spaces for its strays,
in which all but the blanks is taken by tokens. All of the line itself is taken exactly if it
has no strays; any others are lost in the canonical form. -/
theorem canonical?_loses_strays {options : ParseOptions} {source formed : String}
    (h : canonical? options source = some formed) :
    ∃ tokens, scan source = .ok tokens ∧
      scan (cleared source) = .ok tokens ∧ AllTaken 0 (cleared source).toList tokens ∧
      canonical? options (cleared source) = some formed ∧
      (AllTaken 0 source.toList tokens ↔ cleared source = source) := by
  obtain ⟨tokens, hscan⟩ := exists_scan_of_canonical? h
  refine ⟨tokens, hscan, ?_, Token.allTaken_cleared hscan, ?_, Token.allTaken_iff_cleared hscan⟩
  · rw [Token.scan_cleared, hscan]
  · rw [canonical?_cleared, h]

/-- A dollar sign, and a letter of two bytes with a point. -/
theorem canonical?_loses_dollar :
    canonical? {} "heal $\x7ba=1\x7d é.0.5" = some "heal\x7ba=1\x7d 0.5" ∧
      cleared "heal $\x7ba=1\x7d é.0.5" = "heal  \x7ba=1\x7d    0.5" ∧
      ∃ tokens, scan "heal $\x7ba=1\x7d é.0.5" = .ok tokens ∧
        scan (cleared "heal $\x7ba=1\x7d é.0.5") = .ok tokens ∧
        AllTaken 0 (cleared "heal $\x7ba=1\x7d é.0.5").toList tokens ∧
        canonical? {} (cleared "heal $\x7ba=1\x7d é.0.5") = some "heal\x7ba=1\x7d 0.5" ∧
        (AllTaken 0 "heal $\x7ba=1\x7d é.0.5".toList tokens ↔
          cleared "heal $\x7ba=1\x7d é.0.5" = "heal $\x7ba=1\x7d é.0.5") := by
  have hcanon : canonical? {} "heal $\x7ba=1\x7d é.0.5" = some "heal\x7ba=1\x7d 0.5" := by
    rw [canonical?, SkillLine.parse, Token.scan_ofList]
    decide +kernel
  exact ⟨hcanon, by decide +kernel, canonical?_loses_strays hcanon⟩

/-- The last letter of a word is no letter of words: the canonical form is without it. -/
theorem not_allTaken_accent :
    ∃ tokens, scan "message\x7bm=café\x7d" = .ok tokens ∧
      canonical? {} "message\x7bm=café\x7d" = some "message\x7bm=caf\x7d" ∧
      ¬ AllTaken 0 "message\x7bm=café\x7d".toList tokens := by
  have hcanon : canonical? {} "message\x7bm=café\x7d" = some "message\x7bm=caf\x7d" := by
    rw [canonical?, SkillLine.parse, Token.scan_ofList]
    decide +kernel
  obtain ⟨tokens, hscan⟩ := exists_scan_of_canonical? hcanon
  refine ⟨tokens, hscan, hcanon, ?_⟩
  rw [Token.allTaken_iff_cleared hscan]
  decide +kernel

end SkillLine
end MobSkills
