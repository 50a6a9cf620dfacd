import MobSkills.Line.Block
import MobSkills.Proofs.Line.Sealed

/-!
# Blocks of canonical lines

A block is read back as the lines it was written from exactly when none of them is written
with a line feed. The feed would be inside of a string, so the line that ends there has a
string that is not closed. What is read from the rest of that line is left open: it can be
lines of its own, or be passed over.
-/
namespace MobSkills

open Text (lines rawLines dropReturn isBlank trim trimLeft trimRight)
open Token (Cut Spells)
open Grammar

/-! ## Lines and blanks at their ends -/

namespace Text
variable {a b s : List Char} {c : Char}

theorem rawLines_append (h : '\n' ∉ a) (b : List Char) :
    rawLines (a ++ '\n' :: b) = (a, true) :: rawLines b := by
  induction a with
  | nil => simp [rawLines]
  | cons c a ih =>
    rw [List.mem_cons, not_or] at h
    have hc : c ≠ '\n' := Ne.symm h.1
    simp [rawLines, hc, ih h.2]

theorem lines_append (h : '\n' ∉ a) (b : List Char) :
    lines (a ++ '\n' :: b) = dropReturn a :: lines b := by
  simp [lines, rawLines_append h]

theorem trimRight_append_cons (h : isBlank c = false) (a b : List Char) :
    trimRight (a ++ c :: b) = a ++ c :: trimRight b := by
  have hstop : ∀ d ∈ (c :: a.reverse).head?, isBlank d = false := by
    intro d hd
    obtain rfl : c = d := Option.some.inj hd
    exact h
  have hdrop := Token.dropWhile_append_stop hstop b.reverse
  simp only [trimRight, List.reverse_append, List.reverse_cons, List.append_assoc,
    List.singleton_append]
  rw [hdrop]
  simp

theorem trimRight_append_blank (h : isBlank c = true) (a : List Char) :
    trimRight (a ++ [c]) = trimRight a := by
  simp [trimRight, h]

theorem exists_trimRight (s : List Char) :
    ∃ b, s = trimRight s ++ b ∧ ∀ c ∈ b, isBlank c = true := by
  refine ⟨(s.reverse.takeWhile isBlank).reverse, ?_, ?_⟩
  · rw [trimRight, ← List.reverse_append, List.takeWhile_append_dropWhile, List.reverse_reverse]
  · intro c hc
    exact List.mem_takeWhile_imp (List.mem_reverse.1 hc)

/-- The carriage return of a line break is one of the blanks that are trimmed. -/
theorem trim_dropReturn (s : List Char) : trim (dropReturn s) = trim s := by
  unfold dropReturn
  split
  · rename_i hlast
    obtain ⟨a, rfl⟩ := List.getLast?_eq_some_iff.1 hlast
    rw [List.dropLast_concat, trim, trim, trimLeft, trimLeft, List.dropWhile_append]
    split
    · rename_i hempty
      rw [List.isEmpty_iff.1 hempty]
      rfl
    · exact (trimRight_append_blank rfl _).symm
  · rfl

/-- Trimming a text that begins with no blank leaves its beginning. -/
theorem trim_cons (h : isBlank c = false) (s : List Char) : trim (c :: s) = c :: trimRight s := by
  have hleft : trimLeft (c :: s) = c :: s := by simp [trimLeft, h]
  rw [trim, hleft]
  exact trimRight_append_cons h [] s

end Text

/-! ## Blanks behind a line -/

namespace Token

section
variable {p : Nat} {c : Char} {r s b : List Char} {ts : List Token} {kind : TokenKind}

theorem step_isBlank (h : isBlank c = true) (r : List Char) : step c r = .gap := by
  have hno : isBlank c ≠ false := by simp [h]
  cases hs : step c r with
  | gap => rfl
  | unterminated => exact absurd (isBlank_of_isQuote (step_eq_unterminated hs)) hno
  | token kind tail rest =>
    rcases step_eq_token hs with ⟨-, hq, -⟩ | ⟨-, hn, -⟩ | ⟨-, ha, -⟩ | ⟨hk, -⟩
    · exact absurd (isBlank_of_isQuote hq) hno
    · rcases hn with hd | ⟨rfl, -⟩
      · exact absurd (isBlank_of_isDigit hd) hno
      · cases h
    · have halnum : c.isAlphanum = true := by simp [Char.isAlphanum, ha]
      exact absurd (Text.isBlank_of_isAlphanum halnum) hno
    · exact absurd (isBlank_of_symbol hk) hno

/-- A token does not end in a blank, for a string ends in its quote. -/
theorem IsLexeme.isBlank_getLast (h : IsLexeme kind s) : ∀ c ∈ s.getLast?, isBlank c = false := by
  intro c hc
  by_cases hk : kind = .string
  · subst hk
    cases s with
    | nil => cases h
    | cons d r =>
      rcases step_eq_token h with ⟨-, hq, hs⟩ | ⟨hk, -⟩ | ⟨hk, -⟩ | ⟨hk, -⟩
      · obtain ⟨body, -, rfl⟩ := exists_body_of_splitString hs
        rw [← List.cons_append, List.getLast?_concat] at hc
        obtain rfl := Option.some.inj hc
        exact isBlank_of_isQuote hq
      · cases hk
      · cases hk
      · exact absurd rfl (ofSymbol?_kind hk).2.2.1
  · exact h.isBlank_eq_false hk c (List.mem_of_getLast? hc)

theorem parted_of_isBlank (hb : ∀ c ∈ b, isBlank c = true) : Parted b := by
  intro c hc
  have hblank := hb c (List.mem_of_mem_head? hc)
  have hword : isWordChar c = false := by
    by_contra hword
    rw [isBlank_of_isWordChar (eq_true_of_ne_false hword)] at hblank
    cases hblank
  refine ⟨hword, ?_, ?_⟩ <;> rintro rfl <;> cases hblank

/-- Blanks behind a text make no tokens. -/
theorem Cut.of_append_blank (h : Cut p (s ++ b) ts) (hb : ∀ c ∈ b, isBlank c = true) :
    Cut p s ts := by
  generalize hx : s ++ b = x at h
  induction h generalizing s b with
  | done p =>
    obtain ⟨rfl, -⟩ := List.append_eq_nil_iff.1 hx
    exact .done p
  | @gap p c r ts h hr ih =>
    cases s with
    | nil =>
      obtain rfl : b = c :: r := hx
      have hrest := ih (s := []) (fun d hd => hb d (List.mem_cons_of_mem c hd)) rfl
      cases hrest
      exact .done p
    | cons d s =>
      obtain ⟨rfl, rfl⟩ := List.cons.inj hx
      exact .gap (step_eq_gap h _) (ih hb rfl)
  | @token p c r tail rest kind ts h hr ih =>
    cases s with
    | nil =>
      obtain rfl : b = c :: r := hx
      rw [step_isBlank (hb c (List.mem_cons_self ..))] at h
      cases h
    | cons d s =>
      obtain ⟨rfl, hsplit⟩ := List.cons.inj hx
      have happ := step_append h
      rw [← hsplit] at h happ
      obtain ⟨more, rfl, rfl⟩ : ∃ more, s = tail ++ more ∧ rest = more ++ b := by
        rcases List.append_eq_append_iff.1 happ with ⟨more, hs, hrest⟩ | ⟨more, htail, hmore⟩
        · exact ⟨more, hs, hrest⟩
        · -- The token would end in one of the blanks.
          have hlast := (isLexeme_of_step h).isBlank_getLast
          rcases List.eq_nil_or_concat more with rfl | ⟨init, e, rfl⟩
          · exact ⟨[], by simpa using htail.symm, by simpa using hmore.symm⟩
          · have hblank := hb e (by simp [hmore])
            have hend : (d :: tail).getLast? = some e := by
              rw [htail, List.concat_eq_append, ← List.append_assoc, ← List.cons_append,
                List.getLast?_concat]
            rw [hlast e hend] at hblank
            cases hblank
      exact .token (step_of_append_stop h ((parted_of_isBlank hb).stops kind)) (ih hb rfl)

theorem EndsOpen.trimRight (h : EndsOpen s) : EndsOpen (Text.trimRight s) := by
  obtain ⟨front, ks, quote, inner, rfl, hfront, hquote, hopen⟩ := h
  obtain ⟨b, hb, -⟩ := Text.exists_trimRight inner
  rw [hb] at hopen
  rw [Text.trimRight_append_cons (isBlank_of_isQuote hquote)]
  exact ⟨front, ks, quote, _, rfl, hfront, hquote, hopen.of_append⟩

/-- A text that ends in an open string does not scan. -/
theorem EndsOpen.scan_eq_error (h : EndsOpen s) :
    ∃ e, Token.scan (String.ofList s) = .error e := by
  obtain ⟨front, ks, quote, inner, rfl, hfront, hquote, hopen⟩ := h
  obtain ⟨ts, hcut, -⟩ := hfront.spells 0
  have hbefore : Cut 0 (String.ofList front).toList ts := by rwa [String.toList_ofList]
  exact ⟨_, scan_eq_unterminated_iff.2 ⟨front, quote, inner, String.toList_ofList, rfl, hquote,
    ⟨_, scan_eq_ok_iff.2 ⟨ts, hbefore, rfl⟩⟩, hopen⟩⟩

/-- A text that begins with a letter begins with a word. -/
theorem Cut.head?_kind (h : Cut p (c :: r) ts) (hc : c.isAlpha = true) :
    ∀ t ∈ ts.head?, t.kind = .identifier := by
  intro t ht
  cases h with
  | gap h _ =>
    rw [step_isAlpha hc] at h
    cases h
  | token h _ =>
    rw [step_isAlpha hc] at h
    cases h
    obtain rfl := Option.some.inj ht
    rfl

end

end Token

/-! ## One item of a block -/

/-- A line may have a marker that it had not. -/
theorem Grammar.ParsedAs.marked {m : Token} {ts : List Token} {line : SkillLine}
    (h : ParsedAs ts line) (hm : m.kind = .minus) (hno : ∀ t ∈ ts.head?, t.kind ≠ .minus) :
    ParsedAs (m :: ts) line := by
  obtain ⟨⟨hmark, hn, hp, ha, hs, hc⟩, ht⟩ := h
  cases hmark with
  | absent => exact .mk (.mk (.present hm) hn hp ha hs hc) ht
  | present hminus => exact absurd hminus (hno _ rfl)

namespace SkillLine
variable {options : ParseOptions} {line : SkillLine}

/-- A list marker before a canonical line changes nothing. -/
theorem WellFormed.spells_item (h : line.WellFormed) :
    Spells ('-' :: ' ' :: line.render.toList) fun ts => ParsedAs ts line := by
  have hline : Spells line.render.toList fun ts =>
      ParsedAs ts line ∧ ∀ t ∈ ts.head?, t.kind ≠ .minus := by
    intro p
    obtain ⟨ts, hcut, cs, hsame, hparsed⟩ := spells_render h.spellable p
    obtain rfl : line.conditions = cs := List.forall₂_eq_eq_eq ▸ hsame
    rw [h.reread] at hparsed
    obtain ⟨c, r, hname, hc, -⟩ := h.mechanic
    have hhead := hcut
    rw [render_toList, hname] at hhead
    refine ⟨ts, hcut, hparsed, fun t ht => ?_⟩
    rw [hhead.head?_kind hc t ht]
    decide
  have hstops : Token.Stops .minus (' ' :: line.render.toList) := by
    intro c hc
    cases hc
    rfl
  exact .lexeme (s := ['-']) (Token.isLexeme_symbol rfl) (hline.gap rfl) hstops
    fun m us hm _ hus => hus.1.marked hm hus.2

theorem WellFormed.parse_item (h : line.WellFormed) (options : ParseOptions) :
    parse options (String.ofList (trimRight ('-' :: ' ' :: line.render.toList))) =
      .ok ⟨line, [], []⟩ := by
  obtain ⟨ts, hcut, hparsed⟩ := h.spells_item 0
  obtain ⟨b, hb, hblank⟩ := Text.exists_trimRight ('-' :: ' ' :: line.render.toList)
  rw [hb] at hcut
  refine (parse_eq_clean_iff ?_).2 hparsed
  rw [String.toList_ofList]
  exact hcut.of_append_blank hblank

/-- An item that is cut off at a line feed ends in an open string. -/
theorem WellFormed.parse_item_cut {before after : List Char} (h : line.WellFormed)
    (hr : line.render.toList = before ++ '\n' :: after) (options : ParseOptions) :
    ∃ e, parse options (String.ofList (trimRight ('-' :: ' ' :: before))) = .error e := by
  have hmarker : Token.Braced ['-', ' '] [] := .of_all_soft (by simp [Token.IsSoft, Token.isQuote])
  have hopen := (h.sealed.opened before after hr).append_left hmarker
  obtain ⟨e, he⟩ := hopen.trimRight.scan_eq_error
  refine ⟨e, ?_⟩
  rw [List.cons_append, List.cons_append, List.nil_append] at he
  rw [parse, he]
  rfl

/-! ## Blocks -/

/-- What a line of a block is read as, unless it is passed over. Lines are counted from 0. -/
def blockLine? (options : ParseOptions) (raw : List Char × Nat) : Option BlockLine :=
  let source := trim raw.1
  if source.isEmpty || source.head? = some '#' then none
  else some ⟨raw.2 + 1, String.ofList source, parse options (String.ofList source)⟩

/-- The numbers and the outcomes of the lines of a text that come after `index` others. -/
def answersFrom (options : ParseOptions) (index : Nat) (s : List Char) :
    List (Nat × Except ScanError Outcome) :=
  (((lines s).zipIdx index).filterMap (blockLine? options)).map fun b => (b.number, b.outcome)

theorem answersFrom_item {item : List Char} (h : '\n' ∉ item) (options : ParseOptions)
    (index : Nat) (rest : List Char) :
    answersFrom options index ('-' :: item ++ '\n' :: rest) =
      (index + 1, parse options (String.ofList (trimRight ('-' :: item)))) ::
        answersFrom options (index + 1) rest := by
  have hitem : '\n' ∉ '-' :: item := by simp [h]
  have hminus : isBlank '-' = false := rfl
  have htrim : trimRight ('-' :: item) = '-' :: trimRight item :=
    Text.trimRight_append_cons hminus [] item
  have hentry : blockLine? options (dropReturn ('-' :: item), index) = some
      ⟨index + 1, String.ofList (trimRight ('-' :: item)),
        parse options (String.ofList (trimRight ('-' :: item)))⟩ := by
    simp [blockLine?, Text.trim_dropReturn, Text.trim_cons hminus, htrim]
  rw [answersFrom, Text.lines_append hitem, List.zipIdx_cons, List.filterMap_cons_some hentry]
  rfl

theorem renderBlock_cons (line : SkillLine) (rest : List SkillLine) :
    (renderBlock (line :: rest)).toList =
      '-' :: ' ' :: line.render.toList ++ '\n' :: (renderBlock rest).toList := by
  simp [renderBlock, String.join_cons, String.toList_append]

/-- The lines of a block, each read as it is. -/
def cleanAnswers (lines : List SkillLine) (first : Nat) : List (Nat × Except ScanError Outcome) :=
  (lines.zipIdx first).map fun (line, number) => (number, .ok ⟨line, [], []⟩)

theorem answersFrom_renderBlock_iff {lines : List SkillLine} (h : ∀ line ∈ lines, line.WellFormed)
    (index : Nat) :
    answersFrom options index (renderBlock lines).toList = cleanAnswers lines (index + 1) ↔
      ∀ line ∈ lines, '\n' ∉ line.render.toList := by
  induction lines generalizing index with
  | nil => exact iff_of_true rfl (by simp)
  | cons line rest ih =>
    obtain ⟨hline, hrest⟩ := List.forall_mem_cons.1 h
    have hexpected : cleanAnswers (line :: rest) (index + 1) =
        (index + 1, .ok ⟨line, [], []⟩) :: cleanAnswers rest (index + 1 + 1) := rfl
    rw [renderBlock_cons, hexpected, List.forall_mem_cons]
    by_cases hfeed : '\n' ∈ line.render.toList
    · obtain ⟨before, after, hr, hno⟩ := List.eq_append_cons_of_mem hfeed
      obtain ⟨e, he⟩ := hline.parse_item_cut hr options
      have hitem : '\n' ∉ ' ' :: before := by simp [hno]
      have hbroken :=
        answersFrom_item hitem options index (after ++ '\n' :: (renderBlock rest).toList)
      rw [he] at hbroken
      have htext : '-' :: ' ' :: line.render.toList ++ '\n' :: (renderBlock rest).toList =
          '-' :: ' ' :: before ++ '\n' :: (after ++ '\n' :: (renderBlock rest).toList) := by
        simp [hr]
      rw [htext, hbroken]
      simp [hfeed]
    · have hitem : '\n' ∉ ' ' :: line.render.toList := by simp [hfeed]
      rw [answersFrom_item hitem, hline.parse_item, List.cons.injEq, ih hrest]
      simp [hfeed]

/-- A block of well-formed lines is read back line by line, with the numbers from 1 on and
without errors and warnings, if and only if no line is written with a line feed. -/
theorem parseBlock_renderBlock_iff {lines : List SkillLine} (options : ParseOptions)
    (h : ∀ line ∈ lines, line.WellFormed) :
    (parseBlock options (renderBlock lines)).map (fun b => (b.number, b.outcome)) =
        (lines.zipIdx 1).map (fun (line, number) => (number, .ok ⟨line, [], []⟩)) ↔
      ∀ line ∈ lines, '\n' ∉ line.render.toList :=
  answersFrom_renderBlock_iff h 0

theorem parseBlock_renderBlock_strikeLine :
    (∀ line ∈ [strikeLine, strikeLine], line.WellFormed) ∧
      (parseBlock {} (renderBlock [strikeLine, strikeLine])).map (fun b => (b.number, b.outcome)) =
        [(1, .ok ⟨strikeLine, [], []⟩), (2, .ok ⟨strikeLine, [], []⟩)] := by
  have hform : ∀ line ∈ [strikeLine, strikeLine], line.WellFormed := by
    simp [strikeLine_wellFormed]
  have hfeed : '\n' ∉ strikeLine.render.toList := by decide +kernel
  exact ⟨hform, (parseBlock_renderBlock_iff {} hform).2 (by simp [hfeed])⟩

end SkillLine
end MobSkills
