import MobSkills.Completion.Suggestion
import MobSkills.Proofs.Completion.Choice
import MobSkills.Proofs.Line.ValueLine
import MobSkills.Proofs.Validation.Reference

/-!
# Completed references

A metaskill that is chosen for a reference is put into the line by its bare name, while the
parser gives words, numbers and lists in brackets values of their own. So the line that the
choice completes invokes the chosen metaskill exactly when its name is the text of the value
that the name stands for. The canonical text of a name, quoted where that is needed, is
always read as the name. Whether another metaskill has the name that is read is left out.
-/
namespace MobSkills

/-- A line invokes the text of the value of one of its parameters. -/
theorem Validation.exists_entry_of_invoked? {r : Registry} {line : SkillLine} {name : String}
    (h : invoked? r line = some name) :
    ∃ p e, line.parameters = some p ∧ e ∈ p.entries ∧ e.2.display = name := by
  unfold invoked? at h
  split at h
  · obtain ⟨hfound, -⟩ := Option.filter_eq_some_iff.1 h
    obtain ⟨e, he, rfl⟩ := Option.map_eq_some_iff.1 hfound
    obtain ⟨p, hp, he⟩ := Option.bind_eq_some_iff.1 he
    obtain ⟨key, -, hkey⟩ := List.exists_of_findSome?_eq_some he
    exact ⟨p, e, hp, List.mem_of_find?_eq_some hkey, rfl⟩
  · cases h

namespace Completion

open Text (byteLength)
open Token (Spells Cut IsLexeme IsWord Parted parted_cons)
open Grammar
open Validation (isInvocation invoked? invoked?_of_parameterOf? exists_entry_of_invoked?)

/-- What stands before a reference. -/
def opening : String := "skill\x7bs="

/-- The line with a reference and nothing else. -/
def referenceTo (v : Value) : SkillLine :=
  { mechanic := "skill", parameters := some ⟨[("s", v)]⟩ }

/-- The text parses without errors and warnings to a line that invokes the name. -/
def Invokes (r : Registry) (options : ParseOptions) (text name : String) : Prop :=
  ∃ line, SkillLine.parse options text = .ok ⟨line, [], []⟩ ∧ invoked? r line = some name

/-- A name that is the text of the value it stands for without quotes. Of the words, those
for truth values have to be in small letters; a number has to be in the notation of its
value. -/
inductive IsOwnValue : String → Prop
  | word {name : String} (h : IsWord name.toList)
      (hv : (Reading.wordValue name).display = name) : IsOwnValue name
  | number {name : String} (h : IsLexeme .number name.toList)
      (hv : (Reading.numberValue name).display = name) : IsOwnValue name
  | list {items : List String} (h : (Value.list items).WellFormed) :
      IsOwnValue (Value.list items).display

/-! ## Texts that complete to a reference -/

theorem spells_reference {value : String} {v : Value}
    (hv : Spells value.toList fun ts => ValueOf ts v) :
    Spells (opening ++ value ++ "\x7d").toList fun ts => HeadOf ts (referenceTo v) := by
  have hm : IsWord "skill".toList := by decide
  have hk : IsWord "s".toList := by decide
  have htext : (opening ++ value ++ "\x7d").toList =
      "skill".toList ++ '\x7b' :: ("s".toList ++ '=' :: value.toList ++ ['\x7d']) := by
    simp [opening, String.toList_append]
  rw [htext]
  exact spells_parameter hm hk hv

/-- A text that spells a value completes to a reference to the text of the value. -/
theorem invokes_of_spells {value : String} {v : Value} (r : Registry) (options : ParseOptions)
    (hv : Spells value.toList fun ts => ValueOf ts v) (hblank : v.isBlank = false) :
    Invokes r options (opening ++ value ++ "\x7d") v.display := by
  obtain ⟨ts, hcut, hhead⟩ := spells_reference hv 0
  refine ⟨_, (parse_eq_clean_iff hcut).2 hhead.parsedAs, ?_⟩
  have hskill : isInvocation r (referenceTo v).mechanic = true := by
    have hsame : Text.eqIgnoreCase "skill" "skill" = true := by decide
    simp [isInvocation, referenceTo, hsame]
  have hkey : (referenceTo v).parameterOf? invocationKeys = some ("s", v) := by
    have hsame : Text.eqIgnoreCase "s" "s" = true := by decide
    simp [SkillLine.parameterOf?, referenceTo, invocationKeys, Params.findIgnoreCase?, hsame]
  rw [invoked?_of_parameterOf? hskill hkey, hblank]
  rfl

theorem toList_display_list (items : List String) :
    (Value.list items).display.toList = (Value.list items).render := by
  simp only [Value.display, Value.render, String.toList_append, String.toList_intercalate]
  rfl

theorem isBlank_of_mem_display {v : Value} {c : Char} (hc : c ∈ v.display.toList)
    (h : c.isAlphanum = true) : v.isBlank = false := by
  rw [← Value.allBlank_display]
  exact Text.allBlank_eq_false hc (Text.isBlank_of_isAlphanum h)

theorem exists_spells {name : String} (h : IsOwnValue name) :
    ∃ v : Value, Spells name.toList (fun ts => ValueOf ts v) ∧ v.display = name ∧
      v.isBlank = false := by
  cases h with
  | word h hv =>
    refine ⟨_, spells_word h, hv, ?_⟩
    obtain ⟨c, r, hname, hc, -⟩ := h
    exact isBlank_of_mem_display (c := c) (by simp [hv, hname]) (by simp [Char.isAlphanum, hc])
  | number h hv =>
    refine ⟨_, spells_number h, hv, ?_⟩
    obtain ⟨negative, _, hname, whole, _, _, rfl, hn, hw, -⟩ := Token.isLexeme_number_iff.1 h
    obtain ⟨c, hc⟩ := List.exists_mem_of_ne_nil whole hn
    exact isBlank_of_mem_display (c := c) (by simp [hv, hname, hc])
      (by simp [Char.isAlphanum, hw c hc])
  | @list items h =>
    obtain ⟨ts, hts, hb⟩ := id h
    refine ⟨.list items, ?_, rfl, rfl⟩
    rw [toList_display_list]
    exact spells_renderList hts hb

/-! ## Names that are references to themselves -/

theorem isOwnValue_wordValue {text : String} (h : IsWord text.toList) :
    IsOwnValue (Reading.wordValue text).display := by
  by_cases htruth : Reading.isTruthWord text = true
  · rw [Reading.wordValue, if_pos htruth]
    cases Text.eqIgnoreCase text "true" <;> exact .word (by decide) (by decide)
  · have hvalue : Reading.wordValue text = .text text := if_neg htruth
    have hown : IsOwnValue text := .word h (congrArg Value.display hvalue)
    rwa [hvalue]

/-- The text of a real is its own value if it has a point. -/
theorem isOwnValue_real {x : Binary64} (h : '.' ∈ x.plain) :
    IsOwnValue (Value.real x).display := by
  cases x with
  | nan => exact absurd h (by decide)
  | infinity negative => cases negative <;> exact absurd h (by decide)
  | finite negative m =>
    have htext : (Value.real (.finite negative m)).display.toList =
        (Binary64.finite negative m).pointed := by
      simp [Value.display, Binary64.text, Binary64.pointed, h]
    refine .number (htext ▸ (Binary64.pointed_lexeme negative m).1) ?_
    rw [numberValue_pointed htext]

theorem isOwnValue_numberValue {text : String} (h : IsLexeme .number text.toList)
    (hp : '.' ∈ text.toList → '.' ∈ (Reading.numberValue text).display.toList) :
    IsOwnValue (Reading.numberValue text).display := by
  rcases Reading.numberValue_cases text with hvalue | ⟨i, hvalue⟩ | ⟨x, hvalue, hpoint⟩
  · have hown : IsOwnValue text := .number h (congrArg Value.display hvalue)
    rwa [hvalue]
  · rw [hvalue]
    have hread : Reading.numberValue (Value.integer i).display = .integer i :=
      numberValue_integer rfl
    exact .number (integer_lexeme i).1 (congrArg Value.display hread)
  · have hdisplay := hp hpoint
    rw [hvalue] at hdisplay ⊢
    exact isOwnValue_real (by simpa [Value.display, Binary64.text] using hdisplay)

/-- A value from the line that its own text completes to is its own value. The line has no
quotes and points apart from those of the name, which rules out a string and a real that
is written without a point. -/
theorem isOwnValue_of_valueOf {ts vs : List Token} {v : Value}
    (hcut : Cut 0 (opening ++ v.display ++ "\x7d").toList ts) (hsub : ∀ t ∈ vs, t ∈ ts)
    (hv : ValueOf vs v) : IsOwnValue v.display := by
  have hlexeme (t : Token) (ht : t ∈ vs) := hcut.isLexeme t (hsub t ht)
  rw [String.toList_append, String.toList_append] at hcut
  cases hv with
  | @text t h =>
    have hne := hcut.unquote_ne (hsub t (by simp)) h (by decide)
    exact absurd rfl hne
  | @number t h =>
    refine isOwnValue_numberValue (h ▸ hlexeme t (by simp)) fun hpoint => ?_
    have hle := hcut.count_le (hsub t (by simp)) (c := '.') (by decide)
    exact List.count_pos_iff.1 (Nat.lt_of_lt_of_le (List.count_pos_iff.2 hpoint) hle)
  | @word t h =>
    exact isOwnValue_wordValue (Token.isLexeme_identifier_iff.1 (h ▸ hlexeme t (by simp)))
  | @list o c inner ho hc hb =>
    exact .list (wellFormed_of_valueOf (.list ho hc hb) hlexeme (by simp))

/-- A name completes to a reference to itself exactly when it is its own value. -/
theorem invokes_iff {r : Registry} {options : ParseOptions} {name : String} :
    Invokes r options (opening ++ name ++ "\x7d") name ↔ IsOwnValue name := by
  constructor
  · intro h
    obtain ⟨line, hparse, hinvoked⟩ := h
    obtain ⟨ts, hcut, hparsed⟩ := exists_cut_of_parse hparse
    obtain ⟨p, e, hp, he, rfl⟩ := exists_entry_of_invoked? hinvoked
    obtain ⟨vs, hsub, hv⟩ := hparsed.exists_valueOf hp he
    exact isOwnValue_of_valueOf hcut hsub hv
  · intro h
    obtain ⟨v, hv, rfl, hblank⟩ := exists_spells h
    exact invokes_of_spells r options hv hblank

/-! ## The completed line -/

/-- The context at the end of a query for a reference. -/
def referenceContext (query : String) : CompletionContext :=
  contextAt (opening ++ query) (byteLength (opening ++ query).toList)

theorem referenceContext_eq (query : String) :
    referenceContext query = contextAfter (opening ++ query).toList :=
  contextAt_end (opening ++ query)

/-- A text that leaves the entry open is a query for a reference. -/
theorem referenceContext_of_not_mem {query : String} (hbrace : '\x7d' ∉ query.toList)
    (hsemi : ';' ∉ query.toList) (hfeed : '\n' ∉ query.toList) :
    (referenceContext query).slot = .metaskill ∧ (referenceContext query).query = query := by
  have htext : (opening ++ query).toList =
      "skill".toList ++ '\x7b' :: (['s'] ++ '=' :: query.toList) := by
    simp [opening, String.toList_append]
  have hword : IsWord "skill".toList := by decide
  have hblank : ∀ c ∈ ['s'].head?, Text.isBlank c = false := by
    intro c hc
    obtain rfl := Option.some.inj hc
    decide
  obtain ⟨hslot, hquery⟩ :=
    contextAfter_entry hword hblank (by decide) (by decide) ⟨hsemi, hbrace, hfeed⟩
  rw [← htext, ← referenceContext_eq] at hslot hquery
  rw [String.ofList_toList] at hquery
  exact ⟨hslot, hquery⟩

/-- A choice takes the place of the query. -/
theorem applyChoice_reference {query : String} (choice : String)
    (hslot : (referenceContext query).slot = .metaskill)
    (hquery : (referenceContext query).query = query) :
    (applyChoice (opening ++ query) (referenceContext query) choice).1 = opening ++ choice := by
  obtain ⟨a, q, slot, hbefore, hcontext, -⟩ := exists_before_query (opening ++ query).toList
  rw [← referenceContext_eq] at hcontext
  obtain rfl : q = query.toList := by rw [← hquery, hcontext, String.toList_ofList]
  obtain rfl : a = opening.toList := by
    rw [String.toList_append] at hbefore
    exact (List.append_cancel_right hbefore).symm
  have hcursor : (referenceContext query).cursor =
      byteLength (opening.toList ++ query.toList) := by
    rw [← hbefore, hcontext]
  have happlied := applyChoice_append choice opening.toList query.toList []
    (congrArg CompletionContext.start hcontext) hcursor
  have hsuffix : suffixOf .metaskill = "" := rfl
  rw [hslot, hsuffix, String.append_empty, List.append_nil, List.append_nil,
    ← String.toList_append, ← String.toList_append, String.ofList_toList,
    String.ofList_toList] at happlied
  exact congrArg Prod.fst happlied

/-- Every choice for a reference is the name of a metaskill, and the line that it completes
invokes that name exactly when the name is its own value. -/
theorem completed_reference_iff (r : Registry) (options : ParseOptions)
    {metaskills : List Metaskill} {limit : Nat} {query : String} {s : Suggestion}
    (hslot : (referenceContext query).slot = .metaskill)
    (hquery : (referenceContext query).query = query)
    (hs : s ∈ suggestions r (referenceContext query) metaskills limit) :
    (∃ m ∈ metaskills, m.name = s.text) ∧
      (Invokes r options
        ((applyChoice (opening ++ query) (referenceContext query) s.text).1 ++ "\x7d") s.text ↔
          IsOwnValue s.text) := by
  constructor
  · rw [suggestions, hslot] at hs
    obtain ⟨m, hm, rfl⟩ := List.mem_map.1 hs
    exact ⟨m, (List.mem_filter.1 (List.mem_of_mem_take hm)).1, rfl⟩
  · rw [applyChoice_reference s.text hslot hquery]
    exact invokes_iff

/-- The first and the last of these metaskills answer to the query `0`. -/
def numberedMetaskills : List Metaskill :=
  [{ name := "007" }, { name := "7" }, { name := "Burst:0" }]

theorem completed_reference_burst :
    ∃ s ∈ suggestions .standard (referenceContext "0") numberedMetaskills 10,
      s.text = "Burst:0" ∧ Invokes .standard {}
        ((applyChoice (opening ++ "0") (referenceContext "0") s.text).1 ++ "\x7d") s.text := by
  have hoffered : ∃ s ∈ suggestions .standard (referenceContext "0") numberedMetaskills 10,
      s.text = "Burst:0" := by
    decide +kernel
  obtain ⟨s, hs, htext⟩ := hoffered
  have hown : IsOwnValue s.text := by
    rw [htext]
    exact .word (by decide) (by decide)
  have hcontext : (referenceContext "0").slot = .metaskill ∧ (referenceContext "0").query = "0" :=
    referenceContext_of_not_mem (by decide) (by decide) (by decide)
  have hiff := (completed_reference_iff .standard {} hcontext.1 hcontext.2 hs).2
  exact ⟨s, hs, htext, hiff.2 hown⟩

/-- The zeros before a number are lost: the choice of `007` invokes `7`. -/
theorem not_invokes_leadingZeros :
    ∃ s ∈ suggestions .standard (referenceContext "0") numberedMetaskills 10,
      let completed :=
        (applyChoice (opening ++ "0") (referenceContext "0") s.text).1 ++ "\x7d"
      s.text = "007" ∧ Invokes .standard {} completed "7" ∧
        ¬ Invokes .standard {} completed s.text := by
  have hparse : SkillLine.parse {}
      ((applyChoice (opening ++ "0") (referenceContext "0") "007").1 ++ "\x7d") =
        .ok ⟨referenceTo (.integer 7), [], []⟩ := by
    decide +kernel
  have hseven : invoked? .standard (referenceTo (.integer 7)) = some "7" := by decide +kernel
  refine ⟨⟨"007", some "Metaskill with 0 skill(s)", some "metaskill"⟩, by decide +kernel, rfl,
    ⟨_, hparse, hseven⟩, fun h => ?_⟩
  obtain ⟨line, hline, hinvoked⟩ := h
  cases hparse.symm.trans hline
  exact absurd (hseven.symm.trans hinvoked) (by decide)

end Completion

end MobSkills
