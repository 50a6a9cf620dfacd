import MobSkills.Project.Format
import MobSkills.Proofs.Line.Stability

/-!
# What formatting does to a document

A document is formatted part by part, and each level says the same of its parts: their
lines are put in canonical form, the lines that were not in it are counted, and a part
of which none was changed is the same as before. What a second pass changes is read off
from that; a line is changed twice when its canonical form is not its own.
-/
namespace MobSkills

-- The zero of sums is the one they were defined with.
attribute [local instance (high)] Zero.ofOfNat0

/-- The canonical form of a line, or the line itself where it has none. -/
def SkillLine.settle (options : ParseOptions) (text : String) : String :=
  (canonical? options text).getD text

namespace Toml

/-! ## The lines of a document -/

def Written.lines : Written → List String
  | .plain _ (.string text) => [text]
  | _ => []

def Node.lines : Node → List String
  | .leaf _ (.array items _) => items.flatMap (·.2.lines)
  | _ => []

def linesUnder (names : List String) (lines : Node → List String) (entries : List (Key × Node)) :
    List String :=
  entries.flatMap fun (key, node) => if names.contains key.name then lines node else []

def Node.ownedLines : Node → List String
  | .tables items => items.flatMap fun (_, entries) => linesUnder ["skills"] Node.lines entries
  | _ => []

/-- The skill lines of a document, as they are written in it. -/
def Document.lines (d : Document) : List String :=
  linesUnder ["mobs", "metaskills"] Node.ownedLines d.entries

/-! ## One pass -/

/-- What comes of a part and how many lines are counted: its lines in canonical form,
those that were not in it, and the same part if there were none. -/
structure Formatted {α : Type} (options : ParseOptions) (lines : α → List String) (a : α)
    (result : α × Nat) : Prop where
  lines_eq : lines result.1 = (lines a).map (SkillLine.settle options)
  count_eq : result.2 = (lines a).countP fun t => SkillLine.settle options t ≠ t
  kept : result.2 = 0 → result.1 = a

section
variable {α β : Type} {options : ParseOptions}

/-- A part that is left alone, all of whose lines are in canonical form. -/
theorem formatted_self {lines : α → List String} {a : α}
    (h : ∀ t ∈ lines a, SkillLine.settle options t = t) : Formatted options lines a (a, 0) := by
  refine ⟨?_, ?_, fun _ => rfl⟩
  · rw [List.map_congr_left h, List.map_id']
  · rw [eq_comm, List.countP_eq_zero]
    simpa using h

/-- What holds a part holds its lines. -/
theorem Formatted.within {lines : α → List String} {held : β → List String} {a : α}
    {result : α × Nat} (h : Formatted options lines a result) (hold : α → β)
    (hlines : ∀ a, held (hold a) = lines a) :
    Formatted options held (hold a) (hold result.1, result.2) :=
  ⟨by rw [hlines, hlines, h.lines_eq], by rw [hlines, h.count_eq],
    fun hcount => congrArg hold (h.kept hcount)⟩

theorem formatted_list {lines : α → List String} {change : α → α × Nat}
    (h : ∀ a, Formatted options lines a (change a)) (parts : List α) :
    Formatted options (fun parts => parts.flatMap lines) parts
      (parts.map fun a => (change a).1, (parts.map fun a => (change a).2).sum) := by
  constructor
  case lines_eq => simp only [List.flatMap_map, List.map_flatMap, (h _).lines_eq]
  case count_eq => simp only [List.countP_flatMap, Function.comp_def, (h _).count_eq]
  case kept =>
    intro hsum
    induction parts with
    | nil => rfl
    | cons a parts ih =>
      simp only [List.map_cons, List.sum_cons, Nat.add_eq_zero_iff] at hsum ih ⊢
      rw [(h a).kept hsum.1, ih hsum.2]

theorem formatted_written (w : Written) :
    Formatted options Written.lines w ((w.format options).1, (w.format options).2.toNat) := by
  cases w with
  | array => exact formatted_self (by simp [Written.lines])
  | inline => exact formatted_self (by simp [Written.lines])
  | plain source value =>
    cases value with
    | string text =>
      cases hcanon : SkillLine.canonical? options text with
      | none =>
        simp only [Written.format, hcanon]
        exact formatted_self (by simp [Written.lines, SkillLine.settle, hcanon])
      | some line =>
        have hsettle : SkillLine.settle options text = line := by simp [SkillLine.settle, hcanon]
        by_cases hsame : line = text
        · simp only [Written.format, hcanon, if_pos hsame]
          exact formatted_self (by simp [Written.lines, hsettle, hsame])
        · simp only [Written.format, hcanon, if_neg hsame]
          exact ⟨by simp [Written.lines, hsettle], by simp [Written.lines, hsettle, hsame],
            fun hcount => absurd hcount Nat.one_ne_zero⟩
    | _ => exact formatted_self (by simp [Written.lines])

theorem countP_eq_sum (p : α → Bool) (parts : List α) :
    parts.countP p = (parts.map fun a => (p a).toNat).sum := by
  induction parts with
  | nil => rfl
  | cons a parts ih => cases h : p a <;> simp [h, ih, Nat.add_comm]

theorem formatted_node (node : Node) :
    Formatted options Node.lines node (node.format options) := by
  cases node with
  | table => exact formatted_self (by simp [Node.lines])
  | tables => exact formatted_self (by simp [Node.lines])
  | leaf margin value =>
    cases value with
    | plain => exact formatted_self (by simp [Node.lines])
    | inline => exact formatted_self (by simp [Node.lines])
    | array items close =>
      have hitem (i : Margin × Written) : Formatted options (fun i => i.2.lines) i
          ((i.1, (i.2.format options).1), (i.2.format options).2.toNat) :=
        (formatted_written i.2).within (i.1, ·) fun _ => rfl
      have harray : Formatted options Node.lines (.leaf margin (.array items close)) _ :=
        (formatted_list hitem items).within (fun items => Node.leaf margin (.array items close))
          fun _ => rfl
      simpa [Node.format, countP_eq_sum, Function.comp_def] using harray

theorem formatted_under {lines : Node → List String} {change : Node → Node × Nat}
    (h : ∀ node, Formatted options lines node (change node)) (names : List String)
    (entries : List (Key × Node)) :
    Formatted options (linesUnder names lines) entries (changeUnder names change entries) := by
  have hentry (e : Key × Node) : Formatted options
      (fun e => if names.contains e.1.name then lines e.2 else []) e
      ((e.1, (if names.contains e.1.name then change e.2 else (e.2, 0)).1),
        (if names.contains e.1.name then change e.2 else (e.2, 0)).2) := by
    by_cases hname : names.contains e.1.name = true
    · simp only [hname, if_true]
      exact (h e.2).within (e.1, ·) fun node => by simp only [hname, if_true]
    · simp only [if_neg hname]
      exact formatted_self (by simp only [if_neg hname]; nofun)
  simp only [changeUnder, List.map_map, Function.comp_def]
  exact formatted_list hentry entries

theorem formatted_owners (node : Node) :
    Formatted options Node.ownedLines node (node.formatOwners options) := by
  cases node with
  | leaf => exact formatted_self (by simp [Node.ownedLines])
  | table => exact formatted_self (by simp [Node.ownedLines])
  | tables items =>
    have hitem (i : Header × List (Key × Node)) :
        Formatted options (fun i => linesUnder ["skills"] Node.lines i.2) i _ :=
      (formatted_under formatted_node ["skills"] i.2).within (i.1, ·) fun _ => rfl
    have hitems : Formatted options Node.ownedLines (.tables items) _ :=
      (formatted_list hitem items).within Node.tables fun _ => rfl
    simpa [Node.formatOwners, Function.comp_def] using hitems

/-- The lines of a formatted document are the canonical ones, and if none was changed it
is the document that it was. -/
theorem formatted_document (d : Document) :
    Formatted options Document.lines d (d.format options) :=
  (formatted_under formatted_owners ["mobs", "metaskills"] d.entries).within
    (fun entries => Document.mk entries d.ending) fun _ => rfl

/-- A second pass leaves a part alone exactly when the canonical forms of its lines are
their own canonical forms. -/
theorem change_change_iff {lines : α → List String} {change : α → α × Nat}
    (h : ∀ a, Formatted options lines a (change a)) (a : α) :
    change (change a).1 = ((change a).1, 0) ↔
      ∀ t ∈ lines a, SkillLine.settle options (SkillLine.settle options t) =
        SkillLine.settle options t := by
  have hkept : change (change a).1 = ((change a).1, 0) ↔ (change (change a).1).2 = 0 :=
    ⟨fun heq => by rw [heq], fun hcount => Prod.ext ((h _).kept hcount) hcount⟩
  rw [hkept, (h _).count_eq, (h a).lines_eq, List.countP_eq_zero]
  simp

end

/-! ## Two passes over a document -/

/-- A line of the document that parses without complaint. -/
def Document.HasClean (options : ParseOptions) (d : Document) (line : SkillLine) : Prop :=
  ∃ text ∈ d.lines, SkillLine.parse options text = .ok ⟨line, [], []⟩

end Toml

open Toml (Document editingLimit)
open Grammar (eq_ok_iff_toOption)

theorem SkillLine.settle_of_parse {options : ParseOptions} {text : String} {line : SkillLine}
    (h : parse options text = .ok ⟨line, [], []⟩) : settle options text = line.render := by
  rw [settle, canonical?_eq_some_iff.2 ⟨line, h, rfl⟩, Option.getD_some]

theorem SkillLine.settle_settle_iff {options : ParseOptions} {text : String}
    (hf : ∀ line, parse options text = .ok ⟨line, [], []⟩ → line.FiniteReals) :
    settle options (settle options text) = settle options text ↔
      ∀ line, parse options text = .ok ⟨line, [], []⟩ → line.Settled := by
  cases hcanon : canonical? options text with
  | none =>
    have hself : settle options text = text := by rw [settle, hcanon, Option.getD_none]
    rw [hself]
    refine iff_of_true hself ?_
    intro line hparse
    rw [canonical?_eq_some_iff.2 ⟨line, hparse, rfl⟩] at hcanon
    cases hcanon
  | some formed =>
    obtain ⟨line, hparse, rfl⟩ := canonical?_eq_some_iff.1 hcanon
    have htwice : settle options line.render = line.recut.render := by
      rw [settle, canonical?_render hparse (hf line hparse), Option.getD_some]
    rw [settle_of_parse hparse, htwice, render_recut_eq_iff]
    constructor
    · intro hsettled other hother
      rw [hparse] at hother
      cases hother
      exact hsettled
    · intro hall
      exact hall line hparse

namespace Toml.Document
variable {options : ParseOptions} {d : Document}

theorem settled_lines_iff (hf : ∀ line, d.HasClean options line → line.FiniteReals) :
    (∀ t ∈ d.lines, SkillLine.settle options (SkillLine.settle options t) =
        SkillLine.settle options t) ↔
      ∀ line, d.HasClean options line → line.Settled := by
  have hline (t : String) (ht : t ∈ d.lines) :=
    SkillLine.settle_settle_iff fun line hparse => hf line ⟨t, ht, hparse⟩
  constructor
  · intro hall line hclean
    obtain ⟨t, ht, hparse⟩ := hclean
    exact (hline t ht).1 (hall t ht) line hparse
  · intro hall t ht
    exact (hline t ht).2 fun line hparse => hall line ⟨t, ht, hparse⟩

/-- Formatting a formatted document changes nothing exactly when the accepted lines have
settled braces. -/
theorem format_format_iff (hf : ∀ line, d.HasClean options line → line.FiniteReals) :
    (d.format options).1.format options = ((d.format options).1, 0) ↔
      ∀ line, d.HasClean options line → line.Settled :=
  (change_change_iff formatted_document d).trans (settled_lines_iff hf)

/-- The tables of a document with their places, outer ones first. -/
def inTreeOrder (d : Document) : List (Nat × List Char) :=
  placed 0 (⟨some 0, unlines (printEntries [] d.entries)⟩ :: sectionsIn [] d.entries)

/-- A document whose headers stand in the order of its tree is printed in that order. -/
theorem print_of_pairwise (h : d.inTreeOrder.Pairwise (·.1 ≤ ·.1)) :
    d.print = String.ofList
      ((d.inTreeOrder.flatMap (·.2) ++ d.ending.toList).filter (· != '\r')) := by
  have hsorted : d.inTreeOrder.mergeSort (·.1 ≤ ·.1) = d.inTreeOrder :=
    List.mergeSort_of_pairwise (by simpa using h)
  rw [inTreeOrder] at hsorted
  rw [print, hsorted, inTreeOrder]

theorem print_eq {tables : List (Nat × List Char)} {ending text : String}
    (h : (d.inTreeOrder, d.ending) = (tables, ending)) (hsorted : tables.Pairwise (·.1 ≤ ·.1))
    (htext : (tables.flatMap (·.2) ++ ending.toList).filter (· != '\r') = text.toList) :
    d.print = text := by
  obtain ⟨rfl, rfl⟩ := Prod.mk.inj h
  rw [print_of_pairwise hsorted, htext, String.ofList_toList]

end Toml.Document

namespace Project

/-- The text is read as a document that is printed as the text and has the lines. -/
def ReadsBack (text : String) (lines : List String) : Prop :=
  (Document.parse? editingLimit text).map (fun d => (d.print, d.lines)) = some (text, lines)

theorem format?_eq_self_iff {options : ParseOptions} {text : String} {lines : List String}
    (h : ReadsBack text lines) :
    format? options text = some (text, 0) ↔ ∀ t ∈ lines, SkillLine.settle options t = t := by
  obtain ⟨d, hparse, heq⟩ := Option.map_eq_some_iff.1 h
  obtain ⟨hprint, rfl⟩ := Prod.mk.inj heq
  have hformatted : Toml.Formatted options Document.lines d (d.format options) :=
    Toml.formatted_document d
  have hzero : (d.format options).2 = 0 ↔ ∀ t ∈ d.lines, SkillLine.settle options t = t := by
    rw [hformatted.count_eq, List.countP_eq_zero]
    simp
  rw [← hzero, format?, hparse]
  constructor
  · intro hformat
    exact (Prod.mk.inj (Option.some.inj hformat)).2
  · intro hnone
    simp only [Option.map_some, hformatted.kept hnone, hprint, hnone]

/-- Formatting a formatted text changes nothing exactly when the accepted lines have
settled braces, if the text is read back. -/
theorem format?_format?_iff {options : ParseOptions} {text : String} {d : Document}
    (hparse : Document.parse? editingLimit text = some d)
    (hf : ∀ line, d.HasClean options line → line.FiniteReals) :
    ∃ formatted, format? options text = some (formatted, (d.format options).2) ∧
      (ReadsBack formatted (d.format options).1.lines →
        (format? options formatted = some (formatted, 0) ↔
          ∀ line, d.HasClean options line → line.Settled)) := by
  refine ⟨(d.format options).1.print, by rw [format?, hparse]; rfl, ?_⟩
  intro hread
  rw [format?_eq_self_iff hread, (Toml.formatted_document d).lines_eq, List.forall_mem_map]
  exact d.settled_lines_iff hf

end Project

/-- The canonical form of an accepted line is its own canonical form exactly when a scan
of its braces passes over nothing; and a formatted document, or the text of one that is
read back, is formatted to itself exactly when that holds of its accepted lines. -/
theorem formatted_again_iff_settled (options : ParseOptions) :
    (∀ text line, SkillLine.parse options text = .ok ⟨line, [], []⟩ → line.FiniteReals →
        ∀ options', SkillLine.canonical? options' line.render = some line.recut.render ∧
          (line.recut.render = line.render ↔ line.Settled)) ∧
      ∀ d : Document, (∀ line, d.HasClean options line → line.FiniteReals) →
        ((d.format options).1.format options = ((d.format options).1, 0) ↔
          ∀ line, d.HasClean options line → line.Settled) ∧
        ∀ text, Document.parse? editingLimit text = some d →
          ∃ formatted, Project.format? options text = some (formatted, (d.format options).2) ∧
            (Project.ReadsBack formatted (d.format options).1.lines →
              (Project.format? options formatted = some (formatted, 0) ↔
                ∀ line, d.HasClean options line → line.Settled)) := by
  refine ⟨?_, ?_⟩
  · intro text line hparse hf options'
    exact ⟨canonical?_render hparse hf options', render_recut_eq_iff⟩
  · intro d hf
    exact ⟨Document.format_format_iff hf, fun text hparse => Project.format?_format?_iff hparse hf⟩

/-- A line whose braces keep a number apart by a semicolon. -/
def burnLine : SkillLine where
  mechanic := "burn"
  parameters := some ⟨[("t", .real (.finite false
    ⟨6755399441055744, 1022, by decide, by decide, by decide⟩))]⟩
  conditions := [⟨false, "near", some "\x7bd;5.5\x7d"⟩]

def burnSource : String := "- burn\x7bt=1.50\x7d ?near\x7bd; 5.5\x7d"

def burnText : String := "[[mobs]]\nskills = [\"- burn\x7bt=1.50\x7d ?near\x7bd; 5.5\x7d\", ]\n"

def burnFormatted : String := "[[mobs]]\nskills = [\"burn\x7bt=1.5\x7d ?near\x7bd;5.5\x7d\", ]\n"

theorem parse_burnSource : SkillLine.parse {} burnSource = .ok ⟨burnLine, [], []⟩ := by
  rw [eq_ok_iff_toOption]
  decide +kernel

theorem burnLine_finiteReals : burnLine.FiniteReals := by
  simp [SkillLine.FiniteReals, burnLine, Binary64.isFinite]

theorem burnLine_settled : burnLine.Settled := by
  have hrecut : Token.recut "\x7bd;5.5\x7d" = "\x7bd;5.5\x7d" := by decide +kernel
  simp [SkillLine.Settled, burnLine, hrecut]

theorem exists_burnDocument : ∃ d, Document.parse? editingLimit burnText = some d ∧
    d.lines = [burnSource] ∧ (d.format {}).1.print = burnFormatted := by
  have hlines : (Document.parse? editingLimit burnText).map Document.lines = some [burnSource] := by
    decide +kernel
  have htables : (Document.parse? editingLimit burnText).map
      (fun d => ((d.format {}).1.inTreeOrder, d.ending)) =
        some ([(0, []), (1, burnFormatted.toList)], "") := by
    decide +kernel
  obtain ⟨d, hd, hlines⟩ := Option.map_eq_some_iff.1 hlines
  rw [hd, Option.map_some, Option.some.injEq] at htables
  exact ⟨d, hd, hlines, Document.print_eq htables (by decide) (by decide +kernel)⟩

theorem readsBack_burnFormatted : Project.ReadsBack burnFormatted [burnLine.render] := by
  have hlines : (Document.parse? editingLimit burnFormatted).map Document.lines =
      some [burnLine.render] := by
    decide +kernel
  have htables : (Document.parse? editingLimit burnFormatted).map
      (fun d => (d.inTreeOrder, d.ending)) = some ([(0, []), (1, burnFormatted.toList)], "") := by
    decide +kernel
  obtain ⟨d, hd, hlines⟩ := Option.map_eq_some_iff.1 hlines
  rw [hd, Option.map_some, Option.some.injEq] at htables
  have hprint : d.print = burnFormatted :=
    Document.print_eq htables (by decide) (by decide +kernel)
  rw [Project.ReadsBack, hd, Option.map_some, hlines, hprint]

theorem burnLine_formatted_again :
    SkillLine.parse {} burnSource = .ok ⟨burnLine, [], []⟩ ∧ burnLine.FiniteReals ∧
      burnLine.recut.render = burnLine.render ∧
      ∃ d, Document.parse? editingLimit burnText = some d ∧
        (∀ line, d.HasClean {} line → line.FiniteReals) ∧
        Project.ReadsBack burnFormatted (d.format {}).1.lines ∧
        Project.format? {} burnText = some (burnFormatted, (d.format {}).2) ∧
        Project.format? {} burnFormatted = some (burnFormatted, 0) := by
  obtain ⟨hline, hdocument⟩ := formatted_again_iff_settled {}
  obtain ⟨-, hrender⟩ := hline burnSource burnLine parse_burnSource burnLine_finiteReals {}
  obtain ⟨d, hd, hlines, hprint⟩ := exists_burnDocument
  have hclean (line : SkillLine) (h : d.HasClean {} line) : line = burnLine := by
    obtain ⟨source, hsource, hparse⟩ := h
    rw [hlines, List.mem_singleton] at hsource
    rw [hsource, parse_burnSource] at hparse
    cases hparse
    rfl
  have hfinite (line : SkillLine) (h : d.HasClean {} line) : line.FiniteReals :=
    hclean line h ▸ burnLine_finiteReals
  have hread : Project.ReadsBack burnFormatted (d.format {}).1.lines := by
    rw [(Toml.formatted_document d).lines_eq, hlines, List.map_singleton,
      SkillLine.settle_of_parse parse_burnSource]
    exact readsBack_burnFormatted
  obtain ⟨formatted, hformat, hstable⟩ := (hdocument d hfinite).2 burnText hd
  obtain rfl : burnFormatted = formatted := by
    rw [Project.format?, hd] at hformat
    obtain ⟨rfl, -⟩ := Prod.mk.inj (Option.some.inj hformat)
    exact hprint.symm
  refine ⟨parse_burnSource, burnLine_finiteReals, hrender.2 burnLine_settled, d, hd, hfinite,
    hread, hformat, ?_⟩
  exact (hstable hread).2 fun line h => hclean line h ▸ burnLine_settled

/-- A number that a blank kept apart is cut otherwise in the canonical form: its point is
passed over the next time. -/
theorem canonical?_looseNumber :
    ∃ line, SkillLine.parse {} "m ?c\x7ba 5.5\x7d" = .ok ⟨line, [], []⟩ ∧ line.FiniteReals ∧
      line.render = "m ?c\x7ba5.5\x7d" ∧
      SkillLine.canonical? {} line.render = some "m ?c\x7ba55\x7d" := by
  have hparse : SkillLine.parse {} "m ?c\x7ba 5.5\x7d" = .ok ⟨
      { mechanic := "m", conditions := [⟨false, "c", some "\x7ba5.5\x7d"⟩] }, [], []⟩ := by
    rw [eq_ok_iff_toOption]
    decide +kernel
  exact ⟨_, hparse, by simp [SkillLine.FiniteReals], by decide +kernel, by decide +kernel⟩

end MobSkills
