import MobSkills.Project.Load
import MobSkills.Proofs.Line.Seams

/-!
# What loading makes of each line

A project is loaded line by line. The lines of a project are its places, those of the mobs
before those of the metaskills, and each place keeps its skill line whatever the parser has
to say about it. What it has to say is listed once for each place where it says anything, in
the order of the places; owners may share a name, so a place is told by numbers.
-/
namespace MobSkills

/-- A line of a project: of the mob or metaskill with that number, and its number there. -/
inductive Place where
  | mob (owner index : Nat)
  | metaskill (owner index : Nat)

namespace Place

def index : Place → Nat
  | .mob _ index | .metaskill _ index => index

/-- Mobs come before metaskills, and the lines of an owner before those of the next one. -/
def Before : Place → Place → Prop
  | .mob i j, .mob k l | .metaskill i j, .metaskill k l => i < k ∨ i = k ∧ j < l
  | .mob _ _, .metaskill _ _ => True
  | .metaskill _ _, .mob _ _ => False

end Place

/-- The skill line at a place of a loaded project. -/
def Project.skillAt? (p : Project) : Place → Option SkillLine
  | .mob i j => p.mobs[i]?.bind (·.skills[j]?)
  | .metaskill i j => p.metaskills[i]?.bind (·.skills[j]?)

/-- A line in the sources of a project: its place, the label of its owner and its text. -/
structure PlacedLine where
  place : Place
  owner : String
  text : String

namespace ProjectSource

/-- The label of the owner and the text of the line at a place. -/
def lineAt? (p : ProjectSource) : Place → Option (String × String)
  | .mob i j => p.mobs[i]?.bind fun s => s.lines[j]?.map ("mob " ++ s.definition.name, ·)
  | .metaskill i j =>
    p.metaskills[i]?.bind fun s => s.lines[j]?.map ("metaskill " ++ s.definition.name, ·)

/-- What a text comes to as a line of a project: the line that its parse answers and the
messages of the parse, or an empty line and the message of the scan. -/
inductive LoadsAs (options : ParseOptions) (text : String) :
    SkillLine → List String → List String → Prop
  | parsed {o : Outcome} (h : SkillLine.parse options text = .ok o) :
      LoadsAs options text o.line (o.errors.map Problem.display) (o.warnings.map Problem.display)
  | unscanned {e : ScanError} (h : SkillLine.parse options text = .error e) :
      LoadsAs options text {} [e.message] []

/-- The parser has something to say about the text. -/
def IsTroubled (options : ParseOptions) (text : String) : Prop :=
  ¬ ∃ o, SkillLine.parse options text = .ok o ∧ o.isClean = true

/-- The diagnostic is about the line at the place. -/
structure Reports (options : ParseOptions) (p : ProjectSource) (place : Place)
    (d : LineDiagnostic) : Prop where
  line : p.lineAt? place = some (d.owner, d.source)
  index : d.index = place.index
  messages : ∃ skill, LoadsAs options d.source skill d.errors d.warnings

/-- A loaded definition is the one of its source, with a skill line for each of its texts. -/
def LoadedFrom {α : Type} (withSkills : α → List SkillLine → α) (skills : α → List SkillLine)
    (options : ParseOptions) (s : Source α) (a : α) : Prop :=
  withSkills a [] = withSkills s.definition [] ∧
    List.Forall₂ (fun text skill => ∃ errors warnings, LoadsAs options text skill errors warnings)
      s.lines (skills a)

/-! ## One line -/

theorem loadLine_loadsAs (options : ParseOptions) (owner : String) (index : Nat) (text : String) :
    LoadsAs options text (loadLine options owner index text).1
      (loadLine options owner index text).2.errors
      (loadLine options owner index text).2.warnings := by
  unfold loadLine
  cases h : SkillLine.parse options text with
  | ok o => exact .parsed h
  | error e => exact .unscanned h

theorem loadLine_place (options : ParseOptions) (owner : String) (index : Nat) (text : String) :
    (loadLine options owner index text).2.owner = owner ∧
      (loadLine options owner index text).2.index = index ∧
      (loadLine options owner index text).2.source = text := by
  unfold loadLine
  split <;> exact ⟨rfl, rfl, rfl⟩

theorem isPresent_loadLine {options : ParseOptions} {owner : String} {index : Nat} {text : String} :
    (loadLine options owner index text).2.isPresent = true ↔ IsTroubled options text := by
  unfold loadLine IsTroubled
  cases h : SkillLine.parse options text with
  | error e => simp [LineDiagnostic.isPresent]
  | ok o => simp [LineDiagnostic.isPresent, Outcome.isClean, ← not_and_or]

/-- A line without errors has the name of a mechanic. -/
theorem mechanic_ne_of_errors_eq_nil {options : ParseOptions} {text : String} {o : Outcome}
    (h : SkillLine.parse options text = .ok o) (herrors : o.errors = []) : o.line.mechanic ≠ "" := by
  cases hscan : Token.scan text with
  | error e =>
    rw [SkillLine.parse, hscan] at h
    cases h
  | ok tokens =>
    rw [SkillLine.parse, hscan] at h
    obtain rfl := Except.ok.inj h
    obtain ⟨ts, hcut, rfl⟩ := Token.scan_eq_ok_iff.1 hscan
    have hl : Grammar.Lexed (ts ++ [Token.endAt (Text.byteLength text.toList)]) :=
      (Grammar.lexed_of_cut hcut).1.concat_end rfl
    obtain ⟨front, rest, line, health, chance, happ, hhead, hline⟩ :=
      exists_headOf_of_errors_eq_nil hl herrors
    rw [happ] at hl
    obtain ⟨c, r, hname, -⟩ := hhead.isWord hl.append_left
    rw [hline]
    intro hempty
    rw [show line.mechanic = "" from hempty] at hname
    cases hname

theorem LoadsAs.mechanic_ne {options : ParseOptions} {text : String} {skill : SkillLine}
    {warnings : List String} (h : LoadsAs options text skill [] warnings) : skill.mechanic ≠ "" := by
  generalize herrors : ([] : List String) = errors at h
  cases h with
  | parsed h => exact mechanic_ne_of_errors_eq_nil h (List.map_eq_nil_iff.1 herrors.symm)
  | unscanned h => cases herrors

/-! ## The lines of a project in order -/

section
variable {α : Type} {place : Nat → Nat → Place} {label : Source α → String}

/-- The lines of the owners, in their order. -/
def linesOf (place : Nat → Nat → Place) (label : Source α → String) (owners : List (Source α)) :
    List PlacedLine :=
  owners.zipIdx.flatMap fun (s, i) => s.lines.zipIdx.map fun (text, j) => ⟨place i j, label s, text⟩

theorem mem_linesOf {owners : List (Source α)} {line : PlacedLine} :
    line ∈ linesOf place label owners ↔ ∃ i j, line.place = place i j ∧
      (owners[i]?.bind fun s => s.lines[j]?.map (label s, ·)) = some (line.owner, line.text) := by
  simp only [linesOf, List.mem_flatMap, List.mem_map, Prod.exists, List.mk_mem_zipIdx_iff_getElem?,
    Option.bind_eq_some_iff, Option.map_eq_some_iff, Prod.mk.injEq]
  constructor
  · intro h
    obtain ⟨s, i, hs, text, j, htext, rfl⟩ := h
    exact ⟨i, j, rfl, s, hs, text, htext, rfl, rfl⟩
  · intro h
    obtain ⟨i, j, hplace, s, hs, text, htext, howner, rfl⟩ := h
    exact ⟨s, i, hs, _, j, htext, by rw [← hplace, howner]⟩

theorem pairwise_zipIdx {β : Type} (l : List β) : l.zipIdx.Pairwise (·.2 < ·.2) := by
  rw [← List.pairwise_map, List.zipIdx_map_snd]
  exact List.pairwise_lt_range'

/-- The lines come in the order of their places, where the places do. -/
theorem pairwise_linesOf
    (hplace : ∀ i j k l, i < k ∨ i = k ∧ j < l → (place i j).Before (place k l))
    (owners : List (Source α)) : (linesOf place label owners).Pairwise (·.place.Before ·.place) := by
  refine List.pairwise_flatMap.2 ⟨?_, (pairwise_zipIdx owners).imp ?_⟩
  · intro ⟨s, i⟩ _
    refine List.pairwise_map.2 ((pairwise_zipIdx s.lines).imp ?_)
    intro a b hlt
    exact hplace i a.2 i b.2 (.inr ⟨rfl, hlt⟩)
  · intro a b hlt x hx y hy
    obtain ⟨v, -, rfl⟩ := List.mem_map.1 hx
    obtain ⟨w, -, rfl⟩ := List.mem_map.1 hy
    exact hplace _ _ _ _ (.inl hlt)

/-- What loading has to say about a line. -/
def report (options : ParseOptions) (line : PlacedLine) : LineDiagnostic :=
  (loadLine options line.owner line.place.index line.text).2

theorem diagnosticsOf_owners (options : ParseOptions) (hplace : ∀ i j, (place i j).index = j)
    (owners : List (Source α)) :
    owners.flatMap (fun s => diagnosticsOf (loadLines options (label s) s.lines)) =
      ((linesOf place label owners).map (report options)).filter (·.isPresent) := by
  conv_lhs => rw [← List.zipIdx_map_fst 0 owners, List.flatMap_map]
  simp only [linesOf, diagnosticsOf, loadLines, List.map_flatMap, List.filter_flatMap, List.map_map,
    Function.comp_def, report, hplace]

end

/-- All lines of the project, in the order of their places. -/
def lines (p : ProjectSource) : List PlacedLine :=
  linesOf .mob (fun s => "mob " ++ s.definition.name) p.mobs ++
    linesOf .metaskill (fun s => "metaskill " ++ s.definition.name) p.metaskills

theorem mem_lines {p : ProjectSource} {line : PlacedLine} :
    line ∈ p.lines ↔ p.lineAt? line.place = some (line.owner, line.text) := by
  rw [lines, List.mem_append, mem_linesOf, mem_linesOf]
  obtain ⟨place, owner, text⟩ := line
  cases place <;> simp [lineAt?]

theorem pairwise_lines (p : ProjectSource) : p.lines.Pairwise (·.place.Before ·.place) := by
  have hmobs : ∀ i j k l, i < k ∨ i = k ∧ j < l → (Place.mob i j).Before (.mob k l) :=
    fun _ _ _ _ h => h
  have hmetaskills : ∀ i j k l, i < k ∨ i = k ∧ j < l →
      (Place.metaskill i j).Before (.metaskill k l) :=
    fun _ _ _ _ h => h
  refine List.pairwise_append.2 ⟨pairwise_linesOf hmobs _, pairwise_linesOf hmetaskills _, ?_⟩
  intro a ha b hb
  obtain ⟨i, j, hplace, -⟩ := mem_linesOf.1 ha
  obtain ⟨k, l, hplace', -⟩ := mem_linesOf.1 hb
  rw [hplace, hplace']
  trivial

theorem load_diagnostics (options : ParseOptions) (p : ProjectSource) :
    (p.load options).diagnostics = (p.lines.map (report options)).filter (·.isPresent) := by
  rw [lines, List.map_append, List.filter_append, ← diagnosticsOf_owners options fun _ _ => rfl,
    ← diagnosticsOf_owners options fun _ _ => rfl]
  rfl

theorem isPresent_report {options : ParseOptions} {line : PlacedLine} :
    (report options line).isPresent = true ↔ IsTroubled options line.text :=
  isPresent_loadLine

/-- The report on a line is about its place. -/
theorem reports_report (options : ParseOptions) {p : ProjectSource} {line : PlacedLine}
    (h : line ∈ p.lines) : Reports options p line.place (report options line) := by
  obtain ⟨howner, hindex, hsource⟩ :=
    loadLine_place options line.owner line.place.index line.text
  refine ⟨?_, hindex, (loadLine options line.owner line.place.index line.text).1, ?_⟩
  · rw [report, howner, hsource]
    exact mem_lines.1 h
  · rw [report, hsource]
    exact loadLine_loadsAs ..

/-- Where nothing is reported, or no errors, there are none. -/
theorem report_errors {options : ParseOptions} {p : ProjectSource} {line : PlacedLine}
    (h : line ∈ p.lines)
    (hreported : ∀ d ∈ (p.load options).diagnostics, Reports options p line.place d → d.errors = []) :
    (report options line).errors = [] := by
  by_cases hpresent : (report options line).isPresent = true
  · apply hreported _ _ (reports_report options h)
    rw [load_diagnostics]
    exact List.mem_filter.2 ⟨List.mem_map_of_mem h, hpresent⟩
  · simp only [LineDiagnostic.isPresent, Bool.or_eq_true, Bool.not_eq_true', List.isEmpty_eq_false_iff,
      not_or, not_not] at hpresent
    exact hpresent.1

/-! ## The loaded project -/

theorem skillAt?_load (options : ParseOptions) (p : ProjectSource) (place : Place) :
    (p.load options).project.skillAt? place = (p.lineAt? place).map fun (owner, text) =>
      (loadLine options owner place.index text).1 := by
  cases place <;>
    simp [load, Project.skillAt?, lineAt?, mobLines, metaskillLines, skillsOf, loadLines, Place.index,
      Option.map_bind, Option.bind_map, Function.comp_def]

theorem loadsAs_skillsOf (options : ParseOptions) (owner : String) (lines : List String) :
    List.Forall₂ (fun text skill => ∃ errors warnings, LoadsAs options text skill errors warnings)
      lines (skillsOf (loadLines options owner lines)) := by
  have hlines : lines = lines.zipIdx.map Prod.fst := (List.zipIdx_map_fst 0 lines).symm
  rw [skillsOf, loadLines, List.map_map]
  conv => arg 2; rw [hlines]
  rw [List.forall₂_map_left_iff, List.forall₂_map_right_iff, List.forall₂_same]
  intro ⟨text, index⟩ _
  exact ⟨_, _, loadLine_loadsAs options owner index text⟩

/-- Two mobs of one name: the diagnostics of the second come after those of the first. -/
example :
    (load {} ⟨[⟨{ name := "A" }, ["@x", "heal", "heal 5"]⟩, ⟨{ name := "A" }, ["'", "heal"]⟩],
      [⟨{ name := "A" }, ["heal <"]⟩]⟩).diagnostics.map (fun d => (d.owner, d.index)) =
      [("mob A", 0), ("mob A", 2), ("mob A", 0), ("metaskill A", 0)] := by
  decide +kernel

end ProjectSource
end MobSkills
