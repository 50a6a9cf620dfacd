import MobSkills.Project.Load
import MobSkills.Proofs.Project.Decoding
import MobSkills.Proofs.Project.Format
import MobSkills.Proofs.Toml.Equality

/-!
# What formatting leaves alone

A pass is a change of the skill strings of a document, each by itself, and of nothing else.
What is around them, their number and their order stay, and with them everything that a
project file says beside the texts of its skill lines.
-/
namespace MobSkills

namespace Toml

open SkillLine (settle)

variable {options : ParseOptions}

/-! ## A pass as a change of the skill strings -/

/-- The canonical line in place of a string, if that is another text. -/
def Spelling.respell (options : ParseOptions) (s : Spelling) : Spelling :=
  match SkillLine.canonical? options s.text with
  | some line => if line = s.text then s else ⟨quote line, line⟩
  | none => s

/-- What may come of a string: it stays, or the canonical line of its text, which is another
text, stands in its place. -/
inductive Spelling.Settles (options : ParseOptions) : Spelling → Spelling → Prop
  | kept {s : Spelling}
      (h : ∀ line, SkillLine.canonical? options s.text = some line → line = s.text) :
      Settles options s s
  | replaced {s : Spelling} {line : String} (h : SkillLine.canonical? options s.text = some line)
      (hne : line ≠ s.text) : Settles options s ⟨quote line, line⟩

theorem Spelling.settles_respell (s : Spelling) : Settles options s (s.respell options) := by
  unfold respell
  split
  · rename_i line hline
    split
    · rename_i hsame
      refine .kept fun other hother => ?_
      rw [hline] at hother
      rw [← Option.some.inj hother, hsame]
    · exact .replaced hline ‹_›
  · rename_i hnone
    refine .kept fun line hline => ?_
    rw [hnone] at hline
    cases hline

theorem Spelling.Settles.text_eq {s s' : Spelling} (h : Settles options s s') :
    s'.text = settle options s.text := by
  cases h with
  | replaced h => rw [settle, h, Option.getD_some]
  | kept h =>
    cases hcanon : SkillLine.canonical? options s.text with
    | none => rw [settle, hcanon, Option.getD_none]
    | some line => rw [settle, hcanon, Option.getD_some, h line hcanon]

/-- A string is another one only if its text is. -/
theorem Spelling.Settles.eq_iff {s s' : Spelling} (h : Settles options s s') :
    s' = s ↔ settle options s.text = s.text := by
  rw [← h.text_eq]
  cases h with
  | kept => exact iff_of_true rfl rfl
  | replaced _ hne => exact iff_of_false (fun h => hne (congrArg text h)) hne

theorem Spelling.text_respell (s : Spelling) : (s.respell options).text = settle options s.text :=
  s.settles_respell.text_eq

theorem Written.string_map_respell (w : Written) :
    string.map (Spelling.respell options) w = (w.format options).1 := by
  cases w with
  | array | inline => rfl
  | plain source value =>
    cases value with
    | string text =>
      change Written.plain (Spelling.respell options ⟨source, text⟩).source
        (.string (Spelling.respell options ⟨source, text⟩).text) = _
      cases hcanon : SkillLine.canonical? options text with
      | none => simp only [Spelling.respell, Written.format, hcanon]
      | some line =>
        by_cases hsame : line = text <;>
          simp only [Spelling.respell, Written.format, hcanon, hsame, if_true, if_false]
    | _ => rfl

theorem Node.strings_map_respell (node : Node) :
    strings.map (Spelling.respell options) node = (node.format options).1 := by
  cases node with
  | table | tables => rfl
  | leaf margin value =>
    cases value with
    | plain | inline => rfl
    | array items close =>
      change Node.leaf margin (.array (items.map fun i =>
        (i.1, Written.string.map (Spelling.respell options) i.2)) close) = _
      simp only [Written.string_map_respell, Node.format, List.map_map, Function.comp_def]

theorem Node.under_map (names : List String) (change : Node → Node × Nat)
    (entries : List (Key × Node)) :
    (under names).map (fun node => (change node).1) entries =
      (changeUnder names change entries).1 := by
  simp only [under, Traversal.comp_map, Traversal.each_map, changeUnder, List.map_map]
  refine List.map_congr_left fun e _ => ?_
  rw [named_map, Function.comp_apply]
  by_cases h : names.contains e.1.name = true
  · simp only [h, if_true]
  · simp only [h]
    rfl

theorem Node.ownedStrings_map_respell (node : Node) :
    ownedStrings.map (Spelling.respell options) node = (node.formatOwners options).1 := by
  cases node with
  | leaf | table => rfl
  | tables items =>
    change Node.tables (items.map fun i =>
      (i.1, (under ["skills"]).map (strings.map (Spelling.respell options)) i.2)) = _
    simp only [funext strings_map_respell, under_map, formatOwners, List.map_map, Function.comp_def]

/-- A pass changes the skill strings one by one. -/
theorem Document.skillStrings_map_respell (d : Document) :
    skillStrings.map (Spelling.respell options) d = (d.format options).1 := by
  change Document.mk ((Node.under ["mobs", "metaskills"]).map
    (Node.ownedStrings.map (Spelling.respell options)) d.entries) d.ending = _
  rw [funext Node.ownedStrings_map_respell, Node.under_map]
  rfl

/-! ## The lines of a document as its skill strings -/

theorem Written.lines_eq (w : Written) : w.lines = (string.parts w).map (·.text) := by
  cases w with
  | array | inline => rfl
  | plain source value => cases value <;> rfl

theorem Node.lines_eq (node : Node) : node.lines = (strings.parts node).map (·.text) := by
  cases node with
  | table | tables => rfl
  | leaf margin value =>
    cases value with
    | plain | inline => rfl
    | array items close =>
      have hitems : arrayItems.parts (.leaf margin (.array items close)) = [items] := rfl
      simp [strings, hitems, Node.lines, Written.lines_eq, List.map_flatMap]

theorem linesUnder_eq (names : List String) {lines : Node → List String}
    {strings : Traversal Node Spelling} (h : ∀ node, lines node = (strings.parts node).map (·.text))
    (entries : List (Key × Node)) :
    linesUnder names lines entries =
      (((Node.under names).comp strings).parts entries).map (·.text) := by
  simp only [linesUnder, Node.under, Traversal.comp_parts, Traversal.each_parts, Node.named_parts,
    List.map_flatMap, List.flatMap_assoc]
  refine List.flatMap_congr fun e _ => ?_
  split
  · simp [h]
  · rfl

theorem Node.ownedLines_eq (node : Node) :
    node.ownedLines = (ownedStrings.parts node).map (·.text) := by
  cases node with
  | leaf | table => rfl
  | tables items =>
    have hitems : headedTables.parts (.tables items) = [items] := rfl
    simp only [ownedLines, linesUnder_eq ["skills"] lines_eq]
    simp [ownedStrings, hitems, List.map_flatMap]

theorem Document.lines_eq (d : Document) : d.lines = (skillStrings.parts d).map (·.text) := by
  have htop : top.parts d = [d.entries] := rfl
  simp [Document.lines, linesUnder_eq _ Node.ownedLines_eq, skillStrings, htop]

/-! ## What a pass changes -/

namespace Document

/-- Beside its skill strings the document that comes of a pass is the one before. -/
theorem format_frame (d : Document) (s : Spelling) :
    skillStrings.map (fun _ => s) (d.format options).1 = skillStrings.map (fun _ => s) d := by
  rw [← skillStrings_map_respell, Traversal.map_const_map]

theorem skillStrings_format (d : Document) :
    skillStrings.parts (d.format options).1 =
      (skillStrings.parts d).map (Spelling.respell options) := by
  rw [← skillStrings_map_respell, Traversal.parts_map]

theorem settles_format (d : Document) :
    List.Forall₂ (Spelling.Settles options) (skillStrings.parts d)
      (skillStrings.parts (d.format options).1) := by
  rw [skillStrings_format, List.forall₂_map_right_iff, List.forall₂_same]
  exact fun s _ => s.settles_respell

/-- The strings that are replaced are counted. -/
theorem format_count (d : Document) :
    (d.format options).2 =
      ((skillStrings.parts d).zip (skillStrings.parts (d.format options).1)).countP
        fun (s, s') => s' ≠ s := by
  rw [(formatted_document d).count_eq, lines_eq, skillStrings_format, ← List.map_prod_left_eq_zip,
    List.countP_map, List.countP_map]
  refine List.countP_congr fun s _ => ?_
  simp [s.settles_respell.eq_iff]

/-- Written out, the document is read as what it stands for. -/
def KeepsMeaning (d : Document) : Prop :=
  Toml.parse? d.print = some d.toToml

instance (d : Document) : Decidable d.KeepsMeaning :=
  inferInstanceAs (Decidable (Toml.parse? d.print = some d.toToml))

end Document
end Toml

open Toml (Document editingLimit quote)

/-- The definitions are the same ones in the same order, each with as many skills. -/
def Project.SameButSkills (p p' : Project) : Prop :=
  List.Forall₂ (fun m m' : Mob => { m with skills := [] } = { m' with skills := [] } ∧
      m.skills.length = m'.skills.length) p.mobs p'.mobs ∧
    List.Forall₂ (fun m m' : Metaskill => { m with skills := [] } = { m' with skills := [] } ∧
      m.skills.length = m'.skills.length) p.metaskills p'.metaskills

namespace ProjectSource

theorem length_skillsOf (options : ParseOptions) (owner : String) (lines : List String) :
    (skillsOf (loadLines options owner lines)).length = lines.length := by
  simp [skillsOf, loadLines]

theorem forall₂_mapLines {α : Type} {R : Source α → Source α → Prop} {form : String → String}
    (hsame : ∀ s, R s s) (hform : ∀ s, R s (s.mapLines form)) (isMeant : Bool)
    (owners : List (Source α)) :
    List.Forall₂ R owners (if isMeant then owners.map (Source.mapLines form) else owners) := by
  cases isMeant with
  | false => exact List.forall₂_same.2 fun s _ => hsame s
  | true =>
    rw [if_pos rfl, List.forall₂_map_right_iff]
    exact List.forall₂_same.2 fun s _ => hform s

/-- A change of the lines leaves the definitions as they are, with as many skills each. -/
theorem load_mapLines (options : ParseOptions) (form : String → String) (isMeant : String → Bool)
    (p : ProjectSource) :
    Project.SameButSkills (p.load options).project
      ((p.mapLines form isMeant).load options).project := by
  refine ⟨?_, ?_⟩
  · simp only [load, mapLines, List.forall₂_map_left_iff, List.forall₂_map_right_iff]
    exact forall₂_mapLines (fun _ => ⟨rfl, rfl⟩)
      (fun s => ⟨rfl, by simp [mobLines, length_skillsOf, Source.mapLines]⟩) _ _
  · simp only [load, mapLines, List.forall₂_map_left_iff, List.forall₂_map_right_iff]
    exact forall₂_mapLines (fun _ => ⟨rfl, rfl⟩)
      (fun s => ⟨rfl, by simp [metaskillLines, length_skillsOf, Source.mapLines]⟩) _ _

/-- What describes a project can be edited, and the document that is edited describes it. -/
theorem exists_document {text : String} {p : ProjectSource} (h : parse? text = some p) :
    ∃ d, Document.parse? editingLimit text = some d ∧ ofToml? d.toToml = some p := by
  obtain ⟨v, hv, hp⟩ := Option.bind_eq_some_iff.1 h
  obtain ⟨d, hd, rfl⟩ := Toml.exists_document_of_parse? hv
  exact ⟨d, hd, hp⟩

theorem parse?_print {d : Document} (h : d.KeepsMeaning) : parse? d.print = ofToml? d.toToml := by
  rw [parse?, h, Option.bind_some]

/-- A pass over the document of a project puts the lines of its tabled sections in canonical
form. -/
theorem ofToml?_format (options : ParseOptions) {text : String} {d : Document}
    {p : ProjectSource} (hd : Document.parse? editingLimit text = some d)
    (hp : ofToml? d.toToml = some p) :
    ofToml? (d.format options).1.toToml =
      some (p.mapLines (SkillLine.settle options) d.isTabled) := by
  rw [← Document.skillStrings_map_respell,
    ofToml?_skillStrings Toml.Spelling.text_respell (Document.itemized_of_parse? hd), hp,
    Option.map_some]

end ProjectSource

namespace Project

theorem format?_eq {options : ParseOptions} {text : String} {d : Document}
    (h : Document.parse? editingLimit text = some d) :
    format? options text = some ((d.format options).1.print, (d.format options).2) := by
  rw [format?, h, Option.map_some]

/-- Formatting changes the skill strings of a document and nothing else: each of them is
kept, or replaced by the canonical line of its text where that is another text, and those
that are replaced are counted. If the document means the same when it is written out, it is
loaded as before but for the skills, of which each owner has as many. -/
theorem format_changes_skills (options : ParseOptions) (d : Document) :
    (∀ s, Document.skillStrings.map (fun _ => s) (d.format options).1 =
        Document.skillStrings.map (fun _ => s) d) ∧
      List.Forall₂ (Toml.Spelling.Settles options) (Document.skillStrings.parts d)
        (Document.skillStrings.parts (d.format options).1) ∧
      (d.format options).2 =
        ((Document.skillStrings.parts d).zip
          (Document.skillStrings.parts (d.format options).1)).countP (fun (s, s') => s' ≠ s) ∧
      ∀ text, Document.parse? editingLimit text = some d →
        format? options text = some ((d.format options).1.print, (d.format options).2) ∧
        ((d.format options).1.KeepsMeaning → ∀ p, ProjectSource.parse? text = some p →
          ∃ p', ProjectSource.parse? (d.format options).1.print = some p' ∧
            ∀ options', SameButSkills (p.load options').project (p'.load options').project) := by
  refine ⟨d.format_frame, d.settles_format, d.format_count, ?_⟩
  intro text hd
  refine ⟨format?_eq hd, ?_⟩
  intro hmeaning p hp
  obtain ⟨d', hd', hp⟩ := ProjectSource.exists_document hp
  obtain rfl : d = d' := Option.some.inj (hd.symm.trans hd')
  refine ⟨p.mapLines (SkillLine.settle options) d.isTabled, ?_, ?_⟩
  · rw [ProjectSource.parse?_print hmeaning, ProjectSource.ofToml?_format options hd hp]
  · exact fun options' => ProjectSource.load_mapLines options' _ _ p

/-- Two skills with a comment on each side; the second one has no mechanic. -/
def healText : String :=
  "# on hit\n[[mobs]]\nhealth = 20\nskills = [\"heal\x7b amount=5 \x7d\", \"@x\"] # twice\n"

def healFormatted : String :=
  "# on hit\n[[mobs]]\nhealth = 20\nskills = [\"heal\x7bamount=5\x7d\", \"@x\"] # twice\n"

def healMeaning : Toml :=
  .table [("mobs", .array [.table [("health", .integer 20),
    ("skills", .array [.string "heal\x7bamount=5\x7d", .string "@x"])]])]

theorem format_changes_skills_heal :
    format? {} healText = some (healFormatted, 1) ∧
      ∃ d, Document.parse? editingLimit healText = some d ∧ (d.format {}).1.KeepsMeaning ∧
        ∃ p p', ProjectSource.parse? healText = some p ∧
          ProjectSource.parse? healFormatted = some p' ∧
          SameButSkills (p.load {}).project (p'.load {}).project := by
  have htables : (Document.parse? editingLimit healText).map
      (fun d => ((d.format {}).1.inTreeOrder, d.ending)) =
        some ([(0, []), (1, healFormatted.toList)], "") := by
    decide +kernel
  have hmeaning : (Document.parse? editingLimit healText).map
      (fun d => ((d.format {}).1.toToml, (d.format {}).2)) = some (healMeaning, 1) := by
    decide +kernel
  have hformatted : Toml.parse? healFormatted = some healMeaning := by
    decide +kernel
  have hproject : (ProjectSource.parse? healText).isSome = true := by
    decide +kernel
  obtain ⟨d, hd, hmeaning⟩ := Option.map_eq_some_iff.1 hmeaning
  obtain ⟨hmeaning, hcount⟩ := Prod.mk.inj hmeaning
  rw [hd, Option.map_some, Option.some.injEq] at htables
  have hprint : (d.format {}).1.print = healFormatted :=
    Document.print_eq htables (by decide) (by decide +kernel)
  have hkeeps : (d.format {}).1.KeepsMeaning := by
    rw [Document.KeepsMeaning, hprint, hmeaning, hformatted]
  obtain ⟨p, hp⟩ := Option.isSome_iff_exists.1 hproject
  obtain ⟨-, -, -, htext⟩ := format_changes_skills {} d
  obtain ⟨hformat, hload⟩ := htext healText hd
  obtain ⟨p', hp', hsame⟩ := hload hkeeps p hp
  rw [hprint] at hformat hp'
  rw [hcount] at hformat
  exact ⟨hformat, d, hd, hkeeps, p, p', hp, hp', hsame {}⟩

end Project
end MobSkills
