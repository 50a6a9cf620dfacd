import MobSkills.Proofs.Project.Frame
import MobSkills.Proofs.Project.Loading

/-!
# Which lines formatting reaches

Loading takes the mobs and metaskills from any list of records. Formatting looks for lists
of tables with headers of their own, so the lines of a list that is written as a value are
loaded, but they are never put in canonical form.
-/
namespace MobSkills

open Toml (Document editingLimit)
open SkillLine (settle)

/-- The name under which the owner of the line is listed. -/
def Place.section : Place → String
  | .mob _ _ => "mobs"
  | .metaskill _ _ => "metaskills"

namespace ProjectSource

theorem getElem?_mapLines {α : Type} (form : String → String) (isMeant : Bool)
    (owners : List (Source α)) (i j : Nat) (label : Source α → String)
    (hlabel : ∀ s, label (s.mapLines form) = label s) :
    ((if isMeant then owners.map (Source.mapLines form) else owners)[i]?.bind fun s =>
        s.lines[j]?.map (label s, ·)) =
      (owners[i]?.bind fun s => s.lines[j]?.map (label s, ·)).map fun (owner, text) =>
        (owner, if isMeant then form text else text) := by
  have hlines (s : Source α) : (s.mapLines form).lines = s.lines.map form := rfl
  cases isMeant with
  | false => simp
  | true => simp [Option.map_bind, Option.bind_map, Function.comp_def, hlabel, hlines]

/-- The lines of the sections that are meant are in the other form, in their places. -/
theorem lineAt?_mapLines (form : String → String) (isMeant : String → Bool) (p : ProjectSource)
    (place : Place) :
    (p.mapLines form isMeant).lineAt? place = (p.lineAt? place).map fun (owner, text) =>
      (owner, if isMeant place.section then form text else text) := by
  cases place with
  | mob i j => exact getElem?_mapLines form _ p.mobs i j _ fun _ => rfl
  | metaskill i j => exact getElem?_mapLines form _ p.metaskills i j _ fun _ => rfl

/-- Formatting puts every line of a project in canonical form that is listed in tables with
headers of their own, and leaves the others as they are. So it misses none exactly when
those others are in canonical form. -/
theorem format_reaches_headed (options : ParseOptions) {text : String} {p : ProjectSource}
    (h : parse? text = some p) :
    ∃ d, Document.parse? editingLimit text = some d ∧
      Project.format? options text = some ((d.format options).1.print, (d.format options).2) ∧
      ∃ p', ofToml? (d.format options).1.toToml = some p' ∧
        ((d.format options).1.KeepsMeaning → parse? (d.format options).1.print = some p') ∧
        (∀ place owner line, p.lineAt? place = some (owner, line) → p'.lineAt? place =
          some (owner, if d.isTabled place.section then settle options line else line)) ∧
        ((∀ place owner line, p.lineAt? place = some (owner, line) →
            p'.lineAt? place = some (owner, settle options line)) ↔
          ∀ place owner line, p.lineAt? place = some (owner, line) →
            d.isTabled place.section = true ∨ settle options line = line) := by
  obtain ⟨d, hd, hp⟩ := exists_document h
  have hp' := ofToml?_format options hd hp
  have hlines (place : Place) (owner line : String) (hline : p.lineAt? place = some (owner, line)) :
      (p.mapLines (settle options) d.isTabled).lineAt? place =
        some (owner, if d.isTabled place.section then settle options line else line) := by
    rw [lineAt?_mapLines, hline, Option.map_some]
  refine ⟨d, hd, Project.format?_eq hd, _, hp', ?_, hlines, ?_⟩
  · intro hmeaning
    rw [parse?_print hmeaning, hp']
  · refine forall₄_congr fun place owner line hline => ?_
    rw [hlines place owner line hline]
    cases d.isTabled place.section <;> simp [eq_comm]

/-- One line in a list that is written as a value, and the same one under a header. -/
def mixedText : String :=
  "metaskills = [\x7bskills = [\"heal\x7b a=5 \x7d\"]\x7d]\n[[mobs]]\nskills = [\"heal\x7b a=5 \x7d\"]\n"

def mixedTables : List (Nat × List Char) :=
  [(0, "metaskills = [\x7bskills = [\"heal\x7b a=5 \x7d\"]\x7d]\n".toList),
    (1, "[[mobs]]\nskills = [\"heal\x7ba=5\x7d\"]\n".toList)]

def mixedFormatted : String :=
  "metaskills = [\x7bskills = [\"heal\x7b a=5 \x7d\"]\x7d]\n[[mobs]]\nskills = [\"heal\x7ba=5\x7d\"]\n"

def mixedMeaning : Toml :=
  .table [("metaskills", .array [.table [("skills", .array [.string "heal\x7b a=5 \x7d"])]]),
    ("mobs", .array [.table [("skills", .array [.string "heal\x7ba=5\x7d"])]])]

theorem format_reaches_headed_mixed :
    parse? mixedText = some ⟨[⟨{}, ["heal\x7b a=5 \x7d"]⟩], [⟨{}, ["heal\x7b a=5 \x7d"]⟩]⟩ ∧
      Project.format? {} mixedText = some (mixedFormatted, 1) ∧
      ∃ p', parse? mixedFormatted = some p' ∧
        p'.lineAt? (.mob 0 0) = some ("mob ", "heal\x7ba=5\x7d") ∧
        p'.lineAt? (.metaskill 0 0) = some ("metaskill ", "heal\x7b a=5 \x7d") := by
  have hp : parse? mixedText =
      some ⟨[⟨{}, ["heal\x7b a=5 \x7d"]⟩], [⟨{}, ["heal\x7b a=5 \x7d"]⟩]⟩ := by
    decide +kernel
  have htables : (Document.parse? editingLimit mixedText).map
      (fun d => ((d.format {}).1.inTreeOrder, d.ending)) = some (mixedTables, "") := by
    decide +kernel
  have hmeaning : (Document.parse? editingLimit mixedText).map
      (fun d => ((d.format {}).1.toToml, (d.format {}).2)) = some (mixedMeaning, 1) := by
    decide +kernel
  have hsections : (Document.parse? editingLimit mixedText).map
      (fun d => (d.isTabled "mobs", d.isTabled "metaskills")) = some (true, false) := by
    decide +kernel
  have hformatted : Toml.parse? mixedFormatted = some mixedMeaning := by
    decide +kernel
  have hsettle : settle {} "heal\x7b a=5 \x7d" = "heal\x7ba=5\x7d" := by
    decide +kernel
  obtain ⟨d, hd, hformat, p', -, hparse, hlines, -⟩ := format_reaches_headed {} hp
  rw [hd, Option.map_some, Option.some.injEq] at htables hmeaning hsections
  obtain ⟨hmeaning, hcount⟩ := Prod.mk.inj hmeaning
  obtain ⟨hmobs, hmetaskills⟩ := Prod.mk.inj hsections
  have hprint : (d.format {}).1.print = mixedFormatted :=
    Document.print_eq htables (by decide) (by decide +kernel)
  have hkeeps : (d.format {}).1.KeepsMeaning := by
    rw [Document.KeepsMeaning, hprint, hmeaning, hformatted]
  rw [hprint, hcount] at hformat
  refine ⟨hp, hformat, p', by rw [← hprint, hparse hkeeps], ?_, ?_⟩
  · rw [hlines (.mob 0 0) "mob " "heal\x7b a=5 \x7d" rfl, Place.section, hmobs, if_pos rfl, hsettle]
  · rw [hlines (.metaskill 0 0) "metaskill " "heal\x7b a=5 \x7d" rfl, Place.section, hmetaskills]
    rfl

def inlineText : String :=
  "mobs = [\x7binternal_name = \"A\", skills = [\"heal\x7b amount = 5 \x7d\"]\x7d]\n"

/-- The only line of the text is loaded and its canonical form is another one, but the text
is formatted to itself. -/
theorem format?_inlineText :
    parse? inlineText = some ⟨[⟨{ name := "A" }, ["heal\x7b amount = 5 \x7d"]⟩], []⟩ ∧
      SkillLine.canonical? {} "heal\x7b amount = 5 \x7d" = some "heal\x7bamount=5\x7d" ∧
      Project.format? {} inlineText = some (inlineText, 0) := by
  have htables : (Document.parse? editingLimit inlineText).map
      (fun d => (((d.format {}).1.inTreeOrder, d.ending), (d.format {}).2)) =
        some (([(0, inlineText.toList)], ""), 0) := by
    decide +kernel
  obtain ⟨d, hd, heq⟩ := Option.map_eq_some_iff.1 htables
  obtain ⟨htables, hcount⟩ := Prod.mk.inj heq
  have hprint : (d.format {}).1.print = inlineText :=
    Document.print_eq htables (by decide) (by decide +kernel)
  refine ⟨by decide +kernel, by decide +kernel, ?_⟩
  rw [Project.format?_eq hd, hprint, hcount]

end ProjectSource
end MobSkills
