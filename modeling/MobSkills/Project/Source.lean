import MobSkills.Definition
import MobSkills.Toml.Decode

/-!
# Project files

A project file holds mobs and metaskills with their skill lines as text. No field
has to be given where fields go by name.
-/
namespace MobSkills

/-- A definition without its skills, and the source of each of them. -/
structure Source (α : Type) where
  definition : α
  lines : List String
deriving DecidableEq

structure ProjectSource where
  mobs : List (Source Mob)
  metaskills : List (Source Metaskill)
deriving DecidableEq

namespace ProjectSource

open MobSkills.Toml
  (fields? toText? toBool? toReal? toTexts? toList? optional optionalByName withDefault)

def toBossBar? (v : Toml) : Option BossBar :=
  match fields? ["enabled", "title", "color", "style"] v with
  | some ⟨_, [enabled, title, color, style]⟩ => do
    let enabled ← withDefault false toBool? enabled
    let title ← optional toText? title
    let color ← optional toText? color
    let style ← optional toText? style
    return ⟨enabled, title, color, style⟩
  | _ => none

def toMob? (v : Toml) : Option (Source Mob) :=
  match fields? ["internal_name", "type", "display", "health", "damage", "armor", "faction",
      "mount", "boss_bar", "equipment", "skills"] v with
  | some ⟨ordered, [name, entityType, display, health, damage, armor, faction, mount, bossBar,
      equipment, skills]⟩ => do
    let name ← withDefault "" toText? name
    let entityType ← withDefault "" toText? entityType
    let display ← optionalByName ordered toText? display
    let health ← optionalByName ordered toReal? health
    let damage ← optionalByName ordered toReal? damage
    let armor ← optionalByName ordered toReal? armor
    let faction ← optionalByName ordered toText? faction
    let mount ← optionalByName ordered toText? mount
    let bossBar ← optionalByName ordered toBossBar? bossBar
    let equipment ← withDefault [] toTexts? equipment
    let lines ← withDefault [] toTexts? skills
    return ⟨⟨name, entityType, display, health, damage, armor, faction, mount, bossBar, equipment,
      []⟩, lines⟩
  | _ => none

def toMetaskill? (v : Toml) : Option (Source Metaskill) :=
  match fields? ["internal_name", "cooldown", "conditions", "target_conditions",
      "trigger_conditions", "skills"] v with
  | some ⟨ordered, [name, cooldown, conditions, targetConditions, triggerConditions, skills]⟩ => do
    let name ← withDefault "" toText? name
    let cooldown ← optionalByName ordered toReal? cooldown
    let conditions ← withDefault [] toTexts? conditions
    let targetConditions ← withDefault [] toTexts? targetConditions
    let triggerConditions ← withDefault [] toTexts? triggerConditions
    let lines ← withDefault [] toTexts? skills
    return ⟨⟨name, cooldown, conditions, targetConditions, triggerConditions, []⟩, lines⟩
  | _ => none

def ofToml? (v : Toml) : Option ProjectSource :=
  match fields? ["mobs", "metaskills"] v with
  | some ⟨_, [mobs, metaskills]⟩ => do
    let mobs ← withDefault [] (toList? toMob?) mobs
    let metaskills ← withDefault [] (toList? toMetaskill?) metaskills
    return ⟨mobs, metaskills⟩
  | _ => none

/-- The source that the text of a project file describes, if it does. -/
def parse? (text : String) : Option ProjectSource :=
  (Toml.parse? text).bind ofToml?

end ProjectSource
end MobSkills
