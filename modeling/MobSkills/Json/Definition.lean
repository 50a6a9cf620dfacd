import MobSkills.Definition
import MobSkills.Json.Line

/-!
# Definitions as JSON

Only the name of a definition has to be given. All fields are written, null where
they are absent.
-/
namespace MobSkills.Json

def toBossBar? (j : Json) : Option BossBar :=
  match fields? ["enabled", "title", "color", "style"] j with
  | some [enabled, title, color, style] => do
    let enabled ← withDefault false toBool? enabled
    let title ← optional toText? title
    let color ← optional toText? color
    let style ← optional toText? style
    return ⟨enabled, title, color, style⟩
  | _ => none

def ofBossBar (bar : BossBar) : Json :=
  ofEntries
    [("enabled", .boolean bar.enabled), ("title", ofOption ofString bar.title),
      ("color", ofOption ofString bar.color), ("style", ofOption ofString bar.style)]

def toMobWith? (real? : JsonNumber → Option Binary64) (j : Json) : Option Mob :=
  match fields? ["internal_name", "type", "display", "health", "damage", "armor", "faction",
      "mount", "boss_bar", "equipment", "skills"] j with
  | some [name, entityType, display, health, damage, armor, faction, mount, bossBar, equipment,
      skills] => do
    let name ← name.bind toText?
    let entityType ← withDefault "" toText? entityType
    let display ← optional toText? display
    let health ← optional (toRealWith? real?) health
    let damage ← optional (toRealWith? real?) damage
    let armor ← optional (toRealWith? real?) armor
    let faction ← optional toText? faction
    let mount ← optional toText? mount
    let bossBar ← optional toBossBar? bossBar
    let equipment ← withDefault [] toTexts? equipment
    let skills ← withDefault [] (toList? (toSkillLineWith? real?)) skills
    return ⟨name, entityType, display, health, damage, armor, faction, mount, bossBar, equipment,
      skills⟩
  | _ => none

def toMob? : Json → Option Mob :=
  toMobWith? JsonNumber.toBinary64?

def ofMob (m : Mob) : Json :=
  ofEntries
    [("internal_name", ofString m.name), ("type", ofString m.entityType),
      ("display", ofOption ofString m.display), ("health", ofOption ofReal m.health),
      ("damage", ofOption ofReal m.damage), ("armor", ofOption ofReal m.armor),
      ("faction", ofOption ofString m.faction), ("mount", ofOption ofString m.mount),
      ("boss_bar", ofOption ofBossBar m.bossBar), ("equipment", ofStrings m.equipment),
      ("skills", .array (m.skills.map ofSkillLine))]

def toMetaskillWith? (real? : JsonNumber → Option Binary64) (j : Json) : Option Metaskill :=
  match fields? ["internal_name", "cooldown", "conditions", "target_conditions",
      "trigger_conditions", "skills"] j with
  | some [name, cooldown, conditions, targetConditions, triggerConditions, skills] => do
    let name ← name.bind toText?
    let cooldown ← optional (toRealWith? real?) cooldown
    let conditions ← withDefault [] toTexts? conditions
    let targetConditions ← withDefault [] toTexts? targetConditions
    let triggerConditions ← withDefault [] toTexts? triggerConditions
    let skills ← withDefault [] (toList? (toSkillLineWith? real?)) skills
    return ⟨name, cooldown, conditions, targetConditions, triggerConditions, skills⟩
  | _ => none

def toMetaskill? : Json → Option Metaskill :=
  toMetaskillWith? JsonNumber.toBinary64?

def ofMetaskill (m : Metaskill) : Json :=
  ofEntries
    [("internal_name", ofString m.name), ("cooldown", ofOption ofReal m.cooldown),
      ("conditions", ofStrings m.conditions), ("target_conditions", ofStrings m.targetConditions),
      ("trigger_conditions", ofStrings m.triggerConditions),
      ("skills", .array (m.skills.map ofSkillLine))]

def toProjectWith? (real? : JsonNumber → Option Binary64) (j : Json) : Option Project :=
  match fields? ["mobs", "metaskills"] j with
  | some [mobs, metaskills] => do
    let mobs ← withDefault [] (toList? (toMobWith? real?)) mobs
    let metaskills ← withDefault [] (toList? (toMetaskillWith? real?)) metaskills
    return ⟨mobs, metaskills⟩
  | _ => none

def toProject? : Json → Option Project :=
  toProjectWith? JsonNumber.toBinary64?

def ofProject (p : Project) : Json :=
  ofEntries
    [("mobs", .array (p.mobs.map ofMob)), ("metaskills", .array (p.metaskills.map ofMetaskill))]

end MobSkills.Json
