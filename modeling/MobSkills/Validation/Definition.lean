import MobSkills.Definition
import MobSkills.Validation.Skill

/-!
# Checks of mobs and metaskills

A definition is checked for its own fields and for every skill line it holds. The
issues of a line are found again under its place in the list.
-/
namespace MobSkills.Validation

/-- Issues of the name of a definition; `kind` says what it is a name of. -/
def nameIssues (kind name : String) : List Issue :=
  if Text.allBlank name then
    [.error "internal_name" "Internal name is required"
      ("Provide a unique identifier for this " ++ kind)]
  else if name.toList.any Text.isBlank then
    [.warning "internal_name" "Internal name should not contain spaces"
      "Use underscores instead of spaces (e.g., Fire_Boss)"]
  else []

/-- The issues of skill lines, each under the place of its line. -/
def skillListIssues (r : Registry) (known : List String) (lines : List SkillLine) : List Issue :=
  lines.zipIdx.flatMap fun (line, index) =>
    (skillIssues r known line).map (Issue.underSkill index)

def mobHealthIssues (health : Binary64) : List Issue :=
  if health.le .zero then
    [.error "health" "Health must be greater than 0" "Set health to at least 1"]
  else if Binary64.lt (.ofInt 10000) health then
    [.info "health" "Health value is extremely high"
      "Consider if this mob really needs more than 10,000 HP"]
  else []

def damageIssues (damage : Binary64) : List Issue :=
  if damage.lt .zero then
    [.error "damage" "Damage cannot be negative" "Set damage to 0 or higher"]
  else []

def armorIssues (armor : Binary64) : List Issue :=
  if Binary64.le .zero armor && armor.le (.ofInt 20) then []
  else
    [.warning "armor" "Armor should be between 0 and 20" "Armor values range from 0 to 20"]

def mountIssues (name : String) (knownMobs : List String) (mount : String) : List Issue :=
  if mount = name then
    [.error "mount" "Mob cannot mount itself" "Reference a different mob"]
  else if knownMobs.contains mount then []
  else
    [.error "mount" ("Referenced mob \"" ++ mount ++ "\" does not exist")
      "Create the mount mob first or fix the reference"]

/-- Whether a text is absent or blank. -/
def isMissing (text : Option String) : Bool :=
  text.all Text.allBlank

def bossBarIssues (mob : Mob) (bar : BossBar) : List Issue :=
  if bar.enabled && isMissing bar.title && isMissing mob.display && Text.allBlank mob.name then
    [.warning "boss_bar.title" "Boss bar has no title" "Set a boss bar title or display name"]
  else []

def equipmentIssues (equipment : List String) : List Issue :=
  equipment.zipIdx.flatMap fun (item, index) =>
    if item.toList.contains ':' then []
    else
      [.warning ("equipment[" ++ toString index ++ "]") "Equipment item missing slot number"
        "Format should be ITEM_NAME:SLOT (e.g., DIAMOND_SWORD:0)"]

def mobIssues (r : Registry) (knownMobs knownSkills : List String) (mob : Mob) : List Issue :=
  nameIssues "mob" mob.name ++
    (if Text.allBlank mob.entityType then
      [Issue.error "type" "Entity type is required"
        "Select an entity type (e.g., ZOMBIE, SKELETON)"]
    else []) ++
    ofOption mobHealthIssues mob.health ++ ofOption damageIssues mob.damage ++
    ofOption armorIssues mob.armor ++ ofOption (mountIssues mob.name knownMobs) mob.mount ++
    skillListIssues r knownSkills mob.skills ++ ofOption (bossBarIssues mob) mob.bossBar ++
    equipmentIssues mob.equipment

def cooldownIssues (cooldown : Binary64) : List Issue :=
  if cooldown.lt .zero then
    [.error "cooldown" "Cooldown cannot be negative" "Set cooldown to 0 or higher (in seconds)"]
  else []

/-- An error for every line of a metaskill that invokes the metaskill itself. -/
def selfInvocationIssues (r : Registry) (m : Metaskill) : List Issue :=
  m.skills.zipIdx.flatMap fun (line, index) =>
    if invoked? r line = some m.name then
      [{ Issue.error (Issue.skillPath index) "Metaskill calls itself (circular reference)"
          "Remove the self-reference to prevent infinite recursion" with
          path := some (Issue.skillPath index) }]
    else []

def metaskillIssues (r : Registry) (knownSkills : List String) (m : Metaskill) : List Issue :=
  nameIssues "metaskill" m.name ++ ofOption cooldownIssues m.cooldown ++
    (if m.skills.isEmpty then
      [Issue.warning "skills" "Metaskill has no skills" "Add at least one skill to this metaskill"]
    else []) ++
    skillListIssues r knownSkills m.skills ++ selfInvocationIssues r m

end MobSkills.Validation
