import MobSkills.Line.Basic

/-!
# Mobs and metaskills

What a project is made of: mobs with their skill lines, and metaskills, which are
named lists of skill lines that other lines invoke.
-/
namespace MobSkills

structure BossBar where
  enabled : Bool := false
  title : Option String := none
  color : Option String := none
  style : Option String := none
deriving DecidableEq

structure Mob where
  name : String := ""
  entityType : String := ""
  display : Option String := none
  health : Option Binary64 := none
  damage : Option Binary64 := none
  armor : Option Binary64 := none
  faction : Option String := none
  mount : Option String := none
  bossBar : Option BossBar := none
  equipment : List String := []
  skills : List SkillLine := []
deriving DecidableEq

structure Metaskill where
  name : String := ""
  cooldown : Option Binary64 := none
  conditions : List String := []
  targetConditions : List String := []
  triggerConditions : List String := []
  skills : List SkillLine := []
deriving DecidableEq

structure Project where
  mobs : List Mob := []
  metaskills : List Metaskill := []
deriving DecidableEq

namespace Project

def mobNames (p : Project) : List String :=
  p.mobs.map (·.name)

def metaskillNames (p : Project) : List String :=
  p.metaskills.map (·.name)

end Project
end MobSkills
