import MobSkills.Catalog.Registry

/-!
# The standard catalog

Common mechanics, targeters, conditions and triggers. The order matters only for
equal scores in a search: the mechanic that deals damage comes first.
-/
namespace MobSkills.Standard

def entry (name : String) (aliases : List String) (category description : String)
    (parameters : List (String × ParameterSchema)) : Entry ParameterTable :=
  ⟨name, aliases, category, description, .ofList parameters⟩

/-- A trigger without a value. -/
def plain (name category description : String) : Entry TriggerForm :=
  ⟨name, [], category, description, {}⟩

def valued (name category description : String) (type : ParameterType) : Entry TriggerForm :=
  ⟨name, [], category, description, ⟨true, some type⟩⟩

def radius (blocks : Int64) : ParameterSchema where
  type := .number
  default := some (.integer blocks)
  min := some (.ofInt 0)
  aliases := ["r"]
  description := "Radius in blocks"

def valueText (description : String) : ParameterSchema :=
  { type := .string, aliases := ["v"], description }

def potionTypes : List String := [
  "SPEED", "SLOW", "FAST_DIGGING", "SLOW_DIGGING", "INCREASE_DAMAGE", "HEAL",
  "HARM", "JUMP", "CONFUSION", "REGENERATION", "DAMAGE_RESISTANCE", "FIRE_RESISTANCE",
  "WATER_BREATHING", "INVISIBILITY", "BLINDNESS", "NIGHT_VISION", "HUNGER", "WEAKNESS",
  "POISON", "WITHER", "GLOWING", "LEVITATION", "SLOW_FALLING"
]

def mechanics : List (Entry ParameterTable) := [
    entry "damage" ["d"] "Damage" "Deals damage to the target" [
        ("amount", { type := .number, required := true, min := some (.ofInt 0),
                     description := "Amount of damage", aliases := ["a"] }),
        ("type", { type := .string, description := "Damage cause", aliases := ["t"] }),
        ("ignorearmor", { type := .boolean, default := some (.boolean false),
                          description := "Bypass armor", aliases := ["ia"] }),
        ("preventimmunity", { type := .boolean, default := some (.boolean false),
                              description := "Skip no-damage ticks", aliases := ["pi"] }),
        ("preventknockback", { type := .boolean, default := some (.boolean false),
                               description := "Cancel knockback", aliases := ["pk"] })
      ],
    entry "percentdamage" ["percentagedamage"] "Damage"
      "Deals damage as a fraction of the target's health" [
        ("percent", { type := .number, required := true, min := some (.ofInt 0),
                      max := some (.ofInt 1), description := "Fraction of health",
                      aliases := ["p"] }),
        ("currenthealth", { type := .boolean, default := some (.boolean false),
                            description := "Use current health", aliases := ["ch"] })
      ],
    entry "heal" ["h"] "Healing" "Heals the target" [
        ("amount", { type := .number, required := true, min := some (.ofInt 0),
                     description := "Health restored", aliases := ["a"] }),
        ("overheal", { type := .boolean, default := some (.boolean false),
                       description := "Allow exceeding max health", aliases := ["oh"] })
      ],
    entry "healpercent" ["percentheal"] "Healing" "Heals a fraction of the target's max health" [
        ("multiplier", { type := .number, required := true, min := some (.ofInt 0),
                         description := "Fraction of max health", aliases := ["m"] })
      ],
    entry "skill" ["metaskill", "meta", "spell"] "Meta" "Runs a metaskill by name" [
        ("skill", { type := .string, required := true, description := "Metaskill to run",
                    aliases := ["s", "spell", "metaskill"] })
      ],
    entry "message" ["msg", "m"] "Communication" "Sends a chat message to the target" [
        ("message", { type := .string, required := true, description := "Message text",
                      aliases := ["m", "msg"] })
      ],
    entry "sendtitle" ["title"] "Communication" "Shows a title on the target's screen" [
        ("title", { type := .string, description := "Main title", aliases := ["t"] }),
        ("subtitle", { type := .string, description := "Subtitle", aliases := ["st"] }),
        ("duration", { type := .number, default := some (.integer 20), min := some (.ofInt 0),
                       description := "Ticks on screen", aliases := ["d"] })
      ],
    entry "effect:particles" ["particles", "e:p", "e:particles",
      "effect:particle"] "Effects" "Plays a particle effect at the target" [
        ("particle", { type := .string, default := some (.text "reddust"),
                       description := "Particle name", aliases := ["p"] }),
        ("amount", { type := .number, default := some (.integer 10), min := some (.ofInt 0),
                     description := "Particle count", aliases := ["a"] }),
        ("speed", { type := .number, default := some (.real (.ofInt 0)), min := some (.ofInt 0),
                    description := "Particle speed", aliases := ["s"] }),
        ("yoffset", { type := .number, default := some (.real (.ofInt 0)),
                      description := "Vertical offset", aliases := ["y"] }),
        ("hspread", { type := .number, default := some (.real (.ofInt 0)), min := some (.ofInt 0),
                      description := "Horizontal spread", aliases := ["hs"] }),
        ("vspread", { type := .number, default := some (.real (.ofInt 0)), min := some (.ofInt 0),
                      description := "Vertical spread", aliases := ["vs"] })
      ],
    entry "effect:sound" ["sound", "e:s", "e:sound"] "Effects" "Plays a sound at the target" [
        ("sound", { type := .string, required := true, description := "Sound name",
                    aliases := ["s"] }),
        ("volume", { type := .number, default := some (.real (.ofInt 1)), min := some (.ofInt 0),
                     description := "Volume", aliases := ["v"] }),
        ("pitch", { type := .number, default := some (.real (.ofInt 1)), min := some (.ofInt 0),
                    max := some (.ofInt 2), description := "Pitch", aliases := ["p"] })
      ],
    entry "effect:lightning" ["e:lightning"] "Effects"
      "Strikes harmless lightning at the target" [],
    entry "lightning" [] "Damage" "Strikes damaging lightning at the target" [
        ("damage", { type := .number, min := some (.ofInt 0), description := "Damage override",
                     aliases := ["d"] })
      ],
    entry "ignite" [] "Damage" "Sets the target on fire" [
        ("ticks", { type := .number, default := some (.integer 60), min := some (.ofInt 0),
                    description := "Burn duration in ticks", aliases := ["t"] })
      ],
    entry "potion" [] "Effects" "Applies a potion effect" [
        ("type", { type := .enum, values := potionTypes, required := true,
                   description := "Potion effect", aliases := ["t"] }),
        ("duration", { type := .number, default := some (.integer 100), min := some (.ofInt 0),
                       description := "Duration in ticks", aliases := ["d"] }),
        ("level", { type := .number, default := some (.integer 1), min := some (.ofInt 1),
                    max := some (.ofInt 255), description := "Amplifier",
                    aliases := ["lvl", "l"] }),
        ("hasparticles", { type := .boolean, default := some (.boolean true),
                           description := "Show particles", aliases := ["p"] })
      ],
    entry "throw" [] "Movement" "Throws the target away from the caster" [
        ("velocity", { type := .number, default := some (.integer 1),
                       description := "Horizontal force", aliases := ["v"] }),
        ("velocityy", { type := .number, default := some (.integer 1),
                        description := "Vertical force", aliases := ["vy"] })
      ],
    entry "leap" [] "Movement" "Leaps the caster toward the target" [
        ("velocity", { type := .number, default := some (.integer 100), min := some (.ofInt 0),
                       description := "Leap strength", aliases := ["v"] })
      ],
    entry "pull" [] "Movement" "Pulls the target toward the caster" [
        ("velocity", { type := .number, default := some (.integer 1),
                       description := "Pull strength", aliases := ["v"] })
      ],
    entry "teleport" ["tp"] "Movement" "Teleports the caster to the target" [
        ("spreadh", { type := .number, default := some (.integer 0), min := some (.ofInt 0),
                      description := "Horizontal spread", aliases := ["sh"] })
      ],
    entry "summon" [] "Spawning" "Summons mobs at the target" [
        ("type", { type := .string, required := true, description := "Mob to summon",
                   aliases := ["mob", "m", "t"] }),
        ("amount", { type := .number, default := some (.integer 1), min := some (.ofInt 1),
                     description := "How many", aliases := ["a"] }),
        ("radius", { type := .number, default := some (.integer 0), min := some (.ofInt 0),
                     description := "Spawn radius", aliases := ["r"] })
      ],
    entry "command" ["cmd"] "Utility" "Runs a server command" [
        ("command", { type := .string, required := true, description := "Command line",
                      aliases := ["c", "cmd"] }),
        ("asop", { type := .boolean, default := some (.boolean false),
                   description := "Run as operator", aliases := ["op"] }),
        ("ascaster", { type := .boolean, default := some (.boolean false),
                       description := "Run as the caster", aliases := ["ac"] })
      ],
    entry "delay" [] "Utility" "Pauses a metaskill for a number of ticks" [
        ("ticks", { type := .number, required := true, min := some (.ofInt 0),
                    description := "Ticks to wait", aliases := ["t"] })
      ],
    entry "signal" [] "Utility" "Sends a signal that ~onSignal listeners receive" [
        ("signal", { type := .string, required := true, description := "Signal name",
                     aliases := ["s"] })
      ],
    entry "setspeed" [] "Stats" "Changes the target's movement speed" [
        ("speed", { type := .number, default := some (.integer 1), min := some (.ofInt 0),
                    description := "New speed", aliases := ["s"] }),
        ("type", { type := .enum, values := ["WALKING", "FLYING"],
                   default := some (.text "WALKING"), description := "Speed kind",
                   aliases := ["t"] })
      ],
    entry "aura" ["buff", "debuff"] "Auras" "Applies a named aura to the target" [
        ("auraname", { type := .string, description := "Aura name",
                       aliases := ["aura", "b", "buffname"] }),
        ("duration", { type := .number, default := some (.integer 200), min := some (.ofInt 0),
                       description := "Duration in ticks", aliases := ["d", "ticks"] }),
        ("charges", { type := .number, default := some (.integer 0), min := some (.ofInt 0),
                      description := "Charges before expiring", aliases := ["c"] })
      ],
    entry "projectile" ["p"] "Projectiles" "Fires a projectile that can run metaskills on hit" [
        ("onhitskill", { type := .string, description := "Metaskill run on hit",
                         aliases := ["onhit", "oh"] }),
        ("ontickskill", { type := .string, description := "Metaskill run each tick",
                          aliases := ["ontick", "ot"] }),
        ("velocity", { type := .number, default := some (.integer 5), min := some (.ofInt 0),
                       description := "Speed", aliases := ["v"] }),
        ("maxrange", { type := .number, default := some (.integer 40), min := some (.ofInt 0),
                       description := "Range in blocks", aliases := ["mr"] }),
        ("hitconditions", { type := .list, description := "Conditions applied to hit targets",
                            aliases := ["conditions"] })
      ]
]

def targeters : List (Entry ParameterTable) := [
    entry "self" ["caster", "boss", "mob"] "Single" "The caster itself" [],
    entry "target" ["t"] "Single" "The caster's current target" [],
    entry "trigger" [] "Single" "The entity that fired the trigger" [],
    entry "nearestPlayer" [] "Single" "The closest player within a radius" [
        ("radius", radius 64)
      ],
    entry "PIR" ["playersInRadius"] "Area" "Players within a radius" [
        ("radius", radius 5)
      ],
    entry "EIR" ["entitiesInRadius"] "Area" "Entities within a radius" [
        ("radius", radius 5),
        ("type", { type := .string, description := "Entity type filter", aliases := ["t"] })
      ],
    entry "MIR" ["mobsInRadius"] "Area" "Mobs within a radius" [
        ("radius", radius 5),
        ("types", { type := .string, description := "Mob types", aliases := ["type", "t"] })
      ],
    entry "LIR" ["livingInRadius"] "Area" "Living entities within a radius" [
        ("radius", radius 5),
        ("conditions", { type := .list, description := "Target conditions", aliases := ["c"] })
      ],
    entry "selflocation" ["casterlocation"] "Location" "The caster's location" [],
    entry "targetlocation" ["targetloc", "TL"] "Location" "The target's location" [],
    entry "forward" [] "Location" "A point in front of the caster" [
        ("forward", { type := .number, default := some (.integer 5),
                      description := "Distance ahead", aliases := ["f"] }),
        ("sideoffset", { type := .number, default := some (.integer 0),
                         description := "Sideways offset", aliases := ["so"] }),
        ("yoffset", { type := .number, default := some (.integer 0),
                      description := "Vertical offset", aliases := ["y"] })
      ],
    entry "randomlocationInRadius" ["RLIR"] "Location" "Random locations around the caster" [
        ("radius", radius 5),
        ("minradius", { type := .number, default := some (.integer 0), min := some (.ofInt 0),
                        description := "Minimum distance", aliases := ["min"] }),
        ("amount", { type := .number, default := some (.integer 1), min := some (.ofInt 1),
                     description := "Locations to pick", aliases := ["a"] })
      ]
]

def conditions : List (Entry ParameterTable) := [
    entry "health" ["hp"] "Entity" "Health within a range" [
        ("value", valueText "Health range")
      ],
    entry "healthpercent" ["hppercent"] "Entity" "Health percentage within a range" [
        ("value", { type := .number, min := some (.ofInt 0), max := some (.ofInt 100),
                    description := "Percentage", aliases := ["v"] })
      ],
    entry "incombat" [] "Entity" "Whether the caster is in combat" [],
    entry "distance" ["d"] "Location" "Distance to the target" [
        ("value", valueText "Distance range")
      ],
    entry "day" [] "Time" "It is day in the caster's world" [],
    entry "night" [] "Time" "It is night in the caster's world" [],
    entry "raining" [] "World" "It is raining" [],
    entry "thundering" [] "World" "It is thundering" [],
    entry "biome" [] "World" "The caster stands in one of the biomes" [
        ("value", valueText "Biome list")
      ],
    entry "world" ["w"] "World" "The caster is in one of the worlds" [
        ("value", valueText "World list")
      ],
    entry "hasaura" [] "Entity" "The target has the named aura" [
        ("aura", { type := .string, description := "Aura name", aliases := ["a", "name"] })
      ],
    entry "haspotioneffect" ["haspotion"] "Entity" "The target has the potion effect" [
        ("type", { type := .enum, values := potionTypes, description := "Potion effect",
                   aliases := ["t"] })
      ],
    entry "lightlevel" ["ll"] "Location" "Light level at the caster" [
        ("value", { type := .number, min := some (.ofInt 0), max := some (.ofInt 15),
                    description := "Light level", aliases := ["v"] })
      ],
    entry "height" ["y"] "Location" "The caster's height" [
        ("value", valueText "Height range")
      ],
    entry "mobtype" ["entitytype"] "Entity" "The target's entity type" [
        ("value", valueText "Entity types")
      ],
    entry "mythicmobtype" ["mmtype"] "Entity" "The target's custom mob type" [
        ("value", valueText "Mob internal names")
      ],
    entry "isburning" ["onfire"] "Entity" "The target is on fire" [],
    entry "lineofsight" ["los"] "Entity" "The caster can see the target" [],
    entry "playerwithin" ["pw"] "Location" "A player is within the distance" [
        ("value", { type := .number, min := some (.ofInt 0), description := "Distance",
                    aliases := ["v"] })
      ],
    entry "level" ["l"] "Entity" "The caster's level" [
        ("value", valueText "Level range")
      ]
]

def triggers : List (Entry TriggerForm) := [
    plain "onSpawn" "Lifecycle" "When the mob spawns",
    plain "onFirstSpawn" "Lifecycle" "When the mob spawns for the first time",
    plain "onLoad" "Lifecycle" "When the mob is loaded",
    plain "onDeath" "Lifecycle" "When the mob dies",
    plain "onDespawn" "Lifecycle" "When the mob despawns",
    plain "onChunkUnload" "Lifecycle" "When the mob's chunk unloads",
    plain "onAttack" "Combat" "When the mob attacks",
    plain "onDamaged" "Combat" "When the mob takes damage",
    plain "onCombat" "Combat" "On attack or on damaged",
    plain "onEnterCombat" "Combat" "When the mob enters combat",
    plain "onDropCombat" "Combat" "When the mob leaves combat",
    plain "onChangeTarget" "Combat" "When the mob switches target",
    plain "onKill" "Combat" "When the mob kills an entity",
    plain "onKillPlayer" "Combat" "When the mob kills a player",
    plain "onPlayerDeath" "Combat" "When a nearby player dies",
    plain "onTargetInRange" "Combat" "When the target comes into range",
    plain "onTargetOutOfRange" "Combat" "When the target leaves range",
    plain "onExplode" "Combat" "When the mob explodes",
    plain "onPrime" "Combat" "When a creeper primes",
    plain "onShoot" "Projectile" "When the mob shoots",
    plain "onBowHit" "Projectile" "When the mob's arrow hits",
    plain "onProjectileHit" "Projectile" "When a projectile hits",
    plain "onProjectileLaunch" "Projectile" "When a projectile launches",
    valued "onTimer" "Timed" "Every N ticks" .number,
    valued "onSignal" "Signal" "When a named signal is received" .string,
    plain "onAnySkill" "Signal" "When any skill runs",
    plain "onInteract" "Player" "When a player right-clicks the mob",
    plain "onCreativePunch" "Player" "When a creative player punches the mob",
    plain "onSwing" "Player" "When the holder swings",
    plain "onBlock" "Player" "When the holder blocks",
    plain "onCrouch" "Player" "When the holder crouches",
    plain "onUncrouch" "Player" "When the holder stands up",
    plain "onJump" "Player" "When the holder jumps",
    plain "onUse" "Item" "When the item is used",
    plain "onConsume" "Item" "When the item is consumed",
    plain "onEquip" "Item" "When the item is equipped",
    plain "onUnequip" "Item" "When the item is unequipped",
    plain "onPickup" "Item" "When the item is picked up",
    plain "onDrop" "Item" "When the item is dropped",
    plain "onReady" "Item" "When the holder readies",
    plain "onTeleport" "Movement" "When the mob teleports",
    plain "onChangeWorld" "Movement" "When the mob changes world",
    plain "onMount" "Movement" "When the mob is mounted",
    plain "onDismount" "Movement" "When the mob is dismounted",
    plain "onBreed" "Animal" "When the mob breeds",
    plain "onTame" "Animal" "When the mob is tamed"
]

def overlay : Overlay :=
  ⟨mechanics, targeters, conditions, triggers⟩

end MobSkills.Standard

namespace MobSkills.Registry

/-- The registry of the standard catalog alone. -/
def standard : Registry :=
  ofOverlay Standard.overlay

end MobSkills.Registry
