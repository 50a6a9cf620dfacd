import MobSkills.Json.Definition
import MobSkills.Proofs.Json.Number
import MobSkills.Proofs.Json.Record
import MobSkills.Proofs.Line.GroupText

/-!
# What is stored is got back

A value, a group of parameters, a skill line, a mob, a metaskill and a project are the same
again once they are written as JSON and decoded: a value keeps its kind whatever it looks
like, a group keeps its order, and an empty group stays apart from none. Two things cannot be
written, a key that is given twice and a real that is not finite. How well the numbers of the
finite reals are read is up to the reader of numbers, so that much is asked of it, and of the
reals in question only.
-/
namespace MobSkills

/-! ## What can be stored -/

section
variable (R : Binary64 → Prop)

/-- A value that is no real but one of those meant. -/
def Value.Storable : Value → Prop
  | .real x => R x
  | .boolean _ | .integer _ | .text _ | .list _ => True

/-- Keys that differ, and values that can be stored. -/
structure Params.Storable (p : Params) : Prop where
  distinct : p.keys.Nodup
  values : ∀ e ∈ p.entries, e.2.Storable R

def Targeter.Storable (t : Targeter) : Prop :=
  ∀ p ∈ t.options, p.Storable R

structure SkillLine.Storable (line : SkillLine) : Prop where
  parameters : ∀ p ∈ line.parameters, p.Storable R
  targeter : ∀ t ∈ line.targeter, t.Storable R
  chance : ∀ x ∈ line.chance, R x

structure Mob.Storable (m : Mob) : Prop where
  health : ∀ x ∈ m.health, R x
  damage : ∀ x ∈ m.damage, R x
  armor : ∀ x ∈ m.armor, R x
  skills : ∀ line ∈ m.skills, line.Storable R

structure Metaskill.Storable (m : Metaskill) : Prop where
  cooldown : ∀ x ∈ m.cooldown, R x
  skills : ∀ line ∈ m.skills, line.Storable R

structure Project.Storable (p : Project) : Prop where
  mobs : ∀ m ∈ p.mobs, m.Storable R
  metaskills : ∀ m ∈ p.metaskills, m.Storable R

end

/-- The reader gets each of the reals back from the number that is written for it. -/
def JsonNumber.ReadsBack (real? : JsonNumber → Option Binary64) (R : Binary64 → Prop) : Prop :=
  ∀ x, R x → ∃ negative m, x = .finite negative m ∧ real? (.ofFinite negative m) = some x

theorem JsonNumber.readsBack_toNearest? : ReadsBack toNearest? fun x => x.isFinite = true := by
  intro x hx
  cases x with
  | nan => cases hx
  | infinity negative => cases hx
  | finite negative m => exact ⟨negative, m, rfl, toNearest?_ofFinite negative m⟩

namespace Json

/-! ## Everything that is written has a text -/

theorem wellFormed_ofReal (x : Binary64) : (ofReal x).WellFormed := by
  cases x with
  | nan => exact .null
  | infinity negative => exact .null
  | finite negative m => exact .number (JsonNumber.wellFormed_ofFinite negative m)

theorem wellFormed_ofOption {α : Type} {encode : α → Json} (h : ∀ a, (encode a).WellFormed)
    (part : Option α) : (ofOption encode part).WellFormed := by
  cases part with
  | none => exact .null
  | some a => exact h a

theorem wellFormed_map {α : Type} {encode : α → Json} (h : ∀ a, (encode a).WellFormed)
    (as : List α) : WellFormed (.array (as.map encode)) := by
  apply WellFormed.array
  intro j hj
  obtain ⟨a, -, rfl⟩ := List.mem_map.1 hj
  exact h a

theorem wellFormed_ofStrings (items : List String) : (ofStrings items).WellFormed :=
  wellFormed_map .string items

theorem wellFormed_ofEntries {entries : List (String × Json)}
    (h : entries.Forall fun e => e.2.WellFormed) : (ofEntries entries).WellFormed :=
  .object (List.forall_iff_forall_mem.1 h)

theorem wellFormed_present {α : Type} {encode : α → Json} (h : ∀ a, (encode a).WellFormed)
    (name : String) (part : Option α) : ∀ e ∈ present name encode part, e.2.WellFormed := by
  intro e he
  obtain ⟨a, -, rfl⟩ := Option.map_eq_some_iff.1 (Option.mem_toList.1 he)
  exact h a

theorem wellFormed_ofValue (v : Value) : (ofValue v).WellFormed := by
  cases v with
  | boolean b => exact .boolean b
  | integer i => exact .number (JsonNumber.wellFormed_ofInt i.toInt)
  | real x => exact wellFormed_ofReal x
  | text s => exact .string s
  | list items => exact wellFormed_ofStrings items

theorem wellFormed_ofParams (p : Params) : (ofParams p).WellFormed := by
  apply WellFormed.object
  intro e he
  obtain ⟨⟨key, v⟩, -, rfl⟩ := List.mem_map.1 he
  exact wellFormed_ofValue v

theorem wellFormed_ofTargeter (t : Targeter) : (ofTargeter t).WellFormed :=
  .object (List.forall_mem_cons.2
    ⟨.string t.kind, wellFormed_present wellFormed_ofParams "options" t.options⟩)

theorem wellFormed_ofTrigger (t : Trigger) : (ofTrigger t).WellFormed :=
  .object (List.forall_mem_cons.2 ⟨.string t.name, wellFormed_present .string "value" t.value⟩)

theorem wellFormed_ofCondition (c : Condition) : (ofCondition c).WellFormed :=
  .object (List.forall_mem_cons.2 ⟨.boolean c.negated, List.forall_mem_cons.2
    ⟨.string c.name, wellFormed_present .string "params" c.group⟩⟩)

theorem wellFormed_ofHealthGate (h : HealthGate) : (ofHealthGate h).WellFormed :=
  wellFormed_ofEntries ⟨.string _, .string h.value⟩

/-- Conditions are a part that is written only where there are any. -/
theorem present_conditions (conditions : List Condition) :
    (if conditions.isEmpty then []
        else [("inline_conditions", Json.array (conditions.map ofCondition))]) =
      present "inline_conditions" (fun cs => .array (cs.map ofCondition))
        (if conditions.isEmpty then none else some conditions) := by
  split <;> rfl

theorem wellFormed_ofSkillLine (line : SkillLine) : (ofSkillLine line).WellFormed := by
  rw [ofSkillLine, present_conditions]
  apply WellFormed.object
  simp only [List.forall_mem_append, List.forall_mem_cons]
  exact ⟨⟨⟨⟨⟨⟨.string line.mechanic, wellFormed_present wellFormed_ofParams _ _⟩,
    wellFormed_present wellFormed_ofTargeter _ _⟩, wellFormed_present wellFormed_ofTrigger _ _⟩,
    wellFormed_present (wellFormed_map wellFormed_ofCondition) _ _⟩,
    wellFormed_present wellFormed_ofHealthGate _ _⟩, wellFormed_present wellFormed_ofReal _ _⟩

theorem wellFormed_ofBossBar (bar : BossBar) : (ofBossBar bar).WellFormed :=
  wellFormed_ofEntries ⟨.boolean bar.enabled, wellFormed_ofOption .string _,
    wellFormed_ofOption .string _, wellFormed_ofOption .string _⟩

theorem wellFormed_ofMob (m : Mob) : (ofMob m).WellFormed := by
  have htext : ∀ part : Option String, (ofOption ofString part).WellFormed :=
    wellFormed_ofOption .string
  have hreal : ∀ part : Option Binary64, (ofOption ofReal part).WellFormed :=
    wellFormed_ofOption wellFormed_ofReal
  exact wellFormed_ofEntries ⟨.string m.name, .string m.entityType, htext _, hreal _, hreal _,
    hreal _, htext _, htext _, wellFormed_ofOption wellFormed_ofBossBar _, wellFormed_ofStrings _,
    wellFormed_map wellFormed_ofSkillLine _⟩

theorem wellFormed_ofMetaskill (m : Metaskill) : (ofMetaskill m).WellFormed :=
  wellFormed_ofEntries ⟨.string m.name, wellFormed_ofOption wellFormed_ofReal _,
    wellFormed_ofStrings _, wellFormed_ofStrings _, wellFormed_ofStrings _,
    wellFormed_map wellFormed_ofSkillLine _⟩

theorem wellFormed_ofProject (p : Project) : (ofProject p).WellFormed :=
  wellFormed_ofEntries ⟨wellFormed_map wellFormed_ofMob _, wellFormed_map wellFormed_ofMetaskill _⟩

/-! ## Decoding what was encoded -/

theorem toTrigger?_ofTrigger (t : Trigger) : toTrigger? (ofTrigger t) = some t := by
  have hfields : fields? ["name", "value"] (ofTrigger t) =
      some [some (ofString t.name), t.value.map ofString] := by
    rw [ofTrigger, fields?_ofEntries]
    · simp [List.lookup_cons, lookup_present]
    · exact (sublist_present ..).cons_cons _
    · decide
  simp [toTrigger?, hfields, optional_map_ofString]

theorem toCondition?_ofCondition (c : Condition) : toCondition? (ofCondition c) = some c := by
  have hfields : fields? ["negated", "name", "params"] (ofCondition c) =
      some [some (.boolean c.negated), some (ofString c.name), c.group.map ofString] := by
    rw [ofCondition, fields?_ofEntries]
    · simp [List.lookup_cons, lookup_present]
    · exact ((sublist_present ..).cons_cons _).cons_cons _
    · decide
  simp [toCondition?, hfields, optional_map_ofString, withDefault, toBool?]

theorem toHealthGate?_ofHealthGate (h : HealthGate) : toHealthGate? (ofHealthGate h) = some h := by
  have hfields : fields? ["operator", "value"] (ofHealthGate h) =
      some [some (ofString (String.singleton h.comparison.symbol)), some (ofString h.value)] :=
    fields?_ofAll rfl (by decide)
  have hcomparison : toComparison? (ofString (String.singleton h.comparison.symbol)) =
      some h.comparison := by
    simp [toComparison?, ofString, comparisonOf?, Comparison.ofSymbol?_symbol]
  simp [toHealthGate?, hfields, hcomparison]

theorem toBossBar?_ofBossBar (bar : BossBar) : toBossBar? (ofBossBar bar) = some bar := by
  have hfields : fields? ["enabled", "title", "color", "style"] (ofBossBar bar) =
      some [some (.boolean bar.enabled), some (ofOption ofString bar.title),
        some (ofOption ofString bar.color), some (ofOption ofString bar.style)] :=
    fields?_ofAll rfl (by decide)
  simp only [toBossBar?, hfields, withDefault, toBool?, optional_ofOption_ofString,
    Option.bind_eq_bind, Option.bind_some]
  rfl

theorem withDefault_conditions (conditions : List Condition) :
    withDefault [] (toList? toCondition?)
        ((if conditions.isEmpty then none else some conditions).map fun cs =>
          .array (cs.map ofCondition)) = some conditions := by
  split
  · rename_i hempty
    rw [List.isEmpty_iff.1 hempty]
    rfl
  · exact toList?_map fun c _ => toCondition?_ofCondition c

section
variable {real? : JsonNumber → Option Binary64} {R : Binary64 → Prop}

/-- A real that is decoded from its number is decoded by the reader of numbers. -/
theorem readsBack_iff : JsonNumber.ReadsBack real? R ↔
    ∀ x, R x → toRealWith? real? (ofReal x) = some x := by
  constructor
  · intro h x hx
    obtain ⟨negative, m, rfl, hread⟩ := h x hx
    simp [ofReal, toRealWith?, JsonNumber.toInt64?_ofFinite, hread]
  · intro h x hx
    have hread := h x hx
    cases x with
    | nan => cases hread
    | infinity negative => cases hread
    | finite negative m =>
      refine ⟨negative, m, rfl, ?_⟩
      simpa [ofReal, toRealWith?, JsonNumber.toInt64?_ofFinite] using hread

variable (hR : JsonNumber.ReadsBack real? R)
include hR

theorem toValueWith?_ofValue {v : Value} (hv : v.Storable R) :
    toValueWith? real? (ofValue v) = some v := by
  cases v with
  | boolean b => rfl
  | integer i => simp [ofValue, ofInt, toValueWith?, JsonNumber.toInt64?_ofInt]
  | real x =>
    obtain ⟨negative, m, rfl, hread⟩ := hR x hv
    simp [ofValue, ofReal, toValueWith?, JsonNumber.toInt64?_ofFinite, hread]
  | text s => rfl
  | list items =>
    have hitems : (items.map ofString).mapM toText? = some items := toTexts?_ofStrings items
    simp [ofValue, ofStrings, toValueWith?, hitems]

theorem toParamsWith?_ofParams {p : Params} (hp : p.Storable R) :
    toParamsWith? real? (ofParams p) = some p := by
  -- The keys differ, so that no entry replaces another one when they are collected.
  rw [ofParams, ofEntries, toParamsWith?, List.map_map, mapM_map_eq_some, Option.map_some,
    Params.ofList_entries hp.distinct]
  intro e he
  simp [toParameterWith?, toValueWith?_ofValue hR (hp.values e he)]

theorem toTargeterWith?_ofTargeter {t : Targeter} (ht : t.Storable R) :
    toTargeterWith? real? (ofTargeter t) = some t := by
  have hfields : fields? ["type", "options"] (ofTargeter t) =
      some [some (ofString t.kind), t.options.map ofParams] := by
    rw [ofTargeter, fields?_ofEntries]
    · simp [List.lookup_cons, lookup_present]
    · exact (sublist_present ..).cons_cons _
    · decide
  have hoptions := optional_map rfl fun p hp => toParamsWith?_ofParams hR (ht p hp)
  simp [toTargeterWith?, hfields, hoptions]

theorem toSkillLineWith?_ofSkillLine {line : SkillLine} (hl : line.Storable R) :
    toSkillLineWith? real? (ofSkillLine line) = some line := by
  have hfields : fields? ["mechanic", "parameters", "targeter", "trigger", "inline_conditions",
      "health_modifier", "chance"] (ofSkillLine line) =
      some [some (ofString line.mechanic), line.parameters.map ofParams,
        line.targeter.map ofTargeter, line.trigger.map ofTrigger,
        (if line.conditions.isEmpty then none else some line.conditions).map fun cs =>
          .array (cs.map ofCondition),
        line.health.map ofHealthGate, line.chance.map ofReal] := by
    rw [ofSkillLine, present_conditions, fields?_ofEntries]
    · simp [List.lookup_cons, List.lookup_append, lookup_present]
    · simp only [List.map_cons, List.map_append, List.cons_append]
      exact ((((((sublist_present ..).append (sublist_present ..)).append
        (sublist_present ..)).append (sublist_present ..)).append (sublist_present ..)).append
        (sublist_present ..)).cons_cons _
    · decide
  have hparameters := optional_map rfl fun p hp => toParamsWith?_ofParams hR (hl.parameters p hp)
  have htargeter := optional_map rfl fun t ht => toTargeterWith?_ofTargeter hR (hl.targeter t ht)
  have htrigger : optional toTrigger? (line.trigger.map ofTrigger) = some line.trigger :=
    optional_map rfl fun t _ => toTrigger?_ofTrigger t
  have hhealth : optional toHealthGate? (line.health.map ofHealthGate) = some line.health :=
    optional_map rfl fun h _ => toHealthGate?_ofHealthGate h
  have hchance := optional_map rfl fun x hx => readsBack_iff.1 hR x (hl.chance x hx)
  simp only [toSkillLineWith?, hfields, hparameters, htargeter, htrigger, withDefault_conditions,
    hhealth, hchance, Option.bind_eq_bind, Option.bind_some, toText?_ofString]
  rfl

theorem toMobWith?_ofMob {m : Mob} (hm : m.Storable R) :
    toMobWith? real? (ofMob m) = some m := by
  have hfields : fields? ["internal_name", "type", "display", "health", "damage", "armor",
      "faction", "mount", "boss_bar", "equipment", "skills"] (ofMob m) =
      some [some (ofString m.name), some (ofString m.entityType),
        some (ofOption ofString m.display), some (ofOption ofReal m.health),
        some (ofOption ofReal m.damage), some (ofOption ofReal m.armor),
        some (ofOption ofString m.faction), some (ofOption ofString m.mount),
        some (ofOption ofBossBar m.bossBar), some (ofStrings m.equipment),
        some (.array (m.skills.map ofSkillLine))] :=
    fields?_ofAll rfl (by decide)
  have hreal {part : Option Binary64} (h : ∀ x ∈ part, R x) :
      optional (toRealWith? real?) (some (ofOption ofReal part)) = some part :=
    optional_ofOption rfl fun x hx => readsBack_iff.1 hR x (h x hx)
  have hbar : optional toBossBar? (some (ofOption ofBossBar m.bossBar)) = some m.bossBar :=
    optional_ofOption rfl fun bar _ => toBossBar?_ofBossBar bar
  have hskills : toList? (toSkillLineWith? real?) (.array (m.skills.map ofSkillLine)) =
      some m.skills :=
    toList?_map fun line hline => toSkillLineWith?_ofSkillLine hR (hm.skills line hline)
  simp only [toMobWith?, hfields, withDefault, toText?_ofString, optional_ofOption_ofString,
    hreal hm.health, hreal hm.damage, hreal hm.armor, hbar, toTexts?_ofStrings, hskills,
    Option.bind_eq_bind, Option.bind_some]
  rfl

theorem toMetaskillWith?_ofMetaskill {m : Metaskill} (hm : m.Storable R) :
    toMetaskillWith? real? (ofMetaskill m) = some m := by
  have hfields : fields? ["internal_name", "cooldown", "conditions", "target_conditions",
      "trigger_conditions", "skills"] (ofMetaskill m) =
      some [some (ofString m.name), some (ofOption ofReal m.cooldown),
        some (ofStrings m.conditions), some (ofStrings m.targetConditions),
        some (ofStrings m.triggerConditions), some (.array (m.skills.map ofSkillLine))] :=
    fields?_ofAll rfl (by decide)
  have hcooldown : optional (toRealWith? real?) (some (ofOption ofReal m.cooldown)) =
      some m.cooldown :=
    optional_ofOption rfl fun x hx => readsBack_iff.1 hR x (hm.cooldown x hx)
  have hskills : toList? (toSkillLineWith? real?) (.array (m.skills.map ofSkillLine)) =
      some m.skills :=
    toList?_map fun line hline => toSkillLineWith?_ofSkillLine hR (hm.skills line hline)
  simp only [toMetaskillWith?, hfields, withDefault, toText?_ofString, hcooldown,
    toTexts?_ofStrings, hskills, Option.bind_eq_bind, Option.bind_some]
  rfl

theorem toProjectWith?_ofProject {p : Project} (hp : p.Storable R) :
    toProjectWith? real? (ofProject p) = some p := by
  have hfields : fields? ["mobs", "metaskills"] (ofProject p) =
      some [some (.array (p.mobs.map ofMob)), some (.array (p.metaskills.map ofMetaskill))] :=
    fields?_ofAll rfl (by decide)
  have hmobs : toList? (toMobWith? real?) (.array (p.mobs.map ofMob)) = some p.mobs :=
    toList?_map fun m hm => toMobWith?_ofMob hR (hp.mobs m hm)
  have hmetaskills : toList? (toMetaskillWith? real?) (.array (p.metaskills.map ofMetaskill)) =
      some p.metaskills :=
    toList?_map fun m hm => toMetaskillWith?_ofMetaskill hR (hp.metaskills m hm)
  simp only [toProjectWith?, hfields, withDefault, hmobs, hmetaskills, Option.bind_eq_bind,
    Option.bind_some]
  rfl

end

/-! ## Through the text -/

/-- What is decoded from the text of a value. -/
def reread {α : Type} (layout : Layout) (decode : Json → Option α) (j : Json) : Option α :=
  (parse? (String.ofList (write layout 0 j))).bind decode

theorem reread_eq {α : Type} {layout : Layout} (hl : layout.IsBlank) (decode : Json → Option α)
    {j : Json} (h : j.WellFormed) : reread layout decode j = decode j := by
  rw [reread, parse?_write hl h, Option.bind_some]

/-- Whatever has keys that differ and finite reals only is the same once it is written and
decoded, if the reader of numbers gets finite reals back. -/
theorem reread_finite {real? : JsonNumber → Option Binary64}
    (hreal : JsonNumber.ReadsBack real? fun x => x.isFinite = true)
    {layout : Layout} (hl : layout.IsBlank) :
    (∀ v : Value, v.Storable (fun x => x.isFinite = true) →
      reread layout (toValueWith? real?) (ofValue v) = some v) ∧
    (∀ p : Params, p.Storable (fun x => x.isFinite = true) →
      reread layout (toParamsWith? real?) (ofParams p) = some p) ∧
    (∀ line : SkillLine, line.Storable (fun x => x.isFinite = true) →
      reread layout (toSkillLineWith? real?) (ofSkillLine line) = some line) ∧
    (∀ m : Mob, m.Storable (fun x => x.isFinite = true) →
      reread layout (toMobWith? real?) (ofMob m) = some m) ∧
    (∀ m : Metaskill, m.Storable (fun x => x.isFinite = true) →
      reread layout (toMetaskillWith? real?) (ofMetaskill m) = some m) ∧
    (∀ p : Project, p.Storable (fun x => x.isFinite = true) →
      reread layout (toProjectWith? real?) (ofProject p) = some p) := by
  refine ⟨fun v hv => ?_, fun p hp => ?_, fun line hline => ?_, fun m hm => ?_, fun m hm => ?_,
    fun p hp => ?_⟩
  · rw [reread_eq hl _ (wellFormed_ofValue v), toValueWith?_ofValue hreal hv]
  · rw [reread_eq hl _ (wellFormed_ofParams p), toParamsWith?_ofParams hreal hp]
  · rw [reread_eq hl _ (wellFormed_ofSkillLine line), toSkillLineWith?_ofSkillLine hreal hline]
  · rw [reread_eq hl _ (wellFormed_ofMob m), toMobWith?_ofMob hreal hm]
  · rw [reread_eq hl _ (wellFormed_ofMetaskill m), toMetaskillWith?_ofMetaskill hreal hm]
  · rw [reread_eq hl _ (wellFormed_ofProject p), toProjectWith?_ofProject hreal hp]

/-- Texts that look like other values, an empty list, an empty group, and reals. -/
def lookalikes : Project where
  mobs := [{
    name := "Boar"
    health := some (.ofInt 40)
    skills := [{
      mechanic := "damage"
      parameters := some ⟨[("tags", .list []), ("amount", .text "10"), ("b", .integer 10),
        ("a", .real (.ofInt 10)), ("silent", .text "true")]⟩
      targeter := some ⟨"Self", some ⟨[]⟩⟩
      chance := some (Decimal.toBinary64 false ⟨5, -1⟩) }] }]

theorem storable_lookalikes {R : Binary64 → Prop} (hhealth : R (.ofInt 40))
    (hamount : R (.ofInt 10)) (hchance : R (Decimal.toBinary64 false ⟨5, -1⟩)) :
    lookalikes.Storable R := by
  refine ⟨fun m hm => ?_, fun m hm => (nomatch hm)⟩
  obtain rfl := List.mem_singleton.1 hm
  refine ⟨fun x hx => ?_, fun x hx => (nomatch hx), fun x hx => (nomatch hx),
    fun line hline => ?_⟩
  · obtain rfl := Option.some.inj hx
    exact hhealth
  · obtain rfl := List.mem_singleton.1 hline
    refine ⟨fun p hp => ?_, fun t ht => ?_, fun x hx => ?_⟩
    · obtain rfl := Option.some.inj hp
      refine ⟨by decide, ?_⟩
      simpa [Value.Storable] using hamount
    · obtain rfl := Option.some.inj ht
      intro p hp
      obtain rfl := Option.some.inj hp
      exact ⟨List.nodup_nil, fun e he => (nomatch he)⟩
    · obtain rfl := Option.some.inj hx
      exact hchance

/-- The running reader gets the reals of this project back as well, and the layout in which
answers are printed is as good as the one without blanks. -/
theorem reread_finite_lookalikes :
    JsonNumber.ReadsBack JsonNumber.toNearest? (fun x => x.isFinite = true) ∧
      compactLayout.IsBlank ∧ indentedLayout.IsBlank ∧
      lookalikes.Storable (fun x => x.isFinite = true) ∧
      reread compactLayout (toProjectWith? JsonNumber.toNearest?) (ofProject lookalikes) =
        some lookalikes ∧
      reread indentedLayout (toProjectWith? JsonNumber.toNearest?) (ofProject lookalikes) =
        some lookalikes ∧
      reread compactLayout toProject? (ofProject lookalikes) = some lookalikes := by
  have hstorable := storable_lookalikes (R := fun x => x.isFinite = true)
    (by decide +kernel) (by decide +kernel) (by decide +kernel)
  have hrunning : JsonNumber.ReadsBack JsonNumber.toBinary64? fun x =>
      x ∈ [.ofInt 40, .ofInt 10, Decimal.toBinary64 false ⟨5, -1⟩] :=
    readsBack_iff.2 (by decide +kernel)
  have hreread {layout : Layout} (hl : layout.IsBlank) :
      reread layout (toProjectWith? JsonNumber.toNearest?) (ofProject lookalikes) =
        some lookalikes :=
    (reread_finite JsonNumber.readsBack_toNearest? hl).2.2.2.2.2 lookalikes hstorable
  refine ⟨JsonNumber.readsBack_toNearest?, isBlank_compactLayout, isBlank_indentedLayout,
    hstorable, hreread isBlank_compactLayout, hreread isBlank_indentedLayout, ?_⟩
  rw [reread_eq isBlank_compactLayout _ (wellFormed_ofProject lookalikes)]
  exact toProjectWith?_ofProject hrunning
    (storable_lookalikes (by simp) (by simp) (by simp))

end Json
end MobSkills
