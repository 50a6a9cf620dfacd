import Mathlib.Data.List.Forall2
import Mathlib.Data.List.Induction
import MobSkills.Proofs.Number.ReadBack
import MobSkills.Proofs.Validation.Export

/-!
# The account of a report

A report is put together from the checks of every definition and every line, from a look at
the names of each list, and from the listed cycles, which are handed to the first metaskill
of a name. Every issue can be traced back: its owner says which definition it is from, its
path which line, and an error about all the lines of a metaskill is about one cycle. So the
issues are counted out against the checks, and nothing is lost or said twice, also where
definitions share a name. That the listed cycles are all there are is shown with the search.
-/
namespace MobSkills

-- Zero is that of core, so that sums mean the same beside other libraries.
attribute [local instance (high)] Zero.ofOfNat0

theorem Issue.skillPath_inj {i j : Nat} : skillPath i = skillPath j ↔ i = j := by
  constructor
  · intro h
    have htext : toString i = toString j :=
      (String.append_right_inj _).1 ((String.append_left_inj _).1 h)
    have hdigits := congrArg (digitsValue ·.toList) htext
    simpa [digitsValue_toDigits] using hdigits
  · rintro rfl
    rfl

namespace Validation

/-! ## What the issues of a report are about -/

/-- The metaskill at which a cycle starts: the first one that has its first name. -/
def startOf? (p : Project) (cycle : List String) : Option Nat :=
  cycle.head?.bind (firstNamed? p)

/-- The listed cycles that start at a metaskill. -/
def cyclesAt (r : Registry) (p : Project) (start : Nat) : List (List String) :=
  (invocationCycles r p).filter (startOf? p · = some start)

/-- The issues whose path is that of a line. -/
def issuesAt (index : Nat) (issues : List Issue) : List Issue :=
  issues.filter (·.path = some (Issue.skillPath index))

/-- The errors about the lines of a metaskill as a whole. -/
def cycleErrors (issues : List Issue) : List Issue :=
  issues.filter fun i => i.path = none ∧ i.severity = .error ∧ i.field = "skills"

/-- The issues of a line, each with the place of the line before its field. -/
def placedIssues (r : Registry) (known : List String) (lines : List SkillLine) (index : Nat) :
    List Issue :=
  ofOption (fun line => (skillIssues r known line).map fun i =>
    { i with
      field := Issue.skillPath index ++ "." ++ i.field
      path := some (Issue.skillPath index) }) lines[index]?

/-- One error, if the line of a metaskill invokes the name of the metaskill. -/
def selfInvocationAt (r : Registry) (m : Metaskill) (index : Nat) : List Issue :=
  if m.skills[index]?.bind (invoked? r) = some m.name then
    [{ Issue.error (Issue.skillPath index) "Metaskill calls itself (circular reference)"
        "Remove the self-reference to prevent infinite recursion" with
        path := some (Issue.skillPath index) }]
  else []

/-- The name at a place is not empty, and it stands at an earlier place too. -/
def Repeats (names : List String) (index : Nat) (name : String) : Prop :=
  names[index]? = some name ∧ name ≠ "" ∧ ∃ earlier < index, names[earlier]? = some name

/-- One error for each name that repeats an earlier one, in the order of the places. -/
def ReportsRepeats (list : String) (names : List String) (issues : List Issue) : Prop :=
  ∃ places : List (Nat × String), places.Pairwise (·.1 < ·.1) ∧
    (∀ index name, (index, name) ∈ places ↔ Repeats names index name) ∧
    issues = places.map fun (index, name) =>
      .error (list ++ "[" ++ toString index ++ "].internal_name")
        ("Duplicate internal name '" ++ name ++ "'")
        "Internal names must be unique within a project"

/-- The report holds the findings of all checks and nothing else. -/
structure Accounts (r : Registry) (p : Project) (report : Report) : Prop where
  mobs : report.mobs = p.mobs.map fun m => (m.name, mobIssues r p.mobNames p.metaskillNames m)
  metaskills : report.metaskills = p.metaskills.mapIdx fun i m =>
    (m.name, metaskillIssues r p.metaskillNames m ++ (cyclesAt r p i).map cycleIssue)
  cycles : cycleErrors (report.all.flatMap (·.2)) = (invocationCycles r p).map cycleIssue
  repeats : ∃ mobs metaskills, report.project = mobs ++ metaskills ∧
    ReportsRepeats "mobs" p.mobNames mobs ∧
    ReportsRepeats "metaskills" p.metaskillNames metaskills
  mob_lines : List.Forall₂ (fun m result => ∀ index, issuesAt index result.2 =
    placedIssues r p.metaskillNames m.skills index) p.mobs report.mobs
  metaskill_lines : List.Forall₂ (fun m result => ∀ index, issuesAt index result.2 =
    placedIssues r p.metaskillNames m.skills index ++ selfInvocationAt r m index)
    p.metaskills report.metaskills
  canExport_iff : report.canExport = true ↔ report.count .error = 0

/-! ## Lists with places -/

section
variable {α β κ : Type}

/-- What stands at one place, where the results of a place are told by a key. -/
theorem filter_flatMap_zipIdx [DecidableEq κ] (key : Nat → κ) {tag : β → κ} {f : α × Nat → List β}
    (hkey : ∀ i j, key i = key j → i = j) (htag : ∀ a i, ∀ b ∈ f (a, i), tag b = key i)
    (l : List α) (index : Nat) :
    (l.zipIdx.flatMap f).filter (tag · = key index) =
      (l[index]?.map fun a => f (a, index)).getD [] := by
  induction l using List.reverseRecOn with
  | nil => simp
  | append_singleton l a ih =>
    have hlast : (f (a, l.length)).filter (tag · = key index) =
        if l.length = index then f (a, l.length) else [] := by
      split
      · rename_i heq
        refine List.filter_eq_self.2 fun b hb => ?_
        simp [htag a _ b hb, heq]
      · rename_i hne
        refine List.filter_eq_nil_iff.2 fun b hb => ?_
        simp only [htag a _ b hb, decide_eq_true_eq]
        exact fun h => hne (hkey _ _ h)
    rw [List.zipIdx_append, List.flatMap_append, List.filter_append, ih]
    simp only [List.zipIdx_singleton, List.flatMap_singleton, Nat.zero_add, hlast]
    rcases Nat.lt_trichotomy index l.length with hlt | rfl | hgt
    · rw [List.getElem?_append_left hlt, if_neg (by omega), List.append_nil]
    · simp
    · rw [List.getElem?_eq_none (by omega), List.getElem?_eq_none (by simp; omega), if_neg (by omega)]
      simp

theorem flatMap_range_length (l : List α) (f : Nat → List β) :
    (List.range l.length).flatMap f = l.zipIdx.flatMap fun e => f e.2 := by
  have hplaces : List.range l.length = l.zipIdx.map Prod.snd := by
    rw [List.zipIdx_map_snd, List.range_eq_range']
  rw [hplaces, List.flatMap_map]

theorem mapIdx_map (l : List α) (f : α → β) (g : Nat → β → κ) :
    (l.map f).mapIdx g = l.mapIdx fun i a => g i (f a) := by
  rw [List.mapIdx_eq_zipIdx_map, List.mapIdx_eq_zipIdx_map, List.zipIdx_map, List.map_map]
  rfl

theorem mapIdx_self (l : List α) : l.mapIdx (fun _ a => a) = l := by
  rw [List.mapIdx_eq_zipIdx_map]
  exact List.zipIdx_map_fst 0 l

theorem flatMap_ite (l : List α) (c : α → Bool) (f : α → β) :
    (l.flatMap fun a => if c a then [f a] else []) = (l.filter c).map f := by
  induction l with
  | nil => rfl
  | cons a l ih => cases hc : c a <;> simp [hc, ih]

theorem forall₂_mapIdx {R : α → β → Prop} {l : List α} {f : Nat → α → β}
    (h : ∀ i a, l[i]? = some a → R a (f i a)) : List.Forall₂ R l (l.mapIdx f) := by
  refine List.forall₂_iff_get.2 ⟨by simp, fun i hi _ => ?_⟩
  rw [List.get_eq_getElem, List.get_eq_getElem, List.getElem_mapIdx]
  exact h i _ (List.getElem?_eq_getElem hi)

end

/-! ## Issues of a definition itself -/

/-- The issues are about no line, and no error among them is about all the lines. -/
def Own (issues : List Issue) : Prop :=
  ∀ i ∈ issues, i.path = none ∧ (i.severity = .error → i.field ≠ "skills")

@[simp] theorem own_nil : Own [] := by
  intro i hi
  cases hi

@[simp] theorem own_append {a b : List Issue} : Own (a ++ b) ↔ Own a ∧ Own b :=
  List.forall_mem_append

@[simp] theorem own_ite {c : Prop} [Decidable c] {a b : List Issue} :
    Own (if c then a else b) ↔ (c → Own a) ∧ (¬ c → Own b) := by
  by_cases h : c <;> simp [h]

@[simp] theorem own_error {field message suggestion : String} :
    Own [.error field message suggestion] ↔ field ≠ "skills" := by
  simp [Own, Issue.error]

@[simp] theorem own_warning (field message suggestion : String) :
    Own [.warning field message suggestion] := by
  simp [Own, Issue.warning]

@[simp] theorem own_info (field message suggestion : String) :
    Own [.info field message suggestion] := by
  simp [Own, Issue.info]

theorem own_flatMap {α : Type} {l : List α} {f : α → List Issue} (h : ∀ a, Own (f a)) :
    Own (l.flatMap f) := by
  intro i hi
  obtain ⟨a, -, hi⟩ := List.mem_flatMap.1 hi
  exact h a i hi

theorem own_ofOption {α : Type} {check : α → List Issue} (h : ∀ a, Own (check a)) (part : Option α) :
    Own (ofOption check part) := by
  cases part with
  | none => exact own_nil
  | some a => exact h a

theorem own_nameIssues (kind name : String) : Own (nameIssues kind name) := by
  simp [nameIssues]

/-- A place in a list of names is not the list of skill lines. -/
theorem own_duplicateIssues (list : String) (names : List String) :
    Own (duplicateIssues list names) := by
  refine own_flatMap fun e => own_ite.2 ⟨fun _ => own_error.2 ?_, fun _ => own_nil⟩
  intro h
  have hplace : '[' ∈ (list ++ "[" ++ toString e.2 ++ "].internal_name").toList := by
    simp [String.toList_append]
  rw [h] at hplace
  exact absurd hplace (by decide)

theorem own_equipmentIssues (equipment : List String) : Own (equipmentIssues equipment) :=
  own_flatMap fun _ => by simp

/-- The issues of a mob are its own ones around those of its lines. -/
theorem exists_mobIssues (r : Registry) (knownMobs knownSkills : List String) (m : Mob) :
    ∃ before after, Own before ∧ Own after ∧ mobIssues r knownMobs knownSkills m =
      before ++ skillListIssues r knownSkills m.skills ++ after := by
  have hhealth : Own (ofOption mobHealthIssues m.health) :=
    own_ofOption (fun _ => by simp [mobHealthIssues]) _
  have hdamage : Own (ofOption damageIssues m.damage) :=
    own_ofOption (fun _ => by simp [damageIssues]) _
  have harmor : Own (ofOption armorIssues m.armor) :=
    own_ofOption (fun _ => by simp [armorIssues]) _
  have hmount : Own (ofOption (mountIssues m.name knownMobs) m.mount) :=
    own_ofOption (fun _ => by simp [mountIssues]) _
  have hbar : Own (ofOption (bossBarIssues m) m.bossBar) :=
    own_ofOption (fun _ => by simp [bossBarIssues]) _
  refine ⟨_, ofOption (bossBarIssues m) m.bossBar ++ equipmentIssues m.equipment, ?_, ?_,
    List.append_assoc ..⟩
  · simp [own_nameIssues, hhealth, hdamage, harmor, hmount]
  · exact own_append.2 ⟨hbar, own_equipmentIssues _⟩

/-- The issues of a metaskill are its own ones and then those of its lines. -/
theorem exists_metaskillIssues (r : Registry) (known : List String) (m : Metaskill) :
    ∃ before, Own before ∧ metaskillIssues r known m =
      before ++ (skillListIssues r known m.skills ++ selfInvocationIssues r m) := by
  have hcooldown : Own (ofOption cooldownIssues m.cooldown) :=
    own_ofOption (fun _ => by simp [cooldownIssues]) _
  refine ⟨_, ?_, List.append_assoc ..⟩
  simp [own_nameIssues, hcooldown]

/-! ## Issues of lines -/

theorem issuesAt_append (index : Nat) (a b : List Issue) :
    issuesAt index (a ++ b) = issuesAt index a ++ issuesAt index b :=
  List.filter_append ..

theorem issuesAt_own {issues : List Issue} (h : Own issues) (index : Nat) :
    issuesAt index issues = [] := by
  refine List.filter_eq_nil_iff.2 fun i hi => ?_
  simp [(h i hi).1]

/-- Lines that are checked with their places are told apart by the paths of their issues. -/
theorem issuesAt_zipIdx {f : SkillLine × Nat → List Issue}
    (hpath : ∀ line i, ∀ issue ∈ f (line, i), issue.path = some (Issue.skillPath i))
    (lines : List SkillLine) (index : Nat) :
    issuesAt index (lines.zipIdx.flatMap f) =
      (lines[index]?.map fun line => f (line, index)).getD [] :=
  filter_flatMap_zipIdx (fun i => some (Issue.skillPath i))
    (fun _ _ h => Issue.skillPath_inj.1 (Option.some.inj h)) hpath lines index

theorem path_placed {r : Registry} {known : List String} (line : SkillLine) (index : Nat) :
    ∀ i ∈ (skillIssues r known line).map (Issue.underSkill index),
      i.path = some (Issue.skillPath index) := by
  intro i hi
  obtain ⟨_, -, rfl⟩ := List.mem_map.1 hi
  rfl

theorem path_selfInvocation {r : Registry} {m : Metaskill} (line : SkillLine) (index : Nat) :
    ∀ i ∈ (if invoked? r line = some m.name then
        [{ Issue.error (Issue.skillPath index) "Metaskill calls itself (circular reference)"
            "Remove the self-reference to prevent infinite recursion" with
            path := some (Issue.skillPath index) }]
      else []), i.path = some (Issue.skillPath index) := by
  intro i hi
  split at hi
  · obtain rfl := List.mem_singleton.1 hi
    rfl
  · cases hi

theorem issuesAt_skillListIssues (r : Registry) (known : List String) (lines : List SkillLine)
    (index : Nat) :
    issuesAt index (skillListIssues r known lines) = placedIssues r known lines index :=
  issuesAt_zipIdx path_placed lines index

theorem issuesAt_selfInvocationIssues (r : Registry) (m : Metaskill) (index : Nat) :
    issuesAt index (selfInvocationIssues r m) = selfInvocationAt r m index := by
  rw [selfInvocationIssues, issuesAt_zipIdx path_selfInvocation, selfInvocationAt]
  cases m.skills[index]? <;> rfl

theorem path_of_mem_skillListIssues {r : Registry} {known : List String} {lines : List SkillLine} :
    ∀ i ∈ skillListIssues r known lines, ∃ index, i.path = some (Issue.skillPath index) := by
  intro i hi
  obtain ⟨⟨line, index⟩, -, hi⟩ := List.mem_flatMap.1 hi
  exact ⟨index, path_placed line index i hi⟩

theorem path_of_mem_selfInvocationIssues {r : Registry} {m : Metaskill} :
    ∀ i ∈ selfInvocationIssues r m, ∃ index, i.path = some (Issue.skillPath index) := by
  intro i hi
  obtain ⟨⟨line, index⟩, -, hi⟩ := List.mem_flatMap.1 hi
  exact ⟨index, path_selfInvocation line index i hi⟩

theorem issuesAt_cycles (index : Nat) (cycles : List (List String)) :
    issuesAt index (cycles.map cycleIssue) = [] := by
  refine List.filter_eq_nil_iff.2 fun i hi => ?_
  obtain ⟨cycle, -, rfl⟩ := List.mem_map.1 hi
  simp [cycleIssue, Issue.error]

/-! ## Where cycles start -/

/-- The last member of a chain is reached from one before it. -/
theorem exists_rel_last {α : Type} {rel : α → α → Prop} {l : List α} {last : α} (hl : l ≠ [])
    (h : List.IsChain rel (l ++ [last])) : ∃ a ∈ l, rel a last :=
  ⟨l.getLast hl, List.getLast_mem hl,
    (List.isChain_append.1 h).2.2 _ (List.getLast?_eq_some_getLast hl) _ rfl⟩

/-- A metaskill on a cycle is the first one of its name. -/
theorem firstNamed?_of_isChain {r : Registry} {p : Project} {first : Nat} {rest : List Nat}
    (h : List.IsChain (fun a b => b ∈ edges r p a) (first :: (rest ++ [first]))) :
    ∃ m, p.metaskills[first]? = some m ∧ firstNamed? p m.name = some first := by
  obtain ⟨i, -, hi⟩ := exists_rel_last (List.cons_ne_nil first rest) h
  obtain ⟨-, _, m, -, hm, -, hfirst⟩ := mem_edges.1 hi
  exact ⟨m, hm, firstNamed?_eq_some.2 ⟨m, hm, rfl, hfirst⟩⟩

/-- The cycles that the search finds from a start, by their names. -/
def cyclesThrough (r : Registry) (p : Project) (start : Nat) : List (List String) :=
  (cyclesFrom (edges r p) start
    (List.range' (start + 1) (p.metaskills.length - (start + 1))) [] start).map (cycleNames p)

theorem invocationCycles_eq (r : Registry) (p : Project) :
    invocationCycles r p = p.metaskills.zipIdx.flatMap fun e => cyclesThrough r p e.2 := by
  rw [invocationCycles, simpleCycles, List.map_flatMap, flatMap_range_length]
  rfl

theorem startOf?_of_mem {r : Registry} {p : Project} {start : Nat} {cycle : List String}
    (h : cycle ∈ cyclesThrough r p start) : startOf? p cycle = some start := by
  obtain ⟨indices, hindices, rfl⟩ := List.mem_map.1 h
  obtain ⟨tail, rfl, -, -, hchain⟩ :=
    (mem_cyclesFrom (nodup_later start).1 (nodup_later start).2).1 hindices
  obtain ⟨m, hm, hfirst⟩ := firstNamed?_of_isChain hchain
  have hname : p.metaskillNames[start]? = some m.name := by
    simp [Project.metaskillNames, hm]
  simp [startOf?, cycleNames, hname, hfirst]

theorem cyclesAt_eq (r : Registry) (p : Project) (start : Nat) :
    cyclesAt r p start = (p.metaskills[start]?.map fun _ => cyclesThrough r p start).getD [] := by
  rw [cyclesAt, invocationCycles_eq]
  exact filter_flatMap_zipIdx some (fun _ _ => Option.some.inj) (fun _ _ _ => startOf?_of_mem) _ _

/-- Every listed cycle starts at one metaskill, and they are listed by their starts. -/
theorem flatMap_cyclesAt (r : Registry) (p : Project) :
    (p.metaskills.zipIdx.flatMap fun e => cyclesAt r p e.2) = invocationCycles r p := by
  rw [invocationCycles_eq]
  refine List.flatMap_congr fun e he => ?_
  simp [cyclesAt_eq, List.mem_zipIdx_iff_getElem?.1 he]

/-! ## Cycles in the results -/

theorem cycleErrors_append (a b : List Issue) :
    cycleErrors (a ++ b) = cycleErrors a ++ cycleErrors b :=
  List.filter_append ..

theorem cycleErrors_flatMap {α : Type} (l : List α) (f : α → List Issue) :
    cycleErrors (l.flatMap f) = l.flatMap fun a => cycleErrors (f a) :=
  List.filter_flatMap

theorem cycleErrors_own {issues : List Issue} (h : Own issues) : cycleErrors issues = [] := by
  refine List.filter_eq_nil_iff.2 fun i hi => ?_
  simp only [decide_eq_true_eq, not_and]
  exact fun _ herror => (h i hi).2 herror

theorem cycleErrors_lines {issues : List Issue}
    (h : ∀ i ∈ issues, ∃ index, i.path = some (Issue.skillPath index)) : cycleErrors issues = [] := by
  refine List.filter_eq_nil_iff.2 fun i hi => ?_
  obtain ⟨index, hpath⟩ := h i hi
  simp [hpath]

theorem cycleErrors_mobIssues (r : Registry) (knownMobs knownSkills : List String) (m : Mob) :
    cycleErrors (mobIssues r knownMobs knownSkills m) = [] := by
  obtain ⟨before, after, hbefore, hafter, heq⟩ := exists_mobIssues r knownMobs knownSkills m
  rw [heq, cycleErrors_append, cycleErrors_append, cycleErrors_own hbefore, cycleErrors_own hafter,
    cycleErrors_lines path_of_mem_skillListIssues]
  rfl

theorem cycleErrors_metaskillIssues (r : Registry) (known : List String) (m : Metaskill) :
    cycleErrors (metaskillIssues r known m) = [] := by
  obtain ⟨before, hbefore, heq⟩ := exists_metaskillIssues r known m
  rw [heq, cycleErrors_append, cycleErrors_append, cycleErrors_own hbefore,
    cycleErrors_lines path_of_mem_skillListIssues,
    cycleErrors_lines path_of_mem_selfInvocationIssues]
  rfl

theorem cycleErrors_cycles (cycles : List (List String)) :
    cycleErrors (cycles.map cycleIssue) = cycles.map cycleIssue := by
  refine List.filter_eq_self.2 fun i hi => ?_
  obtain ⟨cycle, -, rfl⟩ := List.mem_map.1 hi
  rfl

/-- An issue goes to the first result of its name. -/
theorem addIssue_eq_mapIdx (name : String) (issue : Issue) (results : List (String × List Issue)) :
    addIssue name issue results = results.mapIdx fun i result =>
      (result.1, result.2 ++
        if (results.map Prod.fst).idxOf? name = some i then [issue] else []) := by
  induction results with
  | nil => rfl
  | cons result rest ih =>
    obtain ⟨owner, issues⟩ := result
    rw [addIssue, List.mapIdx_cons, List.map_cons, List.idxOf?_cons]
    by_cases howner : owner = name
    · simp [howner, mapIdx_self]
    · simp [howner, ih, Option.map_eq_some_iff]

theorem map_fst_addCycle (results : List (String × List Issue)) (cycle : List String) :
    (addCycle results cycle).map Prod.fst = results.map Prod.fst := by
  cases cycle with
  | nil => rfl
  | cons first rest => exact map_fst_addIssue _ _ _

/-- The results after all cycles have been handed out: each has those that start at it. -/
theorem foldl_addCycle (cycles : List (List String)) {names : List String}
    {results : List (String × List Issue)} (hnames : results.map Prod.fst = names) :
    cycles.foldl addCycle results = results.mapIdx fun i result =>
      (result.1, result.2 ++
        (cycles.filter (·.head?.bind names.idxOf? = some i)).map cycleIssue) := by
  induction cycles generalizing results with
  | nil => simp [mapIdx_self]
  | cons cycle cycles ih =>
    have hstep : addCycle results cycle = results.mapIdx fun i result =>
        (result.1, result.2 ++ if cycle.head?.bind names.idxOf? = some i then [cycleIssue cycle]
          else []) := by
      cases cycle with
      | nil => simp [addCycle, mapIdx_self]
      | cons first rest => rw [addCycle, addIssue_eq_mapIdx, hnames]; rfl
    rw [List.foldl_cons, ih ((map_fst_addCycle results cycle).trans hnames), hstep,
      List.mapIdx_mapIdx]
    congr 1
    funext i result
    by_cases hstart : cycle.head?.bind names.idxOf? = some i <;> simp [hstart]

theorem metaskills_projectReport (r : Registry) (p : Project) :
    (projectReport r p).metaskills = p.metaskills.mapIdx fun i m =>
      (m.name, metaskillIssues r p.metaskillNames m ++ (cyclesAt r p i).map cycleIssue) := by
  have hnames : (p.metaskills.map fun m => (m.name, metaskillIssues r p.metaskillNames m)).map
      Prod.fst = p.metaskillNames := by
    simp [Project.metaskillNames]
  rw [projectReport, foldl_addCycle _ hnames, mapIdx_map]
  rfl

/-! ## The report -/

/-- Whether a name with its place gets an error. -/
def isRepeat (names : List String) (e : String × Nat) : Bool :=
  !e.1.isEmpty && (names.take e.2).contains e.1

/-- The names that stand earlier in the list too are those with an error. -/
theorem reportsRepeats_duplicateIssues (list : String) (names : List String) :
    ReportsRepeats list names (duplicateIssues list names) := by
  have hsorted : names.zipIdx.Pairwise (·.2 < ·.2) := by
    rw [← List.pairwise_map, List.zipIdx_map_snd]
    exact List.pairwise_lt_range'
  refine ⟨(names.zipIdx.filter (isRepeat names)).map Prod.swap, ?_, fun index name => ?_, ?_⟩
  · exact List.pairwise_map.2 (hsorted.filter _)
  · have hearlier : isRepeat names (name, index) = true ↔
        name ≠ "" ∧ ∃ earlier < index, names[earlier]? = some name := by
      simp [isRepeat, List.mem_iff_getElem?, List.getElem?_take]
    rw [List.mem_map_swap, List.mem_filter, List.mk_mem_zipIdx_iff_getElem?, hearlier]
    rfl
  · rw [duplicateIssues, List.map_map]
    exact flatMap_ite _ (isRepeat names) _

theorem isValid_iff (issues : List Issue) :
    isValid issues = true ↔ countSeverity .error issues = 0 := by
  rw [countSeverity, List.countP_eq_zero, isValid, List.all_eq_true]
  simp

theorem canExport_iff (report : Report) :
    report.canExport = true ↔ report.count .error = 0 := by
  have hall : report.canExport = report.all.all (isValid ·.2) := by
    simp [Report.canExport, Report.all, Function.comp_def, Bool.and_assoc]
  rw [hall, Report.count, List.sum_eq_zero_iff_forall_eq_nat, List.forall_mem_map,
    List.all_eq_true]
  exact forall₂_congr fun entry _ => isValid_iff entry.2

/-- The cycles of a report are the listed ones, each at the metaskill where it starts. -/
theorem cycleErrors_projectReport (r : Registry) (p : Project) :
    cycleErrors ((projectReport r p).all.flatMap (·.2)) =
      (invocationCycles r p).map cycleIssue := by
  have hproject : cycleErrors (projectReport r p).project = [] :=
    cycleErrors_own (own_append.2 ⟨own_duplicateIssues _ _, own_duplicateIssues _ _⟩)
  have hmobs : cycleErrors ((projectReport r p).mobs.flatMap (·.2)) = [] := by
    rw [projectReport, List.flatMap_map, cycleErrors_flatMap]
    exact List.flatMap_eq_nil_iff.2 fun m _ => cycleErrors_mobIssues r _ _ m
  have hmetaskills : cycleErrors ((projectReport r p).metaskills.flatMap (·.2)) =
      p.metaskills.zipIdx.flatMap fun e => (cyclesAt r p e.2).map cycleIssue := by
    rw [metaskills_projectReport, List.mapIdx_eq_zipIdx_map, List.flatMap_map, cycleErrors_flatMap]
    refine List.flatMap_congr fun e _ => ?_
    rw [cycleErrors_append, cycleErrors_metaskillIssues, cycleErrors_cycles]
    rfl
  have hall : (projectReport r p).all.flatMap (·.2) = (projectReport r p).project ++
      (projectReport r p).mobs.flatMap (·.2) ++ (projectReport r p).metaskills.flatMap (·.2) := by
    simp [Report.all, List.flatMap_map]
  rw [hall, cycleErrors_append, cycleErrors_append, hproject, hmobs, hmetaskills, List.nil_append,
    List.nil_append, ← flatMap_cyclesAt, List.map_flatMap]

/-- A cycle is said at the first metaskill of a name, and not again at the second. -/
example :
    let echo (name next : String) : Metaskill :=
      { name, skills := [{ mechanic := "skill", parameters := some ⟨[("s", .text next)]⟩ }] }
    (projectReport .empty { metaskills := [echo "A" "B", echo "B" "A", echo "A" "B"] }).metaskills.map
      (cycleErrors ·.2) = [[cycleIssue ["A", "B", "A"]], [], []] := by
  decide +kernel

end Validation
end MobSkills
