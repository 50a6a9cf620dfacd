import Mathlib.Data.Fintype.Pigeonhole
import Mathlib.Data.Set.Finite.List
import Mathlib.Order.Monotone.Basic
import MobSkills.Proofs.Validation.Cycles
import MobSkills.Validation.Project

/-!
# Projects that may be exported

What the silence of a report means. Each check is first read for what it leaves when it
finds no error; the report collects them, and a listed cycle cannot stay silent, since
its first name is the name of a metaskill. That invocations end then follows from the
list of simple cycles being complete. Only the names and the invocations are described
here, not the other fields that are checked.
-/
namespace MobSkills

/-- Every skill line of the project. -/
def Project.lines (p : Project) : List SkillLine :=
  p.mobs.flatMap (·.skills) ++ p.metaskills.flatMap (·.skills)

namespace Validation

/-- Of two metaskills of the project, the first has a line that invokes the second. -/
def HasLineInvoking (r : Registry) (p : Project) (a b : Metaskill) : Prop :=
  a ∈ p.metaskills ∧ b ∈ p.metaskills ∧ ∃ line ∈ a.skills, invoked? r line = some b.name

/-- The second line is one of the metaskill that the first one invokes. -/
def Triggers (r : Registry) (p : Project) (line next : SkillLine) : Prop :=
  ∃ m ∈ p.metaskills, invoked? r line = some m.name ∧ next ∈ m.skills

/-- What holds of the names and the invocations of a project without errors. -/
structure Sound (r : Registry) (p : Project) : Prop where
  mobNames_nodup : p.mobNames.Nodup
  metaskillNames_nodup : p.metaskillNames.Nodup
  not_blank : ∀ name ∈ p.mobNames ++ p.metaskillNames, Text.allBlank name = false
  invoked_mem : ∀ line ∈ p.lines, ∀ name, invoked? r line = some name → name ∈ p.metaskillNames
  acyclic : ∀ m, ¬ Relation.TransGen (HasLineInvoking r p) m m
  chains_end : ∀ chain : Nat → SkillLine, ∃ n, ¬ Triggers r p (chain n) (chain (n + 1))

/-! ## Lists of issues without errors -/

theorem isValid_append (s t : List Issue) : isValid (s ++ t) = (isValid s && isValid t) :=
  List.all_append

theorem isValid_flatMap {α : Type} {l : List α} {f : α → List Issue} :
    isValid (l.flatMap f) = true ↔ ∀ a ∈ l, isValid (f a) = true := by
  simp [isValid]

/-- Where items are checked with their places, the check of each one is silent. -/
theorem isValid_getElem {α : Type} {l : List α} {f : α × Nat → List Issue}
    (h : isValid (l.zipIdx.flatMap f) = true) {i : Nat} (hi : i < l.length) :
    isValid (f (l[i], i)) = true :=
  isValid_flatMap.1 h _ (List.mk_mem_zipIdx_iff_getElem?.2 (List.getElem?_eq_getElem hi))

theorem not_mem_of_isValid {issues : List Issue} {i : Issue} (h : isValid issues = true)
    (hi : i.severity = .error) : i ∉ issues := by
  intro hmem
  have hne := List.all_eq_true.1 h i hmem
  rw [hi] at hne
  exact absurd hne (by decide)

theorem isValid_underSkill (index : Nat) (issues : List Issue) :
    isValid (issues.map (Issue.underSkill index)) = isValid issues := by
  rw [isValid, List.all_map]
  rfl

/-! ## What each check leaves -/

theorem allBlank_of_nameIssues {kind name : String} (h : isValid (nameIssues kind name) = true) :
    Text.allBlank name = false := by
  rw [Bool.eq_false_iff]
  intro hblank
  rw [nameIssues, if_pos hblank] at h
  exact not_mem_of_isValid h rfl (List.mem_singleton_self _)

theorem not_mem_take_of_duplicateIssues {list : String} {names : List String}
    (h : isValid (duplicateIssues list names) = true) {i : Nat} (hi : i < names.length)
    (hne : names[i] ≠ "") : names[i] ∉ names.take i := by
  intro hmem
  have hvalid := isValid_getElem h hi
  have hfound : (!names[i].isEmpty && (names.take i).contains names[i]) = true := by
    simp [hne, hmem]
  simp only [if_pos hfound] at hvalid
  exact not_mem_of_isValid hvalid rfl (List.mem_singleton_self _)

/-- Names that are not blank and not reported as duplicates are distinct. -/
theorem nodup_of_duplicateIssues {list : String} {names : List String}
    (h : isValid (duplicateIssues list names) = true)
    (hb : ∀ name ∈ names, Text.allBlank name = false) : names.Nodup := by
  rw [List.nodup_iff_getElem?_ne_getElem?]
  intro i j hij hj heq
  have hi : i < names.length := Nat.lt_trans hij hj
  have hne : names[j] ≠ "" := by
    intro hempty
    have hblank := hb _ (List.getElem_mem hj)
    rw [hempty] at hblank
    exact absurd hblank (by decide)
  rw [List.getElem?_eq_getElem hi, List.getElem?_eq_getElem hj, Option.some_inj] at heq
  apply not_mem_take_of_duplicateIssues h hj hne
  rw [← heq]
  exact List.mem_take_iff_getElem.2 ⟨i, by omega, rfl⟩

theorem mem_of_referenceIssues {r : Registry} {known : List String} {line : SkillLine}
    {name : String} (h : isValid (referenceIssues r known line) = true)
    (hname : invoked? r line = some name) : name ∈ known := by
  unfold invoked? at hname
  unfold referenceIssues at h
  split at hname
  · rename_i hinvocation
    rw [if_pos hinvocation] at h
    obtain ⟨hfound, hblank⟩ := Option.filter_eq_some_iff.1 hname
    obtain ⟨⟨key, v⟩, hkey, rfl⟩ := Option.map_eq_some_iff.1 hfound
    simp only [hkey] at h
    have hgiven : v.isBlank = false := by
      cases v with
      | text s => simpa [Value.isBlank, Value.display] using hblank
      | _ => rfl
    by_contra hunknown
    rw [if_neg (by simp [hgiven, hunknown])] at h
    exact not_mem_of_isValid h rfl (List.mem_singleton_self _)
  · cases hname

theorem mem_of_skillIssues {r : Registry} {known : List String} {line : SkillLine}
    {name : String} (h : isValid (skillIssues r known line) = true)
    (hname : invoked? r line = some name) : name ∈ known := by
  unfold skillIssues at h
  split at h
  · exact absurd (List.mem_singleton_self _) (not_mem_of_isValid h rfl)
  · simp only [isValid_append, Bool.and_eq_true] at h
    exact mem_of_referenceIssues h.1.1.1.1.1.2 hname

theorem mem_of_skillListIssues {r : Registry} {known : List String} {lines : List SkillLine}
    {line : SkillLine} {name : String} (h : isValid (skillListIssues r known lines) = true)
    (hline : line ∈ lines) (hname : invoked? r line = some name) : name ∈ known := by
  obtain ⟨i, hi, rfl⟩ := List.getElem_of_mem hline
  have hvalid := isValid_getElem h hi
  rw [isValid_underSkill] at hvalid
  exact mem_of_skillIssues hvalid hname

theorem invoked?_ne_of_selfInvocationIssues {r : Registry} {m : Metaskill} {line : SkillLine}
    (h : isValid (selfInvocationIssues r m) = true) (hline : line ∈ m.skills) :
    invoked? r line ≠ some m.name := by
  intro hself
  obtain ⟨i, hi, rfl⟩ := List.getElem_of_mem hline
  have hvalid := isValid_getElem h hi
  simp only [if_pos hself] at hvalid
  exact not_mem_of_isValid hvalid rfl (List.mem_singleton_self _)

/-! ## What the report collects -/

theorem addIssue_keeps {name : String} {issue : Issue} {results : List (String × List Issue)}
    (h : ∀ e ∈ addIssue name issue results, isValid e.2 = true) :
    ∀ e ∈ results, isValid e.2 = true := by
  induction results with
  | nil => simp
  | cons e rest ih =>
    obtain ⟨owner, issues⟩ := e
    rw [addIssue] at h
    split at h
    · rw [List.forall_mem_cons, isValid_append, Bool.and_eq_true] at h
      exact List.forall_mem_cons.2 ⟨h.1.1, h.2⟩
    · obtain ⟨hfirst, hrest⟩ := List.forall_mem_cons.1 h
      exact List.forall_mem_cons.2 ⟨hfirst, ih hrest⟩

theorem map_fst_addIssue (name : String) (issue : Issue) (results : List (String × List Issue)) :
    (addIssue name issue results).map Prod.fst = results.map Prod.fst := by
  induction results with
  | nil => rfl
  | cons e rest ih =>
    rw [addIssue]
    split
    · rfl
    · rw [List.map_cons, List.map_cons, ih]

/-- An issue that finds its owner is in the results. -/
theorem mem_addIssue {name : String} (issue : Issue) {results : List (String × List Issue)}
    (h : name ∈ results.map Prod.fst) : ∃ e ∈ addIssue name issue results, issue ∈ e.2 := by
  induction results with
  | nil => cases h
  | cons e rest ih =>
    obtain ⟨owner, issues⟩ := e
    rw [addIssue]
    split
    · exact ⟨_, List.mem_cons_self .., by simp⟩
    · rename_i hne
      obtain ⟨e', he', hissue⟩ := ih ((List.mem_cons.1 h).resolve_left (Ne.symm hne))
      exact ⟨e', List.mem_cons_of_mem _ he', hissue⟩

/-- Results stay without errors only if no cycle begins with the name of an owner. -/
theorem isValid_of_addCycles {cycles : List (List String)} {results : List (String × List Issue)}
    (h : ∀ e ∈ cycles.foldl addCycle results, isValid e.2 = true) :
    (∀ e ∈ results, isValid e.2 = true) ∧
      ∀ name ∈ results.map Prod.fst, ∀ rest, name :: rest ∉ cycles := by
  induction cycles generalizing results with
  | nil => exact ⟨h, by simp⟩
  | cons cycle cycles ih =>
    obtain ⟨hvalid, hcycles⟩ := ih h
    cases cycle with
    | nil =>
      refine ⟨hvalid, fun name hname rest hmem => hcycles name hname rest ?_⟩
      exact (List.mem_cons.1 hmem).resolve_left (List.cons_ne_nil _ _)
    | cons first after =>
      refine ⟨addIssue_keeps hvalid, fun name hname rest hmem => ?_⟩
      rcases List.mem_cons.1 hmem with heq | hmem
      · obtain ⟨rfl, rfl⟩ := List.cons.inj heq
        obtain ⟨e, he, hissue⟩ := mem_addIssue (cycleIssue (name :: rest)) hname
        exact not_mem_of_isValid (hvalid e he) rfl hissue
      · refine hcycles name ?_ rest hmem
        rwa [addCycle, map_fst_addIssue]

/-- A report without errors is silent about every definition, and lists no cycle. -/
theorem silent_of_canExport {r : Registry} {p : Project}
    (h : (projectReport r p).canExport = true) :
    isValid (duplicateIssues "mobs" p.mobNames) = true ∧
      isValid (duplicateIssues "metaskills" p.metaskillNames) = true ∧
      (∀ m ∈ p.mobs, isValid (mobIssues r p.mobNames p.metaskillNames m) = true) ∧
      (∀ m ∈ p.metaskills, isValid (metaskillIssues r p.metaskillNames m) = true) ∧
      ∀ name ∈ p.metaskillNames, ∀ rest, name :: rest ∉ invocationCycles r p := by
  simp only [Report.canExport, projectReport, Bool.and_eq_true, isValid_append] at h
  obtain ⟨⟨⟨hmobNames, hnames⟩, hmobs⟩, hmetaskills⟩ := h
  obtain ⟨hissues, hcycles⟩ := isValid_of_addCycles (List.all_eq_true.1 hmetaskills)
  refine ⟨hmobNames, hnames, by simpa using hmobs, by simpa using hissues, ?_⟩
  rwa [List.map_map] at hcycles

/-! ## Closed walks -/

section
variable {α : Type} {rel : α → α → Prop}

theorem exists_append_of_not_nodup {l : List α} (h : ¬ l.Nodup) :
    ∃ a before between after, l = before ++ a :: (between ++ a :: after) := by
  induction l with
  | nil => exact absurd List.nodup_nil h
  | cons b l ih =>
    by_cases hmem : b ∈ l
    · obtain ⟨between, after, rfl⟩ := List.append_of_mem hmem
      exact ⟨b, [], between, after, rfl⟩
    · obtain ⟨a, before, between, after, rfl⟩ := ih fun hn => h (List.nodup_cons.2 ⟨hmem, hn⟩)
      exact ⟨a, b :: before, between, after, rfl⟩

/-- Every closed walk goes around a simple cycle: a repeated node cuts off a shorter
closed walk. -/
theorem exists_simple_of_closed (n : Nat) {a : α} {l : List α} (hn : l.length < n)
    (h : List.IsChain rel (a :: (l ++ [a]))) :
    ∃ b t, (b :: t).Nodup ∧ List.IsChain rel (b :: (t ++ [b])) := by
  induction n generalizing a l with
  | zero => exact absurd hn (Nat.not_lt_zero _)
  | succ n ih =>
    by_cases hnodup : (a :: l).Nodup
    · exact ⟨a, l, hnodup, h⟩
    · obtain ⟨b, before, between, after, hl⟩ := exists_append_of_not_nodup hnodup
      have hlength := congrArg List.length hl
      simp only [List.length_cons, List.length_append] at hlength
      have hwalk : a :: (l ++ [a]) = before ++ (b :: (between ++ [b])) ++ (after ++ [a]) := by
        rw [← List.cons_append, hl]
        simp
      rw [hwalk] at h
      exact ih (by omega) (List.isChain_append.1 (List.isChain_append.1 h).1).2.1

theorem exists_simple_of_transGen {a : α} (h : Relation.TransGen rel a a) :
    ∃ b t, (b :: t).Nodup ∧ List.IsChain rel (b :: (t ++ [b])) := by
  obtain ⟨c, hac, hca⟩ := Relation.TransGen.tail'_iff.1 h
  obtain ⟨l, hchain, hlast⟩ := List.exists_isChain_cons_of_relationReflTransGen hac
  apply exists_simple_of_closed (l.length + 1) (Nat.lt_succ_self _) (a := a)
  rw [← List.cons_append, List.isChain_append]
  refine ⟨hchain, List.isChain_singleton a, fun x hx y hy => ?_⟩
  rw [List.getLast?_eq_some_getLast (List.cons_ne_nil a l), hlast, Option.mem_some_iff] at hx
  obtain rfl := hx
  obtain rfl := Option.some.inj hy
  exact hca

end

/-! ## Invocations end -/

section
variable {r : Registry} {p : Project}

/-- Without a listed cycle no metaskill comes back to itself. -/
theorem acyclic_of_no_cycles
    (h : ∀ name ∈ p.metaskillNames, ∀ rest, name :: rest ∉ invocationCycles r p) (i : Nat) :
    ¬ Relation.TransGen (Invokes r p) i i := by
  intro hi
  obtain ⟨j, t, hnodup, hchain⟩ := exists_simple_of_transGen hi
  have hcycle : IsInvocationCycle r p (j :: t : List Nat) := by
    refine ⟨hnodup, ?_, hchain⟩
    cases t with
    | nil =>
      have hself : Invokes r p j j := by simpa using hchain
      exact absurd rfl hself.1
    | cons k t => simp
  obtain ⟨l, hl, -⟩ := List.mem_map.1 (mem_cycles.2 hcycle)
  obtain ⟨first, rest, rfl, hfirst, -⟩ := mem_simpleCycles.1 hl
  have hname := getElem?_metaskillNames hfirst
  have hlisted : cycleNames p (first :: rest) ∈ invocationCycles r p := List.mem_map_of_mem hl
  rw [cycleNames, List.filterMap_cons_some hname] at hlisted
  exact h _ (List.mem_of_getElem? hname) _ hlisted

/-- Between metaskills of distinct names, none of which invokes itself, invocations are
edges of the graph of the search. -/
theorem HasLineInvoking.invokes (hnames : p.metaskillNames.Nodup)
    (hself : ∀ m ∈ p.metaskills, ∀ line ∈ m.skills, invoked? r line ≠ some m.name)
    {a b : Metaskill} (h : HasLineInvoking r p a b) :
    Invokes r p (p.metaskills.idxOf a) (p.metaskills.idxOf b) := by
  obtain ⟨ha, hb, line, hline, hinvoked⟩ := h
  have hbt := List.idxOf_lt_length_iff.2 hb
  refine ⟨?_, a, b, List.getElem?_idxOf ha, List.getElem?_idxOf hb, ⟨line, hline, hinvoked⟩, ?_⟩
  · intro hij
    obtain rfl := (List.idxOf_inj ha).1 hij
    exact hself a ha line hline hinvoked
  · intro k hk earlier hearlier hname
    obtain ⟨hkt, rfl⟩ := List.getElem?_eq_some_iff.1 hearlier
    have hkb : p.metaskillNames[k]? = p.metaskillNames[p.metaskills.idxOf b]? := by
      rw [getElem?_metaskillNames hkt, getElem?_metaskillNames hbt, hname, List.getElem_idxOf hbt]
    have hlt : k < p.metaskillNames.length := by simpa [Project.metaskillNames] using hkt
    exact Nat.ne_of_lt hk ((List.getElem?_inj hlt hnames).1 hkb)

/-- A chain of lines, each run by the one before, passes a metaskill again. -/
theorem chains_end_of_acyclic (h : ∀ m, ¬ Relation.TransGen (HasLineInvoking r p) m m)
    (chain : Nat → SkillLine) : ∃ n, ¬ Triggers r p (chain n) (chain (n + 1)) := by
  by_contra hall
  push Not at hall
  choose run hmem hinvoked hnext using hall
  have hstep (n : Nat) : Relation.TransGen (HasLineInvoking r p) (run n) (run (n + 1)) :=
    .single ⟨hmem n, hmem (n + 1), chain (n + 1), hnext n, hinvoked (n + 1)⟩
  have hfinite := (List.finite_toSet p.metaskills).to_subtype
  obtain ⟨i, j, hij, heq⟩ :=
    Finite.exists_ne_map_eq_of_infinite fun n => (⟨run n, hmem n⟩ : {m | m ∈ p.metaskills})
  have hrun : run i = run j := congrArg Subtype.val heq
  rcases Nat.lt_or_gt_of_ne hij with hlt | hlt
  · have hwalk := Nat.rel_of_forall_rel_succ_of_lt _ hstep hlt
    exact h (run j) (hrun ▸ hwalk)
  · have hwalk := Nat.rel_of_forall_rel_succ_of_lt _ hstep hlt
    exact h (run i) (hrun ▸ hwalk)

end

/-- A project that may be exported has distinct names, none of them blank; what its lines
invoke exists, and invocations end. -/
theorem sound_of_canExport {r : Registry} {p : Project}
    (h : (projectReport r p).canExport = true) : Sound r p := by
  obtain ⟨hmobNames, hmetaskillNames, hmobs, hmetaskills, hcycles⟩ := silent_of_canExport h
  simp only [mobIssues, metaskillIssues, isValid_append, Bool.and_eq_true] at hmobs hmetaskills
  have hmobBlank : ∀ name ∈ p.mobNames, Text.allBlank name = false := by
    intro name hname
    obtain ⟨m, hm, rfl⟩ := List.mem_map.1 hname
    exact allBlank_of_nameIssues (hmobs m hm).1.1.1.1.1.1.1.1
  have hblank : ∀ name ∈ p.metaskillNames, Text.allBlank name = false := by
    intro name hname
    obtain ⟨m, hm, rfl⟩ := List.mem_map.1 hname
    exact allBlank_of_nameIssues (hmetaskills m hm).1.1.1.1
  have hnames := nodup_of_duplicateIssues hmetaskillNames hblank
  have hself : ∀ m ∈ p.metaskills, ∀ line ∈ m.skills, invoked? r line ≠ some m.name :=
    fun m hm line hline => invoked?_ne_of_selfInvocationIssues (hmetaskills m hm).2 hline
  have hacyclic (m : Metaskill) : ¬ Relation.TransGen (HasLineInvoking r p) m m := by
    intro hm
    have hindices : HasLineInvoking r p ≤ (Invokes r p).onFun (p.metaskills.idxOf ·) :=
      fun _ _ hab => hab.invokes hnames hself
    exact acyclic_of_no_cycles hcycles _ (Relation.TransGen.lift _ hindices _ _ hm)
  refine ⟨nodup_of_duplicateIssues hmobNames hmobBlank, hnames, ?_, ?_, hacyclic,
    chains_end_of_acyclic hacyclic⟩
  · intro name hname
    exact (List.mem_append.1 hname).elim (hmobBlank name) (hblank name)
  · intro line hline name hname
    rcases List.mem_append.1 hline with hline | hline
    · obtain ⟨m, hm, hline⟩ := List.mem_flatMap.1 hline
      exact mem_of_skillListIssues (hmobs m hm).1.1.2 hline hname
    · obtain ⟨m, hm, hline⟩ := List.mem_flatMap.1 hline
      exact mem_of_skillListIssues (hmetaskills m hm).1.2 hline hname

/-- A line that invokes a metaskill. -/
def invocationOf (name : String) : SkillLine :=
  { mechanic := "skill", parameters := some ⟨[("s", .text name)]⟩ }

/-- A mob whose line starts three metaskills, one of which is reached in two ways. -/
def stormProject : Project where
  mobs := [{ name := "Giant", entityType := "GIANT", skills := [invocationOf "Storm"] }]
  metaskills :=
    [{ name := "Rain", skills := [{ mechanic := "damage" }] },
      { name := "Storm", skills := [invocationOf "Thunder", invocationOf "Rain"] },
      { name := "Thunder", skills := [invocationOf "Rain"] }]

theorem sound_stormProject :
    (projectReport .empty stormProject).canExport = true ∧ Sound .empty stormProject := by
  have h : (projectReport .empty stormProject).canExport = true := by decide +kernel
  exact ⟨h, sound_of_canExport h⟩

end Validation
end MobSkills
