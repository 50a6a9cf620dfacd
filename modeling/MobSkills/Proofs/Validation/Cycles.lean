import Mathlib.Data.List.Cycle
import MobSkills.Validation.Cycles

/-!
# The listed cycles are the simple cycles

The search is characterised at one node: what it answers are the ways along unused
nodes that lead back to the start, each once. With the start as the least node, this
gives every simple cycle of the invocation graph in exactly one of its rotations.
Cycles are compared up to rotation, as `Cycle` does; no bound on the project is used.
-/
namespace MobSkills.Validation

/-- Metaskill `i` invokes another metaskill `j`: a line of `i` names `j`, and no
metaskill before `j` has that name. -/
def Invokes (r : Registry) (p : Project) (i j : Nat) : Prop :=
  i ≠ j ∧ ∃ source target, p.metaskills[i]? = some source ∧ p.metaskills[j]? = some target ∧
    (∃ line ∈ source.skills, invoked? r line = some target.name) ∧
    ∀ k < j, ∀ earlier, p.metaskills[k]? = some earlier → earlier.name ≠ target.name

/-- A simple cycle of two or more metaskills. -/
def IsInvocationCycle (r : Registry) (p : Project) (c : Cycle Nat) : Prop :=
  c.Nodup ∧ 2 ≤ c.length ∧ c.Chain (Invokes r p)

/-- The indices begin with the least of them, and the names are theirs, closed by
the first. -/
def ListedAs (p : Project) (indices : List Nat) (names : List String) : Prop :=
  ∃ first rest, indices = first :: rest ∧ (∀ i ∈ rest, first < i) ∧
    List.Forall₂ (fun i name => ∃ m, p.metaskills[i]? = some m ∧ m.name = name)
      (first :: rest ++ [first]) names

/-! ## The edges -/

theorem firstNamed?_eq_some {p : Project} {name : String} {j : Nat} :
    firstNamed? p name = some j ↔ ∃ target, p.metaskills[j]? = some target ∧ target.name = name ∧
      ∀ k < j, ∀ earlier, p.metaskills[k]? = some earlier → earlier.name ≠ name := by
  rw [firstNamed?, List.idxOf?_eq_some_iff]
  constructor
  · intro h
    obtain ⟨hj, hname, hfirst⟩ := h
    have hlen : j < p.metaskills.length := by simpa [Project.metaskillNames] using hj
    refine ⟨p.metaskills[j], List.getElem?_eq_getElem hlen, ?_, ?_⟩
    · simpa [Project.metaskillNames] using hname
    · intro k hk earlier hearlier
      obtain ⟨hklen, rfl⟩ := List.getElem?_eq_some_iff.1 hearlier
      simpa [Project.metaskillNames] using hfirst k hk
  · intro h
    obtain ⟨target, htarget, hname, hfirst⟩ := h
    obtain ⟨hlen, rfl⟩ := List.getElem?_eq_some_iff.1 htarget
    refine ⟨by simpa [Project.metaskillNames] using hlen, ?_, ?_⟩
    · simpa [Project.metaskillNames] using hname
    · intro k hk
      have hklen : k < p.metaskills.length := by omega
      simpa [Project.metaskillNames] using hfirst k hk _ (List.getElem?_eq_getElem hklen)

/-- One target more: it is kept unless it is `index` or has been kept. -/
theorem collect_step (index target : Nat) {found : List Nat} (hf : found.Nodup) :
    let more := if target = index || found.contains target then found else found ++ [target]
    more.Nodup ∧ ∀ t, t ∈ more ↔ t ∈ found ∨ t = target ∧ t ≠ index := by
  intro more
  by_cases hskip : target = index ∨ target ∈ found
  · have hmore : more = found := if_pos (by simpa using hskip)
    rw [hmore]
    refine ⟨hf, fun t => ⟨.inl, fun h => ?_⟩⟩
    rcases h with h | ⟨rfl, hne⟩
    · exact h
    · exact hskip.resolve_left hne
  · have hmore : more = found ++ [target] := if_neg (by simpa using hskip)
    obtain ⟨hne, hfresh⟩ := not_or.1 hskip
    rw [hmore]
    constructor
    · rw [List.nodup_append]
      refine ⟨hf, List.nodup_singleton target, ?_⟩
      intro a ha b hb hab
      exact hfresh (List.mem_singleton.1 hb ▸ hab ▸ ha)
    · intro t
      rw [List.mem_append, List.mem_singleton]
      constructor
      · intro h
        rcases h with h | rfl
        · exact .inl h
        · exact .inr ⟨rfl, hne⟩
      · intro h
        exact h.imp_right And.left

/-- Collecting targets other than `index` keeps each of them once. -/
theorem foldl_collect (index : Nat) (targets : List Nat) {found : List Nat} (hf : found.Nodup) :
    let all := targets.foldl (fun found target =>
      if target = index || found.contains target then found else found ++ [target]) found
    all.Nodup ∧ ∀ t, t ∈ all ↔ t ∈ found ∨ t ∈ targets ∧ t ≠ index := by
  induction targets generalizing found with
  | nil => simpa using hf
  | cons u us ih =>
    obtain ⟨hnodup, hmem⟩ := collect_step index u hf
    obtain ⟨hall, hin⟩ := ih hnodup
    refine ⟨hall, fun t => ?_⟩
    rw [List.foldl_cons, hin t, hmem t, List.mem_cons, or_and_right, or_assoc]

theorem nodup_edges (r : Registry) (p : Project) (i : Nat) : (edges r p i).Nodup := by
  unfold edges
  split
  · exact List.nodup_nil
  · exact (foldl_collect i _ List.nodup_nil).1

theorem mem_edges {r : Registry} {p : Project} {i j : Nat} :
    j ∈ edges r p i ↔ Invokes r p i j := by
  unfold edges Invokes
  split
  · rename_i hnone
    simp [hnone]
  · rename_i source hsource
    rw [(foldl_collect i _ List.nodup_nil).2 j]
    simp only [List.not_mem_nil, false_or, List.mem_filterMap, firstNamed?_eq_some, hsource]
    constructor
    · intro h
      obtain ⟨⟨name, ⟨line, hline, hinvoked⟩, target, htarget, rfl, hfirst⟩, hne⟩ := h
      exact ⟨hne.symm, source, target, rfl, htarget, ⟨line, hline, hinvoked⟩, hfirst⟩
    · intro h
      obtain ⟨hne, found, target, hfound, htarget, ⟨line, hline, hinvoked⟩, hfirst⟩ := h
      obtain rfl := Option.some.inj hfound
      exact ⟨⟨target.name, ⟨line, hline, hinvoked⟩, target, htarget, rfl, hfirst⟩, hne.symm⟩

/-! ## The search from one node -/

section
variable {next : Nat → List Nat} {start : Nat}

/-- One step of the search: a target closes the way or is the next node on it. -/
theorem mem_branch {available path c : List Nat} {node target : Nat} :
    (c ∈ if target = start then [path ++ [node]]
      else if _h : target ∈ available then
        cyclesFrom next start (available.erase target) (path ++ [node]) target
      else []) ↔
      target = start ∧ c = path ++ [node] ∨ target ≠ start ∧ target ∈ available ∧
        c ∈ cyclesFrom next start (available.erase target) (path ++ [node]) target := by
  by_cases hstart : target = start
  · simp [hstart]
  · by_cases hmem : target ∈ available
    · simp [hstart, hmem]
    · simp [hstart, hmem]

/-- The answers are the simple ways through the available nodes back to the start. -/
theorem mem_cyclesFrom {available path c : List Nat} {node : Nat} (hs : start ∉ available)
    (ha : available.Nodup) :
    c ∈ cyclesFrom next start available path node ↔
      ∃ tail, c = path ++ node :: tail ∧ tail.Nodup ∧ (∀ t ∈ tail, t ∈ available) ∧
        List.IsChain (fun a b => b ∈ next a) (node :: (tail ++ [start])) := by
  fun_induction cyclesFrom next start available path node with
  | case1 available path node ih =>
    have hnot (t : Nat) : start ∉ available.erase t := fun h => hs (List.mem_of_mem_erase h)
    rw [List.mem_flatMap]
    simp only [mem_branch]
    constructor
    · intro h
      obtain ⟨target, htarget, ⟨rfl, rfl⟩ | ⟨-, hmem, hc⟩⟩ := h
      · exact ⟨[], rfl, List.nodup_nil, by simp, by simpa using htarget⟩
      · obtain ⟨tail, rfl, hnodup, hin, hchain⟩ := (ih target hmem (hnot _) (ha.erase _)).1 hc
        have hfresh : target ∉ tail := fun h => ha.not_mem_erase (hin target h)
        refine ⟨target :: tail, by simp, List.nodup_cons.2 ⟨hfresh, hnodup⟩, ?_, ?_⟩
        · intro t ht
          rcases List.mem_cons.1 ht with rfl | ht
          · exact hmem
          · exact List.mem_of_mem_erase (hin t ht)
        · exact .cons_cons htarget hchain
    · intro h
      obtain ⟨tail, rfl, hnodup, hin, hchain⟩ := h
      cases tail with
      | nil => exact ⟨start, by simpa using hchain, .inl ⟨rfl, rfl⟩⟩
      | cons t tail =>
        have ht : t ∈ available := hin t (List.mem_cons_self ..)
        have hne : t ≠ start := fun h => hs (h ▸ ht)
        obtain ⟨hfresh, hnodup⟩ := List.nodup_cons.1 hnodup
        obtain ⟨hedge, hrest⟩ := List.isChain_cons_cons.1 hchain
        refine ⟨t, hedge, .inr ⟨hne, ht, (ih t ht (hnot _) (ha.erase _)).2 ?_⟩⟩
        refine ⟨tail, by simp, hnodup, ?_, hrest⟩
        intro u hu
        have hut : u ≠ t := fun h => hfresh (h ▸ hu)
        exact (List.mem_erase_of_ne hut).2 (hin u (List.mem_cons_of_mem t hu))

/-- No way is answered twice: two answers part where their targets differ. -/
theorem nodup_cyclesFrom (hn : ∀ i, (next i).Nodup) {available path : List Nat} {node : Nat}
    (hs : start ∉ available) (ha : available.Nodup) :
    (cyclesFrom next start available path node).Nodup := by
  fun_induction cyclesFrom next start available path node with
  | case1 available path node ih =>
    have hnot (t : Nat) : start ∉ available.erase t := fun h => hs (List.mem_of_mem_erase h)
    -- the node after `node` in an answer tells its target
    have hafter (target : Nat) (c : List Nat)
        (hc : c ∈ if target = start then [path ++ [node]]
          else if _h : target ∈ available then
            cyclesFrom next start (available.erase target) (path ++ [node]) target
          else []) :
        (c.drop (path.length + 1)).head?.getD start = target := by
      rcases mem_branch.1 hc with ⟨rfl, rfl⟩ | ⟨-, -, hc⟩
      · simp
      · obtain ⟨tail, rfl, -⟩ := (mem_cyclesFrom (hnot _) (ha.erase _)).1 hc
        simp [List.drop_append]
    rw [List.nodup_flatMap]
    constructor
    · intro target htarget
      split
      · exact List.nodup_singleton _
      split
      · rename_i _ hmem
        exact ih target hmem (hnot _) (ha.erase _)
      · exact List.nodup_nil
    · apply (hn node).imp
      intro a b hab c hca hcb
      exact hab ((hafter a c hca).symm.trans (hafter b c hcb))

end

/-! ## All starts -/

section
variable {next : Nat → List Nat} {count : Nat}

theorem nodup_later (start : Nat) :
    start ∉ List.range' (start + 1) (count - (start + 1)) ∧
      (List.range' (start + 1) (count - (start + 1))).Nodup := by
  refine ⟨fun h => ?_, List.nodup_range'⟩
  have := (List.mem_range'_1.1 h).1
  omega

/-- The listed cycles are the simple cycles that begin with their least node. -/
theorem mem_simpleCycles {c : List Nat} :
    c ∈ simpleCycles next count ↔
      ∃ first rest, c = first :: rest ∧ first < count ∧ rest.Nodup ∧
        (∀ i ∈ rest, first < i ∧ i < count) ∧
        List.IsChain (fun a b => b ∈ next a) (first :: (rest ++ [first])) := by
  rw [simpleCycles, List.mem_flatMap]
  constructor
  · intro h
    obtain ⟨first, hfirst, hc⟩ := h
    obtain ⟨rest, rfl, hnodup, hin, hchain⟩ :=
      (mem_cyclesFrom (nodup_later first).1 (nodup_later first).2).1 hc
    refine ⟨first, rest, rfl, List.mem_range.1 hfirst, hnodup, fun i hi => ?_, hchain⟩
    have := List.mem_range'_1.1 (hin i hi)
    omega
  · intro h
    obtain ⟨first, rest, rfl, hfirst, hnodup, hin, hchain⟩ := h
    refine ⟨first, List.mem_range.2 hfirst, ?_⟩
    rw [mem_cyclesFrom (nodup_later first).1 (nodup_later first).2]
    refine ⟨rest, rfl, hnodup, fun i hi => ?_, hchain⟩
    have := hin i hi
    exact List.mem_range'_1.2 (by omega)

theorem nodup_simpleCycles (hn : ∀ i, (next i).Nodup) : (simpleCycles next count).Nodup := by
  rw [simpleCycles, List.nodup_flatMap]
  constructor
  · intro start _
    exact nodup_cyclesFrom hn (nodup_later start).1 (nodup_later start).2
  · apply List.nodup_range.imp
    intro a b hab c hca hcb
    obtain ⟨ta, hta, -⟩ := (mem_cyclesFrom (nodup_later a).1 (nodup_later a).2).1 hca
    obtain ⟨tb, htb, -⟩ := (mem_cyclesFrom (nodup_later b).1 (nodup_later b).2).1 hcb
    exact hab (List.cons.inj (hta.symm.trans htb)).1

end

/-! ## Rotations -/

/-- Rotations of one list that both begin with their least element are equal. -/
theorem eq_of_isRotated {a b : Nat} {s t : List Nat} (h : (a :: s).IsRotated (b :: t))
    (hs : ∀ i ∈ s, a < i) (ht : ∀ i ∈ t, b < i) (hn : (a :: s).Nodup) : a :: s = b :: t := by
  have hhead : a = b := by
    have hab : a ∈ b :: t := h.mem_iff.1 (List.mem_cons_self ..)
    have hba : b ∈ a :: s := h.mem_iff.2 (List.mem_cons_self ..)
    rcases List.mem_cons.1 hab with hab | hab
    · exact hab
    rcases List.mem_cons.1 hba with hba | hba
    · exact hba.symm
    · exact absurd (hs b hba) (Nat.lt_asymm (ht a hab))
  obtain ⟨n, hrot⟩ := h
  have hlt : n % (a :: s).length < (a :: s).length := Nat.mod_lt _ (by simp)
  have hfirst : (a :: s)[n % (a :: s).length] = (a :: s)[0] := by
    have hget := List.head?_rotate hlt
    rw [List.rotate_mod, hrot, List.getElem?_eq_getElem hlt] at hget
    simpa [hhead] using hget.symm
  have hzero : n % (a :: s).length = 0 := hn.getElem_inj_iff.1 hfirst
  rw [← hrot, ← List.rotate_mod, hzero, List.rotate_zero]

/-- Every nonempty list without repetition has a rotation that begins with its
least element. -/
theorem exists_isRotated_least {l : List Nat} (hl : l ≠ []) (hn : l.Nodup) :
    ∃ first rest, l.IsRotated (first :: rest) ∧ ∀ i ∈ rest, first < i := by
  obtain ⟨first, hmem, hleast⟩ : ∃ first ∈ l, ∀ i ∈ l, first ≤ i := by
    obtain ⟨a, s, rfl⟩ := List.exists_cons_of_ne_nil hl
    exact ⟨(a :: s).min (by simp), List.min_mem _, fun i hi => List.min_le_of_mem hi⟩
  obtain ⟨before, after, rfl⟩ := List.append_of_mem hmem
  refine ⟨first, after ++ before, List.isRotated_append, fun i hi => ?_⟩
  have hperm : (first :: (after ++ before)).Nodup :=
    List.isRotated_append.nodup_iff.1 hn
  have hne : first ≠ i := fun h => (List.nodup_cons.1 hperm).1 (h ▸ hi)
  have hle : first ≤ i := by
    apply hleast i
    rcases List.mem_append.1 hi with h | h
    · exact List.mem_append_right _ (List.mem_cons_of_mem first h)
    · exact List.mem_append_left _ h
  omega

/-! ## The invocation cycles -/

theorem Invokes.lt_length {r : Registry} {p : Project} {i j : Nat} (h : Invokes r p i j) :
    i < p.metaskills.length := by
  obtain ⟨-, source, -, hsource, -⟩ := h
  exact (List.getElem?_eq_some_iff.1 hsource).1

/-- Every member of a closed chain invokes another. -/
theorem lt_length_of_isChain {r : Registry} {p : Project} {l : List Nat} {last i : Nat}
    (h : List.IsChain (Invokes r p) (l ++ [last])) (hi : i ∈ l) : i < p.metaskills.length := by
  obtain ⟨before, after, rfl⟩ := List.append_of_mem hi
  rw [List.append_assoc, List.cons_append] at h
  have hnext := (List.isChain_append.1 h).2.1
  cases after with
  | nil => exact (List.isChain_cons_cons.1 hnext).1.lt_length
  | cons j after => exact (List.isChain_cons_cons.1 hnext).1.lt_length

/-- The indices listed for a project. -/
theorem mem_simpleCycles_edges {r : Registry} {p : Project} {first : Nat} {rest : List Nat}
    (hleast : ∀ i ∈ rest, first < i) :
    first :: rest ∈ simpleCycles (edges r p) p.metaskills.length ↔
      IsInvocationCycle r p (first :: rest : List Nat) := by
  have hedges : (fun a b => b ∈ edges r p a) = Invokes r p := by
    funext a b
    exact propext mem_edges
  rw [mem_simpleCycles, hedges]
  constructor
  · intro h
    obtain ⟨a, s, he, -, hnodup, hin, hchain⟩ := h
    obtain ⟨rfl, rfl⟩ := List.cons.inj he
    have hfresh : first ∉ rest := fun h => Nat.lt_irrefl _ (hin first h).1
    refine ⟨List.nodup_cons.2 ⟨hfresh, hnodup⟩, ?_, hchain⟩
    cases rest with
    | nil =>
      have hself : Invokes r p first first := by simpa using hchain
      exact absurd rfl hself.1
    | cons i rest => simp
  · intro h
    obtain ⟨hnodup, -, hchain⟩ := h
    have hlt (i : Nat) (hi : i ∈ first :: rest) : i < p.metaskills.length :=
      lt_length_of_isChain (l := first :: rest) hchain hi
    refine ⟨first, rest, rfl, hlt first (List.mem_cons_self ..), (List.nodup_cons.1 hnodup).2, ?_,
      hchain⟩
    intro i hi
    exact ⟨hleast i hi, hlt i (List.mem_cons_of_mem first hi)⟩

/-- Two listed cycles are no rotations of each other. -/
theorem nodup_cycles (r : Registry) (p : Project) :
    ((simpleCycles (edges r p) p.metaskills.length).map ((↑) : List Nat → Cycle Nat)).Nodup := by
  refine List.Nodup.map_on ?_ (nodup_simpleCycles (nodup_edges r p))
  intro l hl m hm hlm
  obtain ⟨a, s, rfl, -, hsnodup, hs, -⟩ := mem_simpleCycles.1 hl
  obtain ⟨b, t, rfl, -, -, ht, -⟩ := mem_simpleCycles.1 hm
  have hfresh : a ∉ s := fun h => Nat.lt_irrefl _ (hs a h).1
  have hnodup : (a :: s).Nodup := List.nodup_cons.2 ⟨hfresh, hsnodup⟩
  exact eq_of_isRotated (Cycle.coe_eq_coe.1 hlm) (fun i hi => (hs i hi).1)
    (fun i hi => (ht i hi).1) hnodup

/-- Every invocation cycle is listed in one of its rotations, and nothing else is. -/
theorem mem_cycles {r : Registry} {p : Project} {c : Cycle Nat} :
    c ∈ (simpleCycles (edges r p) p.metaskills.length).map ((↑) : List Nat → Cycle Nat) ↔
      IsInvocationCycle r p c := by
  rw [List.mem_map]
  constructor
  · intro h
    obtain ⟨l, hl, rfl⟩ := h
    obtain ⟨first, rest, rfl, -, -, hin, -⟩ := mem_simpleCycles.1 hl
    exact (mem_simpleCycles_edges fun i hi => (hin i hi).1).1 hl
  · intro hc
    obtain ⟨l, rfl⟩ : ∃ l : List Nat, (l : Cycle Nat) = c := Quotient.exists_rep c
    have hne : l ≠ [] := by
      rintro rfl
      exact absurd hc.2.1 (by decide)
    obtain ⟨first, rest, hrot, hleast⟩ := exists_isRotated_least hne hc.1
    have heq : (l : Cycle Nat) = (first :: rest : List Nat) := Cycle.coe_eq_coe.2 hrot
    rw [heq] at hc
    exact ⟨first :: rest, (mem_simpleCycles_edges hleast).2 hc, heq.symm⟩

/-! ## The names -/

theorem getElem?_metaskillNames {p : Project} {i : Nat} (hi : i < p.metaskills.length) :
    p.metaskillNames[i]? = some (p.metaskills[i]).name := by
  simp [Project.metaskillNames, hi]

theorem forall₂_names {p : Project} {l : List Nat} (hl : ∀ i ∈ l, i < p.metaskills.length) :
    List.Forall₂ (fun i name => ∃ m, p.metaskills[i]? = some m ∧ m.name = name) l
      (l.filterMap (p.metaskillNames[·]?)) := by
  induction l with
  | nil => exact .nil
  | cons i l ih =>
    have hi := hl i (List.mem_cons_self ..)
    rw [List.filterMap_cons_some (getElem?_metaskillNames hi)]
    exact .cons ⟨_, List.getElem?_eq_getElem hi, rfl⟩
      (ih fun j hj => hl j (List.mem_cons_of_mem i hj))

theorem listedAs_cycleNames {p : Project} {first : Nat} {rest : List Nat}
    (hleast : ∀ i ∈ rest, first < i) (hlt : ∀ i ∈ first :: rest, i < p.metaskills.length) :
    ListedAs p (first :: rest) (cycleNames p (first :: rest)) := by
  have hname := getElem?_metaskillNames (hlt first (List.mem_cons_self ..))
  have hclosed : cycleNames p (first :: rest) =
      (first :: rest ++ [first]).filterMap (p.metaskillNames[·]?) := by
    simp only [cycleNames, List.filterMap_append, List.filterMap_cons_some hname,
      List.filterMap_nil, List.head?_cons, Option.toList_some]
  refine ⟨first, rest, rfl, hleast, ?_⟩
  rw [hclosed]
  apply forall₂_names
  intro i hi
  rcases List.mem_append.1 hi with h | h
  · exact hlt i h
  · rw [List.mem_singleton.1 h]
    exact hlt first (List.mem_cons_self ..)

/-- The invocation cycles of a project are exactly the simple cycles of two or more
metaskills, each listed once, by the names from its least index on. -/
theorem invocationCycles_exact (r : Registry) (p : Project) :
    ∃ found : List (List Nat),
      List.Forall₂ (ListedAs p) found (invocationCycles r p) ∧
      (found.map ((↑) : List Nat → Cycle Nat)).Nodup ∧
      ∀ c : Cycle Nat, c ∈ found.map ((↑) : List Nat → Cycle Nat) ↔ IsInvocationCycle r p c := by
  refine ⟨simpleCycles (edges r p) p.metaskills.length, ?_, nodup_cycles r p, fun c => mem_cycles⟩
  rw [invocationCycles, List.forall₂_map_right_iff, List.forall₂_same]
  intro l hl
  obtain ⟨first, rest, rfl, hfirst, -, hin, -⟩ := mem_simpleCycles.1 hl
  apply listedAs_cycleNames fun i hi => (hin i hi).1
  intro i hi
  rcases List.mem_cons.1 hi with rfl | hi
  · exact hfirst
  · exact (hin i hi).2

end MobSkills.Validation
