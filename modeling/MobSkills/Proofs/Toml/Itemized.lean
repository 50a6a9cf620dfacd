import MobSkills.Proofs.Toml.Limits

/-!
# Arrays in documents

A document can only be changed in a place that it shows. Every array of a text that is read
is kept item by item, under whichever headers and dotted keys it stands, so no item is out
of reach.
-/
namespace MobSkills.Toml

open Text (Reader)

/-- No array that is kept in one piece. -/
def Written.IsItemized : Written → Prop
  | .plain _ value => ∀ items, value ≠ .array items
  | .array _ _ | .inline _ _ => True

/-- No value at or below the node is an array that is kept in one piece. -/
inductive Node.IsItemized : Node → Prop
  | leaf {margin : Margin} {value : Written} (h : value.IsItemized) : IsItemized (.leaf margin value)
  | table {opening : Opening} {entries : List (Key × Node)}
      (h : ∀ e ∈ entries, IsItemized e.2) : IsItemized (.table opening entries)
  | tables {items : List (Header × List (Key × Node))}
      (h : ∀ i ∈ items, ∀ e ∈ i.2, IsItemized e.2) : IsItemized (.tables items)

/-- The nodes of the entries hold no array in one piece. -/
def Itemized (entries : List (Key × Node)) : Prop :=
  ∀ e ∈ entries, e.2.IsItemized

/-! ## What is read -/

namespace Read

/-- Whatever the reader reads has the property. -/
def Yields {α : Type} (read : Reader α) (P : α → Prop) : Prop :=
  ∀ s a rest, read s = some (a, rest) → P a

theorem atMost_yields {α : Type} {read : Reader α} {P : α → Prop} (h : Yields read P) (count : Nat)
    (s : List Char) : ∀ a ∈ (Reader.atMost count read s).1, P a := by
  induction count generalizing s with
  | zero => exact List.forall_mem_nil P
  | succ count ih =>
    cases hread : read s with
    | none =>
      simp only [Reader.atMost, hread]
      exact List.forall_mem_nil P
    | some x =>
      obtain ⟨a, rest⟩ := x
      simp only [Reader.atMost, hread, List.forall_mem_cons]
      exact ⟨h s a rest hread, ih rest⟩

theorem integer?_ne_array {i : Int} {v : Toml} (h : integer? i = some v) (items : List Toml) :
    v ≠ .array items := by
  unfold integer? at h
  split at h
  · cases h
    nofun
  · cases h

theorem decimalNumber_ne_array : Yields decimalNumber fun v => ∀ items, v ≠ .array items := by
  intro s v rest h items
  simp only [decimalNumber, Option.bind_eq_bind, Option.bind_eq_some_iff] at h
  obtain ⟨_, _, _, _, _, _, h⟩ := h
  split at h
  · obtain ⟨i, hi, h⟩ := Option.bind_eq_some_iff.1 h
    cases h
    exact integer?_ne_array hi items
  · split at h
    · cases h
    · cases h
      exact Toml.noConfusion

theorem specialNumber_ne_array : Yields specialNumber fun v => ∀ items, v ≠ .array items := by
  intro s v rest h items
  simp only [specialNumber] at h
  split at h
  · cases h
    exact Toml.noConfusion
  · obtain ⟨_, _, h⟩ := Option.map_eq_some_iff.1 h
    cases h
    exact Toml.noConfusion

theorem basedInteger_ne_array (base : Nat) :
    Yields (basedInteger base) fun v => ∀ items, v ≠ .array items := by
  intro s v rest h items
  simp only [basedInteger, Option.bind_eq_bind, Option.bind_eq_some_iff] at h
  obtain ⟨_, _, i, hi, h⟩ := h
  cases h
  exact integer?_ne_array hi items

theorem datetime_ne_array : Yields datetime fun v => ∀ items, v ≠ .array items := by
  intro s v rest h items
  obtain ⟨_, _, h⟩ := Option.map_eq_some_iff.1 h
  cases h
  nofun

theorem scalar_ne_array : Yields scalar fun v => ∀ items, v ≠ .array items := by
  intro s v rest h items
  unfold scalar at h
  split at h
  · obtain ⟨_, _, h⟩ := Option.map_eq_some_iff.1 h
    cases h
    nofun
  · obtain ⟨_, _, h⟩ := Option.map_eq_some_iff.1 h
    cases h
    nofun
  · exact basedInteger_ne_array _ _ _ _ h items
  · exact basedInteger_ne_array _ _ _ _ h items
  · exact basedInteger_ne_array _ _ _ _ h items
  · rcases Option.or_eq_some_iff.1 h with h | ⟨-, h⟩
    · rcases Option.or_eq_some_iff.1 h with h | ⟨-, h⟩
      · exact datetime_ne_array _ _ _ h items
      · exact specialNumber_ne_array _ _ _ h items
    · exact decimalNumber_ne_array _ _ _ h items

theorem plain_isItemized {read : Reader Toml} (h : Yields read fun v => ∀ items, v ≠ .array items) :
    Yields (plain read) Written.IsItemized := by
  intro s w rest hw
  obtain ⟨⟨v, rest'⟩, hread, hw⟩ := Option.map_eq_some_iff.1 hw
  cases hw
  exact h s v _ hread

theorem value_isItemized (limit depth : Nat) :
    Yields (Read.value limit depth) Written.IsItemized := by
  have htext : Yields value.text fun v => ∀ items, v ≠ .array items := by
    intro s v rest h items
    obtain ⟨_, _, h⟩ := Option.map_eq_some_iff.1 h
    cases h
    nofun
  intro s w rest h
  unfold Read.value at h
  split at h
  · cases h
  · cases h
  · obtain ⟨_, _, h⟩ := Option.map_eq_some_iff.1 h
    cases h
    trivial
  · simp only [inlineBody, Option.bind_eq_bind, Option.bind_eq_some_iff] at h
    obtain ⟨_, _, _, _, h⟩ := h
    cases h
    trivial
  · exact plain_isItemized htext _ _ _ h
  · exact plain_isItemized htext _ _ _ h
  · exact plain_isItemized scalar_ne_array _ _ _ h

end Read

def Statement.IsItemized : Statement → Prop
  | .entry _ _ value => value.IsItemized
  | .header _ _ _ => True

theorem Read.statement_isItemized (limit : Nat) :
    Yields (statement limit) Statement.IsItemized := by
  intro s statement rest h
  simp only [Read.statement] at h
  split at h
  · simp only [Option.bind_eq_bind, Option.bind_eq_some_iff] at h
    obtain ⟨_, _, _, _, h⟩ := h
    cases h
    trivial
  · simp only [Option.bind_eq_bind, Option.bind_eq_some_iff] at h
    obtain ⟨_, _, ⟨w, after⟩, hvalue, _, _, h⟩ := h
    cases h
    exact value_isItemized _ _ _ _ _ hvalue

/-! ## Tables from statements -/

/-- What every step keeps is kept by all of them together. -/
theorem foldlM_invariant {α β : Type} {step : β → α → Option β} {P : β → Prop} {l : List α}
    (hstep : ∀ a ∈ l, ∀ b b', P b → step b a = some b' → P b') {b b' : β} (h : P b)
    (hfold : l.foldlM step b = some b') : P b' := by
  induction l generalizing b with
  | nil =>
    cases hfold
    exact h
  | cons a l ih =>
    rw [List.foldlM_cons] at hfold
    obtain ⟨between, hbetween, hfold⟩ := Option.bind_eq_some_iff.1 hfold
    obtain ⟨hfirst, hrest⟩ := List.forall_mem_cons.1 hstep
    exact ih hrest (hfirst b between h hbetween) hfold

namespace Node

variable {entries entries' : List (Key × Node)}

theorem isItemized_of_lookup {name : String} {node : Node} (h : Itemized entries)
    (hnode : lookup name entries = some node) : node.IsItemized := by
  induction entries with
  | nil => cases hnode
  | cons e entries ih =>
    obtain ⟨key, first⟩ := e
    rw [lookup] at hnode
    split at hnode
    · cases hnode
      exact h _ (List.mem_cons_self ..)
    · exact ih (fun e he => h e (List.mem_cons_of_mem _ he)) hnode

theorem itemized_nil : Itemized [] :=
  nofun

theorem itemized_put {key : Key} {node : Node} (h : Itemized entries) (hnode : node.IsItemized) :
    Itemized (put key node entries) := by
  induction entries with
  | nil => exact List.forall_mem_singleton.2 hnode
  | cons e entries ih =>
    obtain ⟨hfirst, hrest⟩ := List.forall_mem_cons.1 h
    rw [put]
    split
    · exact List.forall_mem_cons.2 ⟨hnode, hrest⟩
    · exact List.forall_mem_cons.2 ⟨hfirst, ih hrest⟩

theorem itemized_concat {key : Key} {node : Node} (h : Itemized entries) (hnode : node.IsItemized) :
    Itemized (entries ++ [(key, node)]) :=
  List.forall_mem_append.2 ⟨h, List.forall_mem_singleton.2 hnode⟩

/-- The change puts no array in one piece among entries without one. -/
def Change.Keeps (change : Change) : Prop :=
  ∀ isDotted entries entries', change isDotted entries = some entries' →
    Itemized entries → Itemized entries'

/-- A change below a path keeps what it keeps where it is made. -/
theorem changeAt_keeps {change : Change} (h : change.Keeps) (dotted : Bool) (path : List Key) :
    Change.Keeps (changeAt dotted change path) := by
  induction path with
  | nil => exact h
  | cons key path ih =>
    intro isDotted entries entries' hchange hentries
    rw [changeAt] at hchange
    split at hchange
    · obtain ⟨inner, hinner, hchange⟩ := Option.bind_eq_some_iff.1 hchange
      cases hchange
      exact itemized_put hentries (.table (ih _ _ _ hinner itemized_nil))
    · cases hchange
    · rename_i items hlookup
      obtain ⟨⟨header, last⟩, hlast, hchange⟩ := Option.bind_eq_some_iff.1 hchange
      obtain ⟨inner, hinner, hchange⟩ := Option.bind_eq_some_iff.1 hchange
      cases hchange
      cases isItemized_of_lookup hentries hlookup with
      | tables hitems =>
        have hothers := fun i hi => hitems i (List.dropLast_subset items hi)
        have hinner := ih _ _ _ hinner (hitems _ (List.mem_of_getLast? hlast))
        exact itemized_put hentries
          (.tables (List.forall_mem_append.2 ⟨hothers, List.forall_mem_singleton.2 hinner⟩))
    · rename_i hlookup
      split at hchange
      · cases hchange
      · obtain ⟨inner, hinner, hchange⟩ := Option.bind_eq_some_iff.1 hchange
        cases hchange
        cases isItemized_of_lookup hentries hlookup with
        | table htable => exact itemized_put hentries (.table (ih _ _ _ hinner htable))
    · rename_i hlookup
      obtain ⟨inner, hinner, hchange⟩ := Option.bind_eq_some_iff.1 hchange
      cases hchange
      cases isItemized_of_lookup hentries hlookup with
      | table htable => exact itemized_put hentries (.table (ih _ _ _ hinner htable))

theorem itemized_addValue {path : List Key} {node : Node} (hnode : node.IsItemized)
    (h : Itemized entries) (hadd : addValue path node entries = some entries') :
    Itemized entries' := by
  unfold addValue at hadd
  split at hadd
  · cases hadd
  · refine changeAt_keeps ?_ true _ _ _ _ hadd h
    intro isDotted inner inner' hchange hinner
    dsimp only at hchange
    split at hchange
    · cases hchange
    split at hchange
    · cases hchange
    · cases hchange
      exact itemized_concat hinner hnode

theorem itemized_addValues {values : List (List Key × Margin × Written)}
    (hvalues : ∀ v ∈ values, v.2.2.IsItemized) (h : Itemized entries)
    (hadd : addValues values entries = some entries') : Itemized entries' :=
  foldlM_invariant (fun v hv _ _ h hadd => itemized_addValue (.leaf (hvalues v hv)) h hadd) h hadd

theorem itemized_addTable {repeated : Bool} {path : List Key} {header : Header}
    {values : List (List Key × Margin × Written)} (hvalues : ∀ v ∈ values, v.2.2.IsItemized)
    (h : Itemized entries) (hadd : addTable repeated path header values entries = some entries') :
    Itemized entries' := by
  unfold addTable at hadd
  split at hadd
  · cases hadd
  · refine changeAt_keeps ?_ false _ _ _ _ hadd h
    intro isDotted inner inner' hchange hinner
    dsimp only at hchange
    split at hchange
    · obtain ⟨table, htable, hchange⟩ := Option.bind_eq_some_iff.1 hchange
      cases hchange
      have htable := itemized_addValues hvalues itemized_nil htable
      exact itemized_concat hinner (.tables (List.forall_mem_singleton.2 htable))
    · rename_i items hlookup
      obtain ⟨table, htable, hchange⟩ := Option.bind_eq_some_iff.1 hchange
      cases hchange
      cases isItemized_of_lookup hinner hlookup with
      | tables hitems =>
        have htable := itemized_addValues hvalues itemized_nil htable
        exact itemized_put hinner
          (.tables (List.forall_mem_append.2 ⟨hitems, List.forall_mem_singleton.2 htable⟩))
    · obtain ⟨table, htable, hchange⟩ := Option.bind_eq_some_iff.1 hchange
      cases hchange
      exact itemized_concat hinner (.table (itemized_addValues hvalues itemized_nil htable))
    · rename_i existing hlookup
      obtain ⟨table, htable, hchange⟩ := Option.bind_eq_some_iff.1 hchange
      cases hchange
      cases isItemized_of_lookup hinner hlookup with
      | table hexisting =>
        refine itemized_concat (fun e he => hinner e (List.mem_filter.1 he).1) (.table ?_)
        exact itemized_addValues hvalues hexisting htable
    · cases hchange

end Node

theorem sections_isItemized {statements : List Statement} (h : ∀ s ∈ statements, s.IsItemized) :
    (∀ v ∈ (sections statements).1, v.2.2.IsItemized) ∧
      ∀ t ∈ (sections statements).2, ∀ v ∈ t.2.2.2, v.2.2.IsItemized := by
  induction statements with
  | nil => exact ⟨nofun, nofun⟩
  | cons s statements ih =>
    obtain ⟨hfirst, hrest⟩ := List.forall_mem_cons.1 h
    obtain ⟨hvalues, hlater⟩ := ih hrest
    cases s with
    | entry path margin value => exact ⟨List.forall_mem_cons.2 ⟨hfirst, hvalues⟩, hlater⟩
    | header repeated path margin => exact ⟨nofun, List.forall_mem_cons.2 ⟨hvalues, hlater⟩⟩

theorem itemized_tables {statements : List Statement} {entries : List (Key × Node)}
    (h : ∀ s ∈ statements, s.IsItemized) (htables : tables? statements = some entries) :
    Itemized entries := by
  obtain ⟨hvalues, hheaders⟩ := sections_isItemized h
  obtain ⟨top, htop, hadd⟩ := Option.bind_eq_some_iff.1 htables
  refine foldlM_invariant ?_ (Node.itemized_addValues hvalues Node.itemized_nil htop) hadd
  intro ⟨t, i⟩ ht between after hbetween hadd
  have hmem := List.mem_of_getElem? (List.mk_mem_zipIdx_iff_getElem?.1 ht)
  exact Node.itemized_addTable (hheaders t hmem) hbetween hadd

/-- A document that is read keeps all of its arrays item by item. -/
theorem Document.itemized_of_parse? {limit : Nat} {text : String} {d : Document}
    (h : Document.parse? limit text = some d) : Itemized d.entries := by
  obtain ⟨s, hparse⟩ := Document.exists_parse?_eq text
  rw [hparse] at h
  split at h
  · obtain ⟨entries, htables, rfl⟩ := Option.map_eq_some_iff.1 h
    exact itemized_tables (Read.atMost_yields (Read.statement_isItemized limit) _ _) htables
  · cases h

end MobSkills.Toml
