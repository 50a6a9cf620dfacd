import MobSkills.Text.Reader

/-!
# Readers of repeated parts

A reader of repeated parts stops at the first part that it cannot read. So what it finds is
settled by one run of the reader over the text: which values it reads in turn, and where it
reads no further one. A reader that reads more in general reads the same values as long as
it stops in the same place.
-/
namespace MobSkills.Text.Reader

variable {α β : Type} {read read' : Reader α} {separator : Reader Unit}

/-- What the one reader reads, the other one reads in the same way. -/
def Within (read read' : Reader α) : Prop :=
  ∀ s x, read s = some x → read' s = some x

theorem Within.bind {next next' : α × List Char → Option (β × List Char)} (h : Within read read')
    (hnext : ∀ y x, next y = some x → next' y = some x) :
    Within (fun s => (read s).bind next) fun s => (read' s).bind next' := by
  intro s x hx
  obtain ⟨y, hy, hx⟩ := Option.bind_eq_some_iff.1 hx
  exact Option.bind_eq_some_iff.2 ⟨y, h s y hy, hnext y x hx⟩

/-- Where the other reader cannot go on either, it has found the same values. -/
theorem atMost_of_within (h : Within read read') {count : Nat} {s : List Char}
    (hstop : read' (atMost count read s).2 = none) :
    atMost count read' s = atMost count read s := by
  induction count generalizing s with
  | zero => rfl
  | succ count ih =>
    cases hread : read s with
    | none =>
      simp only [atMost, hread] at hstop ⊢
      rw [hstop]
    | some x =>
      obtain ⟨a, rest⟩ := x
      simp only [atMost, hread] at hstop
      simp only [atMost, hread, h s _ hread, ih hstop]

theorem separated_of_within (h : Within read read') {s rest : List Char} {items : List α}
    (hs : separated separator read s = some (items, rest))
    (hstop : (separator rest).bind (fun x => read' x.2) = none) :
    separated separator read' s = some (items, rest) := by
  obtain ⟨⟨first, after⟩, hfirst, hmore⟩ := Option.bind_eq_some_iff.1 hs
  have hafter : Within (fun s => (separator s).bind fun x => read x.2) fun s =>
      (separator s).bind fun x => read' x.2 :=
    fun s x hx => by
      obtain ⟨y, hy, hx⟩ := Option.bind_eq_some_iff.1 hx
      exact Option.bind_eq_some_iff.2 ⟨y, hy, h y.2 x hx⟩
  have hmany : many (fun s => (separator s).bind fun x => read' x.2) after =
      many (fun s => (separator s).bind fun x => read x.2) after := by
    apply atMost_of_within hafter
    cases hmore
    exact hstop
  refine Option.bind_eq_some_iff.2 ⟨_, h s _ hfirst, ?_⟩
  rw [← hmore]
  exact congrArg (fun m : List α × List Char => some (first :: m.1, m.2)) hmany

theorem separated_ne_nil {s rest : List Char} {items : List α}
    (hs : separated separator read s = some (items, rest)) : items ≠ [] := by
  obtain ⟨⟨first, after⟩, -, hmore⟩ := Option.bind_eq_some_iff.1 hs
  cases hmore
  exact List.cons_ne_nil _ _

theorem separated_eq_none {s : List Char} (h : read s = none) :
    separated separator read s = none := by
  rw [separated, h]
  rfl

theorem char_eq_some {c : Char} {s rest : List Char} {u : Unit} (h : char c s = some (u, rest)) :
    s = c :: rest := by
  cases s with
  | nil => cases h
  | cons d r =>
    by_cases hd : d = c
    · rw [char, if_pos hd] at h
      cases h
      rw [hd]
    · rw [char, if_neg hd] at h
      cases h

theorem char_cons (c : Char) (r : List Char) : char c (c :: r) = some ((), r) := by
  rw [char, if_pos rfl]

theorem char_eq_none {c d : Char} (h : d ≠ c) (r : List Char) : char c (d :: r) = none := by
  rw [char, if_neg h]

/-! ## Runs -/

/-- The reader reads the values one after the other, each from at least one character, and
then no further one. -/
inductive Run (read : Reader α) : List α → List Char → List Char → Prop
  | stop {s : List Char} (h : read s = none) : Run read [] s s
  | step {a : α} {as : List α} {s after rest : List Char} (h : read s = some (a, after))
      (hlt : after.length < s.length) (hr : Run read as after rest) : Run read (a :: as) s rest

theorem Run.atMost_eq {as : List α} {s rest : List Char} (h : Run read as s rest) {count : Nat}
    (hcount : s.length ≤ count) : atMost count read s = (as, rest) := by
  induction h generalizing count with
  | stop h =>
    cases count with
    | zero => rfl
    | succ count => rw [atMost, h]
  | step h hlt _ ih =>
    cases count with
    | zero => omega
    | succ count =>
      have hmore := ih (Nat.le_of_lt_succ (Nat.lt_of_lt_of_le hlt hcount))
      simp only [atMost, h, hmore]

theorem Run.many_eq {as : List α} {s rest : List Char} (h : Run read as s rest) :
    many read s = (as, rest) :=
  h.atMost_eq (Nat.le_refl _)

/-- A first part, and then parts with a separator before each. -/
theorem separated_of_run {a : α} {as : List α} {s after rest : List Char}
    (h : read s = some (a, after))
    (hr : Run (fun s => (separator s).bind fun x => read x.2) as after rest) :
    separated separator read s = some (a :: as, rest) := by
  refine Option.bind_eq_some_iff.2 ⟨_, h, ?_⟩
  exact congrArg (fun m : List α × List Char => some (a :: m.1, m.2)) hr.many_eq

end MobSkills.Text.Reader
