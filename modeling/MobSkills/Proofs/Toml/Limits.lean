import MobSkills.Proofs.Text.Reader
import MobSkills.Toml.Parse

/-!
# Documents within a limit

How deep a document may nest depends on what it is read for. What is read within one limit
is read in the same way within every higher one. A higher limit lets a reader of repeated
parts go on where another one stopped, but in a document that was read to its end no further
part begins there: a bracket or a brace closes the parts, or the text is over.
-/
namespace MobSkills.Toml

open Text (Reader)
open Text.Reader

namespace Read

variable {limit limit' depth depth' : Nat} {value value' : Reader Written}

/-! ## Keys -/

theorem key_within (h : limit ≤ limit') : Within (key limit) (key limit') := by
  refine Within.bind (fun _ _ hx => hx) ?_
  intro ⟨path, rest⟩ x hx
  dsimp only at hx ⊢
  split at hx
  · rename_i hlength
    rw [if_pos (Nat.lt_of_lt_of_le hlength h), hx]
  · cases hx

theorem assigned_within (h : limit ≤ limit') : Within (assigned limit) (assigned limit') :=
  (key_within h).bind fun _ _ hx => hx

theorem spaces_of_ne {c : Char} (h : isSpace c = false) (r : List Char) :
    spaces (c :: r) = ([], c :: r) := by
  simp [spaces, h]

/-- No key begins where a brace closes or the text ends. -/
theorem assigned_eq_none {s : List Char} (h : ∀ c ∈ (spaces s).2.head?, c = '\x7d') :
    assigned limit s = none := by
  have hkey : simpleKey (spaces s).2 = none := by
    cases hs : (spaces s).2 with
    | nil => rfl
    | cons c r =>
      obtain rfl : c = '\x7d' := h c (by rw [hs]; rfl)
      rfl
  have hpart : keyPart s = none := by
    simp only [keyPart, hkey]
    rfl
  rw [assigned, key, separated_eq_none hpart]
  rfl

/-! ## Values -/

theorem item_within (h : Within value value') : Within (item value) (item value') := by
  intro s x hx
  simp only [item, Option.bind_eq_bind] at hx ⊢
  exact h.bind (fun _ _ hx => hx) _ x hx

theorem item_eq_none {s : List Char} (hclose : ∀ r, value (']' :: r) = none)
    (h : (blanks s).2.head? = some ']') : item value s = none := by
  obtain ⟨r, hr⟩ := List.head?_eq_some_iff.1 h
  simp only [item, hr, hclose]
  rfl

/-- What is left after the items of an array, but for a comma, begins with blanks and the
closing bracket. -/
theorem arrayBody_within (h : Within value value') (hclose : ∀ r, value' (']' :: r) = none) :
    Within (arrayBody value) (arrayBody value') := by
  intro s x hx
  have hsame : (Reader.separated (Reader.char ',') (item value') s).getD ([], s) =
      (Reader.separated (Reader.char ',') (item value) s).getD ([], s) := by
    cases hitems : Reader.separated (Reader.char ',') (item value) s with
    | none =>
      simp only [arrayBody, hitems, Option.getD_none] at hx
      obtain ⟨⟨_, rest⟩, hchar, -⟩ := Option.map_eq_some_iff.1 hx
      have hhead : (blanks s).2.head? = some ']' := by rw [char_eq_some hchar]; rfl
      rw [separated_eq_none (item_eq_none hclose hhead)]
    | some parts =>
      obtain ⟨items, after⟩ := parts
      obtain ⟨first, more, rfl⟩ := List.exists_cons_of_ne_nil (separated_ne_nil hitems)
      have hstop : (Reader.char ',' after).bind (fun x => item value' x.2) = none := by
        cases after with
        | nil => rfl
        | cons c r =>
          by_cases hc : c = ','
          · subst hc
            simp only [arrayBody, hitems, Option.getD_some] at hx
            obtain ⟨⟨_, rest⟩, hchar, -⟩ := Option.map_eq_some_iff.1 hx
            have hhead : (blanks r).2.head? = some ']' := by rw [char_eq_some hchar]; rfl
            exact item_eq_none hclose hhead
          · rw [char_eq_none hc, Option.bind_none]
      rw [separated_of_within (item_within h) hitems hstop]
  rw [← hx]
  simp only [arrayBody, hsame]

theorem inlineEntry_within (hlimit : limit ≤ limit') (h : Within value value') :
    Within (inlineEntry limit value) (inlineEntry limit' value') := by
  refine (assigned_within hlimit).bind ?_
  intro ⟨path, s⟩ x hx
  exact h.bind (fun _ _ hx => hx) _ x hx

theorem inlineEntry_eq_none {s : List Char} (h : (spaces s).2.head? = some '\x7d') :
    inlineEntry limit value s = none := by
  have hassigned : assigned limit s = none :=
    assigned_eq_none fun c hc => Option.some.inj (hc.symm.trans h)
  rw [inlineEntry, hassigned]
  rfl

theorem inlineBody_within (hlimit : limit ≤ limit') (h : Within value value') :
    Within (inlineBody limit value) (inlineBody limit' value') := by
  intro s x hx
  have hsame : (Reader.separated (Reader.char ',') (inlineEntry limit' value') s).getD ([], s) =
      (Reader.separated (Reader.char ',') (inlineEntry limit value) s).getD ([], s) := by
    cases hitems : Reader.separated (Reader.char ',') (inlineEntry limit value) s with
    | none =>
      simp only [inlineBody, hitems, Option.getD_none] at hx
      obtain ⟨⟨_, rest⟩, hchar, -⟩ := Option.bind_eq_some_iff.1 hx
      have hhead : (spaces s).2.head? = some '\x7d' := by rw [char_eq_some hchar]; rfl
      rw [separated_eq_none (inlineEntry_eq_none hhead)]
    | some parts =>
      obtain ⟨items, after⟩ := parts
      simp only [inlineBody, hitems, Option.getD_some] at hx
      obtain ⟨⟨_, rest⟩, hchar, -⟩ := Option.bind_eq_some_iff.1 hx
      have hstop : Reader.char ',' after = none := by
        cases after with
        | nil => rfl
        | cons c r =>
          apply char_eq_none
          rintro rfl
          rw [spaces_of_ne rfl, char_eq_none (by decide)] at hchar
          cases hchar
      rw [separated_of_within (inlineEntry_within hlimit h) hitems (by rw [hstop]; rfl)]
  rw [← hx]
  simp only [inlineBody, hsame]

/-- Only arrays and inline tables depend on the limits. -/
theorem value_of_head? {s : List Char} (hb : s.head? ≠ some '[') (hc : s.head? ≠ some '\x7b') :
    Read.value limit depth s = Read.value limit' depth' s := by
  unfold Read.value
  split <;> first
    | exact absurd rfl hb
    | exact absurd rfl hc
    | rfl
    | split <;> first
      | exact absurd rfl hb
      | exact absurd rfl hc
      | rfl
      | simp_all

theorem field_eq_none {c : Char} (h : c.isDigit = false) (width low high : Nat) (r : List Char) :
    field (width + 1) low high (c :: r) = none := by
  simp [field, h]

/-- No value begins with a closing bracket. -/
theorem value_closing (limit depth : Nat) (r : List Char) :
    Read.value limit depth (']' :: r) = none := by
  have hfield (width low high : Nat) : field (width + 1) low high (']' :: r) = none :=
    field_eq_none rfl ..
  have hscalar : scalar (']' :: r) = none := by
    simp [scalar, datetime, date, time, hfield, specialNumber, decimalNumber, sign, decimalDigits,
      digitGroups, Reader.word]
  have hplain : Read.value limit depth (']' :: r) = plain scalar (']' :: r) := by
    cases depth <;> rfl
  rw [hplain, plain, hscalar]
  rfl

theorem value_within (hlimit : limit ≤ limit') (hdepth : depth ≤ depth') :
    Within (Read.value limit depth) (Read.value limit' depth') := by
  induction depth generalizing depth' with
  | zero =>
    intro s x hx
    have hhead (c : Char) (hnone : ∀ r, Read.value limit 0 (c :: r) = none) : s.head? ≠ some c := by
      intro hhead
      obtain ⟨r, rfl⟩ := List.head?_eq_some_iff.1 hhead
      rw [hnone] at hx
      cases hx
    rw [← hx]
    exact value_of_head? (hhead '[' fun _ => rfl) (hhead '\x7b' fun _ => rfl)
  | succ depth ih =>
    obtain ⟨depth', rfl⟩ : ∃ n, depth' = n + 1 := ⟨depth' - 1, by omega⟩
    have hinner := ih (Nat.le_of_succ_le_succ hdepth)
    intro s x hx
    by_cases hb : s.head? = some '['
    · obtain ⟨r, rfl⟩ := List.head?_eq_some_iff.1 hb
      exact arrayBody_within hinner (value_closing limit' depth') r x hx
    by_cases hc : s.head? = some '\x7b'
    · obtain ⟨r, rfl⟩ := List.head?_eq_some_iff.1 hc
      exact inlineBody_within hlimit hinner r x hx
    · rw [value_of_head? hb hc, hx]

/-! ## Statements -/

theorem header_within (h : limit ≤ limit') : Within (header limit) (header limit') := by
  intro s x hx
  unfold header at hx ⊢
  split at hx
  · exact (key_within h).bind (fun _ _ hx => hx) _ x hx
  · exact (key_within h).bind (fun _ _ hx => hx) _ x hx
  · cases hx

theorem statement_within (h : limit ≤ limit') : Within (statement limit) (statement limit') := by
  intro s x hx
  unfold statement at hx ⊢
  dsimp only at hx ⊢
  split at hx
  · exact (header_within h).bind (fun _ _ hx => hx) _ x hx
  · refine (assigned_within h).bind ?_ _ x hx
    intro ⟨path, s⟩ y hy
    exact (value_within h (Nat.sub_le_sub_right h 1)).bind (fun _ _ hx => hx) _ y hy

/-- No statement begins at the end of the text. -/
theorem statement_eq_none {s : List Char} (h : (blanks s).2 = []) : statement limit s = none := by
  have hassigned : assigned limit [] = none := assigned_eq_none nofun
  simp only [statement, h, hassigned]
  rfl

end Read

/-- The statements of a text are read from the same characters within all limits. -/
theorem Document.exists_parse?_eq (text : String) : ∃ s, ∀ limit, Document.parse? limit text =
    if (Read.blanks (Reader.many (Read.statement limit) s).2).2.isEmpty then
      (tables? (Reader.many (Read.statement limit) s).1).map fun entries =>
        ⟨entries, String.ofList (Reader.many (Read.statement limit) s).2⟩
    else none :=
  ⟨_, fun _ => rfl⟩

/-- A document that is read within a limit is read as the same one within higher limits. -/
theorem Document.parse?_of_le {limit limit' : Nat} (h : limit ≤ limit') {text : String}
    {d : Document} (hd : Document.parse? limit text = some d) :
    Document.parse? limit' text = some d := by
  obtain ⟨s, hparse⟩ := Document.exists_parse?_eq text
  rw [hparse] at hd ⊢
  by_cases hend : (Read.blanks (Reader.many (Read.statement limit) s).2).2.isEmpty = true
  · have hsame : Reader.many (Read.statement limit') s = Reader.many (Read.statement limit) s :=
      Reader.atMost_of_within (Read.statement_within h)
        (Read.statement_eq_none (List.isEmpty_iff.1 hend))
    rw [hsame, hd]
  · rw [if_neg hend] at hd
    cases hd

theorem readingLimit_le : readingLimit ≤ editingLimit := by
  decide

/-- What has a meaning can be edited, and the document that is edited has that meaning. -/
theorem exists_document_of_parse? {text : String} {v : Toml} (h : parse? text = some v) :
    ∃ d, Document.parse? editingLimit text = some d ∧ d.toToml = v := by
  obtain ⟨d, hd, rfl⟩ := Option.map_eq_some_iff.1 h
  exact ⟨d, Document.parse?_of_le readingLimit_le hd, rfl⟩

end MobSkills.Toml
