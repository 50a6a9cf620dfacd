import MobSkills.Proofs.Line.ValueText

/-!
# Written groups

A group is written entry by entry, and its entries are collected again as they are,
since their keys differ. Keys have to be words; nothing else is asked of a group than of
its values. A group that was read has been collected already, so its keys differ too.
-/
namespace MobSkills

open Token (Spells Part IsLexeme IsWord Parted parted_cons parted_nil)
open Grammar

/-- A group that a line can hold: it is not empty, and its keys are words that differ. -/
structure Params.WellFormed (p : Params) : Prop where
  nonempty : p.entries ≠ []
  words : ∀ e ∈ p.entries, IsWord e.1.toList
  distinct : p.keys.Nodup
  values : ∀ e ∈ p.entries, e.2.WellFormed

/-! ## Entries -/

/-- A word, an equals sign and a text that spells a value. -/
theorem spells_entry {key : String} {v : Value} {value : List Char} (hk : IsWord key.toList)
    (hv : Spells value fun ts => ValueOf ts v) :
    Spells (key.toList ++ '=' :: value) fun ts => EntryOf ts (key, v) := by
  have hequals : Spells ('=' :: value) fun ts =>
      ∃ e us, ts = e :: us ∧ e.kind = .equals ∧ ValueOf us v :=
    .symbol rfl (by decide) hv fun t vs ht hvs => ⟨t, vs, rfl, ht, hvs⟩
  have hparted : Parted ('=' :: value) := parted_cons rfl (by decide) (by decide)
  refine .lexeme (Token.isLexeme_identifier_iff.2 hk) hequals (hparted.stops _) ?_
  intro t _ hkind ht h
  obtain ⟨e, us, rfl, he, hus⟩ := h
  rw [← String.toList_injective ht]
  exact .mk hkind he hus

theorem Grammar.EntryOf.entriesOf {ts : List Token} {e : String × Value} (h : EntryOf ts e) :
    EntriesOf ts [e] := by
  have hnone : Mark .semicolon [] false := .absent
  have hlast := EntriesOf.last h hnone
  rwa [List.append_nil] at hlast

/-- The text of an entry of a group. -/
def renderEntry (e : String × Value) : List Char :=
  e.1.toList ++ '=' :: e.2.render

theorem spells_renderEntries {es : List (String × Value)} (hn : es ≠ [])
    (hw : ∀ e ∈ es, IsWord e.1.toList) (hv : ∀ e ∈ es, e.2.WellFormed) :
    Spells (joinWith [';'] (es.map renderEntry)) fun ts => EntriesOf ts es := by
  obtain ⟨e, es, rfl⟩ := List.exists_cons_of_ne_nil hn
  rw [List.map_cons, joinWith_cons, List.flatMap_map]
  clear hn
  induction es generalizing e with
  | nil =>
    rw [List.flatMap_nil, List.append_nil]
    exact (spells_entry (hw e (by simp)) (spells_renderValue (hv e (by simp)))).mono
      fun ts hts => hts.entriesOf
  | cons e' es ih =>
    have hmore := ih e' (fun a ha => hw a (List.mem_cons_of_mem e ha))
      fun a ha => hv a (List.mem_cons_of_mem e ha)
    have hentry := spells_entry (hw e (by simp)) (spells_renderValue (hv e (by simp)))
    rw [List.flatMap_cons]
    have hsemi : Spells (';' :: (renderEntry e' ++
        es.flatMap fun a => [';'] ++ renderEntry a)) fun ts =>
          ∃ s us, ts = s :: us ∧ s.kind = .semicolon ∧ EntriesOf us (e' :: es) :=
      .symbol rfl (by decide) hmore fun t vs ht hvs => ⟨t, vs, rfl, ht, hvs⟩
    apply hentry.append hsemi (parted_cons rfl (by decide) (by decide))
    intro us _ hus h
    obtain ⟨s, vs, rfl, hs, hvs⟩ := h
    exact .cons hus hs hvs

/-! ## Groups and their collection -/

theorem Params.insertEntry_of_not_mem {key : String} {v : Value} {es : List (String × Value)}
    (h : key ∉ es.map (·.1)) : insertEntry key v es = es ++ [(key, v)] := by
  induction es with
  | nil => rfl
  | cons e es ih =>
    rw [List.map_cons, List.mem_cons, not_or] at h
    rw [insertEntry, if_neg (Ne.symm h.1), ih h.2, List.cons_append]

/-- Entries with keys that differ are collected as they are. -/
theorem Params.foldl_insert {es given : List (String × Value)}
    (h : ((given ++ es).map (·.1)).Nodup) :
    es.foldl (fun p e => p.insert e.1 e.2) ⟨given⟩ = (⟨given ++ es⟩ : Params) := by
  induction es generalizing given with
  | nil => simp
  | cons e es ih =>
    have hfresh : e.1 ∉ given.map (·.1) := by
      rw [List.map_append, List.map_cons, List.nodup_append] at h
      exact fun he => h.2.2 _ he _ (List.mem_cons_self ..) rfl
    rw [List.append_cons] at h ⊢
    rw [List.foldl_cons, Params.insert, insertEntry_of_not_mem hfresh, ih h]

theorem Params.ofList_entries {p : Params} (h : p.keys.Nodup) : Params.ofList p.entries = p := by
  have hkeys : ((([] : List (String × Value)) ++ p.entries).map (·.1)).Nodup := h
  exact Params.foldl_insert hkeys

/-- A group is read back from its text: present where it was, with its entries. -/
theorem part_renderOption {g : Option Params} (h : ∀ p ∈ g, p.WellFormed) :
    Part (Params.renderOption g) fun ts => GroupOf ts g := by
  cases g with
  | none => exact ⟨.nil .absent, parted_nil⟩
  | some p =>
    obtain ⟨hne, hw, hd, hv⟩ := h p rfl
    have hempty : ¬ p.isEmpty = true := by simpa [Params.isEmpty] using hne
    have hparted : Parted ['\x7d'] := parted_cons rfl (by decide) (by decide)
    have hinner := (spells_renderEntries hne hw hv).closed rfl hparted
    rw [Params.renderOption, if_neg hempty]
    refine ⟨.symbol rfl (by decide) hinner ?_, parted_cons rfl (by decide) (by decide)⟩
    intro o _ ho h
    obtain ⟨vs, c, rfl, hc, hvs⟩ := h
    have hgroup := GroupOf.entries ho hc hvs
    rwa [Params.ofList_entries hd] at hgroup

theorem spells_targeter {t : Targeter} (hk : IsWord t.kind.toList)
    (ho : ∀ p ∈ t.options, p.WellFormed) :
    Spells ('@' :: t.kind.toList ++ Params.renderOption t.options) fun ts => TargeterOf ts t := by
  have hkind : Spells (t.kind.toList ++ Params.renderOption t.options) fun ts =>
      ∃ k us, ts = k :: us ∧ k.kind = .identifier ∧ k.text = t.kind ∧ GroupOf us t.options :=
    .lexeme (Token.isLexeme_identifier_iff.2 hk) (part_renderOption ho).spells
      ((part_renderOption ho).parted.stops _)
      fun k us hkind htext hus => ⟨k, us, rfl, hkind, String.toList_injective htext, hus⟩
  refine .symbol rfl (by decide) hkind ?_
  intro a _ ha h
  obtain ⟨k, us, rfl, hkind, htext, hus⟩ := h
  have hphrase := TargeterOf.mk ha hkind hus
  rwa [htext] at hphrase

/-! ## Groups that were read -/

theorem wellFormed_of_entryOf {ts : List Token} {e : String × Value} (h : EntryOf ts e)
    (hl : ∀ t ∈ ts, IsLexeme t.kind t.text.toList) :
    IsWord e.1.toList ∧ ((∀ x, e.2 = .real x → x.isFinite = true) → e.2.WellFormed) := by
  cases h with
  | @mk k _ _ _ hk he hv =>
    have hword := (hl k (List.mem_cons_self ..)).isWord hk
    exact ⟨hword, wellFormed_of_valueOf hv fun t ht => hl t (by simp [ht])⟩

theorem wellFormed_of_entriesOf {ts : List Token} {es : List (String × Value)}
    (h : EntriesOf ts es) (hl : ∀ t ∈ ts, IsLexeme t.kind t.text.toList) :
    es ≠ [] ∧ ∀ e ∈ es,
      IsWord e.1.toList ∧ ((∀ x, e.2 = .real x → x.isFinite = true) → e.2.WellFormed) := by
  induction h with
  | last h _ =>
    refine ⟨by simp, ?_⟩
    intro e he
    obtain rfl := List.mem_singleton.1 he
    exact wellFormed_of_entryOf h fun t ht => hl t (by simp [ht])
  | cons h _ _ ih =>
    refine ⟨by simp, ?_⟩
    intro e he
    rcases List.mem_cons.1 he with rfl | he
    · exact wellFormed_of_entryOf h fun t ht => hl t (by simp [ht])
    · exact (ih fun t ht => hl t (by simp [ht])).2 e he

theorem Params.mem_insertEntry {key : String} {v : Value} {es : List (String × Value)}
    {e : String × Value} (h : e ∈ insertEntry key v es) : e = (key, v) ∨ e ∈ es := by
  induction es with
  | nil => exact .inl (List.mem_singleton.1 h)
  | cons f es ih =>
    rw [insertEntry] at h
    split at h
    · exact (List.mem_cons.1 h).imp_right (List.mem_cons_of_mem f)
    · rcases List.mem_cons.1 h with rfl | h
      · exact .inr (List.mem_cons_self ..)
      · exact (ih h).imp_right (List.mem_cons_of_mem f)

theorem Params.keys_insertEntry {key : String} {v : Value} {es : List (String × Value)}
    (h : (es.map (·.1)).Nodup) : ((insertEntry key v es).map (·.1)).Nodup := by
  induction es with
  | nil => simp [insertEntry]
  | cons f es ih =>
    obtain ⟨hfresh, hes⟩ := List.nodup_cons.1 h
    rw [insertEntry]
    split
    · rename_i hk
      subst hk
      exact h
    · rename_i hk
      refine List.nodup_cons.2 ⟨fun hmem => ?_, ih hes⟩
      obtain ⟨e, he, hkey⟩ := List.mem_map.1 hmem
      rcases mem_insertEntry he with rfl | he
      · exact hk hkey.symm
      · exact hfresh (hkey ▸ List.mem_map_of_mem he)

theorem Params.insertEntry_ne_nil (key : String) (v : Value) (es : List (String × Value)) :
    insertEntry key v es ≠ [] := by
  cases es with
  | nil => simp [insertEntry]
  | cons e es =>
    rw [insertEntry]
    split <;> simp

/-- Collecting entries keeps keys apart and makes up no entry. -/
theorem Params.foldl_insert_spec {es : List (String × Value)} {given : Params}
    (hn : given.entries ≠ [] ∨ es ≠ []) (hg : given.keys.Nodup) :
    (es.foldl (fun p e => p.insert e.1 e.2) given).entries ≠ [] ∧
      (es.foldl (fun p e => p.insert e.1 e.2) given).keys.Nodup ∧
      ∀ e ∈ (es.foldl (fun p e => p.insert e.1 e.2) given).entries,
        e ∈ given.entries ∨ e ∈ es := by
  induction es generalizing given with
  | nil => exact ⟨hn.resolve_right fun h => h rfl, hg, fun e he => .inl he⟩
  | cons f es ih =>
    have hne : (given.insert f.1 f.2).entries ≠ [] := insertEntry_ne_nil _ _ _
    obtain ⟨hentries, hkeys, hmem⟩ := ih (.inl hne) (keys_insertEntry hg)
    refine ⟨hentries, hkeys, fun e he => ?_⟩
    rcases hmem e he with he | he
    · rcases mem_insertEntry he with rfl | he
      · exact .inr (List.mem_cons_self ..)
      · exact .inl he
    · exact .inr (List.mem_cons_of_mem f he)

theorem Params.mem_of_mem_ofList {es : List (String × Value)} {e : String × Value}
    (h : e ∈ (Params.ofList es).entries) : e ∈ es := by
  have hempty : Params.empty.keys.Nodup := List.nodup_nil
  cases es with
  | nil => cases h
  | cons f es =>
    obtain ⟨-, -, hmem⟩ := Params.foldl_insert_spec (.inr (List.cons_ne_nil f es)) hempty
    exact (hmem e h).resolve_left List.not_mem_nil

/-- A group that was read is one that text can hold, apart from reals too large. -/
theorem wellFormed_of_groupOf {ts : List Token} {p : Params} (h : GroupOf ts (some p))
    (hl : ∀ t ∈ ts, IsLexeme t.kind t.text.toList)
    (hf : ∀ e ∈ p.entries, ∀ x, e.2 = .real x → x.isFinite = true) : p.WellFormed := by
  cases h with
  | entries _ _ h =>
    obtain ⟨hn, hes⟩ := wellFormed_of_entriesOf h fun t ht => hl t (by simp [ht])
    have hempty : Params.empty.keys.Nodup := List.nodup_nil
    obtain ⟨hne, hkeys, -⟩ := Params.foldl_insert_spec (.inr hn) hempty
    have hfrom (e : String × Value) (he : e ∈ (Params.ofList _).entries) :=
      hes e (Params.mem_of_mem_ofList he)
    exact ⟨hne, fun e he => (hfrom e he).1, hkeys, fun e he => (hfrom e he).2 (hf e he)⟩

theorem wellFormed_of_targeterOf {ts : List Token} {t : Targeter} (h : TargeterOf ts t)
    (hl : ∀ t ∈ ts, IsLexeme t.kind t.text.toList)
    (hf : ∀ p ∈ t.options, ∀ e ∈ p.entries, ∀ x, e.2 = .real x → x.isFinite = true) :
    IsWord t.kind.toList ∧ ∀ p ∈ t.options, p.WellFormed := by
  cases h with
  | @mk a k ts options _ hk hg =>
    refine ⟨(hl k (by simp)).isWord hk, ?_⟩
    intro p hp
    cases hp
    exact wellFormed_of_groupOf hg (fun t ht => hl t (by simp [ht])) (hf p rfl)

end MobSkills
