import MobSkills.Proofs.Completion.Reading

/-!
# The slot after a choice

Every slot is found at the end of a line, and its query is the last part of the line. What
stands before the query settles the slot: where a choice that fits takes the place of the
query, the blanks, the groups and the signs before it are read as they were. An open group
of a targeter is found like the others, but no choice is claimed to fit there.
-/
namespace MobSkills.Completion

open Token (IsWord isWordChar)

variable {a b s line : List Char}

/-! ## What fits a slot, and where it leads -/

/-- The choices that a slot takes without ending the part of the line that it is in. -/
def Fits : Slot → List Char → Prop
  | .mechanic, s => IsWord s
  | .parameter _, s =>
    s ≠ [] ∧ Text.trim s = s ∧ '=' ∉ s ∧ ';' ∉ s ∧ '\x7d' ∉ s ∧ '\n' ∉ s
  | .parameterValue _ _, s | .metaskill, s => ';' ∉ s ∧ '\x7d' ∉ s ∧ '\n' ∉ s
  | .targeter, s | .condition, s => ∀ c ∈ s, isNameChar c = true
  | .trigger, s => ∀ c ∈ s, isTriggerChar c = true
  | .none, _ | .targeterOption _, _ => False

/-- The slot of a value, by the mechanic and the key that stand before it. -/
def valueSlot (mechanic key : String) : Slot :=
  if namesMetaskill mechanic key then .metaskill else .parameterValue mechanic key

/-- The slot that a choice leads to. -/
def nextSlot : Slot → String → Slot
  | .mechanic, choice => .parameter choice
  | .parameter mechanic, choice => valueSlot mechanic choice
  | slot, _ => slot

/-- What is typed already of the slot that a choice leads to. -/
def nextQuery (slot : Slot) (choice : String) : String :=
  if suffixOf slot = "" then choice else ""

/-- The text ends with the query, and a choice in its place leads to the next slot. -/
def Leads (read : List Char → Slot × List Char) (line : List Char) (place : Slot × List Char) :
    Prop :=
  ∃ pre, line = pre ++ place.2 ∧ ∀ choice : String, Fits place.1 choice.toList →
    read (pre ++ (choice ++ suffixOf place.1).toList) =
      (nextSlot place.1 choice, (nextQuery place.1 choice).toList)

/-- A slot without a suffix is left by no choice. -/
theorem nextSlot_of_suffixOf {slot : Slot} (h : suffixOf slot = "") (choice : String) :
    nextSlot slot choice = slot := by
  cases slot with
  | mechanic => simp [suffixOf] at h
  | parameter => simp [suffixOf] at h
  | _ => rfl

/-- A choice in a slot without a suffix is the query that is read back. -/
theorem leads_of_suffixOf {read : List Char → Slot × List Char} {slot : Slot}
    {pre query : List Char} (hsuffix : suffixOf slot = "")
    (h : ∀ s, Fits slot s → read (pre ++ s) = (slot, s)) :
    Leads read (pre ++ query) (slot, query) := by
  refine ⟨pre, rfl, fun choice hfit => ?_⟩
  rw [nextSlot_of_suffixOf hsuffix, nextQuery, if_pos hsuffix, hsuffix, String.append_empty]
  exact h _ hfit

theorem suffixOf_valueSlot (mechanic key : String) : suffixOf (valueSlot mechanic key) = "" := by
  unfold valueSlot
  split <;> rfl

theorem fits_valueSlot {mechanic key : String} :
    Fits (valueSlot mechanic key) s ↔ ';' ∉ s ∧ '\x7d' ∉ s ∧ '\n' ∉ s := by
  unfold valueSlot
  split <;> rfl

theorem isTriggerChar_of_isNameChar {c : Char} (h : isNameChar c = true) :
    isTriggerChar c = true := by
  simp [isTriggerChar, h]

/-- No choice that fits ends a group or a line. -/
theorem not_mem_of_fits {slot : Slot} {choice : String} (h : Fits slot choice.toList) {c : Char}
    (hc : c = '\x7d' ∨ c = '\n') : c ∉ (choice ++ suffixOf slot).toList := by
  have hclass : isNameChar c = false ∧ isTriggerChar c = false ∧ isWordChar c = false := by
    rcases hc with rfl | rfl <;> decide
  have hchoice : c ∉ choice.toList := by
    cases slot with
    | mechanic => exact not_mem_of_all (fun d hd => Token.isWordChar_of_isWord h hd) hclass.2.2
    | parameter =>
      obtain ⟨-, -, -, -, hbrace, hfeed⟩ := h
      rcases hc with rfl | rfl
      exacts [hbrace, hfeed]
    | parameterValue | metaskill =>
      obtain ⟨-, hbrace, hfeed⟩ := h
      rcases hc with rfl | rfl
      exacts [hbrace, hfeed]
    | targeter => exact not_mem_of_all h hclass.1
    | condition => exact not_mem_of_all h hclass.1
    | trigger => exact not_mem_of_all h hclass.2.1
    | none => cases h
    | targeterOption => cases h
  have hsuffix : c ∉ (suffixOf slot).toList := by
    rcases hc with rfl | rfl <;> cases slot <;> simp [suffixOf]
  rw [String.toList_append, List.mem_append, not_or]
  exact ⟨hchoice, hsuffix⟩

/-! ## The first word and its group -/

theorem begins_of_isWord {m : List Char} (h : IsWord m) (s : List Char) : Begins (m ++ s) := by
  obtain ⟨c, r, rfl, hc, -⟩ := h
  intro d hd
  obtain rfl : c = d := by simpa using hd
  refine ⟨Text.isBlank_of_isAlphanum (by simp [Char.isAlphanum, hc]), ?_⟩
  rintro rfl
  exact absurd hc (by decide)

theorem slotOf_of_group {m block : List Char} (h : afterMarker line = m ++ '\x7b' :: block)
    (hm : IsWord m) (hno : '\x7d' ∉ block) :
    slotOf line = parameterSlot (String.ofList m) block := by
  have hall : (afterMarker line).all isTriggerChar = false := by
    rw [h, List.all_eq_false]
    exact ⟨'\x7b', by simp, by decide⟩
  simp [slotOf, hall, openGroup?_eq_some_iff.2 ⟨h, hm, hno⟩]

theorem leads_mechanic (line : List Char) : Leads slotOf line (.mechanic, afterMarker line) := by
  obtain ⟨a, hline, ha⟩ := exists_afterMarker line
  refine ⟨a, hline, fun choice hfit => ?_⟩
  have hhead : afterMarker (a ++ (choice.toList ++ ['\x7b'])) = choice.toList ++ ['\x7b'] := by
    rw [afterMarker_append (begins_of_isWord hfit _), ha, List.nil_append]
  have hinserted : (choice ++ suffixOf .mechanic).toList = choice.toList ++ ['\x7b'] := by
    simp [suffixOf, String.toList_append]
  rw [hinserted, slotOf_of_group hhead hfit List.not_mem_nil, String.ofList_toList]
  rfl

theorem parameterSlot_entry {mechanic : String} {key value : List Char} (hb : lastEntry b = [])
    (hblank : ∀ c ∈ key.head?, Text.isBlank c = false) (hkey : ';' ∉ key) (heq : '=' ∉ key)
    (hvalue : ';' ∉ value) :
    parameterSlot mechanic (b ++ (key ++ '=' :: value)) =
      (valueSlot mechanic (String.ofList (Text.trim key)), value) := by
  have hhead : ∀ c ∈ (key ++ '=' :: value).head?, Text.isBlank c = false := by
    cases key with
    | nil => simp [Text.isBlank]
    | cons d r => simpa using hblank
  have hentry : lastEntry (b ++ (key ++ '=' :: value)) = key ++ '=' :: value := by
    rw [lastEntry_append (by simp [hkey, hvalue]) hhead, hb, List.nil_append]
  simp only [parameterSlot, hentry, splitOnce_append heq, valueSlot]
  split <;> rfl

theorem leads_parameterSlot (mechanic : String) (block : List Char) :
    Leads (parameterSlot mechanic) block (parameterSlot mechanic block) := by
  obtain ⟨b, hblock, hb⟩ := exists_lastEntry block
  cases hsplit : Text.splitOnce '=' (lastEntry block) with
  | none =>
    have hslot : parameterSlot mechanic block = (.parameter mechanic, lastEntry block) := by
      simp [parameterSlot, hsplit]
    rw [hslot]
    refine ⟨b, hblock, fun choice hfit => ?_⟩
    obtain ⟨-, htrim, heq, hsemi, -, -⟩ := hfit
    have hinserted : (choice ++ suffixOf (.parameter mechanic)).toList =
        choice.toList ++ ['='] := by
      simp [suffixOf, String.toList_append]
    rw [hinserted, parameterSlot_entry hb (Text.isBlank_head_of_trim htrim) hsemi heq
      List.not_mem_nil, htrim, String.ofList_toList]
    rfl
  | some split =>
    obtain ⟨key, value⟩ := split
    obtain ⟨hentry, heq⟩ := splitOnce_eq_some hsplit
    have hsemi : ';' ∉ key ++ '=' :: value := hentry ▸ not_mem_lastEntry block
    have hblank : ∀ c ∈ key.head?, Text.isBlank c = false := by
      intro c hc
      have hhead := isBlank_head_lastEntry block
      rw [hentry] at hhead
      obtain ⟨r, rfl⟩ := List.head?_eq_some_iff.1 hc
      exact hhead c rfl
    -- The key stays as it is for every value, since its first `=` is the one that splits.
    have hslot {v : List Char} (hv : ';' ∉ v) :
        parameterSlot mechanic ((b ++ (key ++ ['='])) ++ v) =
          (valueSlot mechanic (String.ofList (Text.trim key)), v) := by
      rw [← parameterSlot_entry hb hblank (fun h => hsemi (List.mem_append_left _ h)) heq hv]
      simp
    have hsame : block = (b ++ (key ++ ['='])) ++ value := by
      rw [List.append_assoc, List.append_assoc, List.singleton_append, ← hentry]
      exact hblock
    rw [hsame, hslot fun h => hsemi (by simp [h])]
    exact leads_of_suffixOf (suffixOf_valueSlot ..) fun v hfit => hslot (fits_valueSlot.1 hfit).1

theorem leads_group {m block : List Char} (h : afterMarker line = m ++ '\x7b' :: block)
    (hm : IsWord m) (hno : '\x7d' ∉ block) :
    Leads slotOf line (parameterSlot (String.ofList m) block) := by
  obtain ⟨a, hline, ha⟩ := exists_afterMarker line
  have hleads := leads_parameterSlot (String.ofList m) block
  generalize parameterSlot (String.ofList m) block = place at hleads ⊢
  obtain ⟨b, rfl, hread⟩ := hleads
  refine ⟨a ++ (m ++ '\x7b' :: b), ?_, fun choice hfit => ?_⟩
  · rw [hline, h]
    simp
  · rw [← hread choice hfit]
    have hopen : '\x7d' ∉ b ++ (choice ++ suffixOf place.1).toList := by
      rw [List.mem_append, not_or]
      exact ⟨fun hmem => hno (List.mem_append_left _ hmem), not_mem_of_fits hfit (.inl rfl)⟩
    refine slotOf_of_group ?_ hm hopen
    rw [List.append_assoc, List.append_assoc, List.cons_append,
      afterMarker_append (begins_of_isWord hm _), ha, List.nil_append]

/-! ## Signs outside of groups -/

/-- The line is past its mechanic, and no group is open at its end. -/
structure Outside (line : List Char) : Prop where
  head : (afterMarker line).all isTriggerChar = false
  group : openGroup? (afterMarker line) = none
  targeter : openTargeter? line = none

/-- Outside of groups the sign before the last name decides. -/
theorem Outside.slotOf_eq (h : Outside line) :
    slotOf line = (((signed? '@' isNameChar line).map (Slot.targeter, ·)).or
      (((signed? '~' isTriggerChar line).map (Slot.trigger, ·)).or
        ((condition? line).map (Slot.condition, ·)))).getD (.none, []) := by
  simp only [slotOf, h.head, h.group, h.targeter, Bool.false_eq_true, if_false]
  cases signed? '@' isNameChar line with
  | some name => rfl
  | none =>
    cases signed? '~' isTriggerChar line with
    | some name => rfl
    | none => cases condition? line <;> rfl

/-- What follows a sign without a brace does not lead back into the mechanic or a group. -/
theorem Outside.replace {d : Char} {t : List Char} (h : Outside (a ++ d :: s))
    (hd : d = '@' ∨ d = '~' ∨ d = '?') (hs : NoBrace s) (ht : NoBrace t) :
    Outside (a ++ d :: t) := by
  have hsign : Text.isBlank d = false ∧ d ≠ '-' ∧ isTriggerChar d = false ∧
      '\x7b' ≠ d ∧ '\x7d' ≠ d := by
    rcases hd with rfl | rfl | rfl <;> decide
  obtain ⟨hblank, hdash, hchar, hopen, hclose⟩ := hsign
  have hmarker (u : List Char) : afterMarker (a ++ d :: u) = afterMarker a ++ d :: u :=
    afterMarker_append (by rintro c ⟨⟩; exact ⟨hblank, hdash⟩) a
  have hbraces {u : List Char} (hu : NoBrace u) : NoBrace (d :: u) :=
    ⟨by simp [hopen, hu.1], by simp [hclose, hu.2]⟩
  obtain ⟨-, hgroup, htargeter⟩ := h
  rw [hmarker] at hgroup
  refine ⟨?_, ?_, openTargeter?_replace (hbraces hs) (hbraces ht) htargeter⟩
  · rw [hmarker, List.all_eq_false]
    exact ⟨d, by simp, by simp [hchar]⟩
  · rw [hmarker]
    exact openGroup?_replace (hbraces hs) (hbraces ht) hgroup

theorem noBrace_of_isTriggerChar (h : ∀ c ∈ s, isTriggerChar c = true) : NoBrace s :=
  ⟨not_mem_of_all h (by decide), not_mem_of_all h (by decide)⟩

theorem leads_targeter {name : List Char} (h : Outside line)
    (hname : signed? '@' isNameChar line = some name) : Leads slotOf line (.targeter, name) := by
  have hsign : isNameChar '@' = false := by decide
  obtain ⟨a, rfl, hchars⟩ := (signed?_eq_some_iff hsign).1 hname
  rw [List.append_cons]
  refine leads_of_suffixOf rfl fun s hs => ?_
  have houtside := h.replace (.inl rfl)
    (noBrace_of_isTriggerChar fun c hc => isTriggerChar_of_isNameChar (hchars c hc))
    (noBrace_of_isTriggerChar fun c hc => isTriggerChar_of_isNameChar (hs c hc))
  have hsigned := (signed?_eq_some_iff hsign).2 ⟨a, rfl, hs⟩
  rw [← List.append_cons, houtside.slotOf_eq, hsigned]
  rfl

theorem leads_trigger {name : List Char} (h : Outside line)
    (hname : signed? '~' isTriggerChar line = some name) : Leads slotOf line (.trigger, name) := by
  have hsign : isTriggerChar '~' = false := by decide
  obtain ⟨a, rfl, hchars⟩ := (signed?_eq_some_iff hsign).1 hname
  rw [List.append_cons]
  refine leads_of_suffixOf rfl fun s hs => ?_
  have houtside := h.replace (.inr (.inl rfl)) (noBrace_of_isTriggerChar hchars)
    (noBrace_of_isTriggerChar hs)
  have hsigned := (signed?_eq_some_iff hsign).2 ⟨a, rfl, hs⟩
  have htargeter : signed? '@' isNameChar (a ++ '~' :: s) = none := by
    have hno : '@' ∉ s := not_mem_of_all hs (by decide)
    exact signed?_eq_none (by decide) (by decide) (by simp [hno]) a
  rw [← List.append_cons, houtside.slotOf_eq, htargeter, hsigned]
  rfl

theorem leads_condition {name : List Char} (h : Outside line)
    (hname : condition? line = some name) : Leads slotOf line (.condition, name) := by
  obtain ⟨a, bang, hbang, rfl, hchars⟩ := condition?_eq_some_iff.1 hname
  have hbrace {s : List Char} (hs : ∀ c ∈ s, isNameChar c = true) : NoBrace (bang ++ s) := by
    have hno := noBrace_of_isTriggerChar fun c hc => isTriggerChar_of_isNameChar (hs c hc)
    rcases hbang with rfl | rfl <;> simp [NoBrace, hno.1, hno.2]
  rw [← List.cons_append, ← List.append_assoc]
  refine leads_of_suffixOf rfl fun s hs => ?_
  have houtside := h.replace (.inr (.inr rfl)) (hbrace hchars) (hbrace hs)
  have hcondition := condition?_eq_some_iff.2 ⟨a, bang, hbang, rfl, hs⟩
  have hno : '@' ∉ s ∧ '~' ∉ s := ⟨not_mem_of_all hs (by decide), not_mem_of_all hs (by decide)⟩
  have htargeter : signed? '@' isNameChar (a ++ '?' :: (bang ++ s)) = none :=
    signed?_eq_none (by decide) (by decide) (by rcases hbang with rfl | rfl <;> simp [hno.1]) a
  have htrigger : signed? '~' isTriggerChar (a ++ '?' :: (bang ++ s)) = none :=
    signed?_eq_none (by decide) (by decide) (by rcases hbang with rfl | rfl <;> simp [hno.2]) a
  rw [List.append_assoc, List.cons_append, houtside.slotOf_eq, htargeter, htrigger, hcondition]
  rfl

theorem exists_of_openTargeter? {g : List Char × List Char} (h : openTargeter? line = some g) :
    ∃ a s, line = a ++ '@' :: s ∧ openGroup? s = some g := by
  induction line with
  | nil => cases h
  | cons c r ih =>
    rw [openTargeter?, Option.or_eq_some_iff] at h
    rcases h with hgroup | ⟨-, hlater⟩
    · split at hgroup
      · rename_i hc
        exact ⟨[], r, by rw [hc]; rfl, hgroup⟩
      · cases hgroup
    · obtain ⟨a, s, rfl, hs⟩ := ih hlater
      exact ⟨c :: a, s, rfl, hs⟩

theorem leads_targeterOption {t block : List Char} (h : openTargeter? line = some (t, block)) :
    Leads slotOf line (.targeterOption (String.ofList t), lastEntry block) := by
  obtain ⟨a, s, hline, hgroup⟩ := exists_of_openTargeter? h
  obtain ⟨rfl, -, -⟩ := openGroup?_eq_some_iff.1 hgroup
  obtain ⟨b, hblock, -⟩ := exists_lastEntry block
  refine ⟨a ++ '@' :: (t ++ '\x7b' :: b), ?_, fun _ hfit => hfit.elim⟩
  rw [hline, List.append_assoc, List.cons_append, List.append_assoc, List.cons_append, ← hblock]

theorem leads_none (line : List Char) : Leads slotOf line (.none, []) :=
  ⟨line, by simp, fun _ hfit => hfit.elim⟩

/-- A line ends with its query, and a choice that fits leads to the next slot. -/
theorem leads_slotOf (line : List Char) : Leads slotOf line (slotOf line) := by
  by_cases hall : (afterMarker line).all isTriggerChar = true
  · rw [slotOf, if_pos hall]
    exact leads_mechanic line
  rw [slotOf, if_neg hall]
  cases hgroup : openGroup? (afterMarker line) with
  | some g =>
    obtain ⟨m, block⟩ := g
    obtain ⟨hhead, hm, hno⟩ := openGroup?_eq_some_iff.1 hgroup
    exact leads_group hhead hm hno
  | none =>
    cases htargeter : openTargeter? line with
    | some g =>
      dsimp only
      split
      · exact leads_none line
      · exact leads_targeterOption htargeter
    | none =>
      dsimp only
      have houtside : Outside line := ⟨by simpa using hall, hgroup, htargeter⟩
      split
      · exact leads_targeter houtside ‹_›
      split
      · exact leads_trigger houtside ‹_›
      split
      · exact leads_condition houtside ‹_›
      · exact leads_none line

end MobSkills.Completion
