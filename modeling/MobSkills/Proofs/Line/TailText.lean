import MobSkills.Proofs.Line.Tail
import MobSkills.Proofs.Line.ValueText

/-!
# Written health gates and chances

A health value is written as it was taken, with up to two minus signs before each of its
numbers, and a chance with a point. The chance must not be taken for the end of a range:
only a negative zero shows a sign, and after a range no further number is taken.
-/
namespace MobSkills

open Token (Spells Part IsLexeme IsNumeral parted_nil spaced part_spaced)
open Grammar
open Reading (inUnitRange)
open Binary64 (signText)

/-- A number after at most two minus signs. -/
def IsSigned (s : List Char) : Prop :=
  ∃ k numeral, k ≤ 2 ∧ IsNumeral numeral ∧ s = List.replicate k '-' ++ numeral

/-- A number after one or two minus signs. -/
def IsBound (s : List Char) : Prop :=
  ∃ k numeral, 1 ≤ k ∧ k ≤ 2 ∧ IsNumeral numeral ∧ s = List.replicate k '-' ++ numeral

/-- A range: a number and the bound that ends it. -/
def IsRange (s : List Char) : Prop :=
  ∃ low high, IsSigned low ∧ IsBound high ∧ s = low ++ high

def HealthGate.WellFormed (h : HealthGate) : Prop :=
  IsSigned h.value.toList ∨ IsRange h.value.toList

/-! ## The chance -/

/-- A value from zero to one is finite, and has a sign only as a zero. -/
theorem exists_finite_of_inUnitRange {x : Binary64} (h : inUnitRange x = true) :
    ∃ negative m, x = .finite negative m ∧ (negative = true → m = .zero) := by
  cases x with
  | nan => cases h
  | infinity negative =>
    have hno : inUnitRange (.infinity negative) = false := by
      cases negative <;> decide +kernel
    rw [hno] at h
    cases h
  | finite negative m =>
    refine ⟨negative, m, rfl, ?_⟩
    rintro rfl
    have hle : Binary64.le .zero (.finite true m) = true := (Bool.and_eq_true_iff.1 h).1
    have hunits : (0 : Int) ≤ -m.units := by
      simpa [Binary64.le, Binary64.orderKey?, Binary64.zero, Magnitude.units, Magnitude.zero]
        using hle
    apply Magnitude.eq_zero_of_significand
    by_contra hm
    have hpos := Magnitude.units_pos hm
    omega

theorem spells_chance {x : Binary64} (h : inUnitRange x = true) :
    Spells x.pointed fun ts => ChanceOf ts x ∧
      (x ≠ .finite true .zero → ∀ u ∈ ts, u.text.toList.head? ≠ some '-') := by
  obtain ⟨negative, m, rfl, hm⟩ := exists_finite_of_inUnitRange h
  obtain ⟨hlex, hp, hs, hread, hhead⟩ := Binary64.pointed_lexeme negative m
  refine .single hlex fun t hk ht => ⟨?_, ?_⟩
  · rw [← ht] at hp hs hread
    exact .mk hk hp hs hread h
  · intro hx u hu
    obtain rfl := List.mem_singleton.1 hu
    rw [ht]
    cases negative with
    | false => exact hhead rfl
    | true => exact absurd (by rw [hm rfl]) hx

theorem part_chance {chance : Option Binary64} (h : ∀ x ∈ chance, inUnitRange x = true) :
    Part (spaced (chance.map Binary64.pointed).toList) fun ts => Maybe ChanceOf ts chance ∧
      (chance ≠ some (.finite true .zero) → ∀ u ∈ ts, u.text.toList.head? ≠ some '-') := by
  cases chance with
  | none => exact ⟨.nil ⟨.absent, fun _ u hu => by cases hu⟩, parted_nil⟩
  | some x =>
    apply (part_spaced (spells_chance (h x rfl))).mono
    intro ts hts
    obtain ⟨hc, hsign⟩ := hts
    exact ⟨.present hc, fun hx => hsign fun he => hx (congrArg some he)⟩

/-! ## Numbers with signs -/

/-- A text of a number with up to two minus signs spells the number as it is written:
two signs are one sign and a negative number. -/
theorem spells_signed {s b : List Char} {Q R : List Token → Prop} (h : IsSigned s)
    (hb : Spells b Q) (hs : Token.Stops .number b)
    (hr : ∀ us vs text, SignedOf us text → text.toList = s → Q vs → R (us ++ vs)) :
    Spells (s ++ b) R := by
  obtain ⟨k, numeral, hk, hn, rfl⟩ := h
  have hplain : IsLexeme .number numeral :=
    Token.isLexeme_number_iff.2 ⟨false, numeral, rfl, hn⟩
  have hminus : IsLexeme .number ('-' :: numeral) :=
    Token.isLexeme_number_iff.2 ⟨true, numeral, rfl, hn⟩
  have hcount : k = 0 ∨ k = 1 ∨ k = 2 := by omega
  rcases hcount with rfl | rfl | rfl
  · refine .lexeme hplain hb hs fun t vs ht htext hq => ?_
    exact hr [t] vs t.text (.plain ht) htext hq
  · refine .lexeme hminus hb hs fun t vs ht htext hq => ?_
    exact hr [t] vs t.text (.plain ht) htext hq
  · have hrest : Spells ('-' :: numeral ++ b) fun us => ∃ t vs, us = t :: vs ∧
        t.kind = .number ∧ t.text.toList = '-' :: numeral ∧ Q vs :=
      .lexeme hminus hb hs fun t vs ht htext hq => ⟨t, vs, rfl, ht, htext, hq⟩
    have hstops : Token.Stops .minus ('-' :: numeral ++ b) := by
      intro c hc
      cases hc
      rfl
    refine .lexeme (s := ['-']) (Token.isLexeme_symbol rfl) hrest hstops ?_
    intro m _ hm _ h
    obtain ⟨t, vs, rfl, ht, htext, hq⟩ := h
    refine hr [m, t] vs ("-" ++ t.text) (.minus hm ht) ?_ hq
    simp [String.toList_append, htext]

theorem IsBound.isSigned {s : List Char} (h : IsBound s) : IsSigned s := by
  obtain ⟨k, numeral, -, hk, hn, hs⟩ := h
  exact ⟨k, numeral, hk, hn, hs⟩

theorem IsBound.exists_cons {s : List Char} (h : IsBound s) : ∃ r, s = '-' :: r := by
  obtain ⟨k, numeral, hk, -, -, rfl⟩ := h
  obtain ⟨k, rfl⟩ : ∃ i, k = i + 1 := ⟨k - 1, by omega⟩
  exact ⟨List.replicate k '-' ++ numeral, rfl⟩

theorem IsBound.stops {s : List Char} (h : IsBound s) (b : List Char) :
    Token.Stops .number (s ++ b) := by
  obtain ⟨r, rfl⟩ := h.exists_cons
  intro d hd
  cases hd
  decide

theorem spells_bound {s b : List Char} {Q : List Token → Prop} (h : IsBound s) (hb : Spells b Q)
    (hs : Token.Stops .number b) :
    Spells (s ++ b) fun ts => ∃ us vs text, ts = us ++ vs ∧ BoundOf us text ∧
      text.toList = s ∧ Q vs := by
  obtain ⟨r, hr⟩ := h.exists_cons
  apply spells_signed h.isSigned hb hs
  intro us vs text hus htext hq
  have hhead : text.toList.head? = some '-' := by
    rw [htext, hr]
    rfl
  exact ⟨us, vs, text, rfl, ⟨hus, hhead⟩, htext, hq⟩

/-! ## The health gate and what follows it -/

section
variable {c : Comparison} {value : String} {chance : Option Binary64} {b : List Char}

theorem signOf_symbol {Q R : List Token → Prop} (hb : Spells b Q)
    (hr : ∀ t vs, SignOf t.kind c → Q vs → R (t :: vs)) : Spells (c.symbol :: b) R := by
  cases c with
  | below => exact .symbol rfl (by decide) hb fun t vs ht hq => hr t vs (ht ▸ .below) hq
  | equal => exact .symbol rfl (by decide) hb fun t vs ht hq => hr t vs (ht ▸ .equal) hq
  | above => exact .symbol rfl (by decide) hb fun t vs ht hq => hr t vs (ht ▸ .above) hq

/-- After a single number, a chance must not show a sign. -/
theorem spells_single (hv : IsSigned value.toList)
    (hb : Part b fun ts => Maybe ChanceOf ts chance ∧
      ∀ u ∈ ts, u.text.toList.head? ≠ some '-') :
    Spells (c.symbol :: (value.toList ++ b)) fun ts => TailOf ts (some ⟨c, value⟩) chance := by
  have hamount : Spells (value.toList ++ b) fun ts => ∃ us ws, ts = us ++ ws ∧
      SignedOf us value ∧ Maybe ChanceOf ws chance ∧
        ∀ u ∈ ws, u.text.toList.head? ≠ some '-' := by
    apply spells_signed hv hb.spells (hb.parted.stops _)
    intro us ws text hus htext h
    obtain ⟨hws, hn⟩ := h
    obtain rfl : text = value := String.toList_injective htext
    exact ⟨us, ws, rfl, hus, hws, hn⟩
  apply signOf_symbol hamount
  intro t _ ht h
  obtain ⟨us, ws, rfl, hus, hws, hn⟩ := h
  exact .single ht hus hws hn

/-- After a range, any chance may follow. -/
theorem spells_range (hv : IsRange value.toList) (hb : Part b fun ts => Maybe ChanceOf ts chance) :
    Spells (c.symbol :: (value.toList ++ b)) fun ts => TailOf ts (some ⟨c, value⟩) chance := by
  obtain ⟨low, high, hlow, hhigh, hvalue⟩ := hv
  have hbound := spells_bound hhigh hb.spells (hb.parted.stops _)
  have hamount : Spells (value.toList ++ b) fun ts => ∃ us vs ws low high,
      ts = us ++ (vs ++ ws) ∧ SignedOf us low ∧ BoundOf vs high ∧ low ++ high = value ∧
        Maybe ChanceOf ws chance := by
    rw [hvalue, List.append_assoc]
    apply spells_signed hlow hbound (hhigh.stops b)
    intro us _ lowText hus hlowText h
    obtain ⟨vs, ws, highText, rfl, hvs, hhighText, hws⟩ := h
    refine ⟨us, vs, ws, lowText, highText, rfl, hus, hvs, ?_, hws⟩
    apply String.toList_injective
    rw [String.toList_append, hlowText, hhighText, hvalue]
  apply signOf_symbol hamount
  intro t _ ht h
  obtain ⟨us, vs, ws, low, high, rfl, hus, hvs, rfl, hws⟩ := h
  exact .range ht hus hvs hws

end

/-- The health gate and the chance keep apart: a chance without a sign cannot be taken
for the end of a range. -/
theorem part_tail {health : Option HealthGate} {chance : Option Binary64}
    (hh : ∀ h ∈ health, h.WellFormed)
    (hx : ∀ x ∈ chance, inUnitRange x = true ∧
      (x = .finite true .zero → ∀ h ∈ health, IsRange h.value.toList)) :
    Part (spaced (health.map fun h => h.comparison.symbol :: h.value.toList).toList ++
      spaced (chance.map Binary64.pointed).toList) fun ts => TailOf ts health chance := by
  have hchance := part_chance fun x h => (hx x h).1
  cases health with
  | none => exact hchance.mono fun ts h => .bare h.1
  | some gate =>
    obtain ⟨c, value⟩ := gate
    have hform : HealthGate.WellFormed ⟨c, value⟩ := hh _ rfl
    have hspaced : spaced (Option.map (fun h : HealthGate => h.comparison.symbol :: h.value.toList)
        (some ⟨c, value⟩)).toList = ' ' :: c.symbol :: value.toList := by
      simp [spaced]
    rw [hspaced]
    refine .gap rfl ?_
    show Spells (c.symbol :: (value.toList ++ spaced (chance.map Binary64.pointed).toList)) _
    by_cases hrange : IsRange value.toList
    · exact spells_range hrange (hchance.mono fun ts h => h.1)
    · have hsigned := hform.resolve_right hrange
      have hsign : chance ≠ some (.finite true .zero) := by
        rintro rfl
        exact hrange ((hx _ rfl).2 rfl _ rfl)
      exact spells_single hsigned (hchance.mono fun ts h => ⟨h.1, h.2 hsign⟩)

/-! ## Health and chance that were read -/

theorem exists_signText {n : Token} (h : IsLexeme n.kind n.text.toList) (hk : n.kind = .number) :
    ∃ negative numeral, n.text.toList = signText negative ++ numeral ∧ IsNumeral numeral := by
  rw [hk] at h
  exact Token.isLexeme_number_iff.1 h

theorem signText_eq_replicate (negative : Bool) :
    ∃ k, k ≤ 1 ∧ signText negative = List.replicate k '-' := by
  cases negative with
  | false => exact ⟨0, by decide, rfl⟩
  | true => exact ⟨1, by decide, rfl⟩

theorem isSigned_of_signedOf {ts : List Token} {text : String} (h : SignedOf ts text)
    (hl : ∀ t ∈ ts, IsLexeme t.kind t.text.toList) : IsSigned text.toList := by
  cases h with
  | @plain n hn =>
    obtain ⟨negative, numeral, htext, hnum⟩ := exists_signText (hl n (by simp)) hn
    obtain ⟨k, hk, hsign⟩ := signText_eq_replicate negative
    exact ⟨k, numeral, by omega, hnum, by rw [htext, hsign]⟩
  | @minus m n hm hn =>
    obtain ⟨negative, numeral, htext, hnum⟩ := exists_signText (hl n (by simp)) hn
    obtain ⟨k, hk, hsign⟩ := signText_eq_replicate negative
    refine ⟨k + 1, numeral, by omega, hnum, ?_⟩
    rw [String.toList_append, htext, hsign, List.replicate_succ]
    rfl

theorem isBound_of_boundOf {ts : List Token} {text : String} (h : BoundOf ts text)
    (hl : ∀ t ∈ ts, IsLexeme t.kind t.text.toList) : IsBound text.toList := by
  obtain ⟨k, numeral, hk, hnum, htext⟩ := isSigned_of_signedOf h.1 hl
  refine ⟨k, numeral, ?_, hk, hnum, htext⟩
  -- without a sign the text would start with a digit
  by_contra hzero
  obtain rfl : k = 0 := by omega
  obtain ⟨c, r, rfl, hc, -⟩ := Token.exists_cons_of_isNumeral hnum
  have hhead := h.2
  rw [htext] at hhead
  obtain rfl : c = '-' := by simpa using hhead
  cases hc

/-- A chance written without a sign has none. -/
theorem chance_ne_negative_zero {t : Token} {x : Binary64} (h : ChanceOf [t] x)
    (hl : IsLexeme t.kind t.text.toList) (hsign : t.text.toList.head? ≠ some '-') :
    x ≠ .finite true .zero := by
  cases h with
  | mk hk _ _ hread _ =>
    obtain ⟨negative, numeral, htext, hnum⟩ := exists_signText hl hk
    obtain ⟨c, r, rfl, hc, -⟩ := Token.exists_cons_of_isNumeral hnum
    cases negative with
    | true =>
      rw [htext] at hsign
      exact absurd rfl hsign
    | false =>
      rw [htext, Binary64.read?_signText false hc] at hread
      obtain ⟨d, -, rfl⟩ := Option.map_eq_some_iff.1 hread
      unfold Decimal.toBinary64
      split <;> simp

theorem inUnitRange_of_chanceOf {ts : List Token} {chance : Option Binary64}
    (h : Maybe ChanceOf ts chance) : ∀ x ∈ chance, inUnitRange x = true := by
  intro x hx
  cases h with
  | absent => cases hx
  | present h =>
    cases hx
    cases h with
    | mk _ _ _ _ hr => exact hr

theorem health_of_tailOf {ts : List Token} {health : Option HealthGate} {chance : Option Binary64}
    (h : TailOf ts health chance) (hl : ∀ t ∈ ts, IsLexeme t.kind t.text.toList) :
    (∀ h ∈ health, h.WellFormed) ∧ ∀ x ∈ chance, inUnitRange x = true ∧
      (x = .finite true .zero → ∀ h ∈ health, IsRange h.value.toList) := by
  cases h with
  | bare hc =>
    have hunit := inUnitRange_of_chanceOf hc
    exact ⟨by simp, fun x hx => ⟨hunit x hx, by simp⟩⟩
  | @single t ts cs c low chance ht hs hc hn =>
    have hunit := inUnitRange_of_chanceOf hc
    have hsigned := isSigned_of_signedOf hs fun t ht => hl t (by simp [ht])
    refine ⟨?_, fun x hx => ⟨hunit x hx, fun hz => ?_⟩⟩
    · intro _ h
      cases h
      exact .inl hsigned
    · cases hc with
      | absent => cases hx
      | present hc =>
        cases hx
        cases hc with
        | @mk u _ hk hp hs hread hr =>
          refine absurd hz (chance_ne_negative_zero (.mk hk hp hs hread hr) (hl u (by simp)) ?_)
          exact hn u (List.mem_singleton.2 rfl)
  | @range t ts us cs c low high chance ht hs hu hc =>
    have hunit := inUnitRange_of_chanceOf hc
    have hlow := isSigned_of_signedOf hs fun t ht => hl t (by simp [ht])
    have hhigh := isBound_of_boundOf hu fun t ht => hl t (by simp [ht])
    have hrange : IsRange (low ++ high).toList :=
      ⟨low.toList, high.toList, hlow, hhigh, String.toList_append ..⟩
    refine ⟨?_, fun x hx => ⟨hunit x hx, ?_⟩⟩
    · intro _ h
      cases h
      exact .inr hrange
    · rintro - _ ⟨⟩
      exact hrange

end MobSkills
