import MobSkills.Proofs.Json.Syntax

/-!
# Numbers of integers and of reals

An integer is written without a point and without an exponent, and a finite real with one of
them: this alone tells the two apart when they are read. The digits of a real stand for a
decimal that rounds to it. So rounding once reads every finite real back, which is more than
the running reader does: that one rounds its digits, its power of ten and their product.
-/
namespace MobSkills

-- Powers are those of core, as in the definitions.
attribute [local instance (high)] instPowNat instNatPowNat Int.instNatPow

namespace JsonNumber

/-! ## Leading digits -/

theorem toDigits_start {n : Nat} (hn : n ≠ 0) : ∃ c r, Nat.toDigits 10 n = c :: r ∧ c ≠ '0' := by
  induction n using Nat.strong_induction_on with
  | h n ih =>
    by_cases hsmall : n < 10
    · have hdigit : ∀ k < 10, k ≠ 0 → Nat.toDigits 10 k = [Nat.digitChar k] ∧
          Nat.digitChar k ≠ '0' := by decide
      obtain ⟨heq, hne⟩ := hdigit n hsmall hn
      exact ⟨_, [], heq, hne⟩
    · obtain ⟨c, r, hc, hne⟩ := ih (n / 10) (by omega) (by omega)
      have hlast := Nat.toDigits_append_toDigits (b := 10) (n := n / 10) (d := n % 10) (by decide)
        (by omega) (Nat.mod_lt n (by decide))
      rw [Nat.div_add_mod, hc] at hlast
      exact ⟨c, _, hlast.symm, hne⟩

theorem noLeadingZero_toDigits (n : Nat) : NoLeadingZero (Nat.toDigits 10 n) := by
  by_cases hn : n = 0
  · rw [hn]
    exact .inl rfl
  · exact .inr (toDigits_start hn)

theorem noLeadingZero_take {s : List Char} (h : ∃ c r, s = c :: r ∧ c ≠ '0') {k : Nat}
    (hk : 0 < k) : NoLeadingZero (s.take k) := by
  obtain ⟨c, r, rfl, hc⟩ := h
  obtain ⟨k, rfl⟩ := Nat.exists_eq_add_one.2 hk
  exact .inr ⟨c, r.take k, rfl, hc⟩

/-! ## Integers -/

theorem wellFormed_ofInt (i : Int) : (ofInt i).WellFormed :=
  ⟨AllDigits.toDigits _, noLeadingZero_toDigits _, AllDigits.nil⟩

theorem integer?_ofInt (i : Int) : (ofInt i).integer? = some i := by
  simp only [integer?, ofInt, digitsValue_toDigits, List.isEmpty_nil, Option.isNone_none,
    Bool.and_self, ↓reduceIte, decide_eq_true_eq, Option.some.injEq]
  omega

theorem toInt64?_ofInt (i : Int64) : (ofInt i.toInt).toInt64? = some i := by
  have hlow : -2 ^ (63 : Nat) ≤ i.toInt := Int64.le_toInt i
  have hhigh : i.toInt < 2 ^ (63 : Nat) := Int64.toInt_lt i
  have hzero : ¬ ((ofInt i.toInt).negative = true ∧ i.toInt = 0) := by
    simp only [ofInt, decide_eq_true_eq]
    omega
  simp only [toInt64?, integer?_ofInt]
  rw [if_pos ⟨hlow, hhigh, hzero⟩, Int64.ofInt_toInt]

/-! ## Reals -/

/-- How a finite real is written: as zero, in positional notation, or with an exponent after
its first digit. -/
theorem ofFinite_cases (negative : Bool) (m : Magnitude) :
    ((m.shortest .toEven).coefficient = 0 ∧
      ofFinite negative m = ⟨negative, ['0'], ['0'], none⟩) ∨
    (∃ whole fraction, (m.shortest .toEven).Positional whole fraction ∧ NoLeadingZero whole ∧
      ofFinite negative m = ⟨negative, whole, fraction, none⟩) ∨
    (∃ c r, Nat.toDigits 10 (m.shortest .toEven).coefficient = c :: r ∧ c ≠ '0' ∧
      ofFinite negative m =
        ⟨negative, [c], r, some (r.length + (m.shortest .toEven).exponent)⟩) := by
  -- Only that the digits of the decimal begin with no zero matters from here on.
  unfold ofFinite
  generalize m.shortest .toEven = d
  obtain ⟨coefficient, exponent⟩ := d
  by_cases hzero : coefficient = 0
  · exact .inl ⟨hzero, if_pos hzero⟩
  obtain ⟨c, r, hdigits, hc⟩ := toDigits_start hzero
  have hstart : ∃ c r, Nat.toDigits 10 coefficient = c :: r ∧ c ≠ '0' := ⟨c, r, hdigits, hc⟩
  simp only [hzero, ↓reduceIte]
  by_cases hsize : -5 ≤ ((Nat.toDigits 10 coefficient).length : Int) - 1 + exponent ∧
      ((Nat.toDigits 10 coefficient).length : Int) - 1 + exponent < 16
  · rw [if_pos hsize]
    refine .inr (.inl ?_)
    by_cases hwhole : 0 ≤ exponent
    · rw [if_pos hwhole]
      refine ⟨_, _, Decimal.positional_zeros coefficient hwhole, .inr ?_, rfl⟩
      exact ⟨c, r ++ List.replicate exponent.toNat '0', by rw [hdigits, List.cons_append], hc⟩
    rw [if_neg hwhole]
    by_cases hplaces : (-exponent).toNat < (Nat.toDigits 10 coefficient).length
    · rw [if_pos hplaces]
      exact ⟨_, _, Decimal.positional_split hwhole hplaces,
        noLeadingZero_take hstart (Nat.sub_pos_of_lt hplaces), rfl⟩
    · rw [if_neg hplaces]
      exact ⟨_, _, Decimal.positional_leading hwhole hplaces, .inl rfl, rfl⟩
  · rw [if_neg hsize]
    refine .inr (.inr ⟨c, r, hdigits, hc, ?_⟩)
    have hlength : ((c :: r).length : Int) - 1 + exponent = r.length + exponent := by
      simp only [List.length_cons]
      omega
    rw [hdigits, hlength]
    rfl

theorem negative_ofFinite (negative : Bool) (m : Magnitude) :
    (ofFinite negative m).negative = negative := by
  obtain ⟨-, heq⟩ | ⟨_, _, -, -, heq⟩ | ⟨_, _, -, -, heq⟩ := ofFinite_cases negative m <;>
    rw [heq]

theorem wellFormed_ofFinite (negative : Bool) (m : Magnitude) :
    (ofFinite negative m).WellFormed := by
  obtain ⟨-, heq⟩ | ⟨whole, fraction, hpositional, hstart, heq⟩ | ⟨c, r, hdigits, hc, heq⟩ :=
    ofFinite_cases negative m
  · rw [heq]
    exact ⟨AllDigits.zeros 1, .inl rfl, AllDigits.zeros 1⟩
  · rw [heq]
    exact ⟨hpositional.whole_digits, hstart, hpositional.fraction_digits⟩
  · have hall : AllDigits (c :: r) := hdigits ▸ AllDigits.toDigits _
    rw [heq]
    exact ⟨hall.take 1, .inr ⟨c, [], rfl, hc⟩, hall.drop 1⟩

/-- A real is never written as an integer. -/
theorem toInt64?_ofFinite (negative : Bool) (m : Magnitude) :
    (ofFinite negative m).toInt64? = none := by
  have hinteger : (ofFinite negative m).integer? = none := by
    obtain ⟨-, heq⟩ | ⟨whole, fraction, hpositional, -, heq⟩ | ⟨c, r, -, -, heq⟩ :=
      ofFinite_cases negative m
    · rw [heq]
      rfl
    · rw [heq]
      simp [integer?, hpositional.fraction_ne]
    · rw [heq]
      simp [integer?]
  rw [toInt64?, hinteger]

/-! ## Rounding once -/

/-- The decimal that a number is, apart from its sign. -/
def decimal (n : JsonNumber) : Decimal :=
  ⟨digitsValue (n.whole ++ n.fraction), n.exponent.getD 0 - n.fraction.length⟩

/-- The real nearest to a number. -/
def toNearest? (n : JsonNumber) : Option Binary64 :=
  n.decimal.nearest?.map (.finite n.negative)

theorem nearest?_decimal_ofFinite (negative : Bool) (m : Magnitude) :
    (ofFinite negative m).decimal.nearest? = some m := by
  have hshortest := Magnitude.nearest?_shortest .toEven m
  obtain ⟨hzero, heq⟩ | ⟨whole, fraction, hpositional, -, heq⟩ | ⟨c, r, hdigits, -, heq⟩ :=
    ofFinite_cases negative m
  · rw [Decimal.nearest?, if_pos hzero] at hshortest
    rw [heq, ← hshortest]
    rfl
  · obtain ⟨k, hk⟩ := hpositional.exists_expand
    have hdecimal : (⟨negative, whole, fraction, none⟩ : JsonNumber).decimal =
        (m.shortest .toEven).expand k := by
      rw [← hk, decimal, Option.getD_none, Int.zero_sub]
    rw [heq, hdecimal, Decimal.nearest?_expand, hshortest]
  · have hdecimal : (⟨negative, [c], r, some (r.length + (m.shortest .toEven).exponent)⟩ :
        JsonNumber).decimal = m.shortest .toEven := by
      rw [decimal, List.singleton_append, ← hdigits, digitsValue_toDigits, Option.getD_some,
        Int.add_comm, Int.add_sub_cancel]
    rw [heq, hdecimal, hshortest]

theorem toNearest?_ofFinite (negative : Bool) (m : Magnitude) :
    toNearest? (ofFinite negative m) = some (.finite negative m) := by
  rw [toNearest?, nearest?_decimal_ofFinite, Option.map_some, negative_ofFinite]

end JsonNumber
end MobSkills
