import MobSkills.Proofs.Number.Rounding

/-!
# Where the finite values end

A quotient has no nearest magnitude exactly from a bound on, which lies halfway between the
largest magnitude and the power of two after it. The significand of that power is even, so
the bound itself is too large already. A decimal obeys the same bound: the cuts by the
count of its digits only save the powers of ten.
-/
namespace MobSkills

-- Powers are those of core, as in the definitions.
attribute [local instance (high)] instPowNat instNatPowNat Int.instNatPow

/-! ## Rounding past an odd number -/

theorem le_roundDiv {num den n : Nat} (hd : 0 < den) (h : n * den ≤ num) :
    n ≤ roundDiv num den := by
  have hq : n ≤ num / den := (Nat.le_div_iff_mul_le hd).2 h
  unfold roundDiv
  grind

theorem roundDiv_le {num den n : Nat} (hd : 0 < den) (h : num < n * den) :
    roundDiv num den ≤ n := by
  have hq : num / den < n := (Nat.div_lt_iff_lt_mul hd).2 h
  unfold roundDiv
  grind

/-- Rounding goes past an odd number from halfway after it on. -/
theorem lt_roundDiv_iff {num den n : Nat} (hd : 0 < den) (hn : n % 2 = 1) :
    n < roundDiv num den ↔ (2 * n + 1) * den ≤ 2 * num := by
  have hbound : (2 * n + 1) * den = 2 * (n * den) + den := by
    rw [Nat.succ_mul, Nat.mul_assoc]
  rw [hbound]
  by_cases hlow : num < n * den
  · have := roundDiv_le hd hlow
    omega
  by_cases hhigh : (n + 1) * den ≤ num
  · have := le_roundDiv hd hhigh
    rw [Nat.succ_mul] at hhigh
    omega
  have hq : num / den = n := Nat.div_eq_of_lt_le (Nat.not_lt.1 hlow) (Nat.not_le.1 hhigh)
  have hr : n * den + num % den = num := by
    rw [← hq, Nat.mul_comm]
    exact Nat.div_add_mod num den
  unfold roundDiv
  rw [hq]
  grind

/-! ## Quotients without a magnitude -/

namespace Magnitude

section
variable {units den : Nat}

/-- Scaled by its exponent, a quotient is below the carry out of 53 bits. -/
theorem units_lt_scaled (hd : 0 < den) :
    units < 2 ^ (53 : Nat) * (den * 2 ^ ((units / den).log2 - 52)) := by
  have hlog : units / den < 2 ^ ((units / den).log2 + 1) := Nat.lt_log2_self
  have hpow : 2 ^ ((units / den).log2 + 1) ≤ 2 ^ (53 + ((units / den).log2 - 52)) :=
    Nat.pow_le_pow_right Nat.two_pos (by omega)
  have hlt := (Nat.div_lt_iff_lt_mul hd).1 (Nat.lt_of_lt_of_le hlog hpow)
  rwa [Nat.pow_add, Nat.mul_assoc, Nat.mul_comm _ den] at hlt

/-- Scaled by an exponent that is not the least one, a quotient has 53 bits. -/
theorem scaled_le_units (hd : 0 < den) (he : (units / den).log2 - 52 ≠ 0) :
    2 ^ (52 : Nat) * (den * 2 ^ ((units / den).log2 - 52)) ≤ units := by
  have hne : units / den ≠ 0 := by
    intro hzero
    rw [hzero, Nat.log2_zero] at he
    exact he rfl
  have hlog : 2 ^ (52 + ((units / den).log2 - 52)) ≤ units / den := by
    have hsum : 52 + ((units / den).log2 - 52) = (units / den).log2 := by omega
    rw [hsum]
    exact Nat.log2_self_le hne
  have hle := (Nat.le_div_iff_mul_le hd).1 hlog
  rwa [Nat.pow_add, Nat.mul_assoc, Nat.mul_comm _ den] at hle

theorem ofRounded?_eq_none_iff {significand exponent : Nat} (hle : significand ≤ 2 ^ (53 : Nat))
    (hnormal : exponent = 0 ∨ 2 ^ (52 : Nat) ≤ significand) :
    ofRounded? significand exponent = none ↔
      2045 < exponent ∨ exponent = 2045 ∧ 2 ^ (53 : Nat) - 1 < significand := by
  unfold ofRounded?
  split
  · simp only [reduceCtorEq, false_iff]
    omega
  split
  · simp only [reduceCtorEq, false_iff]
    omega
  · simp only [true_iff]
    omega

/-- A quotient rounds out of the exponents up to `top` exactly when it reaches the odd half
after the last of their significands. -/
theorem leaves_iff (hd : 0 < den) (top : Nat) :
    (top < (units / den).log2 - 52 ∨ (units / den).log2 - 52 = top ∧
        2 ^ (53 : Nat) - 1 < roundDiv units (den * 2 ^ ((units / den).log2 - 52))) ↔
      (2 ^ (54 : Nat) - 1) * (den * 2 ^ top) ≤ 2 * units := by
  have hpos (k : Nat) : 0 < den * 2 ^ k := Nat.mul_pos hd (Nat.two_pow_pos k)
  have hstep {i j : Nat} (h : i < j) : 2 * (den * 2 ^ i) ≤ den * 2 ^ j := by
    have hpow := Nat.mul_le_mul_left den (Nat.pow_le_pow_right Nat.two_pos h)
    rw [Nat.pow_succ, ← Nat.mul_assoc] at hpow
    omega
  have hupper : units < 2 ^ (53 : Nat) * (den * 2 ^ ((units / den).log2 - 52)) :=
    units_lt_scaled hd
  have hlower : (units / den).log2 - 52 ≠ 0 →
      2 ^ (52 : Nat) * (den * 2 ^ ((units / den).log2 - 52)) ≤ units := scaled_le_units hd
  generalize (units / den).log2 - 52 = e at hupper hlower ⊢
  rcases Nat.lt_trichotomy e top with h | h | h
  · have := hstep h
    have := hpos top
    omega
  · subst h
    have hhalf : 2 ^ (53 : Nat) - 1 < roundDiv units (den * 2 ^ e) ↔
        (2 * (2 ^ (53 : Nat) - 1) + 1) * (den * 2 ^ e) ≤ 2 * units :=
      lt_roundDiv_iff (hpos e) (by decide)
    have hnum : 2 * (2 ^ (53 : Nat) - 1) + 1 = 2 ^ (54 : Nat) - 1 := by decide
    rw [hnum] at hhalf
    simp [hhalf]
  · have := hstep h
    have := hlower (Nat.ne_of_gt (Nat.zero_lt_of_lt h))
    omega

end

/-- Halfway between the largest magnitude and the power of two after it. -/
def overflowBound : Nat :=
  (2 ^ (54 : Nat) - 1) * 2 ^ (970 : Nat)

/-- The exponents are left open, because powers of that size are not to be evaluated. -/
theorem scale_bound (den i j : Nat) :
    (2 ^ (54 : Nat) - 1) * (den * 2 ^ (i + (1 + j))) =
      2 * ((2 ^ (54 : Nat) - 1) * 2 ^ i * den * 2 ^ j) := by
  rw [Nat.pow_add, Nat.pow_add, Nat.pow_one]
  grind

theorem nearest?_eq_none_iff {num den : Nat} (hd : 0 < den) :
    nearest? num den = none ↔ overflowBound * den ≤ num := by
  have hpos := Nat.mul_pos hd (Nat.two_pow_pos ((num * 2 ^ (1074 : Nat) / den).log2 - 52))
  have hle := roundDiv_le hpos (units_lt_scaled hd)
  have hnormal := (Nat.eq_zero_or_pos _).imp_right fun he =>
    le_roundDiv hpos (scaled_le_units hd (Nat.ne_of_gt he))
  have hscale := scale_bound den 970 1074
  rw [show 970 + (1 + 1074) = 2045 from rfl, ← overflowBound] at hscale
  rw [nearest?, ofRounded?_eq_none_iff hle hnormal, leaves_iff hd, hscale,
    Nat.mul_le_mul_left_iff Nat.two_pos, Nat.mul_le_mul_right_iff (Nat.two_pow_pos 1074)]

end Magnitude

/-! ## Decimals without a magnitude -/

theorem digitCount_pos (n : Nat) : 0 < digitCount n :=
  List.length_pos_iff.2 Nat.toDigits_ne_nil

theorem pow_digitCount_le {n : Nat} (hn : n ≠ 0) : 10 ^ (digitCount n - 1) ≤ n := by
  by_cases hone : digitCount n - 1 = 0
  · rw [hone]
    exact Nat.pos_of_ne_zero hn
  · have hcount := digitCount_le_iff (n := n) (Nat.pos_of_ne_zero hone)
    omega

namespace Decimal
variable {d : Decimal}

/-- The digits of a decimal show how large it is at least. -/
theorem pow_le_ratio {k : Nat} (hc : d.coefficient ≠ 0)
    (hk : (k : Int) < digitCount d.coefficient + d.exponent) : 10 ^ k * d.ratio.2 ≤ d.ratio.1 := by
  obtain ⟨c, e⟩ := d
  have hlow := pow_digitCount_le hc
  have hpos := digitCount_pos c
  simp only at hk
  by_cases he : 0 ≤ e
  · rw [ratio_of_nonneg he, Nat.mul_one]
    calc 10 ^ k ≤ 10 ^ (digitCount c - 1 + e.toNat) :=
          Nat.pow_le_pow_right (by decide) (by omega)
      _ = 10 ^ (digitCount c - 1) * 10 ^ e.toNat := Nat.pow_add ..
      _ ≤ c * 10 ^ e.toNat := Nat.mul_le_mul_right _ hlow
  · rw [ratio_of_neg he]
    calc 10 ^ k * 10 ^ (-e).toNat = 10 ^ (k + (-e).toNat) := (Nat.pow_add ..).symm
      _ ≤ 10 ^ (digitCount c - 1) := Nat.pow_le_pow_right (by decide) (by omega)
      _ ≤ c := hlow

/-- A decimal whose digits all stand behind the point is below one. -/
theorem ratio_lt (h : (digitCount d.coefficient : Int) + d.exponent ≤ 0) :
    d.ratio.1 < d.ratio.2 := by
  obtain ⟨c, e⟩ := d
  have hpos := digitCount_pos c
  simp only at h
  have he : ¬ 0 ≤ e := by omega
  rw [ratio_of_neg he]
  calc c < 10 ^ digitCount c := (digitCount_le_iff hpos).1 (Nat.le_refl _)
    _ ≤ 10 ^ (-e).toNat := Nat.pow_le_pow_right (by decide) (by omega)

/-- A decimal has no nearest magnitude exactly from the bound on. -/
theorem nearest?_eq_none_iff (d : Decimal) :
    d.nearest? = none ↔ Magnitude.overflowBound * d.ratio.2 ≤ d.ratio.1 := by
  have hone : 1 ≤ Magnitude.overflowBound := by decide +kernel
  have hlarge : Magnitude.overflowBound ≤ 10 ^ (310 : Nat) := by decide +kernel
  have hsmall (h : d.ratio.1 < d.ratio.2) : ¬ Magnitude.overflowBound * d.ratio.2 ≤ d.ratio.1 := by
    have := Nat.le_mul_of_pos_left d.ratio.2 hone
    omega
  unfold nearest?
  by_cases hc : d.coefficient = 0
  · have hzero : d.ratio.1 = 0 := by
      unfold ratio
      split <;> simp [hc]
    have hpos := d.ratio_pos
    have hlt : d.ratio.1 < d.ratio.2 := by omega
    simp [hc, hsmall hlt]
  by_cases hmax : 310 < (digitCount d.coefficient : Int) + d.exponent
  · have hge := pow_le_ratio (k := 310) hc hmax
    have hbound := Nat.le_trans (Nat.mul_le_mul_right d.ratio.2 hlarge) hge
    simp [hc, hmax, hbound]
  by_cases hmin : (digitCount d.coefficient : Int) + d.exponent < -330
  · have hlt : d.ratio.1 < d.ratio.2 := ratio_lt (by omega)
    simp [hc, hmax, hmin, hsmall hlt]
  · simp [hc, hmax, hmin, Magnitude.nearest?_eq_none_iff d.ratio_pos]

theorem toBinary64_eq_infinity_iff (d : Decimal) (negative : Bool) :
    d.toBinary64 negative = .infinity negative ↔
      Magnitude.overflowBound * d.ratio.2 ≤ d.ratio.1 := by
  rw [← nearest?_eq_none_iff, toBinary64]
  cases d.nearest? <;> simp

theorem isFinite_toBinary64_iff (d : Decimal) (negative : Bool) :
    (d.toBinary64 negative).isFinite = true ↔ d.toBinary64 negative ≠ .infinity negative := by
  unfold toBinary64
  cases d.nearest? <;> simp [Binary64.isFinite]

end Decimal
end MobSkills
