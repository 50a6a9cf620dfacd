import MobSkills.Number.Shortest

/-!
# Rounding depends on the value alone

A quotient rounds the same way however it is expanded, and a decimal rounds the
same way however many zeros its coefficient ends with. The exact expansion of a
magnitude rounds to it, so the shortest decimal does too.
-/
namespace MobSkills

-- Powers are those of core, as in the definitions.
attribute [local instance (high)] instPowNat instNatPowNat Int.instNatPow

theorem pow_mul_pow (b : Nat) {i j k : Nat} (h : i + j = k) : b ^ i * b ^ j = b ^ k := by
  rw [← Nat.pow_add, h]

theorem mul_two_pow_lt {n i j k : Nat} (hn : n < 2 ^ k) (hi : i ≤ j) :
    n * 2 ^ i < 2 ^ k * 2 ^ j := by
  have hlt : n * 2 ^ i < 2 ^ k * 2 ^ i := Nat.mul_lt_mul_of_pos_right hn (Nat.two_pow_pos i)
  have hle : 2 ^ k * 2 ^ i ≤ 2 ^ k * 2 ^ j :=
    Nat.mul_le_mul_left _ (Nat.pow_le_pow_right Nat.two_pos hi)
  exact Nat.lt_of_lt_of_le hlt hle

theorem roundDiv_mul_left {k : Nat} (hk : 0 < k) (num den : Nat) :
    roundDiv (k * num) (k * den) = roundDiv num den := by
  have hq : k * num / (k * den) = num / den := Nat.mul_div_mul_left num den hk
  have hr : 2 * (k * num % (k * den)) = k * (2 * (num % den)) := by
    rw [Nat.mul_mod_mul_left, Nat.mul_left_comm]
  unfold roundDiv
  rw [hq, hr]
  simp only [Nat.mul_lt_mul_left hk]

theorem roundDiv_exact {den : Nat} (hd : 0 < den) (n : Nat) : roundDiv (n * den) den = n := by
  have hq : n * den / den = n := Nat.mul_div_cancel n hd
  have hr : n * den % den = 0 := Nat.mul_mod_left n den
  simp only [roundDiv, hq, hr, Nat.mul_zero, hd, ↓reduceIte]

namespace Magnitude

theorem nearest?_mul_left {k : Nat} (hk : 0 < k) (num den : Nat) :
    nearest? (k * num) (k * den) = nearest? num den := by
  have hu : k * num * 2 ^ (1074 : Nat) = k * (num * 2 ^ (1074 : Nat)) := Nat.mul_assoc ..
  have hq : k * (num * 2 ^ (1074 : Nat)) / (k * den) = num * 2 ^ (1074 : Nat) / den :=
    Nat.mul_div_mul_left _ _ hk
  simp only [nearest?, hu, hq, Nat.mul_assoc k den, roundDiv_mul_left hk]

/-- Equal quotients have the same nearest magnitude. -/
theorem nearest?_congr {num den num' den' : Nat} (hd : 0 < den) (hd' : 0 < den')
    (h : num * den' = num' * den) : nearest? num den = nearest? num' den' := by
  rw [← nearest?_mul_left hd' num den, ← nearest?_mul_left hd num' den']
  have hn : den' * num = den * num' := by rw [Nat.mul_comm, h, Nat.mul_comm]
  rw [hn, Nat.mul_comm den' den]

theorem nearest?_mul_five_pow (n k : Nat) : nearest? (n * 5 ^ k) (10 ^ k) = nearest? n (2 ^ k) := by
  apply nearest?_congr (Nat.pow_pos (by decide)) (Nat.two_pow_pos k)
  rw [Nat.mul_assoc, ← Nat.mul_pow]

theorem log2_units (m : Magnitude) : m.units.log2 - 52 = m.exponent := by
  have hlt := m.significand_lt
  rcases m.canonical with he | hn
  · have hu : m.units = m.significand := by rw [units, he, Nat.pow_zero, Nat.mul_one]
    rw [hu, he]
    by_cases hz : m.significand = 0
    · rw [hz, Nat.log2_zero]
    · have := (Nat.log2_lt hz).2 hlt
      omega
  · have hpos : 0 < 2 ^ m.exponent := Nat.pow_pos (by decide)
    have hne : m.units ≠ 0 := Nat.mul_ne_zero (by omega) (by omega)
    have hlow : 52 + m.exponent ≤ m.units.log2 := by
      rw [Nat.le_log2 hne, Nat.pow_add]
      exact Nat.mul_le_mul_right _ hn
    have hhigh : m.units.log2 < 53 + m.exponent := by
      rw [Nat.log2_lt hne, Nat.pow_add]
      exact Nat.mul_lt_mul_of_pos_right hlt hpos
    omega

/-- The scale is any one, because the power of two that it is is not to be evaluated. -/
theorem roundDiv_units (m : Magnitude) {scale : Nat} (hs : 0 < scale) :
    roundDiv (m.units * scale) (scale * 2 ^ m.exponent) = m.significand := by
  have hunits : m.units * scale = m.significand * (scale * 2 ^ m.exponent) := by
    rw [units, Nat.mul_assoc, Nat.mul_comm (2 ^ m.exponent)]
  rw [hunits, roundDiv_exact (Nat.mul_pos hs (Nat.two_pow_pos m.exponent))]

theorem nearest?_units (m : Magnitude) : nearest? m.units (2 ^ (1074 : Nat)) = some m := by
  have hs := Nat.two_pow_pos 1074
  rw [nearest?, Nat.mul_div_cancel _ hs, log2_units, roundDiv_units m hs, ofRounded?,
    dif_pos ⟨m.significand_lt, m.exponent_le, m.canonical⟩]

end Magnitude

theorem digitCount_le_iff {n k : Nat} (hk : 0 < k) : digitCount n ≤ k ↔ n < 10 ^ k :=
  Nat.length_toDigits_le_iff (by decide) hk

theorem digitCount_mul_ten {n : Nat} (hn : 0 < n) : digitCount (n * 10) = digitCount n + 1 := by
  have hdigits := Nat.toDigits_append_toDigits (show 1 < 10 by decide) hn (show 0 < 10 by decide)
  rw [Nat.add_zero, Nat.mul_comm] at hdigits
  rw [digitCount, ← hdigits, List.length_append, Nat.toDigits_zero]
  rfl

theorem digitCount_mul_pow {n : Nat} (hn : 0 < n) (k : Nat) :
    digitCount (n * 10 ^ k) = digitCount n + k := by
  induction k with
  | zero => simp
  | succ k ih =>
    have hpos : 0 < n * 10 ^ k := Nat.mul_pos hn (Nat.pow_pos (by decide))
    rw [Nat.pow_succ, ← Nat.mul_assoc, digitCount_mul_ten hpos, ih, Nat.add_assoc]

namespace Decimal

/-- The same number with `k` zeros appended to its coefficient. -/
def expand (d : Decimal) (k : Nat) : Decimal :=
  ⟨d.coefficient * 10 ^ k, d.exponent - k⟩

theorem ratio_pos (d : Decimal) : 0 < d.ratio.2 := by
  unfold ratio
  split
  · exact Nat.one_pos
  · exact Nat.pow_pos (by decide)

theorem ratio_of_nonneg {c : Nat} {e : Int} (he : 0 ≤ e) :
    ratio ⟨c, e⟩ = (c * 10 ^ e.toNat, 1) :=
  if_pos he

theorem ratio_of_neg {c : Nat} {e : Int} (he : ¬ 0 ≤ e) :
    ratio ⟨c, e⟩ = (c, 10 ^ (-e).toNat) :=
  if_neg he

theorem ratio_neg_natCast (c k : Nat) (hk : 0 < k) :
    ratio ⟨c, -(k : Int)⟩ = (c, 10 ^ k) := by
  rw [ratio_of_neg (by omega), Int.neg_neg, Int.toNat_natCast]

theorem ratio_expand (c : Nat) (e : Int) (k : Nat) :
    (expand ⟨c, e⟩ k).ratio.1 * (ratio ⟨c, e⟩).2 =
      (ratio ⟨c, e⟩).1 * (expand ⟨c, e⟩ k).ratio.2 := by
  rw [expand]
  by_cases he : 0 ≤ e
  · by_cases hk : 0 ≤ e - k
    · rw [ratio_of_nonneg hk, ratio_of_nonneg he, Nat.mul_one, Nat.mul_one, Nat.mul_assoc,
        pow_mul_pow 10 (show k + (e - k).toNat = e.toNat by omega)]
    · rw [ratio_of_neg hk, ratio_of_nonneg he, Nat.mul_one, Nat.mul_assoc,
        pow_mul_pow 10 (show e.toNat + (-(e - k)).toNat = k by omega)]
  · have hk : ¬ 0 ≤ e - k := by omega
    rw [ratio_of_neg hk, ratio_of_neg he, Nat.mul_assoc,
      pow_mul_pow 10 (show k + (-e).toNat = (-(e - k)).toNat by omega)]

theorem nearest?_expand (d : Decimal) (k : Nat) : (d.expand k).nearest? = d.nearest? := by
  by_cases hc : d.coefficient = 0
  · simp only [nearest?, expand, hc, Nat.zero_mul, ↓reduceIte]
  · have hc' : (d.expand k).coefficient ≠ 0 :=
      Nat.mul_ne_zero hc (Nat.ne_of_gt (Nat.pow_pos (by decide)))
    have hsize : (digitCount (d.expand k).coefficient : Int) + (d.expand k).exponent =
        digitCount d.coefficient + d.exponent := by
      have := digitCount_mul_pow (Nat.pos_of_ne_zero hc) k
      simp only [expand, this]
      push_cast
      omega
    have hratio := Magnitude.nearest?_congr (d.expand k).ratio_pos d.ratio_pos (ratio_expand _ _ k)
    simp only [nearest?, hc, hc', hsize, hratio, ↓reduceIte]

theorem exists_expand_trimZeros (coefficient : Nat) (exponent : Int) (hc : coefficient ≠ 0) :
    ∃ k, (trimZeros coefficient exponent).expand k = ⟨coefficient, exponent⟩ := by
  fun_induction trimZeros coefficient exponent with
  | case1 => exact absurd rfl hc
  | case2 coefficient exponent _ hz ih =>
    obtain ⟨k, hk⟩ := ih (by omega)
    refine ⟨k + 1, ?_⟩
    simp only [expand, Decimal.mk.injEq] at hk ⊢
    refine ⟨?_, by push_cast; omega⟩
    rw [Nat.pow_succ, ← Nat.mul_assoc, hk.1]
    omega
  | case3 coefficient exponent => exact ⟨0, by simp [expand]⟩

theorem nearest?_trimZeros (coefficient : Nat) (exponent : Int) :
    (trimZeros coefficient exponent).nearest? = nearest? ⟨coefficient, exponent⟩ := by
  by_cases hc : coefficient = 0
  · simp [trimZeros, nearest?, hc]
  · obtain ⟨k, hk⟩ := exists_expand_trimZeros coefficient exponent hc
    rw [← hk, nearest?_expand]

end Decimal

namespace Magnitude

theorem five_pow_pos (k : Nat) : 0 < 5 ^ k :=
  Nat.pow_pos (by decide)

theorem units_pos {m : Magnitude} (hm : m.significand ≠ 0) : 0 < m.units :=
  Nat.mul_pos (Nat.pos_of_ne_zero hm) (Nat.pow_pos (by decide))

/-- The bound is left open above the largest exponent, because a power of two of
that size is not to be evaluated here. -/
theorem units_lt {k : Nat} (hk : 2045 ≤ k) (m : Magnitude) : m.units < 2 ^ (53 : Nat) * 2 ^ k :=
  mul_two_pow_lt m.significand_lt (Nat.le_trans m.exponent_le hk)

/-- The exact expansion has at least 744 and at most 1384 digits. -/
theorem digitCount_exactDecimal {m : Magnitude} (hm : m.significand ≠ 0) :
    744 ≤ digitCount m.exactDecimal.coefficient ∧ digitCount m.exactDecimal.coefficient ≤ 1384 := by
  constructor
  · apply Nat.lt_of_not_le
    intro hle
    have hsmall := (digitCount_le_iff (by decide)).1 hle
    have hpow : 10 ^ (743 : Nat) ≤ 5 ^ (1074 : Nat) := by decide +kernel
    have hge : 5 ^ (1074 : Nat) ≤ m.units * 5 ^ (1074 : Nat) :=
      Nat.le_mul_of_pos_left _ (units_pos hm)
    exact absurd hsmall (Nat.not_lt.2 (Nat.le_trans hpow hge))
  · obtain ⟨k, hk⟩ : ∃ k, k = 2045 := ⟨_, rfl⟩
    have hpow : 2 ^ (53 : Nat) * 2 ^ k * 5 ^ (1074 : Nat) ≤ 10 ^ (1384 : Nat) := by
      rw [hk]
      decide +kernel
    rw [digitCount_le_iff (by decide)]
    refine Nat.lt_of_lt_of_le ?_ hpow
    exact Nat.mul_lt_mul_of_pos_right (units_lt (Nat.le_of_eq hk.symm) m) (five_pow_pos 1074)

theorem nearest?_exactDecimal {m : Magnitude} (hm : m.significand ≠ 0) :
    m.exactDecimal.nearest? = some m := by
  obtain ⟨hlow, hhigh⟩ := digitCount_exactDecimal hm
  have hc : m.exactDecimal.coefficient ≠ 0 :=
    Nat.mul_ne_zero (Nat.ne_of_gt (units_pos hm)) (Nat.ne_of_gt (five_pow_pos 1074))
  have hmax : ¬ 310 < (digitCount m.exactDecimal.coefficient : Int) + m.exactDecimal.exponent := by
    show ¬ 310 < (digitCount m.exactDecimal.coefficient : Int) + -1074
    omega
  have hmin : ¬ (digitCount m.exactDecimal.coefficient : Int) + m.exactDecimal.exponent < -330 := by
    show ¬ (digitCount m.exactDecimal.coefficient : Int) + -1074 < -330
    omega
  have hratio : m.exactDecimal.ratio = (m.units * 5 ^ (1074 : Nat), 10 ^ (1074 : Nat)) :=
    Decimal.ratio_neg_natCast _ 1074 (by decide)
  simp only [Decimal.nearest?, hc, hmax, hmin, hratio, ↓reduceIte]
  rw [nearest?_mul_five_pow m.units 1074, nearest?_units]

theorem eq_zero_of_significand {m : Magnitude} (hm : m.significand = 0) : m = .zero := by
  obtain ⟨significand, exponent, hlt, hle, hcanon⟩ := m
  obtain rfl : significand = 0 := hm
  obtain rfl : exponent = 0 := by omega
  rfl

/-- The decimal a magnitude is written as rounds to that magnitude. -/
theorem nearest?_shortest (tie : TieRule) (m : Magnitude) :
    (m.shortest tie).nearest? = some m := by
  by_cases hm : m.significand = 0
  · rw [eq_zero_of_significand hm]
    rfl
  · rw [shortest, if_neg hm, Decimal.nearest?_trimZeros]
    cases hf : (List.range 17).findSome? (fun n =>
        (m.neighbours tie (m.decimalSize - (n + 1 : Nat))).find? fun d => d.nearest? = some m) with
    | none => exact nearest?_exactDecimal hm
    | some d =>
      obtain ⟨n, -, hn⟩ := List.exists_of_findSome?_eq_some hf
      simpa using List.find?_some hn

end Magnitude
end MobSkills
