import Mathlib.Data.List.Basic
import MobSkills.Proofs.Line.ValueLine
import MobSkills.Proofs.Number.Overflow

/-!
# Numbers as values

Every number is the text of some value, whatever its size: a percentage and an integer of
more than 64 bits stand for themselves. The canonical text of that value is read as the
value again, with one exception. A number with a point can be so large that it is read as
an infinity, and infinities are written without a point, so no real is read from them.
-/
namespace MobSkills

open Token (IsNumeral IsLexeme)
open Binary64 (signText)

-- Powers are those of core, as in the definitions.
attribute [local instance (high)] instPowNat instNatPowNat Int.instNatPow

/-! ## What a number stands for -/

/-- A numeral is digits, or digits on both sides of a point, or it ends in a percent sign. -/
theorem Token.IsNumeral.forms {numeral : List Char} (h : IsNumeral numeral) :
    (numeral ≠ [] ∧ AllDigits numeral) ∨
      (∃ whole fraction, numeral = whole ++ '.' :: fraction ∧ whole ≠ [] ∧ AllDigits whole ∧
        fraction ≠ [] ∧ AllDigits fraction) ∨
      numeral.getLast? = some '%' := by
  obtain ⟨whole, fraction, percent, rfl, hwn, hw, hfraction, hpercent⟩ := h
  rcases hpercent with rfl | rfl
  · rw [List.append_nil]
    rcases hfraction with rfl | ⟨digits, hfn, hf, rfl⟩
    · rw [List.append_nil]
      exact .inl ⟨hwn, hw⟩
    · exact .inr (.inl ⟨whole, digits, rfl, hwn, hw, hfn, hf⟩)
  · refine .inr (.inr ?_)
    rw [← List.append_assoc, List.getLast?_concat]

/-- The integer that digits after a sign stand for. -/
def signedValue (negative : Bool) (digits : List Char) : Int :=
  if negative then -(digitsValue digits : Int) else digitsValue digits

/-- The numeral has a point, and its magnitude is nearest to no finite value. -/
def IsTooLarge (numeral : List Char) : Prop :=
  ∃ whole fraction, numeral = whole ++ '.' :: fraction ∧ AllDigits whole ∧ AllDigits fraction ∧
    Magnitude.overflowBound * 10 ^ fraction.length ≤ digitsValue (whole ++ fraction)

section
variable {text : String} {negative : Bool} {digits whole fraction : List Char}

theorem readInt64?_eq_some_iff (hd : AllDigits digits) (hn : digits ≠ []) {i : Int64} :
    readInt64? (signText negative ++ digits) = some i ↔ i.toInt = signedValue negative digits := by
  have hread : readInt? (signText negative ++ digits) = some (signedValue negative digits) :=
    readExponent?_signText negative hd hn
  have hlow : -2 ^ (63 : Nat) ≤ i.toInt := Int64.le_toInt i
  have hhigh : i.toInt < 2 ^ (63 : Nat) := Int64.toInt_lt i
  simp only [readInt64?, hread]
  split
  · rename_i hfits
    rw [Option.some.injEq, ← Int64.toInt_inj, Int64.toInt_ofInt_of_le hfits.1 hfits.2]
    exact eq_comm
  · rename_i hfits
    simp only [reduceCtorEq, false_iff]
    intro hi
    exact hfits (hi ▸ ⟨hlow, hhigh⟩)

/-- Digits stand for their integer if it fits into 64 bits, and for themselves otherwise. -/
theorem numberValue_digits (htext : text.toList = signText negative ++ digits)
    (hd : AllDigits digits) (hn : digits ≠ []) :
    (∀ i : Int64, i.toInt = signedValue negative digits →
        Reading.numberValue text = .integer i) ∧
      ((∀ i : Int64, i.toInt ≠ signedValue negative digits) →
        Reading.numberValue text = .text text) := by
  have hno {c : Char} (hc : c.isDigit = false) (hm : c ≠ '-') : c ∉ text.toList := by
    rw [htext, List.mem_append, not_or]
    refine ⟨?_, hd.not_mem hc⟩
    cases negative <;> simp [signText, hm]
  have hlast : text.toList.getLast? ≠ some '%' := fun h =>
    hno (c := '%') rfl (by decide) (List.mem_of_getLast? h)
  have hpoint : '.' ∉ text.toList := hno rfl (by decide)
  have hread (i : Int64) :
      readInt64? text.toList = some i ↔ i.toInt = signedValue negative digits := by
    rw [htext]
    exact readInt64?_eq_some_iff hd hn
  simp only [Reading.numberValue, hlast, List.contains_iff_mem, hpoint, ↓reduceIte]
  constructor
  · intro i hi
    rw [(hread i).2 hi]
  · intro hall
    cases hi : readInt64? text.toList with
    | none => rfl
    | some i => exact absurd ((hread i).1 hi) (hall i)

theorem numberValue_fraction (htext : text.toList = signText negative ++ (whole ++ '.' :: fraction))
    (hw : AllDigits whole) (hf : AllDigits fraction) (hwn : whole ≠ []) (hfn : fraction ≠ []) :
    Reading.numberValue text =
      .real (Decimal.toBinary64 negative ⟨digitsValue (whole ++ fraction), -fraction.length⟩) := by
  have hlast : text.toList.getLast? ≠ some '%' := by
    rw [htext, ← List.append_assoc, ← List.singleton_append, ← List.append_assoc,
      List.getLast?_append_of_ne_nil _ hfn]
    exact fun h => hf.not_mem (c := '%') rfl (List.mem_of_getLast? h)
  have hpoint : '.' ∈ text.toList := by simp [htext]
  have hread : Binary64.read? text.toList =
      some (Decimal.toBinary64 negative ⟨digitsValue (whole ++ fraction), -fraction.length⟩) := by
    have hdecimal := Decimal.read?_pointed hw hf hwn
    obtain ⟨c, r, rfl⟩ := List.exists_cons_of_ne_nil hwn
    rw [List.cons_append] at hdecimal htext
    rw [htext, Binary64.read?_signText negative (hw c (List.mem_cons_self ..)), hdecimal,
      Option.map_some]
  simp only [Reading.numberValue, hlast, List.contains_iff_mem, hpoint, hread, ↓reduceIte]

/-- The real of a number is infinite exactly when the number is too large. -/
theorem infinite_fraction_iff (hw : AllDigits whole) (hf : AllDigits fraction)
    (hfn : fraction ≠ []) :
    Decimal.toBinary64 negative ⟨digitsValue (whole ++ fraction), -fraction.length⟩ =
        .infinity negative ↔
      IsTooLarge (whole ++ '.' :: fraction) := by
  have hratio : Decimal.ratio ⟨digitsValue (whole ++ fraction), -fraction.length⟩ =
      (digitsValue (whole ++ fraction), 10 ^ fraction.length) := by
    have hpos := List.length_pos_iff.2 hfn
    rw [Decimal.ratio_of_neg (by omega)]
    simp
  rw [Decimal.toBinary64_eq_infinity_iff, hratio]
  constructor
  · intro h
    exact ⟨whole, fraction, rfl, hw, hf, h⟩
  · intro h
    obtain ⟨_, _, hsame, -, -, hle⟩ := h
    obtain ⟨rfl, -, rfl⟩ :=
      (List.append_cons_inj_of_notMem (hw.not_mem rfl) (hf.not_mem rfl)).1 hsame
    exact hle

end

/-! ## The canonical text of the value of a number -/

section
variable {options : ParseOptions} {negative : Bool} {numeral : List Char}

theorem readsAs_number (options : ParseOptions) (negative : Bool) (h : IsNumeral numeral) :
    ReadsAs options (signText negative ++ numeral)
      (Reading.numberValue (String.ofList (signText negative ++ numeral))) := by
  have hlex : IsLexeme .number (String.ofList (signText negative ++ numeral)).toList := by
    rw [String.toList_ofList]
    exact Token.isLexeme_number_iff.2 ⟨negative, numeral, rfl, h⟩
  have hspells := spells_number hlex
  rw [String.toList_ofList] at hspells
  exact readsAs_of_spells options hspells

theorem readsAs_render {v : Value} (options : ParseOptions) (h : v.WellFormed) :
    ReadsAs options v.render v :=
  readsAs_of_spells options (spells_renderValue h)

/-- A real is read from its canonical text if and only if it is finite. -/
theorem readsAs_render_real_iff {x : Binary64} :
    ReadsAs options (Value.real x).render (.real x) ↔ x.isFinite = true := by
  constructor
  · intro h
    have hpoint : '.' ∈ x.pointed := h.mem_point
    cases x with
    | nan => exact absurd hpoint (by decide)
    | infinity negative => cases negative <;> exact absurd hpoint (by decide)
    | finite negative m => rfl
  · intro h
    exact readsAs_render (v := .real x) options h

theorem IsTooLarge.chars (h : IsTooLarge numeral) : '.' ∈ numeral ∧ '%' ∉ numeral := by
  obtain ⟨whole, fraction, rfl, hw, hf, -⟩ := h
  simp [hw.not_mem (c := '%') rfl, hf.not_mem (c := '%') rfl]

/-- Every number is read as a value without complaint: digits as their integer, or as a
text if it does not fit into 64 bits. The canonical text of the value is read as the value
again exactly when the number is not too large. -/
theorem number_reads_back (options : ParseOptions) (negative : Bool) (h : IsNumeral numeral) :
    ∃ v, ReadsAs options (signText negative ++ numeral) v ∧
      ('.' ∉ numeral → '%' ∉ numeral →
        (∀ i : Int64, i.toInt = signedValue negative numeral → v = .integer i) ∧
          ((∀ i : Int64, i.toInt ≠ signedValue negative numeral) →
            v = .text (String.ofList (signText negative ++ numeral)))) ∧
      (ReadsAs options v.render v ↔ ¬ IsTooLarge numeral) := by
  refine ⟨_, readsAs_number options negative h, ?_⟩
  have htext : (String.ofList (signText negative ++ numeral)).toList =
      signText negative ++ numeral := String.toList_ofList
  generalize String.ofList (signText negative ++ numeral) = text at htext ⊢
  rcases h.forms with ⟨hn, hd⟩ | ⟨whole, fraction, rfl, hwn, hw, hfn, hf⟩ | hlast
  · have hvalue := numberValue_digits htext hd hn
    have hform : (Reading.numberValue text).WellFormed := by
      by_cases hfits : ∃ i : Int64, i.toInt = signedValue negative numeral
      · obtain ⟨i, hi⟩ := hfits
        rw [hvalue.1 i hi]
        trivial
      · rw [hvalue.2 fun i hi => hfits ⟨i, hi⟩]
        trivial
    exact ⟨fun _ _ => hvalue, iff_of_true (readsAs_render options hform) fun h =>
      hd.not_mem rfl h.chars.1⟩
  · rw [numberValue_fraction htext hw hf hwn hfn, readsAs_render_real_iff,
      Decimal.isFinite_toBinary64_iff, ne_eq, infinite_fraction_iff hw hf hfn]
    exact ⟨fun h => absurd (by simp) h, Iff.rfl⟩
  · have hpercent : '%' ∈ numeral := List.mem_of_getLast? hlast
    have hform : (Value.text text).WellFormed := trivial
    rw [numberValue_percent (by simp [htext, hlast])]
    exact ⟨fun _ h => absurd hpercent h, iff_of_true (readsAs_render options hform) fun h =>
      h.chars.2 hpercent⟩

end

/-- The least integer of 64 bits, with zeros before it. -/
theorem number_reads_back_least :
    IsNumeral "009223372036854775808".toList ∧
      ∃ v, ReadsAs {} "-009223372036854775808".toList v ∧ v = .integer Int64.minValue ∧
        ReadsAs {} v.render v := by
  have hdigits : AllDigits "009223372036854775808".toList := by decide
  have hnum : IsNumeral "009223372036854775808".toList :=
    ⟨_, [], [], (List.append_nil _).symm, by decide, hdigits, .inl rfl, .inl rfl⟩
  obtain ⟨v, hv, hvalue, hrender⟩ := number_reads_back {} true hnum
  have hpoint : '.' ∉ "009223372036854775808".toList := hdigits.not_mem rfl
  have hleast := (hvalue hpoint (hdigits.not_mem rfl)).1 Int64.minValue (by decide)
  exact ⟨hnum, v, hv, hleast, hrender.2 fun h => hpoint h.chars.1⟩

/-- The digits of ten to the 309. -/
def hugeDigits : List Char :=
  '1' :: List.replicate 309 '0'

/-- Ten to the 309 is read as an infinity, and what is written for that is read as a word. -/
theorem not_readsAs_infinity :
    IsNumeral (hugeDigits ++ ['.', '0']) ∧
      ReadsAs {} (hugeDigits ++ ['.', '0']) (.real (.infinity false)) ∧
      ReadsAs {} (Value.real (.infinity false)).render (.text "inf") ∧
      ¬ ReadsAs {} (Value.real (.infinity false)).render (.real (.infinity false)) := by
  have hw : AllDigits hugeDigits := .cons rfl (.zeros 309)
  have hf : AllDigits ['0'] := .zeros 1
  have hwn : hugeDigits ≠ [] := List.cons_ne_nil _ _
  have hnum : IsNumeral (hugeDigits ++ ['.', '0']) :=
    ⟨hugeDigits, ['.', '0'], [], rfl, hwn, hw, .inr ⟨['0'], by simp, hf, rfl⟩, .inl rfl⟩
  have hlarge : Magnitude.overflowBound * 10 ^ ['0'].length ≤
      digitsValue (hugeDigits ++ ['0']) := by
    decide +kernel
  have htext : (String.ofList (hugeDigits ++ ['.', '0'])).toList =
      Binary64.signText false ++ (hugeDigits ++ ['.', '0']) := String.toList_ofList
  have hvalue := numberValue_fraction htext hw hf hwn (by simp)
  have htoo : IsTooLarge (hugeDigits ++ ['.', '0']) := ⟨hugeDigits, ['0'], rfl, hw, hf, hlarge⟩
  rw [(infinite_fraction_iff hw hf (by simp)).2 htoo] at hvalue
  have hword : ReadsAs {} "inf".toList (.text "inf") :=
    readsAs_of_spells {} (spells_word (by decide))
  refine ⟨hnum, ?_, hword, fun h => ?_⟩
  · rw [← hvalue]
    exact readsAs_number {} false hnum
  · cases hword.unique h

end MobSkills
