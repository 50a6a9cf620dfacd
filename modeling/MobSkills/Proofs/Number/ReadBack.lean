import Mathlib.Data.List.TakeWhile
import MobSkills.Proofs.Number.Rounding

/-!
# Written numbers read back

Every finite value reads back from its text with a point, and every 64 bit integer
from its digits. Nothing is assumed about the text but that its digits are digits;
the value of the digits is what rounding depends on.
-/
namespace MobSkills

-- Powers are those of core, as in the definitions.
attribute [local instance (high)] instPowNat instNatPowNat Int.instNatPow

/-- Nothing but decimal digits. -/
def AllDigits (s : List Char) : Prop :=
  ∀ c ∈ s, c.isDigit = true

instance (s : List Char) : Decidable (AllDigits s) :=
  decidable_of_iff (s.all Char.isDigit = true) List.all_eq_true

namespace AllDigits

theorem nil : AllDigits [] := by
  intro c hc
  simp at hc

theorem cons {c : Char} {s : List Char} (hc : c.isDigit = true) (hs : AllDigits s) :
    AllDigits (c :: s) := by
  intro d hd
  rcases List.mem_cons.1 hd with rfl | hd
  · exact hc
  · exact hs d hd

theorem append {s t : List Char} (hs : AllDigits s) (ht : AllDigits t) : AllDigits (s ++ t) := by
  intro c hc
  rcases List.mem_append.1 hc with hc | hc
  · exact hs c hc
  · exact ht c hc

theorem zeros (n : Nat) : AllDigits (List.replicate n '0') := by
  intro c hc
  rw [List.eq_of_mem_replicate hc]
  rfl

theorem toDigits (n : Nat) : AllDigits (Nat.toDigits 10 n) :=
  fun _ hc => Nat.isDigit_of_mem_toDigits (by decide) (by decide) hc

theorem take {s : List Char} (hs : AllDigits s) (n : Nat) : AllDigits (s.take n) :=
  fun c hc => hs c (List.mem_of_mem_take hc)

theorem drop {s : List Char} (hs : AllDigits s) (n : Nat) : AllDigits (s.drop n) :=
  fun c hc => hs c (List.mem_of_mem_drop hc)

theorem not_mem {s : List Char} (hs : AllDigits s) {c : Char} (hc : c.isDigit = false) : c ∉ s := by
  intro hm
  rw [hs c hm] at hc
  cases hc

theorem all {s : List Char} (hs : AllDigits s) : s.all Char.isDigit = true :=
  List.all_eq_true.2 hs

end AllDigits

theorem digitsValue_eq (s : List Char) : digitsValue s = Nat.ofDigitChars 10 s 0 :=
  rfl

theorem digitsValue_toDigits (n : Nat) : digitsValue (Nat.toDigits 10 n) = n :=
  Nat.ofDigitChars_ten_toDigits

theorem digitsValue_append_zeros (s : List Char) (n : Nat) :
    digitsValue (s ++ List.replicate n '0') = digitsValue s * 10 ^ n := by
  rw [digitsValue_eq, Nat.ofDigitChars_append, Nat.ofDigitChars_replicate_zero, Nat.mul_comm]
  rfl

theorem digitsValue_zeros_append (n : Nat) (s : List Char) :
    digitsValue (List.replicate n '0' ++ s) = digitsValue s := by
  rw [digitsValue_eq, Nat.ofDigitChars_append, Nat.ofDigitChars_replicate_zero, Nat.mul_zero]
  rfl

namespace Decimal

theorem read?_pointed {whole fraction : List Char} (hw : AllDigits whole) (hf : AllDigits fraction)
    (hn : whole ≠ []) :
    read? (whole ++ '.' :: fraction) =
      some ⟨digitsValue (whole ++ fraction), -(fraction.length : Int)⟩ := by
  have htake : (whole ++ '.' :: fraction).takeWhile Char.isDigit = whole := by
    simp [List.takeWhile_append_of_pos hw]
  have hdrop : (whole ++ '.' :: fraction).dropWhile Char.isDigit = '.' :: fraction := by
    simp [List.dropWhile_append_of_pos hw]
  have htake' : fraction.takeWhile Char.isDigit = fraction := List.takeWhile_eq_self_iff.2 hf
  have hdrop' : fraction.dropWhile Char.isDigit = [] := List.dropWhile_eq_nil_iff.2 hf
  simp [read?, htake, hdrop, htake', hdrop', hn]

/-- Digits of a whole part and of a fraction that stand for the number. -/
structure Positional (whole fraction : List Char) (d : Decimal) : Prop where
  whole_digits : AllDigits whole
  fraction_digits : AllDigits fraction
  whole_ne : whole ≠ []
  fraction_ne : fraction ≠ []
  exists_expand : ∃ k,
    (⟨digitsValue (whole ++ fraction), -(fraction.length : Int)⟩ : Decimal) = d.expand k

theorem positional_zeros (c : Nat) {e : Int} (he : 0 ≤ e) :
    Positional (Nat.toDigits 10 c ++ List.replicate e.toNat '0') ['0'] ⟨c, e⟩ := by
  have hwhole := (AllDigits.toDigits c).append (AllDigits.zeros e.toNat)
  refine ⟨hwhole, AllDigits.zeros 1, by simp, by simp, e.toNat + 1, ?_⟩
  have hzeros := digitsValue_append_zeros (Nat.toDigits 10 c) (e.toNat + 1)
  rw [digitsValue_toDigits, List.replicate_succ', ← List.append_assoc] at hzeros
  rw [hzeros, expand]
  congr 1
  simp only [List.length_singleton]
  omega

theorem positional_split {c : Nat} {e : Int} (he : ¬ 0 ≤ e)
    (hp : (-e).toNat < (Nat.toDigits 10 c).length) :
    Positional ((Nat.toDigits 10 c).take ((Nat.toDigits 10 c).length - (-e).toNat))
      ((Nat.toDigits 10 c).drop ((Nat.toDigits 10 c).length - (-e).toNat)) ⟨c, e⟩ := by
  have hdigits := AllDigits.toDigits c
  refine ⟨hdigits.take _, hdigits.drop _, ?_, ?_, 0, ?_⟩
  · rw [← List.length_pos_iff, List.length_take]
    omega
  · rw [← List.length_pos_iff, List.length_drop]
    omega
  · rw [List.take_append_drop, digitsValue_toDigits, List.length_drop, expand]
    simp only [Nat.pow_zero, Nat.mul_one, Decimal.mk.injEq, true_and]
    omega

theorem positional_leading {c : Nat} {e : Int} (he : ¬ 0 ≤ e)
    (hp : ¬ (-e).toNat < (Nat.toDigits 10 c).length) :
    Positional ['0'] (List.replicate ((-e).toNat - (Nat.toDigits 10 c).length) '0' ++
      Nat.toDigits 10 c) ⟨c, e⟩ := by
  have hfraction := (AllDigits.zeros ((-e).toNat - (Nat.toDigits 10 c).length)).append
    (AllDigits.toDigits c)
  refine ⟨AllDigits.zeros 1, hfraction, by simp, by simp, 0, ?_⟩
  have hzeros := digitsValue_zeros_append (1 + ((-e).toNat - (Nat.toDigits 10 c).length))
    (Nat.toDigits 10 c)
  rw [digitsValue_toDigits, ← List.replicate_append_replicate, List.append_assoc] at hzeros
  show (⟨digitsValue (List.replicate 1 '0' ++ _), _⟩ : Decimal) = _
  rw [hzeros, expand, List.length_append, List.length_replicate]
  simp only [Nat.pow_zero, Nat.mul_one, Decimal.mk.injEq, true_and]
  omega

/-- Positional notation with a point stands for the decimal it writes. -/
theorem exists_positional_plain (d : Decimal) :
    ∃ whole fraction,
      (if d.plain.contains '.' then d.plain else d.plain ++ ['.', '0']) =
        whole ++ '.' :: fraction ∧ Positional whole fraction d := by
  obtain ⟨c, e⟩ := d
  by_cases he : 0 ≤ e
  · have hwhole := (AllDigits.toDigits c).append (AllDigits.zeros e.toNat)
    have hmem : '.' ∉ Nat.toDigits 10 c ++ List.replicate e.toNat '0' := hwhole.not_mem rfl
    have hpoint : ¬ (Nat.toDigits 10 c ++ List.replicate e.toNat '0').contains '.' = true := by
      simpa using hmem
    refine ⟨_, _, ?_, positional_zeros c he⟩
    simp only [plain, he, ↓reduceIte]
    exact if_neg hpoint
  · by_cases hp : (-e).toNat < (Nat.toDigits 10 c).length
    · exact ⟨_, _, by simp [plain, he, hp], positional_split he hp⟩
    · exact ⟨_, _, by simp [plain, he, hp], positional_leading he hp⟩

end Decimal

theorem toLower_of_isDigit {c : Char} (hc : c.isDigit = true) : c.toLower = c := by
  have hle := (Char.isDigit_iff_toNat.1 hc).2
  apply dif_neg
  intro h
  obtain ⟨hA, -⟩ := h
  have : 'A'.toNat ≤ c.toNat := hA
  simp only [Char.reduceToNat] at hle this
  omega

namespace Binary64

/-- A text that starts with a digit is no infinity and no NaN. -/
theorem readUnsigned?_of_isDigit {c : Char} {s : List Char} (negative : Bool)
    (hc : c.isDigit = true) :
    readUnsigned? negative (c :: s) =
      (Decimal.read? (c :: s)).map (Decimal.toBinary64 negative) := by
  have hne (d : Char) (t : List Char) (hd : d.isDigit = false) :
      String.ofList ((c :: s).map Char.toLower) ≠ String.ofList (d :: t) := by
    intro h
    have hhead : c.toLower = d := (List.cons.inj (String.ofList_injective h)).1
    rw [toLower_of_isDigit hc] at hhead
    rw [hhead, hd] at hc
    cases hc
  have hinf : String.ofList ((c :: s).map Char.toLower) ≠ "inf" := hne 'i' ['n', 'f'] rfl
  have hinfinity : String.ofList ((c :: s).map Char.toLower) ≠ "infinity" :=
    hne 'i' ['n', 'f', 'i', 'n', 'i', 't', 'y'] rfl
  have hnan : String.ofList ((c :: s).map Char.toLower) ≠ "nan" := hne 'n' ['a', 'n'] rfl
  simp only [readUnsigned?, hinf, hinfinity, hnan, decide_false, Bool.or_self, Bool.false_eq_true,
    ↓reduceIte]

theorem read?_of_isDigit {c : Char} {s : List Char} (hc : c.isDigit = true) :
    read? (c :: s) = readUnsigned? false (c :: s) := by
  rw [read?]
  · intro r h
    rw [(List.cons.inj h).1] at hc
    exact absurd hc (by decide)
  · intro r h
    rw [(List.cons.inj h).1] at hc
    exact absurd hc (by decide)

/-- The minus of a negative value. -/
def signText (negative : Bool) : List Char :=
  if negative then ['-'] else []

theorem read?_signText {c : Char} {s : List Char} (negative : Bool) (hc : c.isDigit = true) :
    read? (signText negative ++ c :: s) =
      (Decimal.read? (c :: s)).map (Decimal.toBinary64 negative) := by
  cases negative with
  | false =>
    rw [← readUnsigned?_of_isDigit false hc]
    exact read?_of_isDigit hc
  | true => exact readUnsigned?_of_isDigit true hc

theorem pointed_finite (negative : Bool) (m : Magnitude) :
    (finite negative m).pointed = signText negative ++
      (if (m.shortest .upward).plain.contains '.' then (m.shortest .upward).plain
        else (m.shortest .upward).plain ++ ['.', '0']) := by
  cases negative <;>
    by_cases h : (m.shortest .upward).plain.contains '.' = true <;>
      simp [pointed, plain, isFinite, signText] at h ⊢ <;> simp [h]

/-- The text of a finite value has digits on both sides of a point, and the value
reads back from it. -/
theorem exists_pointed (negative : Bool) (m : Magnitude) :
    ∃ whole fraction,
      (finite negative m).pointed = signText negative ++ (whole ++ '.' :: fraction) ∧
      AllDigits whole ∧ AllDigits fraction ∧ whole ≠ [] ∧ fraction ≠ [] ∧
      read? (finite negative m).pointed = some (finite negative m) := by
  obtain ⟨whole, fraction, heq, hw, hf, hwn, hfn, k, hk⟩ :=
    Decimal.exists_positional_plain (m.shortest .upward)
  have htext := pointed_finite negative m
  rw [heq] at htext
  refine ⟨whole, fraction, htext, hw, hf, hwn, hfn, ?_⟩
  obtain ⟨c, s, rfl⟩ := List.exists_cons_of_ne_nil hwn
  have hread : Decimal.read? (c :: (s ++ '.' :: fraction)) =
      some ((m.shortest .upward).expand k) := by
    rw [← hk]
    exact Decimal.read?_pointed hw hf hwn
  have hvalue : Decimal.toBinary64 negative ((m.shortest .upward).expand k) =
      finite negative m := by
    rw [Decimal.toBinary64, Decimal.nearest?_expand, Magnitude.nearest?_shortest]
  rw [htext, List.cons_append, read?_signText negative (hw c (List.mem_cons_self ..)), hread,
    Option.map_some, hvalue]

end Binary64

/-- An integer as its sign and its digits. -/
theorem toList_toString_int (i : Int) :
    (toString i).toList = Binary64.signText (decide (i < 0)) ++ Nat.toDigits 10 i.natAbs := by
  rw [Int.toString_eq_repr, Int.repr_eq_if]
  by_cases hi : 0 ≤ i
  · have hneg : ¬ i < 0 := by omega
    have habs : i.toNat = i.natAbs := by omega
    simp [hi, hneg, habs, Binary64.signText]
  · have hneg : i < 0 := by omega
    have habs : (-i).toNat = i.natAbs := by omega
    simp [hi, hneg, habs, Binary64.signText]

theorem readExponent?_signText {s : List Char} (negative : Bool) (hs : AllDigits s) (hn : s ≠ []) :
    Decimal.readExponent? (Binary64.signText negative ++ s) =
      some (if negative then -(digitsValue s : Int) else digitsValue s) := by
  obtain ⟨c, r, rfl⟩ := List.exists_cons_of_ne_nil hn
  have hc := hs c (List.mem_cons_self ..)
  have hall := hs.all
  cases negative with
  | true => simp [Decimal.readExponent?, Binary64.signText, hall]
  | false =>
    unfold Decimal.readExponent? Binary64.signText
    split
    rename_i sign digits heq
    split at heq
    · rename_i hcons
      rw [(List.cons.inj hcons).1] at hc
      exact absurd hc (by decide)
    · rename_i hcons
      rw [(List.cons.inj hcons).1] at hc
      exact absurd hc (by decide)
    · obtain ⟨rfl, rfl⟩ := Prod.mk.inj heq
      simp [hall]

/-- A 64 bit integer reads back from its digits. -/
theorem readInt64?_toString (i : Int64) : readInt64? (toString i.toInt).toList = some i := by
  have hread : readInt? (toString i.toInt).toList = some i.toInt := by
    rw [readInt?, toList_toString_int,
      readExponent?_signText _ (AllDigits.toDigits _) Nat.toDigits_ne_nil, digitsValue_toDigits]
    by_cases hi : i.toInt < 0
    · simp only [hi, decide_true, ↓reduceIte, Option.some.injEq]
      omega
    · simp only [hi, decide_false, Bool.false_eq_true, ↓reduceIte, Option.some.injEq]
      omega
  have hlow : -2 ^ (63 : Nat) ≤ i.toInt := Int64.le_toInt i
  have hhigh : i.toInt < 2 ^ (63 : Nat) := Int64.toInt_lt i
  simp only [readInt64?, hread, hlow, hhigh, and_self, ↓reduceIte, Int64.ofInt_toInt]

end MobSkills
