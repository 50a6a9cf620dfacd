import Mathlib.Data.List.Forall2
import Mathlib.Data.List.TakeWhile
import MobSkills.Json.Read
import MobSkills.Json.Write
import MobSkills.Proofs.Line.Scan
import MobSkills.Proofs.Number.ReadBack
import MobSkills.Proofs.Text.Reader

/-!
# Written values are read again

What is written for a value is read as that value, in every layout that sets out its parts
with blanks. A reader is told where a part ends by what stands there: a quote ends a string,
and a number goes on as long as it can, which no blank, comma or closing character lets it.
Values are those that have a text: their strings and keys name no half of a surrogate pair,
and their numbers have no needless zeros in front.
-/
namespace MobSkills

namespace JsonNumber

/-- Zero alone, or something that begins with another digit. -/
def NoLeadingZero (whole : List Char) : Prop :=
  whole = ['0'] ∨ ∃ c r, whole = c :: r ∧ c ≠ '0'

theorem NoLeadingZero.exists_cons {whole : List Char} (h : NoLeadingZero whole) :
    ∃ c r, whole = c :: r := by
  rcases h with hz | ⟨c, r, hc, -⟩
  · exact ⟨'0', [], hz⟩
  · exact ⟨c, r, hc⟩

/-- Digits without needless zeros in front, and digits of a fraction. -/
structure WellFormed (n : JsonNumber) : Prop where
  whole_digits : AllDigits n.whole
  whole_start : NoLeadingZero n.whole
  fraction_digits : AllDigits n.fraction

end JsonNumber

namespace Json

/-- Every string and every key has a text, and every number is well formed. -/
inductive WellFormed : Json → Prop
  | null : WellFormed .null
  | boolean (b : Bool) : WellFormed (.boolean b)
  | number {n : JsonNumber} (h : n.WellFormed) : WellFormed (.number n)
  | string (s : String) : WellFormed (.string (some s))
  | array {items : List Json} (h : ∀ j ∈ items, WellFormed j) : WellFormed (.array items)
  | object {entries : List (String × Json)} (h : ∀ e ∈ entries, WellFormed e.2) :
      WellFormed (ofEntries entries)

/-- Nothing but blanks. -/
def AllSpaces (s : List Char) : Prop :=
  ∀ c ∈ s, Read.isSpace c = true

instance (s : List Char) : Decidable (AllSpaces s) :=
  decidable_of_iff (s.all Read.isSpace = true) List.all_eq_true

/-- Parts are set out with blanks alone. -/
structure Layout.IsBlank (layout : Layout) : Prop where
  lineBreak : ∀ level, AllSpaces (layout.lineBreak level)
  colon : ∃ before after, layout.colon = before ++ ':' :: after ∧ AllSpaces before ∧ AllSpaces after

theorem isBlank_compactLayout : compactLayout.IsBlank :=
  ⟨fun _ => (by decide : AllSpaces []), [], [], rfl, by decide, by decide⟩

theorem isBlank_indentedLayout : indentedLayout.IsBlank := by
  refine ⟨fun level c hc => ?_, [], [' '], rfl, by decide, by decide⟩
  rcases List.mem_cons.1 hc with rfl | hc
  · rfl
  · rw [List.eq_of_mem_replicate hc]
    rfl

namespace Read

open Text (Reader)
open Text.Reader
open Token (takeWhile_append_stop dropWhile_append_stop)

/-! ## Blanks -/

theorem skipSpaces_append {blanks s : List Char} (hb : AllSpaces blanks)
    (h : ∀ c ∈ s.head?, isSpace c = false) : skipSpaces (blanks ++ s) = s := by
  rw [skipSpaces, dropWhile_append_stop h, List.dropWhile_eq_nil_iff.2 hb, List.nil_append]

theorem skipSpaces_of_head {s : List Char} (h : ∀ c ∈ s.head?, isSpace c = false) :
    skipSpaces s = s :=
  dropWhile_append_stop h []

/-! ## Numbers -/

/-- No number goes on here. -/
def Stops (s : List Char) : Prop :=
  ∀ c ∈ s.head?, c.isDigit = false ∧ c ≠ '.' ∧ c ≠ 'e' ∧ c ≠ 'E'

theorem stops_nil : Stops [] := by
  intro c hc
  cases hc

theorem stops_cons {c : Char} (h : isSpace c = true ∨ c = ',' ∨ c = ']' ∨ c = '\x7d')
    (r : List Char) : Stops (c :: r) := by
  intro d hd
  obtain rfl : c = d := by simpa using hd
  simp only [isSpace, Bool.or_eq_true, beq_iff_eq] at h
  rcases h with (((rfl | rfl) | rfl) | rfl) | rfl | rfl | rfl <;> decide

theorem stops_append {blanks : List Char} (hb : AllSpaces blanks) {c : Char}
    (h : c = ']' ∨ c = '\x7d') (r : List Char) : Stops (blanks ++ c :: r) := by
  cases blanks with
  | nil => exact stops_cons (.inr (.inr h)) r
  | cons b blanks => exact stops_cons (.inl (hb b (List.mem_cons_self ..))) _

theorem digits_append {ds rest : List Char} (hd : AllDigits ds) (hn : ds ≠ [])
    (hr : ∀ c ∈ rest.head?, c.isDigit = false) : digits (ds ++ rest) = some (ds, rest) := by
  simp [digits, takeWhile_append_stop hr, dropWhile_append_stop hr,
    List.takeWhile_eq_self_iff.2 hd, List.dropWhile_eq_nil_iff.2 hd, hn]

theorem wholePart_append {whole rest : List Char} (hd : AllDigits whole)
    (hs : JsonNumber.NoLeadingZero whole) (hr : ∀ c ∈ rest.head?, c.isDigit = false) :
    wholePart (whole ++ rest) = some (whole, rest) := by
  rcases hs with rfl | ⟨c, r, rfl, hc⟩
  · rfl
  · have hread := digits_append hd (List.cons_ne_nil c r) hr
    rw [List.cons_append] at hread ⊢
    unfold wholePart
    split
    · rename_i heq
      exact absurd (List.cons.inj heq).1 hc
    · exact hread

/-- The fraction as it is written. -/
def fractionText (fraction : List Char) : List Char :=
  if fraction.isEmpty then [] else '.' :: fraction

/-- The exponent as it is written. -/
def exponentText : Option Int → List Char
  | none => []
  | some e => 'e' :: (if e < 0 then '-' else '+') :: Nat.toDigits 10 e.natAbs

theorem fractionPart_append {fraction rest : List Char} (hd : AllDigits fraction)
    (hr : ∀ c ∈ rest.head?, c.isDigit = false ∧ c ≠ '.') :
    fractionPart (fractionText fraction ++ rest) = some (fraction, rest) := by
  cases fraction with
  | nil =>
    cases rest with
    | nil => rfl
    | cons c r =>
      have hc := (hr c rfl).2
      simp [fractionText, fractionPart, hc]
  | cons c r => exact digits_append hd (List.cons_ne_nil c r) fun c hc => (hr c hc).1

theorem exponentDigits_append (negative : Bool) (n : Nat) {rest : List Char} (hr : Stops rest) :
    exponentDigits negative (Nat.toDigits 10 n ++ rest) =
      some (some (if negative then -(n : Int) else n), rest) := by
  have hread := digits_append (AllDigits.toDigits n) Nat.toDigits_ne_nil fun c hc => (hr c hc).1
  simp only [exponentDigits, hread, Option.map_some, digitsValue_toDigits]

theorem exponentPart_append (exponent : Option Int) {rest : List Char} (hr : Stops rest) :
    exponentPart (exponentText exponent ++ rest) = some (exponent, rest) := by
  cases exponent with
  | none =>
    cases rest with
    | nil => rfl
    | cons c r =>
      obtain ⟨-, -, he, hE⟩ := hr c rfl
      simp [exponentText, exponentPart, he, hE]
  | some e =>
    by_cases hneg : e < 0
    · have habs : -(e.natAbs : Int) = e := by omega
      have hread := exponentDigits_append true e.natAbs hr
      rw [if_pos rfl, habs] at hread
      simpa [exponentText, exponentPart, hneg] using hread
    · have habs : (e.natAbs : Int) = e := by omega
      have hread := exponentDigits_append false e.natAbs hr
      rw [if_neg Bool.false_ne_true, habs] at hread
      simpa [exponentText, exponentPart, hneg] using hread

theorem writeNumber_eq (n : JsonNumber) :
    writeNumber n = Binary64.signText n.negative ++
      (n.whole ++ (fractionText n.fraction ++ exponentText n.exponent)) := by
  rw [writeNumber, ← List.append_assoc, ← List.append_assoc]
  cases n.exponent <;> rfl

theorem number_append {n : JsonNumber} (h : n.WellFormed) {rest : List Char} (hr : Stops rest) :
    number n.negative (n.whole ++ (fractionText n.fraction ++ (exponentText n.exponent ++ rest))) =
      some (.number n, rest) := by
  have hexponent : ∀ c ∈ (exponentText n.exponent ++ rest).head?, c.isDigit = false ∧ c ≠ '.' := by
    intro c hc
    cases he : n.exponent with
    | none =>
      rw [he] at hc
      exact ⟨(hr c hc).1, (hr c hc).2.1⟩
    | some e =>
      rw [he] at hc
      cases hc
      decide
  have hfraction : ∀ c ∈ (fractionText n.fraction ++ (exponentText n.exponent ++ rest)).head?,
      c.isDigit = false := by
    intro c hc
    cases hf : n.fraction with
    | nil =>
      rw [hf] at hc
      exact (hexponent c hc).1
    | cons d r =>
      rw [hf] at hc
      cases hc
      rfl
  simp [number, wholePart_append h.whole_digits h.whole_start hfraction,
    fractionPart_append h.fraction_digits hexponent, exponentPart_append n.exponent hr]

theorem value_of_isDigit {c : Char} (h : c.isDigit = true) (depth : Nat) (r : List Char) :
    value (depth + 1) (c :: r) = number false (c :: r) := by
  unfold value
  split <;> first | rfl | cases h

theorem value_number {n : JsonNumber} (h : n.WellFormed) (depth : Nat) {rest : List Char}
    (hr : Stops rest) : value (depth + 1) (writeNumber n ++ rest) = some (.number n, rest) := by
  have hread := number_append h hr
  rw [writeNumber_eq]
  simp only [List.append_assoc]
  cases hneg : n.negative with
  | true =>
    rw [hneg] at hread
    exact hread
  | false =>
    rw [hneg] at hread
    obtain ⟨c, r, hc⟩ := h.whole_start.exists_cons
    have hdigit : c.isDigit = true := h.whole_digits c (hc ▸ List.mem_cons_self ..)
    rw [hc] at hread ⊢
    exact (value_of_isDigit hdigit depth _).trans hread

/-! ## Strings -/

/-- A control character that has no short escape is written with its number. -/
theorem readHex_control {n : Nat} (h : n < 0x20) (rest : List Char) :
    Text.readHex 4 (Text.padZeros 4 (Text.lowerHex n) ++ rest) = some (n, rest) := by
  have hall : ∀ n < 0x20, (Text.padZeros 4 (Text.lowerHex n)).length = 4 ∧
      Text.hexValue? (Text.padZeros 4 (Text.lowerHex n)) = some n := by decide +kernel
  obtain ⟨hlength, hvalue⟩ := hall n h
  have htake : (Text.padZeros 4 (Text.lowerHex n) ++ rest).take 4 =
      Text.padZeros 4 (Text.lowerHex n) := List.take_left' hlength
  have hdrop : (Text.padZeros 4 (Text.lowerHex n) ++ rest).drop 4 = rest := List.drop_left' hlength
  have hlong : ¬ (Text.padZeros 4 (Text.lowerHex n) ++ rest).length < 4 := by
    rw [List.length_append, hlength]
    omega
  rw [Text.readHex, if_neg hlong, htake, hdrop, hvalue]
  rfl

theorem unit_escapeChar (c : Char) (rest : List Char) :
    unit (escapeChar c ++ rest) = some (c.toNat, rest) := by
  unfold escapeChar
  split
  case h_8 hquote hslash _ _ _ _ _ =>
    have hquote : c ≠ '"' := hquote
    have hslash : c ≠ '\\' := hslash
    split
    · rename_i hcontrol
      exact readHex_control hcontrol rest
    · rename_i hcontrol
      simp [unit, hquote, hslash, hcontrol]
  all_goals rfl

theorem ofUnits_toNat (s : List Char) : ofUnits (s.map Char.toNat) = some s := by
  induction s with
  | nil => rfl
  | cons c r ih =>
    have hvalid : c.toNat < 0xD800 ∨ 0xDFFF < c.toNat ∧ c.toNat < 0x110000 := c.valid
    have hhigh : ¬ (0xD800 ≤ c.toNat ∧ c.toNat < 0xDC00) := by omega
    have hlow : ¬ (0xDC00 ≤ c.toNat ∧ c.toNat < 0xE000) := by omega
    rw [List.map_cons]
    unfold ofUnits
    rw [if_neg hhigh, if_neg hlow, ih, Char.ofNat_toNat]
    rfl

theorem run_unit (s rest : List Char) :
    Run unit (s.map Char.toNat) (s.flatMap escapeChar ++ '"' :: rest) ('"' :: rest) := by
  induction s with
  | nil => exact .stop rfl
  | cons c r ih =>
    have hread := unit_escapeChar c (r.flatMap escapeChar ++ '"' :: rest)
    rw [← List.append_assoc, ← List.flatMap_cons] at hread
    refine .step hread ?_ ih
    have hpos : 0 < (escapeChar c).length := by
      unfold escapeChar
      split <;> try split
      all_goals simp
    simp only [List.flatMap_cons, List.length_append]
    omega

theorem stringBody_writeString (s : String) (rest : List Char) :
    stringBody (s.toList.flatMap escapeChar ++ '"' :: rest) = some (some s, rest) := by
  rw [stringBody, (run_unit s.toList rest).many_eq]
  simp [char_cons, ofUnits_toNat]

theorem writeString_append (s : String) (rest : List Char) :
    writeString s ++ rest = '"' :: (s.toList.flatMap escapeChar ++ '"' :: rest) := by
  simp [writeString]

/-! ## Parts between an opening and a closing character -/

/-- Parts after the first one, each with a comma and blanks before it. -/
def moreParts (blanks : List Char) (texts : List (List Char)) : List Char :=
  texts.flatMap fun text => ',' :: (blanks ++ text)

theorem flatten_intersperse (blanks text : List Char) (texts : List (List Char)) :
    (((text :: texts).map (blanks ++ ·)).intersperse [',']).flatten =
      blanks ++ (text ++ moreParts blanks texts) := by
  induction texts generalizing text with
  | nil => simp [moreParts]
  | cons next texts ih =>
    have hmore := ih next
    simp only [List.map_cons, List.intersperse_cons_cons, List.flatten_cons] at hmore ⊢
    rw [hmore]
    simp [moreParts]

theorem enclose_cons (layout : Layout) (level : Nat) (opening closing : Char) (text : List Char)
    (texts : List (List Char)) :
    enclose layout level opening closing (text :: texts) =
      opening :: (layout.lineBreak (level + 1) ++ (text ++
        (moreParts (layout.lineBreak (level + 1)) texts ++
          (layout.lineBreak level ++ [closing])))) := by
  rw [enclose, if_neg (by simp), flatten_intersperse]
  simp

/-- A part begins with a character that is no blank and closes nothing. -/
def Begins (text : List Char) : Prop :=
  ∃ c r, text = c :: r ∧ isSpace c = false ∧ c ≠ ']' ∧ c ≠ '\x7d'

/-- The text begins like a part, and the value is read from it wherever no number goes on. -/
def ReadsFrom {α : Type} (read : Reader α) (a : α) (text : List Char) : Prop :=
  Begins text ∧ ∀ rest, Stops rest → read (text ++ rest) = some (a, rest)

section
variable {α : Type} {read : Reader α} {blanks closingBlanks : List Char} {closing : Char}

theorem comma_eq_none (hb : AllSpaces closingBlanks) (hc : closing = ']' ∨ closing = '\x7d')
    (rest : List Char) : comma (closingBlanks ++ closing :: rest) = none := by
  have hskip : skipSpaces (closingBlanks ++ closing :: rest) = closing :: rest := by
    apply skipSpaces_append hb
    intro d hd
    cases hd
    rcases hc with rfl | rfl <;> rfl
  have hne : closing ≠ ',' := by rcases hc with rfl | rfl <;> decide
  rw [comma, hskip, char_eq_none hne]
  rfl

theorem comma_append (hb : AllSpaces blanks) {s : List Char}
    (h : ∀ c ∈ s.head?, isSpace c = false) : comma (',' :: (blanks ++ s)) = some ((), s) := by
  have hfirst : skipSpaces (',' :: (blanks ++ s)) = ',' :: (blanks ++ s) :=
    skipSpaces_of_head fun c hc => by
      cases hc
      rfl
  simp only [comma, hfirst, char_cons, Option.map_some, skipSpaces_append hb h]

theorem Begins.head? {text : List Char} (h : Begins text) (rest : List Char) :
    ∀ c ∈ (text ++ rest).head?, isSpace c = false := by
  obtain ⟨d, r, rfl, hd, -⟩ := h
  intro c hc
  cases hc
  exact hd

theorem stops_moreParts (hc : closing = ']' ∨ closing = '\x7d') (hb : AllSpaces closingBlanks)
    (texts : List (List Char)) (rest : List Char) :
    Stops (moreParts blanks texts ++ (closingBlanks ++ closing :: rest)) := by
  cases texts with
  | nil => exact stops_append hb hc rest
  | cons text texts => exact stops_cons (.inr (.inl rfl)) _

theorem run_moreParts (hb : AllSpaces blanks) (hcb : AllSpaces closingBlanks)
    (hc : closing = ']' ∨ closing = '\x7d') {as : List α} {texts : List (List Char)}
    (h : List.Forall₂ (ReadsFrom read) as texts) (rest : List Char) :
    Run (fun s => (comma s).bind fun x => read x.2) as
      (moreParts blanks texts ++ (closingBlanks ++ closing :: rest))
      (closingBlanks ++ closing :: rest) := by
  induction h with
  | nil =>
    refine .stop ?_
    rw [moreParts, List.flatMap_nil, List.nil_append, comma_eq_none hcb hc]
    rfl
  | @cons a text as texts hread _ ih =>
    obtain ⟨hbegins, hread⟩ := hread
    have hcomma : moreParts blanks (text :: texts) ++ (closingBlanks ++ closing :: rest) =
        ',' :: (blanks ++ (text ++ (moreParts blanks texts ++
          (closingBlanks ++ closing :: rest)))) := by
      simp [moreParts]
    have hfirst : (comma (',' :: (blanks ++ (text ++ (moreParts blanks texts ++
        (closingBlanks ++ closing :: rest)))))).bind (fun x => read x.2) =
        some (a, moreParts blanks texts ++ (closingBlanks ++ closing :: rest)) := by
      rw [comma_append hb (hbegins.head? _), Option.bind_some]
      exact hread _ (stops_moreParts hc hcb texts rest)
    rw [hcomma]
    refine .step hfirst ?_ ih
    simp only [List.length_cons, List.length_append]
    omega

/-- What is enclosed is read part by part up to the closing character. -/
theorem upTo_enclose {layout : Layout} (hl : layout.IsBlank) (level : Nat) (opening : Char)
    (hc : closing = ']' ∨ closing = '\x7d') {as : List α} {texts : List (List Char)}
    (h : List.Forall₂ (ReadsFrom read) as texts) (rest : List Char) :
    ∃ s, enclose layout level opening closing texts ++ rest = opening :: s ∧
      upTo closing read s = some (as, rest) := by
  have hclosing : isSpace closing = false := by rcases hc with rfl | rfl <;> rfl
  -- Where there is no part, no blanks are written either, so that case stands apart.
  cases h with
  | nil =>
    refine ⟨closing :: rest, rfl, ?_⟩
    have hskip : skipSpaces (closing :: rest) = closing :: rest := by simp [skipSpaces, hclosing]
    simp only [upTo, hskip, char_cons]
  | @cons a text as texts hread htail =>
    obtain ⟨hbegins, hread⟩ := hread
    refine ⟨_, by rw [enclose_cons, List.cons_append], ?_⟩
    simp only [List.append_assoc, List.singleton_append]
    have hskip := skipSpaces_append (hl.lineBreak (level + 1)) (hbegins.head?
      (moreParts (layout.lineBreak (level + 1)) texts ++
        (layout.lineBreak level ++ closing :: rest)))
    have hnone (s : List Char) : char closing (text ++ s) = none := by
      obtain ⟨c, r, rfl, -, hbracket, hbrace⟩ := hbegins
      apply char_eq_none
      rcases hc with rfl | rfl
      · exact hbracket
      · exact hbrace
    have hparts := separated_of_run
      (hread _ (stops_moreParts hc (hl.lineBreak level) texts rest))
      (run_moreParts (hl.lineBreak (level + 1)) (hl.lineBreak level) hc htail rest)
    have hend : skipSpaces (layout.lineBreak level ++ closing :: rest) = closing :: rest :=
      skipSpaces_append (hl.lineBreak level) fun c hd => by
        cases hd
        exact hclosing
    simp only [upTo, hskip, hnone, hparts, Option.bind_eq_bind, Option.bind_some, hend, char_cons]
    rfl

end

/-! ## Values -/

theorem writeItems_eq (layout : Layout) (level : Nat) (items : List Json) :
    writeItems layout level items = items.map (write layout level) := by
  induction items with
  | nil => rfl
  | cons j items ih => rw [writeItems, ih, List.map_cons]

/-- A member of an object as it is written. -/
def memberText (layout : Layout) (level : Nat) (e : String × Json) : List Char :=
  writeString e.1 ++ (layout.colon ++ write layout level e.2)

theorem writeEntries_eq (layout : Layout) (level : Nat) (entries : List (String × Json)) :
    writeEntries layout level (entries.map fun (key, j) => (some key, j)) =
      entries.map (memberText layout level) := by
  induction entries with
  | nil => rfl
  | cons e entries ih =>
    rw [List.map_cons, writeEntries, ih, List.map_cons, memberText, List.append_assoc]
    rfl

theorem begins_write {j : Json} (h : j.WellFormed) (layout : Layout) (level : Nat) :
    Begins (write layout level j) := by
  have henclose (opening closing : Char) (texts : List (List Char)) :
      ∃ r, enclose layout level opening closing texts = opening :: r := by
    cases texts with
    | nil => exact ⟨[closing], rfl⟩
    | cons text texts => exact ⟨_, enclose_cons ..⟩
  cases h with
  | null => exact ⟨'n', _, rfl, by decide⟩
  | boolean b =>
    cases b
    · exact ⟨'f', _, rfl, by decide⟩
    · exact ⟨'t', _, rfl, by decide⟩
  | @number n h =>
    rw [write, writeNumber_eq]
    cases n.negative with
    | true => exact ⟨'-', _, rfl, by decide⟩
    | false =>
      obtain ⟨c, r, hc⟩ := h.whole_start.exists_cons
      have hdigit := h.whole_digits c (hc ▸ List.mem_cons_self ..)
      rw [hc]
      refine ⟨c, _, rfl, ?_, ?_, ?_⟩
      · cases hspace : isSpace c with
        | false => rfl
        | true =>
          rw [(stops_cons (.inl hspace) [] c rfl).1] at hdigit
          cases hdigit
      · rintro rfl
        cases hdigit
      · rintro rfl
        cases hdigit
  | string s => exact ⟨'"', _, rfl, by decide⟩
  | array =>
    obtain ⟨r, hr⟩ := henclose '[' ']' (writeItems layout (level + 1) _)
    exact ⟨'[', r, hr, by decide⟩
  | object =>
    obtain ⟨r, hr⟩ := henclose '\x7b' '\x7d' (writeEntries layout (level + 1) _)
    exact ⟨'\x7b', r, hr, by decide⟩

theorem length_lt_enclose (layout : Layout) (level : Nat) (opening closing : Char)
    {text : List Char} {texts : List (List Char)} (h : text ∈ texts) :
    text.length + 1 < (enclose layout level opening closing texts).length := by
  have hmore (blanks : List Char) (texts : List (List Char)) (h : text ∈ texts) :
      text.length < (moreParts blanks texts).length := by
    obtain ⟨before, after, rfl⟩ := List.append_of_mem h
    simp only [moreParts, List.flatMap_append, List.flatMap_cons, List.length_append,
      List.length_cons]
    omega
  cases texts with
  | nil => cases h
  | cons first texts =>
    rw [enclose_cons]
    simp only [List.length_cons, List.length_append, List.length_nil]
    rcases List.mem_cons.1 h with rfl | h
    · omega
    · have := hmore (layout.lineBreak (level + 1)) texts h
      omega

theorem readsFrom_member {layout : Layout} (hl : layout.IsBlank) {level depth : Nat}
    {e : String × Json} (h : ReadsFrom (value depth) e.2 (write layout level e.2)) :
    ReadsFrom (member (value depth)) (some e.1, e.2) (memberText layout level e) := by
  obtain ⟨hbegins, hread⟩ := h
  obtain ⟨before, after, hcolon, hbefore, hafter⟩ := hl.colon
  refine ⟨⟨'"', _, rfl, by decide⟩, fun rest hr => ?_⟩
  have htext : memberText layout level e ++ rest = '"' :: (e.1.toList.flatMap escapeChar ++
      '"' :: (before ++ ':' :: (after ++ (write layout level e.2 ++ rest)))) := by
    rw [memberText, List.append_assoc, writeString_append, hcolon]
    simp
  have hskip : skipSpaces (before ++ ':' :: (after ++ (write layout level e.2 ++ rest))) =
      ':' :: (after ++ (write layout level e.2 ++ rest)) :=
    skipSpaces_append hbefore fun c hc => by
      cases hc
      rfl
  rw [htext]
  simp [member, char_cons, stringBody_writeString, hskip,
    skipSpaces_append hafter (hbegins.head? _), hread rest hr]

/-- A written value is read again by a reader that may go deeper than the text is long. -/
theorem value_write {layout : Layout} (hl : layout.IsBlank) {j : Json} (h : j.WellFormed)
    {level depth : Nat} (hdepth : (write layout level j).length < depth) {rest : List Char}
    (hr : Stops rest) : value depth (write layout level j ++ rest) = some (j, rest) := by
  induction h generalizing level depth rest with
  | null =>
    obtain ⟨d, rfl⟩ := Nat.exists_eq_add_one.2 (Nat.zero_lt_of_lt hdepth)
    simp [write, value, Text.Reader.word]
  | boolean b =>
    obtain ⟨d, rfl⟩ := Nat.exists_eq_add_one.2 (Nat.zero_lt_of_lt hdepth)
    cases b <;> simp [write, value, Text.Reader.word]
  | number h =>
    obtain ⟨d, rfl⟩ := Nat.exists_eq_add_one.2 (Nat.zero_lt_of_lt hdepth)
    exact value_number h d hr
  | string s =>
    obtain ⟨d, rfl⟩ := Nat.exists_eq_add_one.2 (Nat.zero_lt_of_lt hdepth)
    rw [write, Option.getD_some, writeString_append, value, stringBody_writeString]
    rfl
  | @array items h ih =>
    obtain ⟨d, rfl⟩ := Nat.exists_eq_add_one.2 (Nat.zero_lt_of_lt hdepth)
    rw [write, writeItems_eq] at hdepth ⊢
    have hparts : List.Forall₂ (ReadsFrom (value d)) items
        (items.map (write layout (level + 1))) := by
      rw [List.forall₂_map_right_iff, List.forall₂_same]
      intro j hj
      -- An item is shorter than the array by its brackets, so one level less is deep enough.
      have hlength := length_lt_enclose layout level '[' ']'
        (List.mem_map_of_mem (f := write layout (level + 1)) hj)
      exact ⟨begins_write (h j hj) layout (level + 1), fun rest hr => ih j hj (by omega) hr⟩
    obtain ⟨s, hs, hread⟩ := upTo_enclose hl level '[' (.inl rfl) hparts rest
    rw [hs, value, hread]
    rfl
  | @object entries h ih =>
    obtain ⟨d, rfl⟩ := Nat.exists_eq_add_one.2 (Nat.zero_lt_of_lt hdepth)
    rw [ofEntries, write, writeEntries_eq] at hdepth ⊢
    have hparts : List.Forall₂ (ReadsFrom (member (value d)))
        (entries.map fun (key, j) => (some key, j))
        (entries.map (memberText layout (level + 1))) := by
      rw [List.forall₂_map_left_iff, List.forall₂_map_right_iff, List.forall₂_same]
      intro e he
      have hlength := length_lt_enclose layout level '\x7b' '\x7d'
        (List.mem_map_of_mem (f := memberText layout (level + 1)) he)
      have hvalue : (write layout (level + 1) e.2).length ≤
          (memberText layout (level + 1) e).length := by
        simp only [memberText, List.length_append]
        omega
      exact readsFrom_member hl
        ⟨begins_write (h e he) layout (level + 1), fun rest hr => ih e he (by omega) hr⟩
    obtain ⟨s, hs, hread⟩ := upTo_enclose hl level '\x7b' (.inr rfl) hparts rest
    rw [hs, value, hread]
    rfl

end Read

/-- The text of a value in a blank layout is read as that value. -/
theorem parse?_write {layout : Layout} (hl : layout.IsBlank) {j : Json} (h : j.WellFormed) :
    parse? (String.ofList (write layout 0 j)) = some j := by
  have hhead := (Read.begins_write h layout 0).head? []
  have hread := Read.value_write hl h (Nat.lt_succ_self (write layout 0 j).length) Read.stops_nil
  rw [List.append_nil] at hhead hread
  rw [parse?, String.toList_ofList, Read.skipSpaces_of_head hhead, hread]
  rfl

end Json
end MobSkills
