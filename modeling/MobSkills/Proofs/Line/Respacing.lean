import MobSkills.Proofs.Line.Layout
import MobSkills.Proofs.Line.Quoting
import MobSkills.Proofs.Line.Spelling

/-!
# Spaces between tokens

No token but a string goes on over a space, and no token begins with one. So a text that
scans keeps its tokens when a space and another text follow, and the other text is scanned
as if it stood alone, only further to the right; a quote that it leaves open is found there.
Tokens that are written out with one space between each two are therefore the same tokens,
whatever stood between them before.
-/
namespace MobSkills.Token

open Text (byteLength)

/-- The token in a text that has `n` bytes more before it. -/
def shift (n : Nat) (t : Token) : Token :=
  { t with position := t.position + n }

/-- What a scan answers in a text that has `n` bytes more before it. -/
def shiftScan (n : Nat) : Except ScanError (List Token) → Except ScanError (List Token)
  | .ok ts => .ok (ts.map (shift n))
  | .error (.unterminatedString p) => .error (.unterminatedString (p + n))

/-- The texts of the tokens, with one space between each two. -/
def respaced (ts : List Token) : String :=
  " ".intercalate (ts.map text)

/-! ## A text that stands further to the right -/

theorem shiftScan_map_cons (n : Nat) (t : Token) (result : Except ScanError (List Token)) :
    shiftScan n (result.map (t :: ·)) = (shiftScan n result).map (shift n t :: ·) := by
  cases result with
  | ok ts => rfl
  | error e => cases e; rfl

theorem scanFrom_add (p n : Nat) (s : List Char) :
    scanFrom (p + n) s = shiftScan n (scanFrom p s) := by
  induction hlen : s.length using Nat.strongRecOn generalizing p s with
  | ind length ih =>
    cases s with
    | nil =>
      rw [scanFrom, scanFrom]
      rfl
    | cons c r =>
      have hright (k : Nat) : p + n + k = p + k + n := Nat.add_right_comm p n k
      cases hs : step c r with
      | gap =>
        rw [scanFrom_gap hs, scanFrom_gap hs, hright]
        exact ih r.length (by rw [← hlen]; simp) _ r rfl
      | unterminated =>
        rw [scanFrom_unterminated hs, scanFrom_unterminated hs]
        rfl
      | token kind tail rest =>
        have hlt : rest.length < length := by
          have := length_rest_le hs
          rw [← hlen, List.length_cons]
          omega
        rw [scanFrom_token hs, scanFrom_token hs, hright, ih rest.length hlt _ rest rfl,
          shiftScan_map_cons]
        rfl

/-! ## A space after a text -/

theorem parted_space (s : List Char) : Parted (' ' :: s) :=
  parted_cons rfl (by decide) (by decide)

/-- After a text that scans and a space, the scan begins anew. -/
theorem scan_append_space {a b : String} {tokens : List Token} (h : scan a = .ok tokens) :
    scan (a ++ " " ++ b) =
      (shiftScan (byteLength a.toList + 1) (scan b)).map (tokens.dropLast ++ ·) := by
  obtain ⟨ts, hcut, rfl⟩ := scan_eq_ok_iff.1 h
  have htext : (a ++ " " ++ b).toList = a.toList ++ ' ' :: b.toList := by
    simp [String.toList_append]
  rw [scan, htext, hcut.scanFrom_append (parted_space _), scanFrom_gap (step_isGap rfl _),
    List.dropLast_concat, scan, ← scanFrom_add, Nat.zero_add, Nat.zero_add]
  rfl

/-- Lexemes with a space between each two spell the tokens that they are from. -/
theorem spells_respaced {ts : List Token} (h : ∀ t ∈ ts, IsLexeme t.kind t.text.toList) :
    Spells (respaced ts).toList (List.Forall₂ SameText ts) := by
  rw [respaced, String.toList_intercalate, List.map_map]
  induction ts with
  | nil => exact .nil .nil
  | cons t ts ih =>
    have ht : IsLexeme t.kind t.text.toList := h t (List.mem_cons_self ..)
    have hsame (u : Token) (hkind : u.kind = t.kind) (htext : u.text.toList = t.text.toList) :
        SameText t u :=
      ⟨hkind.symm, (String.toList_inj.1 htext).symm⟩
    cases ts with
    | nil =>
      rw [List.map_singleton, List.intercalate_singleton]
      exact .single ht fun u hk hu => .cons (hsame u hk hu) .nil
    | cons v ts =>
      have hrest := ih fun u hu => h u (List.mem_cons_of_mem t hu)
      rw [List.map_cons, List.map_cons, List.intercalate_cons_cons, List.append_assoc]
      refine .lexeme ht (.gap (c := ' ') rfl hrest) ((parted_space _).stops _) ?_
      intro u us hk hu hus
      exact .cons (hsame u hk hu) hus

/-- The tokens of a text that scans are found again when their texts are written with single
spaces between them. A space and another text after it leave its tokens as they are, and
the other text scans or fails there as it does alone, with its positions moved. -/
theorem scan_respaced :
    (∀ line tokens, scan line = .ok tokens →
      ∃ again, scan (respaced tokens.dropLast) = .ok again ∧ List.Forall₂ SameText tokens again) ∧
    ∀ a b tokens, scan a = .ok tokens →
      ((∃ joined, scan (a ++ " " ++ b) = .ok joined) ↔ ∃ us, scan b = .ok us) ∧
      (∀ us, scan b = .ok us → scan (a ++ " " ++ b) =
        .ok (tokens.dropLast ++ us.map (shift (byteLength a.toList + 1)))) ∧
      ∀ p, scan b = .error (.unterminatedString p) → scan (a ++ " " ++ b) =
        .error (.unterminatedString (p + (byteLength a.toList + 1))) := by
  constructor
  · intro line tokens h
    obtain ⟨ts, hcut, rfl⟩ := scan_eq_ok_iff.1 h
    obtain ⟨us, hus, hsame⟩ := spells_respaced hcut.isLexeme 0
    rw [List.dropLast_concat]
    refine ⟨_, scan_eq_ok_iff.2 ⟨us, hus, rfl⟩, ?_⟩
    exact List.rel_append hsame (.cons ⟨rfl, rfl⟩ .nil)
  · intro a b tokens h
    rw [scan_append_space h]
    cases hb : scan b with
    | ok us => simp [shiftScan, Except.map]
    | error e =>
      obtain ⟨q⟩ := e
      simp [shiftScan, Except.map]

/-- A minus sign at the end of the first text does not take the digit after the space, and
the skipped characters leave no trace. -/
theorem scan_respaced_dangling :
    let tokens : List Token := [⟨.identifier, "x:-", 0⟩, ⟨.number, "5", 4⟩, ⟨.minus, "-", 7⟩,
      ⟨.endOfInput, "", 8⟩]
    scan "x:-.5$%-" = .ok tokens ∧
      (∃ again, scan "x:- 5 -" = .ok again ∧ List.Forall₂ SameText tokens again) ∧
      scan "5%'y" = .error (.unterminatedString 2) ∧
      scan "x:-.5$%- 5%'y" = .error (.unterminatedString 11) := by
  intro tokens
  have hscan : scan "x:-.5$%-" = .ok tokens := by
    refine scan_eq_of_cut ?_ rfl
    repeat first | exact .done _ | refine .token rfl ?_ | refine .gap rfl ?_
  have hopen : scan "5%'y" = .error (.unterminatedString 2) := by
    have hnumber : step '5' ['%', '\'', 'y'] = .token .number ['%'] ['\'', 'y'] := rfl
    have hquote : step '\'' ['y'] = .unterminated := rfl
    exact (scanFrom_token hnumber).trans (by rw [scanFrom_unterminated hquote]; rfl)
  exact ⟨hscan, scan_respaced.1 _ tokens hscan, hopen,
    (scan_respaced.2 _ "5%'y" tokens hscan).2.2 2 hopen⟩

end MobSkills.Token
