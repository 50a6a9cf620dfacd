import MobSkills.Proofs.Line.Quoting

/-!
# Tokens tile their line

Every token of a scan is a slice of the line at its byte offset, of the shape its kind has,
the slices follow each other without overlap, and no character that could begin a token is
left between them. That a number goes on as far as it can is not part of the tiling; a word
does.
-/
namespace MobSkills.Token

open Text (byteLength)
open Binary64 (signText)

/-- The byte offset right after the token. -/
def finish (t : Token) : Nat :=
  t.position + byteLength t.text.toList

/-- The shapes of token texts by kind, in front of `after`. -/
def IsShaped (kind : TokenKind) (text after : List Char) : Prop :=
  match kind with
  | .identifier => IsWord text ∧ ∀ c ∈ after.head?, isWordChar c = false
  | .number => ∃ negative numeral, text = signText negative ++ numeral ∧ IsNumeral numeral
  | .string => ∃ quote body, isQuote quote = true ∧ Body quote body ∧ text = quote :: (body ++ [quote])
  | kind => ∃ c, TokenKind.ofSymbol? c = some kind ∧ text = [c]

/-- The token is a slice of the characters, which start at the byte offset `p`. -/
def WrittenIn (p : Nat) (s : List Char) (t : Token) : Prop :=
  ∃ before after, s = before ++ (t.text.toList ++ after) ∧ t.position = p + byteLength before ∧
    t.text ≠ "" ∧ IsShaped t.kind t.text.toList after

/-- No token begins with the character, whatever follows it. -/
def IsSkipped (c : Char) : Prop :=
  c.isAlpha = false ∧ c.isDigit = false ∧ isQuote c = false ∧ TokenKind.ofSymbol? c = none

/-- The tokens tile the characters, which start at the byte offset `p`. -/
structure Tiles (p : Nat) (s : List Char) (ts : List Token) : Prop where
  written : ∀ t ∈ ts, WrittenIn p s t
  ordered : ts.Pairwise fun t u => t.finish ≤ u.position
  covered : ∀ before c after, s = before ++ c :: after →
    (∀ t ∈ ts, ¬ (t.position ≤ p + byteLength before ∧ p + byteLength before < t.finish)) →
      IsSkipped c

/-! ## One step of the scan -/

section
variable {c : Char} {r tail rest : List Char} {kind : TokenKind}

theorem isSkipped_of_step (h : step c r = .gap) : IsSkipped c := by
  unfold step at h
  split at h
  · rename_i hgap
    simp only [isGap, Bool.or_eq_true, beq_iff_eq] at hgap
    rcases hgap with ((rfl | rfl) | rfl) | rfl <;> exact ⟨rfl, rfl, rfl, rfl⟩
  split at h
  · split at h <;> cases h
  rename_i hquote
  split at h
  · cases h
  rename_i hnumber
  split at h
  · cases h
  rename_i halpha
  split at h
  · cases h
  rename_i hsymbol
  have hdigit : ¬ c.isDigit = true := fun hd => hnumber (by simp [hd])
  exact ⟨eq_false_of_ne_true halpha, eq_false_of_ne_true hdigit, eq_false_of_ne_true hquote, hsymbol⟩

/-- What a step takes has the shape of its kind, and a word is taken to its end. -/
theorem isShaped_of_step (h : step c r = .token kind tail rest) :
    IsShaped kind (c :: tail) rest := by
  rcases step_eq_token h with ⟨rfl, hq, hs⟩ | ⟨rfl, -, -⟩ | ⟨rfl, ha, hs⟩ | ⟨hk, -, rfl, rfl⟩
  · obtain ⟨body, hbody, rfl⟩ := exists_body_of_splitString hs
    exact ⟨c, body, hq, hbody, rfl⟩
  · exact isLexeme_number_iff.1 (isLexeme_of_step h)
  · refine ⟨isLexeme_identifier_iff.1 (isLexeme_of_step h), ?_⟩
    obtain ⟨-, rfl⟩ := Prod.mk.inj hs
    intro d hd
    have hstop := List.head?_dropWhile_not isWordChar r
    rwa [Option.mem_def.1 hd] at hstop
  · obtain ⟨hi, hn, hs, -⟩ := ofSymbol?_kind hk
    cases kind with
    | identifier => exact absurd rfl hi
    | number => exact absurd rfl hn
    | string => exact absurd rfl hs
    | _ => exact ⟨c, hk, rfl⟩

end

/-! ## The whole scan -/

section
variable {p : Nat} {s : List Char} {ts : List Token}

theorem WrittenIn.position_ge {t : Token} (h : WrittenIn p s t) : p ≤ t.position := by
  obtain ⟨before, after, -, hp, -⟩ := h
  omega

/-- A slice of the rest is a slice of the whole. -/
theorem WrittenIn.append_left {t : Token} {a : List Char} (h : WrittenIn (p + byteLength a) s t) :
    WrittenIn p (a ++ s) t := by
  obtain ⟨before, after, rfl, hp, hshape⟩ := h
  refine ⟨a ++ before, after, by rw [List.append_assoc], ?_, hshape⟩
  rw [hp, Text.byteLength_append, Nat.add_assoc]

theorem tiles_gap {c : Char} (hc : IsSkipped c) (h : Tiles (p + c.utf8Size) s ts) :
    Tiles p (c :: s) ts := by
  refine ⟨fun t ht => WrittenIn.append_left (a := [c]) (h.written t ht), h.ordered, ?_⟩
  intro before d after happ hout
  cases before with
  | nil =>
    obtain rfl := (List.cons.inj happ).1
    exact hc
  | cons e before =>
    obtain ⟨rfl, rfl⟩ := List.cons.inj happ
    apply h.covered before d after rfl
    intro t ht
    rw [Nat.add_assoc]
    exact hout t ht

theorem tiles_token {kind : TokenKind} {text : List Char} (hn : text ≠ [])
    (hshape : IsShaped kind text s) (h : Tiles (p + byteLength text) s ts) :
    Tiles p (text ++ s) (⟨kind, String.ofList text, p⟩ :: ts) := by
  have hfinish : finish ⟨kind, String.ofList text, p⟩ = p + byteLength text := by
    rw [finish, String.toList_ofList]
  refine ⟨?_, List.pairwise_cons.2 ⟨?_, h.ordered⟩, ?_⟩
  · intro t ht
    rcases List.mem_cons.1 ht with rfl | ht
    · refine ⟨[], s, by simp, rfl, ?_, by simpa using hshape⟩
      simpa [← String.toList_inj] using hn
    · exact (h.written t ht).append_left
  · intro t ht
    rw [hfinish]
    exact (h.written t ht).position_ge
  · intro before d after happ hout
    rcases List.append_eq_append_iff.1 happ with ⟨between, rfl, rfl⟩ | ⟨inner, rfl, hinner⟩
    · apply h.covered between d after rfl
      intro t ht
      have houtside := hout t (List.mem_cons_of_mem _ ht)
      rwa [Text.byteLength_append, ← Nat.add_assoc] at houtside
    · -- The character begins or is inside of the first token, or it begins the rest.
      cases inner with
      | nil =>
        rw [List.append_nil] at h hfinish
        apply h.covered [] d after (by simpa using hinner.symm)
        intro t ht
        exact hout t (List.mem_cons_of_mem _ ht)
      | cons e inner =>
        obtain ⟨rfl, -⟩ := List.cons.inj hinner
        have hpos := d.utf8Size_pos
        refine absurd ?_ (hout _ (List.mem_cons_self ..))
        rw [hfinish, Text.byteLength_append, Text.byteLength_cons]
        exact ⟨Nat.le_add_right .., by omega⟩

theorem Cut.tiles (h : Cut p s ts) : Tiles p s ts := by
  induction h with
  | done p =>
    refine ⟨by simp, .nil, ?_⟩
    intro before c after happ
    simp at happ
  | gap h _ ih => exact tiles_gap (isSkipped_of_step h) ih
  | @token p c r tail rest kind ts h _ ih =>
    rw [← step_append h, ← List.cons_append]
    exact tiles_token (List.cons_ne_nil c tail) (isShaped_of_step h) ih

end

/-- The tokens of a scan tile the line, and the end marker stands behind them, at the byte
length of the line. -/
theorem scan_tiles {line : String} {tokens : List Token} (h : scan line = .ok tokens) :
    ∃ ts, tokens = ts ++ [⟨.endOfInput, "", byteLength line.toList⟩] ∧
      (∀ t ∈ ts, t.kind ≠ .endOfInput) ∧ Tiles 0 line.toList ts := by
  obtain ⟨ts, hcut, rfl⟩ := scan_eq_ok_iff.1 h
  exact ⟨ts, rfl, fun t ht => (hcut.isLexeme t ht).kind_ne_endOfInput, hcut.tiles⟩

/-- A letter of two bytes and a dollar sign are skipped; the first minus sign stands alone. -/
theorem scan_tiles_skipped :
    ∃ tokens, scan "é-burn\x7bx=-1.5%;y='\\''$\x7d" = .ok tokens ∧
      tokens.map position = [2, 3, 7, 8, 9, 10, 15, 16, 17, 18, 23, 24] ∧
      ∃ ts, tokens = ts ++ [⟨.endOfInput, "",
          byteLength "é-burn\x7bx=-1.5%;y='\\''$\x7d".toList⟩] ∧
        (∀ t ∈ ts, t.kind ≠ .endOfInput) ∧ Tiles 0 "é-burn\x7bx=-1.5%;y='\\''$\x7d".toList ts := by
  have hscan : scan "é-burn\x7bx=-1.5%;y='\\''$\x7d" = .ok
      [⟨.minus, "-", 2⟩, ⟨.identifier, "burn", 3⟩, ⟨.openBrace, "\x7b", 7⟩, ⟨.identifier, "x", 8⟩,
        ⟨.equals, "=", 9⟩, ⟨.number, "-1.5%", 10⟩, ⟨.semicolon, ";", 15⟩, ⟨.identifier, "y", 16⟩,
        ⟨.equals, "=", 17⟩, ⟨.string, "'\\''", 18⟩, ⟨.closeBrace, "\x7d", 23⟩,
        ⟨.endOfInput, "", 24⟩] := by
    refine scan_eq_of_cut ?_ rfl
    repeat first | exact .done _ | refine .token rfl ?_ | refine .gap rfl ?_
  exact ⟨_, hscan, rfl, scan_tiles hscan⟩

end MobSkills.Token
