import MobSkills.Proofs.Line.Lockstep
import MobSkills.Proofs.Line.Tiling

/-!
# Problems point into their line

Every error and every warning of a parse is about a token of the line, and stands where that
token is written; or it is about the end of the line, and stands there. So its position is
always a character boundary. Which token a problem is about is not said here.
-/
namespace MobSkills

open Token (Tiles)

theorem Text.utf8ByteSize_ofList (s : List Char) :
    (String.ofList s).utf8ByteSize = byteLength s := by
  induction s with
  | nil => rfl
  | cons c r ih =>
    rw [String.ofList_cons, String.utf8ByteSize_append, String.utf8ByteSize_singleton, ih,
      byteLength_cons]

/-- The problem shows a piece of the line, at the byte offset where it stands; or it shows
nothing and stands at the end of the line. -/
def Problem.PointsInto (line : String) (p : Problem) : Prop :=
  (∃ text before after, p.token = some text ∧ text ≠ "" ∧ line = before ++ text ++ after ∧
    p.position = before.utf8ByteSize) ∨
  (p.token = none ∧ p.position = line.utf8ByteSize)

theorem Problem.PointsInto.isValid {line : String} {p : Problem} (h : p.PointsInto line) :
    String.Pos.Raw.IsValid line ⟨p.position⟩ := by
  rw [String.Pos.Raw.isValid_iff_exists_append]
  rcases h with ⟨text, before, after, -, -, rfl, hp⟩ | ⟨-, hp⟩
  · exact ⟨before, text ++ after, String.append_assoc, congrArg _ hp⟩
  · exact ⟨line, "", by simp, congrArg _ hp⟩

theorem pointsInto_of_writtenIn {line : String} {t : Token} (h : Token.WrittenIn 0 line.toList t)
    (hk : t.kind ≠ .endOfInput) (cause : Cause) : (Problem.atToken cause t).PointsInto line := by
  obtain ⟨before, after, hline, hposition, htext, -⟩ := h
  refine .inl ⟨t.text, String.ofList before, String.ofList after, if_neg hk, htext, ?_, ?_⟩
  · rw [← String.toList_inj, hline]
    simp
  · rw [Text.utf8ByteSize_ofList]
    exact hposition.trans (Nat.zero_add _)

/-- A problem about a token of a scan, or about the position after the last one, points into
the line. -/
theorem pointsInto_of_cut {line : String} {ts : List Token} (h : Token.Cut 0 line.toList ts)
    {p : Problem}
    (hp : (∃ cause, ∃ t ∈ ts ++ [Token.endAt (Text.byteLength line.toList)], p = .atToken cause t) ∨
      p.token = none ∧ p.position = Text.byteLength line.toList) : p.PointsInto line := by
  have hlength : line.utf8ByteSize = Text.byteLength line.toList := by
    rw [← Text.utf8ByteSize_ofList, String.ofList_toList]
  rcases hp with ⟨cause, t, ht, rfl⟩ | ⟨htoken, hposition⟩
  · rcases List.mem_append.1 ht with ht | ht
    · exact pointsInto_of_writtenIn (h.tiles.written t ht) (h.isLexeme t ht).kind_ne_endOfInput cause
    · obtain rfl := List.mem_singleton.1 ht
      exact .inr ⟨rfl, hlength.symm⟩
  · exact .inr ⟨htoken, hposition.trans hlength.symm⟩

/-- Every problem of a parse points into its line, at a character boundary. -/
theorem parse_pointsInto {options : ParseOptions} {line : String} {outcome : Outcome}
    (h : SkillLine.parse options line = .ok outcome) :
    ∀ p ∈ outcome.errors ++ outcome.warnings,
      p.PointsInto line ∧ String.Pos.Raw.IsValid line ⟨p.position⟩ := by
  cases hscan : Token.scan line with
  | error e =>
    rw [SkillLine.parse, hscan] at h
    cases h
  | ok tokens =>
    rw [SkillLine.parse, hscan] at h
    obtain rfl := Except.ok.inj h
    obtain ⟨ts, hcut, rfl⟩ := Token.scan_eq_ok_iff.1 hscan
    -- A parse in step with itself: its problems are those of tokens of the line.
    obtain ⟨-, herrors, hwarnings, -⟩ := SkillLine.parseLeaving_inStep options
      (Reading.Alike.refl (P := Eq) (fun _ => rfl) (ts ++ [Token.endAt (Text.byteLength line.toList)]))
    rw [SkillLine.parseLeaving_fst, List.forall₂_same] at herrors hwarnings
    intro p hp
    have hpoints : p.PointsInto line := by
      apply pointsInto_of_cut hcut
      rcases List.mem_append.1 hp with hp | hp
      · rcases herrors p hp with ⟨cause, t, -, ht, -, rfl, -⟩ | ⟨-, e, rfl, -⟩
        · exact .inl ⟨cause, t, ht, rfl⟩
        · refine .inr ⟨rfl, ?_⟩
          simp [Reading.lastPosition, Token.endAt]
      · obtain ⟨cause, t, -, ht, -, rfl, -⟩ := hwarnings p hp
        exact .inl ⟨cause, t, ht, rfl⟩
    exact ⟨hpoints, hpoints.isValid⟩

/-- A letter of two bytes stands before the mechanic. The health gate has no value, and the
rest of the line is left. -/
theorem parse_pointsInto_gate :
    ∃ outcome, SkillLine.parse {} "é-burn <= 2.5 $x" = .ok outcome ∧
      (outcome.errors ++ outcome.warnings).map (fun p => (p.position, p.token)) =
        [(9, some "="), (9, some "=")] ∧
      ∀ p ∈ outcome.errors ++ outcome.warnings, p.PointsInto "é-burn <= 2.5 $x" ∧
        String.Pos.Raw.IsValid "é-burn <= 2.5 $x" ⟨p.position⟩ := by
  have hscan : Token.scan "é-burn <= 2.5 $x" = .ok [⟨.minus, "-", 2⟩, ⟨.identifier, "burn", 3⟩,
      ⟨.less, "<", 8⟩, ⟨.equals, "=", 9⟩, ⟨.number, "2.5", 11⟩, ⟨.identifier, "x", 16⟩,
      ⟨.endOfInput, "", 17⟩] := by
    refine Token.scan_eq_of_cut ?_ rfl
    repeat first | exact .done _ | refine .token rfl ?_ | refine .gap rfl ?_
  have hproblems : (SkillLine.parse {} "é-burn <= 2.5 $x").toOption.map
      (fun outcome => (outcome.errors ++ outcome.warnings).map fun p => (p.position, p.token)) =
        some [(9, some "="), (9, some "=")] := by
    rw [SkillLine.parse, hscan]
    cbv
  cases hparse : SkillLine.parse {} "é-burn <= 2.5 $x" with
  | error e =>
    rw [hparse] at hproblems
    cases hproblems
  | ok outcome =>
    rw [hparse] at hproblems
    exact ⟨outcome, rfl, Option.some.inj hproblems, parse_pointsInto hparse⟩

end MobSkills
