import MobSkills.Proofs.Line.Groups

/-!
# Readers of the health gate and the chance

The end of a line is where the grammar leaves a choice: a number with a sign after a
health value can be the end of its range or the chance. The reader takes it for the
range. The phrases it reads are described with that choice made, and every end of a
line that derives at all derives that way too.
-/
namespace MobSkills.Grammar

open Reading (signedNumber? rangeEnd? comparison? healthValue chance looseParts)

/-! ## Health and chance -/

theorem signedNumber?_eq_some {tokens rest : List Token} {text : String} :
    signedNumber? tokens = some (text, rest) ↔
      ∃ front, tokens = front ++ rest ∧ SignedOf front text := by
  constructor
  · intro h
    unfold signedNumber? at h
    split at h
    · rename_i t r
      split at h
      · rename_i hk
        cases h
        exact ⟨[t], rfl, .plain hk⟩
      split at h
      · rename_i hm
        split at h
        · rename_i u r
          obtain ⟨hk, heq⟩ := Option.ite_none_right_eq_some.1 h
          cases heq
          exact ⟨[t, u], rfl, .minus hm hk⟩
        · cases h
      · cases h
    · cases h
  · intro h
    obtain ⟨front, rfl, h⟩ := h
    cases h with
    | plain hn => simp [signedNumber?, hn]
    | minus hm hn => simp [signedNumber?, hm, hn]

theorem rangeEnd?_eq_some {tokens rest : List Token} {text : String} :
    rangeEnd? tokens = some (text, rest) ↔
      ∃ front, tokens = front ++ rest ∧ BoundOf front text := by
  rw [rangeEnd?, Option.filter_eq_some_iff, signedNumber?_eq_some]
  constructor
  · intro h
    obtain ⟨⟨front, happ, h⟩, hhead⟩ := h
    exact ⟨front, happ, h, by simpa using hhead⟩
  · intro h
    obtain ⟨front, happ, h, hhead⟩ := h
    exact ⟨⟨front, happ, h⟩, by simpa using hhead⟩

theorem comparison?_eq_some {t : Token} {c : Comparison} :
    comparison? t = some c ↔ SignOf t.kind c := by
  constructor
  · intro h
    unfold comparison? at h
    split at h
    · rename_i hk
      cases h
      exact hk ▸ .below
    · rename_i hk
      cases h
      exact hk ▸ .equal
    · rename_i hk
      cases h
      exact hk ▸ .above
    · cases h
  · intro h
    unfold comparison?
    generalize t.kind = k at h
    cases h <;> rfl

theorem comparison?_eq_none {t : Token} (hl : t.kind ≠ .less) (he : t.kind ≠ .equals)
    (hg : t.kind ≠ .greater) : comparison? t = none := by
  cases h : comparison? t with
  | none => rfl
  | some c =>
    have hs := comparison?_eq_some.1 h
    generalize t.kind = k at *
    cases hs
    · exact absurd rfl hl
    · exact absurd rfl he
    · exact absurd rfl hg

/-- A chance is read whatever the options are. -/
theorem chance_of_chanceOf {options : ParseOptions} {t : Token} {x : Binary64} {rest : List Token}
    (h : ChanceOf [t] x) : chance options (t :: rest) = (some x, [], rest) := by
  cases h with
  | mk ht hp hs hx hr => simp [chance, ht, hp, hs, hx, hr]

theorem exists_chanceOf {options : ParseOptions} {tokens rest : List Token} {x : Option Binary64}
    (h : chance options tokens = (x, [], rest)) :
    ∃ front, tokens = front ++ rest ∧ Maybe ChanceOf front x := by
  have habsent {more : List Token} (h : (none, [], more) = (x, ([] : List Problem), rest)) :
      ∃ front, more = front ++ rest ∧ Maybe ChanceOf front x := by
    cases h
    exact ⟨[], rfl, .absent⟩
  cases tokens with
  | nil => exact habsent h
  | cons t r =>
    simp only [chance] at h
    split at h
    · rename_i hcond
      simp only [Bool.and_eq_true, decide_eq_true_eq, List.contains_iff_mem, bne_iff_ne] at hcond
      obtain ⟨⟨hk, hp⟩, hs⟩ := hcond
      split at h
      · exact habsent h
      rename_i y hy
      split at h
      · rename_i hr
        cases h
        exact ⟨[t], rfl, .present (.mk hk hp hs hy hr)⟩
      split at h
      · cases h
      · exact habsent h
    · exact habsent h

/-- What the parser takes after the conditions: the health gate with its range, where
a second number follows, and then the chance. -/
inductive TailOf : List Token → Option HealthGate → Option Binary64 → Prop
  | bare {cs : List Token} {chance : Option Binary64} (hc : Maybe ChanceOf cs chance) :
      TailOf cs none chance
  | single {t : Token} {ts cs : List Token} {c : Comparison} {low : String}
      {chance : Option Binary64} (ht : SignOf t.kind c) (h : SignedOf ts low)
      (hc : Maybe ChanceOf cs chance) (hn : ∀ u ∈ cs, u.text.toList.head? ≠ some '-') :
      TailOf (t :: (ts ++ cs)) (some ⟨c, low⟩) chance
  | range {t : Token} {ts us cs : List Token} {c : Comparison} {low high : String}
      {chance : Option Binary64} (ht : SignOf t.kind c) (h : SignedOf ts low)
      (hu : BoundOf us high) (hc : Maybe ChanceOf cs chance) :
      TailOf (t :: (ts ++ (us ++ cs))) (some ⟨c, low ++ high⟩) chance

/-- A chance taken as the end of a range leaves a line that derives as well. -/
theorem exists_tailOf {hs cs : List Token} {health : Option HealthGate}
    {chance : Option Binary64} (hh : Maybe HealthOf hs health) (hc : Maybe ChanceOf cs chance) :
    ∃ health chance, TailOf (hs ++ cs) health chance := by
  cases hh with
  | absent => exact ⟨_, _, .bare hc⟩
  | present hh =>
    cases hh with
    | @mk t ts c value ht ha =>
      cases ha with
      | single h =>
        by_cases hn : ∀ u ∈ cs, u.text.toList.head? ≠ some '-'
        · exact ⟨_, _, .single ht h hc hn⟩
        · cases hc with
          | absent => exact absurd (by simp) hn
          | present hc =>
            cases hc with
            | @mk u x hk hp hs hx hr =>
              have hminus : u.text.toList.head? = some '-' := by simpa using hn
              have hbound : BoundOf [u] u.text := ⟨.plain hk, hminus⟩
              have htail := TailOf.range ht h hbound (Maybe.absent (P := ChanceOf))
              exact ⟨_, _, by simpa using htail⟩
      | range h hu =>
        have htail := TailOf.range ht h hu hc
        exact ⟨_, _, by simpa using htail⟩

theorem TailOf.exists_parts {ts : List Token} {health : Option HealthGate}
    {chance : Option Binary64} (h : TailOf ts health chance) :
    ∃ hs cs, ts = hs ++ cs ∧ Maybe HealthOf hs health ∧ Maybe ChanceOf cs chance := by
  cases h with
  | bare hc => exact ⟨[], ts, rfl, .absent, hc⟩
  | single ht h hc _ => exact ⟨_, _, rfl, .present (.mk ht (.single h)), hc⟩
  | range ht h hu hc => exact ⟨_, _, by simp, .present (.mk ht (.range h hu)), hc⟩

/-! ## The loose parts -/

/-- A line goes on with a comparison or without one. The end marker is no comparison, so
something follows the one at the front. -/
theorem bare_or_exists_comparison {tokens : List Token}
    (hend : ∃ ts last, tokens = ts ++ [last] ∧ last.kind = .endOfInput) :
    (∀ t ∈ tokens.head?, comparison? t = none) ∨
      ∃ t r c, tokens = t :: r ∧ r ≠ [] ∧ comparison? t = some c := by
  obtain ⟨ts, last, rfl, hlast⟩ := hend
  have hend : comparison? last = none :=
    comparison?_eq_none (by simp [hlast]) (by simp [hlast]) (by simp [hlast])
  cases ts with
  | nil => exact .inl (by simpa using hend)
  | cons t us =>
    cases ht : comparison? t with
    | none => exact .inl (by simpa using ht)
    | some c => exact .inr ⟨t, us ++ [last], c, rfl, by simp, ht⟩

theorem looseParts_bare {options : ParseOptions} {line : SkillLine} {tokens rest : List Token}
    {x : Option Binary64} {odd : List Problem} (h : ∀ t ∈ tokens.head?, comparison? t = none)
    (hc : chance options tokens = (x, odd, rest)) :
    looseParts options line tokens = ({ line with health := none, chance := x }, odd, rest) := by
  cases tokens with
  | nil =>
    cases hc
    rfl
  | cons t r => simp [looseParts, h t rfl, hc]

theorem looseParts_health {options : ParseOptions} {line : SkillLine} {t : Token}
    {r left rest : List Token} {c : Comparison} {value : String} {odd odd' : List Problem}
    {x : Option Binary64} (ht : comparison? t = some c) (hv : healthValue r = (value, odd, left))
    (hc : chance options left = (x, odd', rest)) :
    looseParts options line (t :: r) =
      ({ line with health := some ⟨c, value⟩, chance := x }, odd ++ odd', rest) := by
  simp [looseParts, ht, hv, hc]

theorem healthValue_single {tokens rest : List Token} {low : String}
    (h : signedNumber? tokens = some (low, rest)) (hr : rangeEnd? rest = none) :
    healthValue tokens = (low, [], rest) := by
  simp [healthValue, h, hr]

theorem healthValue_range {tokens left rest : List Token} {low high : String}
    (h : signedNumber? tokens = some (low, left)) (hr : rangeEnd? left = some (high, rest)) :
    healthValue tokens = (low ++ high, [], rest) := by
  simp [healthValue, h, hr]

/-- A health value without a warning is a number, with the second one of a range where
that follows. -/
theorem exists_signedNumber? {tokens rest : List Token} {value : String} (hn : tokens ≠ [])
    (h : healthValue tokens = (value, [], rest)) :
    (signedNumber? tokens = some (value, rest) ∧ rangeEnd? rest = none) ∨
    ∃ low high left, signedNumber? tokens = some (low, left) ∧
      rangeEnd? left = some (high, rest) ∧ value = low ++ high := by
  unfold healthValue at h
  split at h
  · obtain ⟨t, r, rfl⟩ := List.exists_cons_of_ne_nil hn
    cases h
  · rename_i low left hlow
    split at h
    · rename_i high more hhigh
      cases h
      exact .inr ⟨low, high, left, hlow, hhigh, rfl⟩
    · rename_i hnone
      cases h
      exact .inl ⟨hlow, hnone⟩

/-- Where no range can end, a chance has no sign. -/
theorem head?_ne_of_rangeEnd? {cs rest : List Token} {x : Option Binary64}
    (hc : Maybe ChanceOf cs x) (h : rangeEnd? (cs ++ rest) = none) :
    ∀ u ∈ cs, u.text.toList.head? ≠ some '-' := by
  intro u hu hminus
  cases hc with
  | absent => cases hu
  | present hc =>
    cases hc with
    | mk hk _ _ _ _ =>
      obtain rfl := List.mem_singleton.1 hu
      have hbound : rangeEnd? ([u] ++ rest) = some (u.text, rest) :=
        rangeEnd?_eq_some.2 ⟨[u], rfl, .plain hk, hminus⟩
      rw [h] at hbound
      cases hbound

/-- A chance without a sign ends no range, and neither does the end marker. -/
theorem rangeEnd?_eq_none {cs rest : List Token} {x : Option Binary64} (hc : Maybe ChanceOf cs x)
    (hn : ∀ u ∈ cs, u.text.toList.head? ≠ some '-') (hr : Begins [.endOfInput] rest) :
    rangeEnd? (cs ++ rest) = none := by
  cases hc with
  | absent =>
    cases rest with
    | nil => rfl
    | cons t r =>
      have ht : t.kind = .endOfInput := by simpa using hr t rfl
      simp [rangeEnd?, signedNumber?, ht]
  | present hc =>
    cases hc with
    | @mk t x hk _ _ _ _ =>
      have hminus := hn t (List.mem_singleton.2 rfl)
      simp [rangeEnd?, signedNumber?, hk, hminus]

theorem chance_of_maybe {options : ParseOptions} {cs rest : List Token} {x : Option Binary64}
    (hc : Maybe ChanceOf cs x) (hr : Begins [.endOfInput] rest) :
    chance options (cs ++ rest) = (x, [], rest) := by
  cases hc with
  | absent =>
    cases rest with
    | nil => rfl
    | cons t r =>
      have ht : t.kind = .endOfInput := by simpa using hr t rfl
      simp [chance, ht]
  | present hc =>
    cases hc with
    | mk ht hp hs hx hr => exact chance_of_chanceOf (.mk ht hp hs hx hr)

theorem exists_tailOf_health {options : ParseOptions} {line read : SkillLine} {t : Token}
    {r rest : List Token} {c : Comparison} (ht : comparison? t = some c) (hr : r ≠ [])
    (h : looseParts options line (t :: r) = (read, [], rest)) :
    ∃ front health chance, t :: r = front ++ rest ∧ TailOf front health chance ∧
      read = { line with health, chance } := by
  have hsign := comparison?_eq_some.1 ht
  generalize hv : healthValue r = answer at h
  obtain ⟨value, odd, left⟩ := answer
  generalize hc : Reading.chance options left = answer
  obtain ⟨x, odd', more⟩ := answer
  rw [looseParts_health ht hv hc] at h
  simp only [Prod.mk.injEq, List.append_eq_nil_iff] at h
  obtain ⟨rfl, ⟨rfl, rfl⟩, rfl⟩ := h
  obtain ⟨cs, rfl, hcs⟩ := exists_chanceOf hc
  rcases exists_signedNumber? hr hv with ⟨hlow, hnone⟩ | ⟨low, high, left, hlow, hhigh, rfl⟩
  · obtain ⟨front, rfl, hsigned⟩ := signedNumber?_eq_some.1 hlow
    exact ⟨t :: (front ++ cs), _, _, by simp,
      .single hsign hsigned hcs (head?_ne_of_rangeEnd? hcs hnone), rfl⟩
  · obtain ⟨front, rfl, hsigned⟩ := signedNumber?_eq_some.1 hlow
    obtain ⟨bound, rfl, hbound⟩ := rangeEnd?_eq_some.1 hhigh
    exact ⟨t :: (front ++ (bound ++ cs)), _, _, by simp, .range hsign hsigned hbound hcs, rfl⟩

theorem exists_tailOf_looseParts {options : ParseOptions} {line read : SkillLine}
    {tokens rest : List Token} (hend : ∃ ts last, tokens = ts ++ [last] ∧ last.kind = .endOfInput)
    (h : looseParts options line tokens = (read, [], rest)) :
    ∃ front health chance, tokens = front ++ rest ∧ TailOf front health chance ∧
      read = { line with health, chance } := by
  rcases bare_or_exists_comparison hend with hbare | ⟨t, r, c, rfl, hr, ht⟩
  · generalize hc : Reading.chance options tokens = answer
    obtain ⟨x, odd, left⟩ := answer
    rw [looseParts_bare hbare hc] at h
    obtain ⟨rfl, rfl, rfl⟩ := by simpa using h
    obtain ⟨front, happ, hc⟩ := exists_chanceOf hc
    exact ⟨front, none, x, happ, .bare hc, rfl⟩
  · exact exists_tailOf_health ht hr h

theorem looseParts_of_tailOf {options : ParseOptions} {line : SkillLine} {ts rest : List Token}
    {health : Option HealthGate} {x : Option Binary64} (h : TailOf ts health x)
    (hr : Begins [.endOfInput] rest) :
    looseParts options line (ts ++ rest) = ({ line with health, chance := x }, [], rest) := by
  cases h with
  | bare hc =>
    refine looseParts_bare ?_ (chance_of_maybe hc hr)
    intro t ht
    have hk : t.kind = .number ∨ t.kind = .endOfInput := by
      cases hc with
      | absent => exact .inr (by simpa using hr t ht)
      | present hc =>
        cases hc with
        | mk hk _ _ _ _ =>
          obtain rfl := by simpa using ht
          exact .inl hk
    rcases hk with hk | hk <;>
      exact comparison?_eq_none (by simp [hk]) (by simp [hk]) (by simp [hk])
  | @single t ts cs c low x ht hs hc hn =>
    have hv : healthValue (ts ++ (cs ++ rest)) = (low, [], cs ++ rest) :=
      healthValue_single (signedNumber?_eq_some.2 ⟨ts, rfl, hs⟩) (rangeEnd?_eq_none hc hn hr)
    simpa using looseParts_health (comparison?_eq_some.2 ht) hv (chance_of_maybe hc hr)
  | @range t ts us cs c low high x ht hs hu hc =>
    have hv : healthValue (ts ++ (us ++ (cs ++ rest))) = (low ++ high, [], cs ++ rest) :=
      healthValue_range (signedNumber?_eq_some.2 ⟨ts, rfl, hs⟩) (rangeEnd?_eq_some.2 ⟨us, rfl, hu⟩)
    simpa using looseParts_health (comparison?_eq_some.2 ht) hv (chance_of_maybe hc hr)

end MobSkills.Grammar
