/-
  ResidualCodec.Proofs.Coefficient.Symbol

  The symbol of a level is read back from its decisions as it was written, and
  gives the level as far as magnitudes can be coded.
-/

import ResidualCodec.Proofs.Token.Coding

namespace ResidualCodec

/-! ## Levels -/

/-- The level nearest to another one that can be coded. -/
def clampLevel (d : BitDepth) (x : Int) : Int := x.sign * (min x.natAbs (maxMagnitude d) : Nat)

theorem maxMagnitude_pos (d : BitDepth) : 0 < maxMagnitude d := by
  cases d <;> decide

theorem clampLevel_zero (d : BitDepth) : clampLevel d 0 = 0 := rfl

/-- Levels are clamped to the interval of the magnitudes that can be coded. -/
theorem clampLevel_eq_max_min (d : BitDepth) (x : Int) :
    clampLevel d x = max (-(maxMagnitude d : Int)) (min x (maxMagnitude d)) := by
  have hpos := maxMagnitude_pos d
  simp only [clampLevel]
  rcases Int.lt_trichotomy x 0 with h | h | h
  · rw [Int.sign_eq_neg_one_of_neg h]
    omega
  · rw [h, Int.sign_zero]
    omega
  · rw [Int.sign_eq_one_of_pos h]
    omega

/-- A level that can be coded is not clamped. -/
theorem clampLevel_of_le {d : BitDepth} {x : Int} (h : x.natAbs ≤ maxMagnitude d) :
    clampLevel d x = x := by
  rw [clampLevel_eq_max_min]
  omega

/-- Clamping makes no level a zero. -/
theorem eq_zero_of_clampLevel {d : BitDepth} {x : Int} (h : clampLevel d x = 0) : x = 0 := by
  have hpos := maxMagnitude_pos d
  rw [clampLevel_eq_max_min] at h
  omega

namespace Symbol

/-! ## Symbols of levels -/

/-- A symbol that an encoder writes: the offset fits into the extra bits, and what the token does
not need has its default. -/
structure Codable (d : BitDepth) (s : Symbol) : Prop where
  offset_lt : s.offset < 2 ^ (s.token.extraProbs d).length
  positive : s.token = .zero ∨ s.token = .endOfBlock → s.negative = false
  checked : s.token = .endOfBlock → s.checked = true

/-- Tokens of a single value have no extra bits. -/
theorem Codable.offset_eq_zero {d : BitDepth} {s : Symbol} (h : s.Codable d)
    (htoken : s.token = .zero ∨ s.token = .endOfBlock) : s.offset = 0 := by
  have hlt := h.offset_lt
  rcases htoken with hzero | hend
  · rw [hzero] at hlt
    exact Nat.lt_one_iff.mp hlt
  · rw [hend] at hlt
    exact Nat.lt_one_iff.mp hlt

/-- There is one end of block at a position. -/
theorem Codable.endOfBlock_eq {d : BitDepth} {s : Symbol} (h : s.Codable d)
    (hend : s.token = .endOfBlock) : endOfBlock s.band s.ctx = s := by
  have hoffset := h.offset_eq_zero (.inr hend)
  simp only [endOfBlock]
  rw [← h.checked hend, ← hend, ← hoffset, ← h.positive (.inr hend)]

theorem codable_endOfBlock (d : BitDepth) (b : Band) (c : Ctx) : Codable d (endOfBlock b c) where
  offset_lt := Nat.one_pos
  positive _ := rfl
  checked _ := rfl

section

variable (d : BitDepth) (b : Band) (c : Ctx) (checked : Bool) (x : Int)

theorem ofLevel_ne_endOfBlock : (ofLevel d b c checked x).token ≠ .endOfBlock :=
  Token.ofMagnitude_ne_endOfBlock _

/-- Only the level zero is coded as a zero. -/
theorem ofLevel_eq_zero_iff : (ofLevel d b c checked x).token = .zero ↔ x = 0 := by
  have hpos := maxMagnitude_pos d
  show Token.ofMagnitude (min x.natAbs (maxMagnitude d)) = .zero ↔ x = 0
  rw [Token.ofMagnitude_eq_zero_iff]
  omega

theorem codable_ofLevel : Codable d (ofLevel d b c checked x) where
  offset_lt := (Token.ofMagnitude_spec (Nat.min_le_right _ _)).2
  positive := by
    rintro (h | h)
    · rw [ofLevel_eq_zero_iff] at h
      rw [h]
      rfl
    · exact absurd h (ofLevel_ne_endOfBlock d b c checked x)
  checked h := absurd h (ofLevel_ne_endOfBlock d b c checked x)

/-- Base and offset of the symbol add up to the magnitude of the level. -/
theorem base_add_offset_ofLevel :
    ((ofLevel d b c checked x).token.base : Int) + (ofLevel d b c checked x).offset =
      (min x.natAbs (maxMagnitude d) : Nat) := by
  have hbase := (Token.ofMagnitude_spec (Nat.min_le_right x.natAbs (maxMagnitude d))).1
  rw [← Int.natCast_add]
  exact congrArg Nat.cast (Nat.add_sub_cancel' hbase)

theorem level?_ofLevel : (ofLevel d b c checked x).level? = some (clampLevel d x) := by
  rw [level?]
  rw [if_neg (ofLevel_ne_endOfBlock d b c checked x)]
  dsimp only
  rw [base_add_offset_ofLevel, clampLevel_eq_max_min]
  congr 1
  show (if decide (x < 0) = true then _ else _) = _
  split
  case isTrue h =>
    have hneg := of_decide_eq_true h
    omega
  case isFalse h =>
    have hpos := of_decide_eq_false (Bool.eq_false_of_not_eq_true h)
    omega

end

/-! ## Reading a symbol -/

/-- Decisions that follow the question for the end of block. -/
def valueDecisions (probs : NodeProbs) (d : BitDepth) (s : Symbol) : List Decision :=
  if s.token = .zero then [⟨false, probs.zero⟩]
  else
    ⟨true, probs.zero⟩ :: (tokenDecisions probs s.token ++
      (Decision.extra s.offset (s.token.extraProbs d) ++ [.even s.negative]))

theorem decisions_of_ne_endOfBlock (probs : NodeProbs) (d : BitDepth) {s : Symbol}
    (h : s.token ≠ .endOfBlock) :
    s.decisions probs d =
      (if s.checked then [⟨true, probs.endOfBlock⟩] else []) ++ s.valueDecisions probs d := by
  rw [decisions, valueDecisions]
  rw [if_neg h]
  dsimp only
  split
  case isTrue => rfl
  case isFalse =>
    rw [List.append_assoc, List.append_assoc]
    rfl

end Symbol

section

variable {ρ : Type} [BoolReader ρ] {r r' : ρ} {probs : NodeProbs} {d : BitDepth} {s : Symbol}

theorem readCoefficient_of_replays (hs : s.Codable d) (hend : s.token ≠ .endOfBlock)
    (h : Replays r (s.valueDecisions probs d) r') :
    readCoefficient probs d s.band s.ctx s.checked r = (.symbol s, r') := by
  simp only [Symbol.valueDecisions] at h
  simp only [readCoefficient]
  split at h
  case isTrue hzero =>
    obtain ⟨hread, hin⟩ := h.of_singleton
    have hoffset := hs.offset_eq_zero (.inl hzero)
    have hsymbol : (⟨s.band, s.ctx, s.checked, .zero, 0, false⟩ : Symbol) = s := by
      rw [← hzero, ← hoffset, ← hs.positive (.inl hzero)]
    rw [hread]
    dsimp only
    rw [if_neg Bool.false_ne_true, hin, if_neg Bool.false_ne_true, hsymbol]
  case isFalse hzero =>
    obtain ⟨m, hread, -, hrest⟩ := h.of_cons
    obtain ⟨k, htoken, hrest⟩ := hrest.of_append
    obtain ⟨l, hextra, hsign⟩ := hrest.of_append
    obtain ⟨hbit, hin⟩ := hsign.of_singleton
    have hoffset : BoolReader.readExtra k (s.token.extraProbs d) 0 = (s.offset, l) := by
      rw [hextra.readExtra, Nat.mul_zero, Nat.zero_add, Nat.mod_eq_of_lt hs.offset_lt]
    have hnegative : BoolReader.readBit l = (s.negative, r') := hbit
    rw [hread]
    dsimp only
    rw [if_pos rfl, readToken_of_replays hzero hend htoken]
    dsimp only
    rw [hoffset]
    dsimp only
    rw [hnegative]
    dsimp only
    rw [hin, if_neg Bool.false_ne_true]

/-- A symbol is read back from its decisions. -/
theorem readSymbol_of_replays (hs : s.Codable d) (h : Replays r (s.decisions probs d) r') :
    readSymbol probs d s.band s.ctx s.checked r = (.symbol s, r') := by
  simp only [readSymbol]
  by_cases hend : s.token = .endOfBlock
  · simp only [Symbol.decisions] at h
    rw [if_pos hend] at h
    obtain ⟨hread, hin⟩ := h.of_singleton
    rw [hs.checked hend, if_pos rfl, hread]
    dsimp only
    rw [hin, if_neg Bool.false_ne_true, if_neg Bool.false_ne_true, hs.endOfBlock_eq hend]
  · rw [Symbol.decisions_of_ne_endOfBlock probs d hend] at h
    obtain ⟨m, hcheck, hvalue⟩ := h.of_append
    have hcoef := readCoefficient_of_replays hs hend hvalue
    cases hchecked : s.checked with
    | true =>
      rw [hchecked] at hcheck hcoef
      obtain ⟨hread, hin⟩ := hcheck.of_singleton
      rw [if_pos rfl, hread]
      dsimp only
      rw [hin, if_neg Bool.false_ne_true, if_pos rfl, hcoef]
    | false =>
      rw [hchecked] at hcheck hcoef
      rw [if_neg Bool.false_ne_true, ← hcheck.eq_of_nil, hcoef]

end

end ResidualCodec
