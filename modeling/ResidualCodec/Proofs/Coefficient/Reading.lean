/-
  ResidualCodec.Proofs.Coefficient.Reading

  What a decoder makes of arbitrary answers. Every symbol that it reads is one
  that an encoder could have written, and costs 26 decisions at most; a block is
  read stage by stage, up to its last position, an end of block, or the end of
  the reader.
-/

import ResidualCodec.Proofs.Coefficient.RoundTrip
import ResidualCodec.Proofs.Token.Reading

namespace ResidualCodec

/-! ## Magnitudes -/

namespace Symbol

variable {d : BitDepth} {s : Symbol}

/-- The extra bits of a category never reach past the largest magnitude. -/
theorem Codable.magnitude_le (h : s.Codable d) : s.token.base + s.offset ≤ maxMagnitude d := by
  have hlt := h.offset_lt
  have hmax : 67 + 2 ^ d.category6Bits = maxMagnitude d + 1 := by cases d <;> rfl
  have hpow : 2 ^ 14 ≤ 2 ^ d.category6Bits := by cases d <;> decide
  cases htoken : s.token with
  | category k =>
    rw [htoken] at hlt
    cases k with
    | sixth =>
      rw [Token.length_category6Probs_drop] at hlt
      simp only [Token.base, Category.base]
      omega
    | _ =>
      simp only [Token.extraProbs, List.length_cons, List.length_nil] at hlt
      simp only [Token.base, Category.base]
      omega
  | _ =>
    rw [htoken] at hlt
    simp only [Token.extraProbs, List.length_nil] at hlt
    simp only [Token.base]
    omega

theorem level?_of_ne_endOfBlock (h : s.token ≠ .endOfBlock) :
    s.level? = some (if s.negative then -(s.token.base + s.offset : Int)
      else s.token.base + s.offset) :=
  if_neg h

theorem ne_endOfBlock_of_level? {x : Int} (h : s.level? = some x) : s.token ≠ .endOfBlock := by
  intro hend
  rw [level?, if_pos hend] at h
  cases h

theorem natAbs_of_level? {x : Int} (h : s.level? = some x) :
    x.natAbs = s.token.base + s.offset := by
  rw [level?_of_ne_endOfBlock (ne_endOfBlock_of_level? h)] at h
  have hx := Option.some.inj h
  split at hx
  case isTrue => omega
  case isFalse => omega

/-- Tokens other than a zero stand for magnitudes of one and more. -/
theorem base_pos {token : Token} (hzero : token ≠ .zero) (hend : token ≠ .endOfBlock) :
    0 < token.base := by
  cases token with
  | zero => exact absurd rfl hzero
  | endOfBlock => exact absurd rfl hend
  | category k => cases k <;> decide
  | _ => decide

/-- Of the levels, only those of a zero are zero. -/
theorem Codable.level_eq_zero_iff (h : s.Codable d) {x : Int} (hx : s.level? = some x) :
    x = 0 ↔ s.token = .zero := by
  have habs := natAbs_of_level? hx
  constructor
  · intro hzero
    by_contra hne
    have hpos := base_pos hne (ne_endOfBlock_of_level? hx)
    omega
  · intro hzero
    have hoffset := h.offset_eq_zero (.inl hzero)
    rw [hzero, hoffset] at habs
    exact Int.natAbs_eq_zero.mp habs

end Symbol

/-! ## Symbols from any reader -/

section

variable {ρ : Type} [BoolReader ρ]

theorem readExtra_lt (r : ρ) (probs : List UInt8) (acc : Nat) :
    (BoolReader.readExtra r probs acc).1 < 2 ^ probs.length * (acc + 1) := by
  induction probs generalizing r acc with
  | nil =>
    show acc < 1 * (acc + 1)
    omega
  | cons p ps ih =>
    have hrest := ih (BoolReader.read r p).2 (2 * acc + (BoolReader.read r p).1.toNat)
    have hbit := Bool.toNat_le (BoolReader.read r p).1
    calc (BoolReader.readExtra r (p :: ps) acc).1
        < 2 ^ ps.length * (2 * acc + (BoolReader.read r p).1.toNat + 1) := hrest
      _ ≤ 2 ^ ps.length * (2 * (acc + 1)) := Nat.mul_le_mul_left _ (by omega)
      _ = 2 ^ (p :: ps).length * (acc + 1) := by
        rw [List.length_cons, Nat.pow_succ, Nat.mul_assoc]

variable (probs : NodeProbs) (d : BitDepth) (b : Band) (c : Ctx) (checked : Bool) (r : ρ)

/-- After the question for the end of block a coefficient is read, of which everything is known as
soon as there is a token. -/
theorem readCoefficient_spec :
    (∃ token, (readCoefficient probs d b c checked r).1 = .exhausted (some token)) ∨
      ∃ s, (readCoefficient probs d b c checked r).1 = .symbol s ∧ s.Codable d ∧
        s.token ≠ .endOfBlock := by
  simp only [readCoefficient]
  split
  case isTrue =>
    obtain ⟨hzero, hend⟩ := readToken_ne probs (BoolReader.read r probs.zero).2
    split
    case isTrue => exact .inl ⟨_, rfl⟩
    case isFalse =>
      refine .inr ⟨_, rfl, ⟨?_, ?_, ?_⟩, hend⟩
      · have hlt := readExtra_lt (readToken probs (BoolReader.read r probs.zero).2).2
          ((readToken probs (BoolReader.read r probs.zero).2).1.extraProbs d) 0
        rw [Nat.zero_add, Nat.mul_one] at hlt
        exact hlt
      · rintro (h | h)
        · exact absurd h hzero
        · exact absurd h hend
      · intro h
        exact absurd h hend
  case isFalse =>
    split
    case isTrue => exact .inl ⟨_, rfl⟩
    case isFalse =>
      refine .inr ⟨_, rfl, ⟨Nat.one_pos, ?_, Token.noConfusion⟩, Token.noConfusion⟩
      intro _
      rfl

/-- Whether a reader is found exhausted by the question for the end of block. -/
def ExhaustedAtEnd (probs : NodeProbs) (checked : Bool) (r : ρ) : Prop :=
  checked = true ∧ BoolReader.overrun (BoolReader.read r probs.endOfBlock).2 = true

theorem readSymbol_unchecked :
    readSymbol probs d b c false r = readCoefficient probs d b c false r := rfl

theorem readSymbol_checked :
    readSymbol probs d b c true r =
      let x := BoolReader.read r probs.endOfBlock
      if BoolReader.overrun x.2 then (.exhausted none, x.2)
      else if x.1 then readCoefficient probs d b c true x.2
      else (.symbol (.endOfBlock b c), x.2) := rfl

/-- A symbol is read, and an end of block only where it is asked for; or else the reader is
exhausted, without a token only by the question for the end of block. -/
theorem readSymbol_spec :
    (∃ token, (readSymbol probs d b c checked r).1 = .exhausted token ∧
        (token = none ↔ ExhaustedAtEnd probs checked r)) ∨
      ∃ s, (readSymbol probs d b c checked r).1 = .symbol s ∧ s.Codable d ∧
        (s.token = .endOfBlock → checked = true) := by
  cases checked with
  | true =>
    rw [readSymbol_checked]
    dsimp only
    split
    case isTrue hover => exact .inl ⟨none, rfl, iff_of_true rfl ⟨rfl, hover⟩⟩
    case isFalse hover =>
      split
      case isTrue =>
        rcases readCoefficient_spec probs d b c true (BoolReader.read r probs.endOfBlock).2 with
          ⟨token, h⟩ | ⟨s, h, hs, -⟩
        · exact .inl ⟨_, h, iff_of_false (Option.some_ne_none token) fun hend => hover hend.2⟩
        · exact .inr ⟨s, h, hs, fun _ => rfl⟩
      case isFalse => exact .inr ⟨_, rfl, Symbol.codable_endOfBlock d b c, fun _ => rfl⟩
  | false =>
    rw [readSymbol_unchecked]
    rcases readCoefficient_spec probs d b c false r with ⟨token, h⟩ | ⟨s, h, hs, hend⟩
    · exact .inl ⟨_, h, iff_of_false (Option.some_ne_none token) fun hend =>
        Bool.false_ne_true hend.1⟩
    · exact .inr ⟨s, h, hs, fun h => absurd h hend⟩

/-! ### Cost -/

theorem length_extraProbs_le (token : Token) (d : BitDepth) :
    (token.extraProbs d).length ≤ 18 := by
  cases token with
  | category k => cases k <;> cases d <;> decide
  | _ => exact Nat.zero_le 18

/-- A zero is one decision. The largest category takes one for not being zero, five for its token,
18 extra bits and a sign. -/
theorem spends_readCoefficient :
    Spends 25 (fun m : Metered ρ => readCoefficient probs d b c checked m)
      fun r => readCoefficient probs d b c checked r := by
  have hvalue := (spends_readToken (ρ := ρ) probs).bind fun token =>
    ((spends_readExtra (ρ := ρ) (token.extraProbs d) 0).mono (length_extraProbs_le token d)).bind
      fun offset => spends_readBit.bind fun negative => .pure (token, offset, negative)
  have hlarge := hvalue.check (fun a => SymbolRead.exhausted (some a.1)) fun a =>
    .pure (.symbol ⟨b, c, checked, a.1, a.2.1, a.2.2⟩)
  have hzero := ((Spends.pure (ρ := ρ) ()).check (fun _ => SymbolRead.exhausted (some .zero))
    fun _ => .pure (.symbol ⟨b, c, checked, .zero, 0, false⟩)).mono (Nat.zero_le 24)
  have hcost := (spends_read (ρ := ρ) probs.zero).bind fun nonzero =>
    .ite (nonzero = true) hlarge hzero
  exact hcost

/-- One more decision asks for the end of block. -/
theorem spends_readSymbol :
    Spends 26 (fun m : Metered ρ => readSymbol probs d b c checked m)
      fun r => readSymbol probs d b c checked r := by
  have hcoef := spends_readCoefficient (ρ := ρ) probs d b c checked
  have hend := (Spends.pure (ρ := ρ) (SymbolRead.symbol (.endOfBlock b c))).mono (Nat.zero_le 25)
  have hasked := (spends_read (ρ := ρ) probs.endOfBlock).check
    (fun _ => SymbolRead.exhausted none) fun more => .ite (more = true) hcoef hend
  have hcost := Spends.ite (checked = true) hasked (hcoef.mono (by decide : 25 ≤ 1 + 25))
  exact hcost

end

end ResidualCodec
