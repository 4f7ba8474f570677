/-
  ResidualCodec.Proofs.BoolCoder.Truncation

  A decoder over data and a decoder over the same data with more behind it are
  in lockstep: as long as the first has not asked for a byte past its end, both
  have read the same bytes and are in the same state.
-/

import ResidualCodec.BoolCoder.Decoder
import ResidualCodec.Proofs.Reader.Lockstep

namespace ResidualCodec

namespace BoolDecoder

/-- The decoder with more data behind its own. -/
def append (d : BoolDecoder) (suffix : List UInt8) : BoolDecoder :=
  { d with rest := d.rest ++ suffix }

section

variable (d : BoolDecoder) (suffix : List UInt8)

/-! ## Missing bytes -/

theorem missing_le_nextByte : d.missing ≤ d.nextByte.2.missing := by
  simp only [nextByte]
  split
  case h_1 => exact Nat.le_refl _
  case h_2 => exact Nat.le_succ _

theorem missing_le_double : d.missing ≤ d.double.missing := by
  simp only [double]
  split
  case isTrue =>
    exact missing_le_nextByte { d with
      range := 2 * d.range, window := 2 * d.window % 0x100000000, shifts := d.shifts + 1 }
  case isFalse => exact Nat.le_refl _

theorem missing_le_renormalize (fuel : Nat) : d.missing ≤ (renormalize fuel d).missing := by
  induction fuel generalizing d with
  | zero => exact Nat.le_refl _
  | succ fuel ih =>
    simp only [renormalize]
    split
    case isTrue => exact Nat.le_trans (missing_le_double d) (ih d.double)
    case isFalse => exact Nat.le_refl _

theorem missing_le_read (p : UInt8) : d.missing ≤ (d.read p).2.missing := by
  simp only [read]
  split
  case isTrue =>
    exact missing_le_renormalize { d with
      range := d.range - splitRange d.range p, window := d.window - splitRange d.range p * 256 } 7
  case isFalse => exact missing_le_renormalize { d with range := splitRange d.range p } 7

/-! ## More data -/

variable {d}

/-- A doubling is the same with more data behind, if no byte was missing for it. -/
theorem double_append (h : d.double.missing = d.missing) :
    (d.append suffix).double = d.double.append suffix := by
  obtain ⟨rest, position, missing, range, window, shifts⟩ := d
  unfold double append nextByte at *
  dsimp only at *
  by_cases hshifts : shifts + 1 = 8
  · rw [if_pos hshifts] at h
    rw [if_pos hshifts, if_pos hshifts]
    cases rest with
    | nil => exact absurd h (Nat.succ_ne_self _)
    | cons b rest => rfl
  · rw [if_neg hshifts, if_neg hshifts]

theorem renormalize_append {fuel : Nat} (h : (renormalize fuel d).missing = d.missing) :
    renormalize fuel (d.append suffix) = (renormalize fuel d).append suffix := by
  induction fuel generalizing d with
  | zero => rfl
  | succ fuel ih =>
    simp only [renormalize] at h ⊢
    split at h
    case isTrue hrange =>
      have hdouble := missing_le_double d
      have hrest := missing_le_renormalize d.double fuel
      have hrange' : (d.append suffix).range < minRange := hrange
      rw [if_pos hrange, if_pos hrange', double_append suffix (by omega), ih (by omega)]
    case isFalse hrange =>
      have hrange' : ¬ (d.append suffix).range < minRange := hrange
      rw [if_neg hrange, if_neg hrange']

/-- A decision is the same with more data behind, if no byte was missing for it. -/
theorem read_append {p : UInt8} (h : (d.read p).2.missing = d.missing) :
    (d.append suffix).read p = ((d.read p).1, (d.read p).2.append suffix) := by
  simp only [read] at h ⊢
  by_cases hsplit : splitRange d.range p * 256 ≤ d.window
  · have hsplit' : splitRange (d.append suffix).range p * 256 ≤ (d.append suffix).window := hsplit
    rw [if_pos hsplit] at h
    rw [if_pos hsplit, if_pos hsplit', ← renormalize_append suffix h]
    rfl
  · have hsplit' : ¬ splitRange (d.append suffix).range p * 256 ≤ (d.append suffix).window :=
      hsplit
    rw [if_neg hsplit] at h
    rw [if_neg hsplit, if_neg hsplit', ← renormalize_append suffix h]
    rfl

end

/-! ## Lockstep -/

variable (suffix : List UInt8)

theorem overrun_eq_false_iff {d : BoolDecoder} : d.overrun = false ↔ d.missing = 0 := by
  simp only [overrun]
  rw [decide_eq_false_iff_not, Nat.not_lt, Nat.le_zero]

/-- The second decoder is the first one with more data behind, of which nothing was needed. -/
def Precedes (d f : BoolDecoder) : Prop := d.missing = 0 ∧ f = d.append suffix

theorem lockstep_precedes : Lockstep (Precedes suffix) where
  inside := by
    rintro r f ⟨hmissing, rfl⟩
    exact ⟨overrun_eq_false_iff.mpr hmissing, overrun_eq_false_iff.mpr hmissing⟩
  read := by
    rintro r f ⟨hmissing, rfl⟩ p
    cases hlost : (r.read p).2.overrun with
    | true => exact .inl hlost
    | false =>
      have hread := overrun_eq_false_iff.mp hlost
      have heq := read_append suffix (hread.trans hmissing.symm)
      right
      show (r.read p).1 = ((r.append suffix).read p).1 ∧ _ = 0 ∧ ((r.append suffix).read p).2 = _
      rw [heq]
      exact ⟨rfl, hread, rfl⟩
  lost := by
    intro r h p
    have hle := missing_le_read r p
    have hpos := of_decide_eq_true h
    exact decide_eq_true (Nat.lt_of_lt_of_le hpos hle)

/-- Decoders over data and over more data start in lockstep, if the first two bytes are there. -/
theorem precedes_start (data : List UInt8) :
    (start data).overrun = true ∨ Precedes suffix (start data) (start (data ++ suffix)) := by
  match data with
  | [] => exact .inl rfl
  | [_] => exact .inl rfl
  | _ :: _ :: _ => exact .inr ⟨rfl, rfl⟩

end BoolDecoder

end ResidualCodec
