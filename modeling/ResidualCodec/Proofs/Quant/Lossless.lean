/-
  ResidualCodec.Proofs.Quant.Lossless

  A multiple of the step is its own nearest level, and its level stands for it
  again, as long as no limit is in the way. Lossless coding has the unit step in
  every band, and none of its limits is reached by what samples of the bit depth
  can be transformed into.
-/

import ResidualCodec.Proofs.Coefficient.Symbol
import ResidualCodec.Proofs.Transform.Rounding
import ResidualCodec.Quant.Dequantizer
import ResidualCodec.Transform.Hadamard

namespace ResidualCodec

/-! ## Signs -/

/-- A number has the sign of its positive multiples. -/
theorem withSign_natAbs_mul (k : Int) {step : Nat} (hstep : 0 < step) :
    withSign k.natAbs (k * step) = k := by
  simp only [withSign]
  rcases Int.lt_or_le k 0 with hneg | hpos
  · rw [if_pos (Int.mul_neg_of_neg_of_pos hneg (Int.natCast_pos.mpr hstep))]
    omega
  · rw [if_neg (Int.not_lt.mpr (Int.mul_nonneg hpos (Int.natCast_nonneg step)))]
    omega

theorem withSign_natAbs_mul_self (k : Int) (step : Nat) :
    withSign ((k.natAbs * step : Nat) : Int) k = k * step := by
  simp only [withSign]
  rcases Int.lt_or_le k 0 with hneg | hpos
  · rw [if_pos hneg, Int.natCast_mul, ← Int.neg_mul, Int.ofNat_natAbs_of_nonpos (Int.le_of_lt hneg),
      Int.neg_neg]
  · rw [if_neg (Int.not_lt.mpr hpos), Int.natCast_mul, Int.natAbs_of_nonneg hpos]

/-! ## Equal steps -/

namespace Uniform

variable {s : TransformSize} (hs : s.dequantShift = 0) {step : Nat}

include hs

theorem nearest_mul (hstep : 0 < step) (k : Int) : nearest (k * step) step s = k.natAbs := by
  simp only [nearest]
  rw [hs, Nat.shiftLeft_zero, Int.natAbs_mul, Int.natAbs_natCast, Nat.add_comm,
    Nat.add_mul_div_right _ _ hstep, Nat.div_eq_of_lt (Nat.div_lt_self hstep (by decide)),
    Nat.zero_add]

/-- The level of a multiple of the step is the factor. -/
theorem quantize_mul (hstep : 0 < step) {k : Int} (hk : k.natAbs ≤ max32) :
    quantize (k * step) step s = k := by
  simp only [quantize]
  rw [nearest_mul hs hstep, withSign_natAbs_mul k hstep, truncate32_of_le hk]

theorem magnitude_eq (k : Int) : magnitude k step s = k.natAbs * step := by
  simp only [magnitude]
  rw [hs, Nat.shiftRight_zero]

end Uniform

/-! ## Lossless coding -/

namespace Dequantizer

variable {q : Dequantizer} (h : q.lossless = true)

include h

theorem index_eq_zero_of_lossless : q.index = 0 := by
  simp only [lossless, Bool.and_eq_true, beq_iff_eq] at h
  exact Fin.ext h.1

/-- Every kind of coefficient has the smallest step. -/
theorem steps_of_lossless (p : PlaneType) : q.steps p = ⟨4, 4⟩ := by
  have hindex := index_eq_zero_of_lossless h
  have hoffset : q.offset 0 = 0 := by
    simp only [offset]
    rw [hindex]
    rfl
  have hdc : dcStep q.depth 0 = 4 := by cases q.depth <;> decide +kernel
  have hac : acStep q.depth 0 = 4 := by cases q.depth <;> decide +kernel
  simp only [lossless, QuantParams.deltasZero, Bool.and_eq_true, beq_iff_eq] at h
  obtain ⟨-, ⟨hluma, hdelta⟩, hchroma⟩ := h
  cases p with
  | luma =>
    simp only [steps]
    rw [hluma, hoffset, hindex, hdc, hac]
  | chroma =>
    simp only [steps]
    rw [hdelta, hchroma, hoffset, hdc, hac]

theorem ofBand_of_lossless (p : PlaneType) (b : Band) : (q.steps p).ofBand b = 4 := by
  rw [steps_of_lossless h p]
  exact ite_self 4

/-- No profile shapes the bins of lossless coding. -/
theorem bins?_of_lossless (p : PlaneType) (b : Band) : q.bins? p b = none := by
  simp only [bins?, shape?]
  rw [if_pos h]
  rfl

theorem quantize_of_lossless (p : PlaneType) (b : Band) {k : Int} (hk : k.natAbs ≤ max32) :
    q.quantize p b (k * unitStep) .s4 = k := by
  simp only [quantize]
  rw [bins?_of_lossless h p b, ofBand_of_lossless h p b]
  exact Uniform.quantize_mul rfl (by decide) hk

theorem dequantize_of_lossless (p : PlaneType) (b : Band) {k : Int}
    (hk : k.natAbs * 4 ≤ q.coeffMax) (hmax : q.coeffMax ≤ max32) :
    q.dequantize p b k .s4 = k * unitStep := by
  simp only [dequantize]
  rw [bins?_of_lossless h p b, ofBand_of_lossless h p b]
  dsimp only
  rw [Uniform.magnitude_eq rfl, Int.min_eq_left (Int.ofNat_le.mpr (hk.trans hmax)),
    Int.min_eq_left (Int.ofNat_le.mpr hk)]
  exact withSign_natAbs_mul_self k 4

/-- What samples of the bit depth are transformed into is coded without loss: neither the largest
level nor the largest coefficient is ever reached. -/
theorem dequantize_clampLevel_quantize_of_lossless (p : PlaneType) (b c : Band) {k : Int}
    (hk : k.natAbs ≤ 4 * (2 ^ q.depth.bits - 1)) :
    q.dequantize p c (clampLevel q.depth (q.quantize p b (k * unitStep) .s4)) .s4 =
      k * unitStep := by
  have hlimits : 4 * (2 ^ q.depth.bits - 1) ≤ max32 ∧
      4 * (2 ^ q.depth.bits - 1) ≤ maxMagnitude q.depth ∧
      4 * (2 ^ q.depth.bits - 1) * 4 ≤ q.coeffMax ∧ q.coeffMax ≤ max32 := by
    simp only [coeffMax]
    cases q.depth <;> decide
  obtain ⟨hword, hlevel, hcoeff, hmax⟩ := hlimits
  rw [quantize_of_lossless h p b (hk.trans hword), clampLevel_of_le (hk.trans hlevel)]
  exact dequantize_of_lossless h p c ((Nat.mul_le_mul_right 4 hk).trans hcoeff) hmax

end Dequantizer

end ResidualCodec
