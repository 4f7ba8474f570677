/-
  ResidualCodec.Proofs.Quant.Limit

  How large a level can be. No step is smaller than the unit step, so a level
  counts a fourth of its coefficient at most, rounded up; shaped bins come before
  the linear ones and add three levels to that.
-/

import ResidualCodec.Proofs.Quant.Lossless

namespace ResidualCodec

/-! ## Steps -/

/-- Every step of the tables is the unit step at least, and has 15 bits. -/
theorem tables_bounds (d : BitDepth) :
    ∀ table ∈ [dcSteps d, acSteps d], table.size = 256 ∧
      ∀ x ∈ table.toList, 4 ≤ x ∧ x < 2 ^ 15 := by
  cases d <;> decide +kernel

theorem steps_bounds (d : BitDepth) (q : QIndex) :
    (4 ≤ dcStep d q ∧ dcStep d q < 2 ^ 15) ∧ 4 ≤ acStep d q ∧ acStep d q < 2 ^ 15 := by
  have hentry : ∀ table ∈ [dcSteps d, acSteps d], 4 ≤ table.getD q 0 ∧ table.getD q 0 < 2 ^ 15 := by
    intro table htable
    obtain ⟨hsize, hall⟩ := tables_bounds d table htable
    have hlt : q.val < table.size := q.isLt.trans_eq hsize.symm
    rw [Array.getD_eq_getD_getElem?, Array.getElem?_eq_getElem hlt]
    exact hall _ (Array.getElem_mem_toList hlt)
  exact ⟨hentry _ (.head _), hentry _ (.tail _ (.head _))⟩

theorem Dequantizer.ofBand_bounds (q : Dequantizer) (p : PlaneType) (b : Band) :
    4 ≤ (q.steps p).ofBand b ∧ (q.steps p).ofBand b < 2 ^ 15 := by
  cases p with
  | luma =>
    simp only [steps, PlaneSteps.ofBand]
    split
    case isTrue => exact (steps_bounds _ _).1
    case isFalse => exact (steps_bounds _ _).2
  | chroma =>
    simp only [steps, PlaneSteps.ofBand]
    split
    case isTrue => exact (steps_bounds _ _).1
    case isFalse => exact (steps_bounds _ _).2

/-! ## Levels -/

/-- Bound of the levels, from that of the coefficients. -/
def levelBound (s : TransformSize) (bound : Nat) : Nat := bound * 2 ^ s.dequantShift / 4 + 3

theorem levelBound_mono {s : TransformSize} {b c : Nat} (h : b ≤ c) :
    levelBound s b ≤ levelBound s c :=
  Nat.add_le_add_right (Nat.div_le_div_right (Nat.mul_le_mul_right _ h)) 3

theorem natAbs_withSign (magnitude : Nat) (x : Int) :
    (withSign magnitude x).natAbs = magnitude := by
  simp only [withSign]
  split
  case isTrue => rw [Int.natAbs_neg, Int.natAbs_natCast]
  case isFalse => exact Int.natAbs_natCast magnitude

theorem Uniform.nearest_le {step : Nat} (hstep : 4 ≤ step) (coeff : Int) (s : TransformSize) :
    nearest coeff step s ≤ levelBound s coeff.natAbs := by
  simp only [nearest, levelBound]
  rw [Nat.shiftLeft_eq]
  generalize coeff.natAbs * 2 ^ s.dequantShift = m
  have hquarter : m / step ≤ m / 4 := Nat.div_le_div_left hstep (by decide)
  have hhalf : (m + step / 2) / step ≤ (m + step) / step := Nat.div_le_div_right (by omega)
  rw [Nat.add_div_right m (by omega)] at hhalf
  omega

theorem NuqBins.quantize_le {b : NuqBins} (hstep : 4 ≤ b.step) (hedge : 0 ≤ b.edge₃) (m : Nat) :
    b.quantize m ≤ m / 4 + 3 := by
  have hlinear : ((m - b.edge₃) / b.step).toNat ≤ m / 4 := by
    have hle : ((m : Int) - b.edge₃) / b.step ≤ m / b.step :=
      Int.ediv_le_ediv (by omega) (by omega)
    have hquarter : m / b.step ≤ m / 4 := Nat.div_le_div_left hstep (by decide)
    rw [← Int.natCast_ediv] at hle
    omega
  simp only [quantize]
  split
  case isTrue => omega
  case isFalse =>
    split
    case isTrue => omega
    case isFalse =>
      split
      case isTrue => omega
      case isFalse => omega

/-- Edge after bins of some total width, in 128ths. -/
def NuqBins.edgeAt (width : Nat) : Int := (width + 64) / 128

/-- The widths of three bins fit into 32 bits for every step there is, so that an edge is what it
is rounded to. -/
theorem NuqBins.edge_eq {step widths : Nat} (hstep : step < 2 ^ 15) (hwidths : widths < 2 ^ 10) :
    edge step widths = edgeAt (widths * step) := by
  have hproduct : ((widths * step : Nat) : Int).natAbs ≤ 2 ^ 10 * 2 ^ 15 := by
    rw [Int.natAbs_natCast]
    exact Nat.mul_le_mul hwidths.le hstep.le
  have hfits : (roundShift (widths * step : Nat) 7).natAbs ≤ max32 :=
    (natAbs_roundShift_le hproduct).trans (by decide)
  simp only [edge]
  rw [← Int.natCast_mul, truncate32_of_le hfits, roundShift_succ_of_nonneg (Int.natCast_nonneg _)]
  rfl

/-- The linear bins start above zero, whatever the shape. -/
theorem NuqBins.edge₃_nonneg {step : Nat} (hstep : step < 2 ^ 15) (s : BandShape) :
    0 ≤ (ofShape step s).edge₃ := by
  have h₁ := s.knot₁.toNat_lt
  have h₂ := s.knot₂.toNat_lt
  have h₃ := s.knot₃.toNat_lt
  simp only [ofShape]
  rw [edge_eq hstep (by omega)]
  exact Int.ediv_nonneg (by omega) (by decide)

/-- The scale of a size takes one bit of a magnitude at most. -/
theorem TransformSize.scale_le_two (s : TransformSize) : 2 ^ s.dequantShift ≤ 2 := by
  cases s <;> decide

theorem scaled_le_max32 {s : TransformSize} {m : Nat} (h : 2 * m ≤ max32) :
    m * 2 ^ s.dequantShift ≤ max32 := by
  have hscaled := Nat.mul_le_mul_left m s.scale_le_two
  omega

namespace Dequantizer

variable {q : Dequantizer} {p : PlaneType} {b : Band} {coeff : Int} {s : TransformSize}

/-- Shaped bins see the magnitude on the scale of the size, and no bit of it is cut. -/
theorem quantize_of_bins? {bins : NuqBins} (hbins : q.bins? p b = some bins)
    (h : 2 * coeff.natAbs ≤ max32) :
    q.quantize p b coeff s =
      withSign (bins.quantize (coeff.natAbs * 2 ^ s.dequantShift : Nat)) coeff := by
  have hword : truncate32 (coeff.natAbs : Int) = coeff.natAbs := by
    apply truncate32_of_le
    rw [Int.natAbs_natCast]
    omega
  have hproduct : truncate32 ((coeff.natAbs * 2 ^ s.dequantShift : Nat) : Int) =
      (coeff.natAbs * 2 ^ s.dequantShift : Nat) :=
    truncate32_of_le (scaled_le_max32 h)
  simp only [quantize]
  rw [hbins]
  dsimp only
  rw [hword, Nat.one_shiftLeft, ← Int.natCast_mul, hproduct]

/-- Levels of equal steps and of shaped bins, with any profile, have one bound. -/
theorem natAbs_quantize_le (q : Dequantizer) (p : PlaneType) (b : Band)
    (h : 2 * coeff.natAbs ≤ max32) :
    (q.quantize p b coeff s).natAbs ≤ levelBound s coeff.natAbs := by
  obtain ⟨hlow, hhigh⟩ := q.ofBand_bounds p b
  cases hbins : q.bins? p b with
  | some bins =>
    rw [quantize_of_bins? hbins h, natAbs_withSign]
    obtain ⟨profile, -, rfl⟩ := Option.map_eq_some_iff.mp hbins
    exact NuqBins.quantize_le hlow (NuqBins.edge₃_nonneg hhigh _) _
  | none =>
    have hle := Uniform.nearest_le hlow coeff s
    simp only [quantize]
    rw [hbins]
    simp only [Uniform.quantize]
    rw [truncate32_of_le, natAbs_withSign]
    · exact hle
    · have hmax : max32 = 2147483647 := rfl
      have hscaled := scaled_le_max32 (s := s) h
      rw [natAbs_withSign]
      refine hle.trans ?_
      simp only [levelBound]
      omega

end Dequantizer

end ResidualCodec
