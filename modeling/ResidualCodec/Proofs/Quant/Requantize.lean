/-
  ResidualCodec.Proofs.Quant.Requantize

  Quantizing a coefficient of shaped bins again. It keeps its level exactly if
  what is left of the point of the level lies in the bin of the level, which
  shapes with large offsets or narrow bins do not see to; the standard profile
  does.
-/

import ResidualCodec.Proofs.Quant.Nearest
import ResidualCodec.Proofs.Quant.Reconstruction

namespace ResidualCodec

/-! ## Shapes that keep their points -/

/-- What keeps a point of a shape in its bin: in the bins 1 and 2 the offset must not be above the
knot, and the bin must have room for the rounding. -/
def BandShape.Keeps (s : BandShape) (step v : Nat) : Prop :=
  (v = 1 → s.offset.toNat ≤ s.knot₂.toNat ∧ 2 * 128 ≤ s.knot₂.toNat * step) ∧
    (v = 2 → s.offset.toNat ≤ s.knot₃.toNat ∧ 3 * 128 ≤ s.knot₃.toNat * step)

instance (s : BandShape) (step v : Nat) : Decidable (s.Keeps step v) :=
  inferInstanceAs (Decidable (_ ∧ _))

theorem BandShape.Keeps.holds {s : BandShape} (hvalid : s.Valid) {step v : Nat} (hlow : 4 ≤ step)
    (hhigh : step < 2 ^ 15) (hv : 1 ≤ v) (h : s.Keeps step v) :
    (NuqBins.ofShape step s).Holds v ((NuqBins.ofShape step s).unlimited v) := by
  have hregular := NuqBins.regular_ofShape hvalid hlow hhigh
  rcases Nat.lt_or_ge 2 v with hlinear | hshaped
  · exact hregular.holds_linear hlinear
  · obtain rfl | rfl : v = 1 ∨ v = 2 := by omega
    · obtain ⟨hpull, hwidth⟩ := h.1 rfl
      exact hregular.holds_first (Nat.mul_le_mul_right step hpull) hwidth
    · obtain ⟨hpull, hwidth⟩ := h.2 rfl
      exact hregular.holds_second (Nat.mul_le_mul_right step hpull) hwidth

namespace NuqProfile

theorem standard_shapes : ∀ b : Band,
    16 ≤ (standard.shape b).knot₁.toNat ∧ 96 ≤ (standard.shape b).knot₂.toNat ∧
      96 ≤ (standard.shape b).knot₃.toNat ∧
      (standard.shape b).offset.toNat ≤ (standard.shape b).knot₂.toNat ∧
      (standard.shape b).offset.toNat ≤ (standard.shape b).knot₃.toNat := by
  decide +kernel

theorem standard_keeps (band : Band) {step : Nat} (hstep : 4 ≤ step) (v : Nat) :
    (standard.shape band).Keeps step v := by
  obtain ⟨-, hknot₂, hknot₃, hpull₂, hpull₃⟩ := standard_shapes band
  have hwidth₂ := Nat.mul_le_mul hknot₂ hstep
  have hwidth₃ := Nat.mul_le_mul hknot₃ hstep
  exact ⟨fun _ => ⟨hpull₂, by omega⟩, fun _ => ⟨hpull₃, by omega⟩⟩

/-- The bins of the standard profile take every point back to its level, zero included. -/
theorem quantize_dequantize_standard (band : Band) {step : Nat} (hlow : 4 ≤ step)
    (hhigh : step < 2 ^ 15) {v : Nat}
    (hv : (NuqBins.ofShape step (standard.shape band)).unlimited v ≤ max32) :
    (NuqBins.ofShape step (standard.shape band)).quantize
      ((NuqBins.ofShape step (standard.shape band)).dequantize v) = v := by
  have hvalid : (standard.shape band).Valid := valid_of_validate (by decide +kernel) band
  have hregular := NuqBins.regular_ofShape hvalid hlow hhigh
  rw [hregular.quantize_dequantize_eq_iff hv]
  rcases Nat.eq_zero_or_pos v with rfl | hpos
  · exact hregular.holds_zero_iff.mpr (Nat.mul_le_mul (standard_shapes band).1 hlow)
  · exact (standard_keeps band hlow v).holds hvalid hlow hhigh hpos

end NuqProfile

/-! ## Decoded coefficients -/

/-- What a size keeps of the reconstruction of a coded magnitude, however large it is. -/
def NuqBins.kept (b : NuqBins) (s : TransformSize) (v : Nat) : Int :=
  b.unlimited v / (2 ^ s.dequantShift : Nat)

/-- Only blocks of 32 points have a scale of their own. -/
theorem TransformSize.scale_of_ne {s : TransformSize} (h : s ≠ .s32) : 2 ^ s.dequantShift = 1 := by
  cases s with
  | s32 => exact absurd rfl h
  | s4 | s8 | s16 => rfl

theorem NuqBins.kept_of_ne {s : TransformSize} (h : s ≠ .s32) (b : NuqBins) (v : Nat) :
    b.kept s v = b.unlimited v := by
  rw [kept, TransformSize.scale_of_ne h, Nat.cast_one, Int.ediv_one]

theorem NuqBins.Regular.kept_nonneg {b : NuqBins} {w₁ w₂ w₃ pull : Nat}
    (h : b.Regular w₁ w₂ w₃ pull) (s : TransformSize) (v : Nat) : 0 ≤ b.kept s v :=
  Int.ediv_nonneg (h.unlimited_nonneg v) (Int.natCast_nonneg _)

namespace Dequantizer

theorem bins?_of_shape? {q : Dequantizer} {profile : NuqProfile} (h : q.shape? = some profile)
    (p : PlaneType) (band : Band) :
    q.bins? p band = some (.ofShape ((q.steps p).ofBand band) (profile.shape band)) := by
  simp only [bins?]
  rw [h]
  rfl

variable {q : Dequantizer} {p : PlaneType} {band : Band} {b : NuqBins} {w₁ w₂ w₃ pull : Nat}

/-- The coefficient of a level that is not limited. -/
theorem dequantize_of_bins? (hbins : q.bins? p band = some b) (h : b.Regular w₁ w₂ w₃ pull)
    {level : Int} {s : TransformSize} (hlimit : b.kept s level.natAbs ≤ q.coeffMax) :
    q.dequantize p band level s = withSign (b.kept s level.natAbs) level := by
  have hmax : max32 = 2147483647 := rfl
  have hcoeff := q.coeffMax_lt
  -- A reconstruction that goes past 32 bits leaves more than any coefficient may have.
  have hword : b.unlimited level.natAbs ≤ max32 := by
    simp only [NuqBins.kept] at hlimit
    have hunit : 2 ^ s.dequantShift = 1 ∨ 2 ^ s.dequantShift = 2 := by cases s <;> decide
    rcases hunit with hunit | hunit
    all_goals
      rw [hunit] at hlimit
      omega
  simp only [dequantize]
  rw [hbins]
  dsimp only
  rw [h.dequantize_eq, Int.min_eq_left hword, Int.shiftRight_eq_div_pow]
  exact congrArg (withSign · level) (Int.min_eq_left hlimit)

/-- A coefficient that is not limited keeps its level exactly if the bin of the level holds what
the size has kept of the point, unless nothing was kept of a negative one. -/
theorem quantize_dequantize_of_bins? (hbins : q.bins? p band = some b)
    (h : b.Regular w₁ w₂ w₃ pull) {level : Int} {s : TransformSize}
    (hlimit : b.kept s level.natAbs ≤ q.coeffMax) :
    q.quantize p band (q.dequantize p band level s) s = level ↔
      b.Holds level.natAbs (b.kept s level.natAbs * (2 ^ s.dequantShift : Nat)) ∧
        (b.kept s level.natAbs = 0 → 0 ≤ level) := by
  -- The coefficient has the magnitude that was kept, so that is what is quantized again.
  rw [dequantize_of_bins? hbins h hlimit]
  obtain ⟨k, hk⟩ := Int.eq_ofNat_of_zero_le (h.kept_nonneg s level.natAbs)
  rw [hk] at hlimit ⊢
  have hmax : max32 = 2147483647 := rfl
  have hcoeff := q.coeffMax_lt
  rw [quantize_of_bins? hbins (by rw [natAbs_withSign]; omega), natAbs_withSign,
    withSign_withSign_eq_self_iff, h.ordered.quantize_eq_iff (Int.natCast_nonneg _),
    Int.natCast_mul, Int.natCast_eq_zero]

end Dequantizer

/-- Bins of a valid profile take a reconstruction back to its level exactly if the bin of the level
holds it, and so do quantizers that use the profile with what is left of it in a coefficient. The
linear bins hold all of their points; the two before them do where the shape sees to it. -/
theorem quantize_dequantize_shaped {profile : NuqProfile} (hvalid : profile.validate = .ok ())
    (band : Band) :
    (∀ step, 4 ≤ step → step < 2 ^ 15 → ∀ v, 1 ≤ v →
      let b := NuqBins.ofShape step (profile.shape band)
      b.unlimited v ≤ max32 →
        (b.quantize (b.dequantize v) = v ↔ b.Holds v (b.unlimited v)) ∧
          ((profile.shape band).Keeps step v → b.quantize (b.dequantize v) = v)) ∧
    ∀ q : Dequantizer, q.shape? = some profile →
      ∀ (p : PlaneType) (level : Int) (s : TransformSize), level ≠ 0 →
        let b := NuqBins.ofShape ((q.steps p).ofBand band) (profile.shape band)
        let kept := b.kept s level.natAbs
        kept ≤ q.coeffMax →
          (q.quantize p band (q.dequantize p band level s) s = level ↔
            b.Holds level.natAbs (kept * (2 ^ s.dequantShift : Nat)) ∧ (kept = 0 → 0 ≤ level)) ∧
          (s ≠ .s32 → (profile.shape band).Keeps ((q.steps p).ofBand band) level.natAbs →
            q.quantize p band (q.dequantize p band level s) s = level) := by
  have hshape := NuqProfile.valid_of_validate hvalid band
  constructor
  · intro step hlow hhigh v hv b hword
    have hiff := (NuqBins.regular_ofShape hshape hlow hhigh).quantize_dequantize_eq_iff hword
    exact ⟨hiff, fun hkeeps => hiff.mpr (hkeeps.holds hshape hlow hhigh hv)⟩
  · intro q hprofile p level s hlevel b kept hlimit
    obtain ⟨hlow, hhigh⟩ := q.ofBand_bounds p band
    have hregular := NuqBins.regular_ofShape hshape hlow hhigh
    have hbins := Dequantizer.bins?_of_shape? hprofile p band
    have hiff := Dequantizer.quantize_dequantize_of_bins? hbins hregular hlimit
    refine ⟨hiff, ?_⟩
    intro hsize hkeeps
    have hmagnitude : 1 ≤ level.natAbs := Int.natAbs_pos.mpr hlevel
    have hkept : kept = b.unlimited level.natAbs := b.kept_of_ne hsize level.natAbs
    have hholds := hkeeps.holds hshape hlow hhigh hmagnitude
    apply hiff.mpr
    rw [TransformSize.scale_of_ne hsize, Nat.cast_one, Int.mul_one]
    rw [← hkept] at hholds
    refine ⟨hholds, ?_⟩
    intro hzero
    exact absurd (hkept.symm.trans hzero) (hregular.unlimited_pos hmagnitude).ne'

/-- Points of the standard profile come back, also from a block of 32 points that has dropped a bit
of them. -/
theorem quantize_dequantize_shaped_odd :
    let q : Dequantizer := ⟨{ base := 2 }, .keep, .eight, some .standard⟩
    let b := NuqBins.ofShape 8 (NuqProfile.standard.shape Band.dc)
    let c := NuqBins.ofShape ((q.steps .luma).ofBand .dc) (NuqProfile.standard.shape Band.dc)
    NuqProfile.standard.validate = .ok () ∧ 4 ≤ 8 ∧ 8 < 2 ^ 15 ∧ 1 ≤ 2 ∧ b.unlimited 2 = 17 ∧
      b.unlimited 2 ≤ max32 ∧ (NuqProfile.standard.shape Band.dc).Keeps 8 2 ∧
      b.quantize (b.dequantize 2) = 2 ∧
      q.shape? = some .standard ∧ (-2 : Int) ≠ 0 ∧ c.kept .s32 (Int.natAbs (-2)) = 8 ∧
      c.kept .s32 (Int.natAbs (-2)) ≤ q.coeffMax ∧
      q.quantize .luma .dc (q.dequantize .luma .dc (-2) .s32) .s32 = -2 := by
  intro q b c
  have hvalid : NuqProfile.standard.validate = .ok () := by decide +kernel
  have hword : b.unlimited 2 ≤ max32 := by decide +kernel
  have hkeeps : (NuqProfile.standard.shape Band.dc).Keeps 8 2 := by decide +kernel
  have hkept : c.kept .s32 (Int.natAbs (-2)) = 8 := by decide +kernel
  have hlimit : c.kept .s32 (Int.natAbs (-2)) ≤ q.coeffMax := by decide +kernel
  have hholds : c.Holds (Int.natAbs (-2))
      (c.kept .s32 (Int.natAbs (-2)) * (2 ^ TransformSize.dequantShift .s32 : Nat)) := by
    decide +kernel
  obtain ⟨hpoints, hcoefficients⟩ := quantize_dequantize_shaped hvalid Band.dc
  obtain ⟨-, hpoint⟩ := hpoints 8 (by decide) (by decide) 2 (by decide) hword
  obtain ⟨hlevel, -⟩ := hcoefficients q rfl .luma (-2) .s32 (by decide) hlimit
  have hzero : c.kept .s32 (Int.natAbs (-2)) = 0 → (0 : Int) ≤ -2 := by
    rw [hkept]
    decide
  exact ⟨hvalid, by decide, by decide, by decide, by decide +kernel, hword, hkeeps, hpoint hkeeps,
    rfl, by decide, hkept, hlimit, hlevel.mpr ⟨hholds, hzero⟩⟩

/-- Profiles are accepted whose points leave their bins: an offset of almost half a step takes the
first point of a bin that is half a step wide below the bin. -/
theorem quantize_dequantize_pulled_out :
    ¬ ∀ profile : NuqProfile, profile.validate = .ok () →
      ∀ (band : Band) (d : BitDepth) (i : QIndex), ∀ step ∈ [dcStep d i, acStep d i],
        ∀ v, 1 ≤ v →
          let b := NuqBins.ofShape step (profile.shape band)
          b.unlimited v ≤ max32 → b.quantize (b.dequantize v) = v := by
  intro h
  let profile : NuqProfile := ⟨Vector.replicate 6 ⟨128, 64, 128, 127⟩⟩
  have hlevel := h profile (by decide +kernel) Band.last .eight 255 1828 (by decide +kernel) 1
    (by decide) (by decide +kernel)
  have hbelow : (NuqBins.ofShape 1828 (profile.shape Band.last)).quantize
      ((NuqBins.ofShape 1828 (profile.shape Band.last)).dequantize 1) = 0 := by decide +kernel
  exact absurd (hbelow.symm.trans hlevel) (by decide)

end ResidualCodec
