/-
  ResidualCodec.Proofs.Quant.Ordered

  Dequantization keeps the order and the sign of levels, whatever the profile,
  and never leaves the range that the inverse transform wraps its input to.
  Bins of any shape tell coded magnitudes apart until their points reach the
  limit, even where an offset pulls points below the edges, or knots leave no
  room between them.
-/

import ResidualCodec.Proofs.Quant.Nearest
import ResidualCodec.Proofs.Quant.Reconstruction

namespace ResidualCodec

/-! ## Bins -/

namespace NuqBins

/-- Points rise from zero to the largest 32-bit number, and stay there. -/
structure Climbs (b : NuqBins) : Prop where
  zero : b.dequantize 0 = 0
  le_max : ∀ v, b.dequantize v ≤ max32
  rises : ∀ v w, v < w → b.dequantize v ≠ max32 → b.dequantize v < b.dequantize w
  stays : ∀ v w, v ≤ w → b.dequantize v = max32 → b.dequantize w = max32

theorem Climbs.mono {b : NuqBins} (h : b.Climbs) {v w : Nat} (hvw : v ≤ w) :
    b.dequantize v ≤ b.dequantize w := by
  by_cases hmax : b.dequantize v = max32
  · exact (hmax.trans (h.stays v w hvw hmax).symm).le
  · rcases Nat.lt_or_eq_of_le hvw with hlt | rfl
    · exact (h.rises v w hlt hmax).le
    · exact Int.le_rfl

theorem Climbs.nonneg {b : NuqBins} (h : b.Climbs) (v : Nat) : 0 ≤ b.dequantize v :=
  h.zero.symm.le.trans (h.mono (Nat.zero_le v))

/-- No knot and no offset changes the order of the points. -/
theorem climbs_ofShape {step : Nat} (hpos : 1 ≤ step) (hstep : step < 2 ^ 15) (s : BandShape) :
    (ofShape step s).Climbs := by
  have hmeasured := measured_ofShape hstep s
  have hlimited : ∀ v, (ofShape step s).dequantize v =
      min ((ofShape step s).unlimited v) max32 := by
    have hwidth : ∀ k : UInt8, k.toNat * step ≤ 2 ^ 8 * 2 ^ 15 := fun k =>
      Nat.mul_le_mul k.toNat_lt.le hstep.le
    have hw₁ := hwidth s.knot₁
    have hw₂ := hwidth s.knot₂
    have hw₃ := hwidth s.knot₃
    have hlinear : (ofShape step s).step = step := rfl
    exact hmeasured.dequantize_eq (by omega)
  refine ⟨rfl, ?_, ?_, ?_⟩
  · intro v
    rw [hlimited]
    exact min_le_right _ _
  · intro v w hvw hne
    have hlt := hmeasured.unlimited_lt hpos hvw
    rw [hlimited] at hne
    rw [hlimited, hlimited]
    omega
  · intro v w hvw hmax
    rcases Nat.lt_or_eq_of_le hvw with hlt | rfl
    · have hpoint := hmeasured.unlimited_lt hpos hlt
      rw [hlimited] at hmax ⊢
      omega
    · exact hmax

end NuqBins

/-! ## Levels -/

/-- The largest coefficient fits into the width of its depth, with either sign. -/
theorem Dequantizer.wrap_of_natAbs_le (q : Dequantizer) {x : Int} (h : x.natAbs ≤ q.coeffMax) :
    (ValueRange.ofDepth q.depth).wrap x = x := by
  have hbits : q.depth.coeffBits = q.depth.coeffBits - 1 + 1 := rfl
  have hmax : q.coeffMax = 2 ^ (q.depth.coeffBits - 1) - 1 := by
    rw [coeffMax, Nat.one_shiftLeft]
  have hpos : 0 < 2 ^ (q.depth.coeffBits - 1) := Nat.two_pow_pos _
  show wrapTo q.depth.coeffBits x = x
  rw [hbits]
  exact wrapTo_succ_of_lt (by omega) (by omega)

/-- Coefficients that are ordered as their levels, odd, and in range. -/
structure OrdersLevels (f : Int → Int) (bound : Nat) : Prop where
  mono : ∀ x y, x ≤ y → f x ≤ f y
  neg : ∀ level, f (-level) = -f level
  sign : ∀ level, f level = 0 ∨ (f level).sign = level.sign
  natAbs_le : ∀ level, (f level).natAbs ≤ bound

/-- Magnitudes that grow with the magnitudes of levels, from zero on, order the levels once they
have their signs. -/
theorem ordersLevels_withSign {m : Nat → Nat} {bound : Nat} (hmono : Monotone m) (hzero : m 0 = 0)
    (hle : ∀ v, m v ≤ bound) :
    OrdersLevels (fun level => withSign (m level.natAbs) level) bound := by
  refine ⟨?_, ?_, ?_, ?_⟩
  · intro x y hxy
    exact withSign_mono (f := fun level => m level.natAbs) (fun _ _ h => hmono h) hxy
  · intro level
    rw [Int.natAbs_neg]
    rcases Int.lt_trichotomy level 0 with hneg | rfl | hpos
    · rw [withSign_of_neg hneg, withSign_of_nonneg (by omega), Int.neg_neg]
    · rw [Int.natAbs_zero, hzero, withSign_zero, withSign_zero, Int.neg_zero]
    · rw [withSign_of_neg (by omega), withSign_of_nonneg hpos.le]
  · intro level
    by_cases hm : m level.natAbs = 0
    · left
      rw [hm, withSign_zero]
    · right
      refine sign_withSign hm ?_
      rintro rfl
      exact hm hzero
  · intro level
    rw [natAbs_withSign]
    exact hle _

namespace Dequantizer

/-- Whether bins are shaped or not, the magnitude of a level is that of its point, on the scale of
the size and up to the largest coefficient. -/
theorem exists_dequantize_eq (q : Dequantizer) (p : PlaneType) (b : Band) (s : TransformSize) :
    ∃ point : Nat → Nat, Monotone point ∧ point 0 = 0 ∧ ∀ level, q.dequantize p b level s =
      withSign (min (point level.natAbs >>> s.dequantShift) q.coeffMax : Nat) level := by
  obtain ⟨hlow, hhigh⟩ := q.ofBand_bounds p b
  cases hbins : q.bins? p b with
  | none =>
    refine ⟨fun v => v * (q.steps p).ofBand b, ?_, Nat.zero_mul _, ?_⟩
    · intro v w hvw
      exact Nat.mul_le_mul_right _ hvw
    · intro level
      -- The limit of 32 bits is above that of the coefficients.
      have hmax : q.coeffMax ≤ max32 := q.coeffMax_lt.le.trans (by decide)
      simp only [dequantize]
      rw [hbins, min_assoc, min_eq_right (Int.ofNat_le.mpr hmax), Nat.cast_min]
      rfl
  | some bins =>
    obtain ⟨profile, -, rfl⟩ := Option.map_eq_some_iff.mp hbins
    have hclimbs := NuqBins.climbs_ofShape (by omega) hhigh profile.bands[b]
    generalize NuqBins.ofShape ((q.steps p).ofBand b) profile.bands[b] = bins at hbins hclimbs
    refine ⟨fun v => (bins.dequantize v).toNat, ?_, congrArg Int.toNat hclimbs.zero, ?_⟩
    · intro v w hvw
      exact Int.toNat_le_toNat (hclimbs.mono hvw)
    · intro level
      have hpoint := Int.toNat_of_nonneg (hclimbs.nonneg level.natAbs)
      simp only [dequantize]
      rw [hbins, Nat.cast_min, Int.natCast_shiftRight, hpoint]

theorem ordersLevels_dequantize (q : Dequantizer) (p : PlaneType) (b : Band) (s : TransformSize) :
    OrdersLevels (fun level => q.dequantize p b level s) q.coeffMax := by
  obtain ⟨point, hmono, hzero, heq⟩ := q.exists_dequantize_eq p b s
  rw [funext heq]
  refine ordersLevels_withSign (m := fun v => min (point v >>> s.dequantShift) q.coeffMax) ?_ ?_
    fun v => min_le_right _ _
  · intro v w hvw
    refine min_le_min_right _ ?_
    rw [Nat.shiftRight_eq_div_pow, Nat.shiftRight_eq_div_pow]
    exact Nat.div_le_div_right (hmono hvw)
  · rw [hzero, Nat.zero_shiftRight, Nat.zero_min]

/-- Coefficients follow their levels and fit into the width of the depth, with any profile; and the
points of bins, for any step and shape, rise until they reach the limit. -/
theorem dequantize_ordered :
    (∀ (q : Dequantizer) (p : PlaneType) (b : Band) (s : TransformSize),
      OrdersLevels (fun level => q.dequantize p b level s) q.coeffMax ∧
        ∀ level, (ValueRange.ofDepth q.depth).wrap (q.dequantize p b level s) =
          q.dequantize p b level s) ∧
    ∀ step, 1 ≤ step → step ≤ 32767 → ∀ shape, (NuqBins.ofShape step shape).Climbs := by
  constructor
  · intro q p b s
    have horders := q.ordersLevels_dequantize p b s
    refine ⟨horders, ?_⟩
    intro level
    exact q.wrap_of_natAbs_le (horders.natAbs_le level)
  · intro step hpos hstep shape
    exact NuqBins.climbs_ofShape hpos (by omega) shape

/-- Knots that leave no room and the largest offset: points are a unit apart, and the last one that
is below the limit comes right before it. -/
theorem dequantize_ordered_no_room :
    let shape : BandShape := ⟨0, 0, 0, 255⟩
    let b : NuqBins := .ofShape 1 shape
    let q : Dequantizer := ⟨{ base := 255 }, .keep, .ten, some ⟨Vector.replicate 6 shape⟩⟩
    let f (level : Int) : Int := q.dequantize .chroma .last level .s32
    1 ≤ 1 ∧ 1 ≤ 32767 ∧ b.point₃ = 3 ∧ b.dequantize 2147483646 < b.dequantize 2147483647 ∧
      b.dequantize 2147483647 = max32 ∧ b.dequantize 4294967295 = max32 ∧
      q.shaped = true ∧ f (-2147483648) ≤ f (-3) ∧ f (-3) = -f 3 ∧ (f 3).natAbs ≤ q.coeffMax ∧
      f (-2147483648) = -131071 ∧ (ValueRange.ofDepth .ten).wrap (-131071) = -131071 := by
  intro shape b q f
  obtain ⟨hlevels, hbins⟩ := dequantize_ordered
  have hclimbs : b.Climbs := hbins 1 (by decide) (by decide) shape
  have hmax : b.dequantize 2147483647 = max32 := by decide +kernel
  obtain ⟨horders, hwrap⟩ := hlevels q .chroma .last .s32
  have hlargest : f (-2147483648) = -131071 := by decide +kernel
  have hkept := hwrap (-2147483648)
  rw [show q.dequantize .chroma .last (-2147483648) .s32 = -131071 from hlargest] at hkept
  exact ⟨by decide, by decide, by decide +kernel,
    hclimbs.rises 2147483646 _ (by decide) (by decide +kernel), hmax,
    hclimbs.stays 2147483647 _ (by decide) hmax, by decide, horders.mono _ _ (by decide),
    horders.neg 3, horders.natAbs_le 3, hlargest, hkept⟩

end Dequantizer

end ResidualCodec
