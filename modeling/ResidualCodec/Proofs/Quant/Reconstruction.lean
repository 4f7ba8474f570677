/-
  ResidualCodec.Proofs.Quant.Reconstruction

  Where the reconstruction points of shaped bins stand. They are never more than
  a step away from what they stand for, and the linear bins hold theirs. The two
  bins before them need not: an offset can pull a point below its bin, and a bin
  that rounding has left too narrow holds no point at all.
-/

import ResidualCodec.Proofs.Quant.Bins

namespace ResidualCodec

namespace NuqBins

/-! ## Order -/

namespace Measured

variable {b : NuqBins} {w₁ w₂ w₃ pull : Nat} (h : b.Measured w₁ w₂ w₃ pull)

include h

theorem point₁_pos : 0 < b.point₁ := h.point₁.lt

theorem point₁_lt : b.point₁ < b.point₂ := h.point₂.lt

theorem point₂_lt : b.point₂ < b.point₃ := h.point₃.lt

/-- No two coded magnitudes have one point. -/
theorem unlimited_lt (hstep : 0 < b.step) {v w : Nat} (hvw : v < w) :
    b.unlimited v < b.unlimited w := by
  refine strictMono_nat_of_lt_succ ?_ hvw
  intro v
  match v with
  | 0 => exact h.point₁_pos
  | 1 => exact h.point₁_lt
  | 2 => exact h.point₂_lt.trans_eq b.unlimited_three.symm
  | v + 3 =>
    simp only [unlimited]
    rw [Nat.cast_succ, Int.add_mul, Int.one_mul]
    omega

/-- The points of the shaped bins are far below the limit: they follow the edges, or else each
other by a unit. -/
theorem dequantize_eq (hwidths : w₁ + w₂ + w₃ + 128 * b.step < 2 ^ 31) (v : Nat) :
    b.dequantize v = min (b.unlimited v) max32 := by
  have hmax : max32 = 2147483647 := rfl
  have hp₁ := h.point₁.le_max_edge
  have hp₂ := h.point₂.le_max_edge
  have hp₃ := h.point₃.le_max_edge
  simp only [edgeAt] at hp₁ hp₂ hp₃
  exact dequantize_eq_min (h.point₁_lt.trans h.point₂_lt).le h.point₂_lt.le (by omega) v

end Measured

namespace Regular

variable {b : NuqBins} {w₁ w₂ w₃ pull : Nat} (h : b.Regular w₁ w₂ w₃ pull)

include h

theorem ordered : b.Ordered := by
  have hstep := h.four_le_step
  exact h.toMeasured.ordered (by omega)

/-! ## Distances -/

/-- A point that is pushed on goes past the end of its bin by a unit for each point before it, and
no further. -/
theorem point₁_le : b.point₁ ≤ b.edge₂ + 1 := by
  have hnonneg := h.ordered.edge₁_nonneg.trans h.ordered.edge₁_le
  have hle := h.point₁.le_max_edge
  rw [← h.edge₂] at hle
  exact hle.trans (max_le (by omega) (by omega))

theorem point₂_le : b.point₂ ≤ b.edge₃ + 2 := by
  have hpoint₁ := h.point₁_le
  have hedge := h.ordered.edge₂_le
  have hle := h.point₂.le_max_edge
  rw [← h.edge₃] at hle
  exact hle.trans (max_le (by omega) (by omega))

/-- The last shaped point stands in the first linear bin. -/
theorem point₃_bounds : b.edge₃ ≤ b.point₃ ∧ b.point₃ < b.edge₃ + b.step := by
  have hstep := h.four_le_step
  have hpull := h.pull_le
  have hpoint₂ := h.point₂_le
  -- Whole steps are added to an edge without rounding.
  have hwidth : edgeAt (w₁ + w₂ + w₃ + 128 * b.step) = b.edge₃ + b.step := by
    rw [h.edge₃]
    simp only [edgeAt]
    omega
  have hmem := h.point₃.mem_bin (by omega) (by omega) (by omega)
  rwa [hwidth, ← h.edge₃] at hmem

theorem dequantize_eq (v : Nat) : b.dequantize v = min (b.unlimited v) max32 := by
  have hstep := h.step_lt
  obtain ⟨-, hw₁⟩ := h.width₁
  obtain ⟨-, hw₂⟩ := h.width₂
  obtain ⟨-, hw₃⟩ := h.width₃
  exact h.toMeasured.dequantize_eq (by omega) v

theorem unlimited_pos {v : Nat} (hv : 1 ≤ v) : 0 < b.unlimited v :=
  h.unlimited_lt h.ordered.step_pos hv

theorem unlimited_nonneg (v : Nat) : 0 ≤ b.unlimited v := by
  rcases Nat.eq_zero_or_pos v with rfl | hpos
  · exact Int.le_refl 0
  · exact (h.unlimited_pos hpos).le

/-- A point is within a step of all that its bin holds: it is near both ends of the bin. -/
theorem abs_unlimited_sub_le {v : Nat} {m : Int} (hm : b.Holds v m) :
    |b.unlimited v - m| ≤ b.step := by
  have hstep := h.four_le_step
  obtain ⟨hlow, hhigh⟩ := hm
  rw [abs_le]
  -- A case for each shaped bin, and one for the linear ones.
  match v with
  | 0 =>
    have he₁ := h.edge₁
    obtain ⟨-, hw₁⟩ := h.width₁
    simp only [edgeAt] at he₁
    simp only [unlimited, lower] at hlow hhigh ⊢
    omega
  | 1 =>
    have hbefore := h.ordered.edge₁_nonneg
    have hupper := h.point₁.edge_le_add_step h.width₂.2 h.pull_le
    rw [h.edge₁] at hbefore
    have hlower := h.point₁.le_add_step h.width₂.2 (by omega)
    rw [← h.edge₂] at hupper
    rw [← h.edge₁] at hlower
    simp only [unlimited, lower] at hlow hhigh ⊢
    omega
  | 2 =>
    have hbefore := h.point₁_le
    have hupper := h.point₂.edge_le_add_step h.width₃.2 h.pull_le
    rw [h.edge₂] at hbefore
    have hlower := h.point₂.le_add_step h.width₃.2 (by omega)
    rw [← h.edge₃] at hupper
    rw [← h.edge₂] at hlower
    rw [b.lower_three] at hhigh
    simp only [unlimited, lower] at hlow ⊢
    omega
  | v + 3 =>
    obtain ⟨hp₃, hp₃'⟩ := h.point₃_bounds
    rw [b.lower_add_three] at hlow
    rw [b.lower_add_four] at hhigh
    simp only [unlimited]
    omega

/-! ## Points in their bins -/

theorem holds_linear {v : Nat} (hv : 3 ≤ v) : b.Holds v (b.unlimited v) := by
  obtain ⟨hlow, hhigh⟩ := h.point₃_bounds
  obtain ⟨v, rfl⟩ := Nat.exists_eq_add_of_le' hv
  rw [Holds, b.lower_add_three, b.lower_add_four]
  simp only [unlimited]
  omega

/-- The first point stands in its bin if the offset is not above the knot, and the bin is two
units wide. -/
theorem holds_first (hpull : pull ≤ w₂) (hwidth : 2 * 128 ≤ w₂) : b.Holds 1 (b.unlimited 1) := by
  have hone : 0 + 1 < edgeAt (w₁ + w₂) := by
    simp only [edgeAt]
    omega
  have hmem := h.point₁.mem_bin hpull hwidth hone
  rwa [← h.edge₁, ← h.edge₂] at hmem

/-- The second bin takes one unit more, so that the first point cannot push the second one out. -/
theorem holds_second (hpull : pull ≤ w₃) (hwidth : 3 * 128 ≤ w₃) :
    b.Holds 2 (b.unlimited 2) := by
  have hpushed : b.point₁ + 1 < edgeAt (w₁ + w₂ + w₃) := by
    have hpoint₁ := h.point₁_le
    rw [h.edge₂] at hpoint₁
    simp only [edgeAt] at hpoint₁ ⊢
    omega
  have hmem := h.point₂.mem_bin hpull (by omega) hpushed
  rw [← h.edge₂, ← h.edge₃, ← b.lower_three] at hmem
  exact hmem

/-- A coded magnitude that is not limited comes back exactly if its bin holds its point. -/
theorem quantize_dequantize_eq_iff {v : Nat} (hv : b.unlimited v ≤ max32) :
    b.quantize (b.dequantize v) = v ↔ b.Holds v (b.unlimited v) := by
  rw [h.dequantize_eq, Int.min_eq_left hv]
  exact h.ordered.quantize_eq_iff (h.unlimited_nonneg v)

/-- No magnitude moves by more than a step, the largest ones included: the limit only takes away
from points that are above them. -/
theorem abs_dequantize_quantize_sub_le {m : Int} (hlow : 0 ≤ m) (hhigh : m ≤ max32) :
    |b.dequantize (b.quantize m) - m| ≤ b.step := by
  have hpoint := abs_le.mp (h.abs_unlimited_sub_le (h.ordered.holds_quantize hlow))
  rw [h.dequantize_eq, abs_le]
  rcases Int.le_total (b.unlimited (b.quantize m)) max32 with hle | hle
  · rw [Int.min_eq_left hle]
    exact hpoint
  · rw [Int.min_eq_right hle]
    omega

end Regular

/-- Shaped bins of a valid profile keep a magnitude to a step, and keep the order of magnitudes. -/
theorem dequantize_quantize_near {profile : NuqProfile} (hvalid : profile.validate = .ok ())
    (band : Band) {step : Nat} (hlow : 4 ≤ step) (hhigh : step ≤ 32767) :
    let b := ofShape step (profile.shape band)
    (∀ m : Int, 0 ≤ m → m ≤ max32 → |b.dequantize (b.quantize m) - m| ≤ step) ∧
      ∀ m n : Int, 0 ≤ m → m ≤ n → n ≤ max32 → b.quantize m ≤ b.quantize n := by
  have hregular := regular_ofShape (NuqProfile.valid_of_validate hvalid band) hlow (by omega)
  constructor
  · intro m hm hmax
    exact hregular.abs_dequantize_quantize_sub_le hm hmax
  · intro m n hm hmn _
    exact hregular.ordered.quantize_mono hm hmn

/-- Points that the offset has pulled down to the edges, and the largest magnitude there is. -/
theorem dequantize_quantize_near_pulled :
    let profile : NuqProfile := ⟨Vector.replicate 6 ⟨128, 128, 128, 127⟩⟩
    let b := ofShape 4 (profile.shape Band.last)
    profile.validate = .ok () ∧ 4 ≤ 4 ∧ 4 ≤ 32767 ∧ b.dequantize (b.quantize 7) = 4 ∧
      |b.dequantize (b.quantize 7) - 7| ≤ (4 : Nat) ∧
      |b.dequantize (b.quantize max32) - max32| ≤ (4 : Nat) ∧
      b.quantize 7 ≤ b.quantize max32 := by
  intro profile b
  have hvalid : profile.validate = .ok () := by decide +kernel
  obtain ⟨hnear, hmono⟩ :=
    dequantize_quantize_near hvalid Band.last (show 4 ≤ 4 by decide) (by decide)
  exact ⟨hvalid, by decide, by decide, by decide +kernel, hnear 7 (by decide) (by decide),
    hnear max32 (by decide) (by decide), hmono 7 max32 (by decide) (by decide) (by decide)⟩

end NuqBins

end ResidualCodec
