/-
  ResidualCodec.Proofs.Quant.Bins

  Shaped bins partition the magnitudes: every magnitude lies in exactly one bin,
  and that is the one it is quantized to. Where the edges and the points of the
  bins lie follows from the widths of a shape, up to rounding.
-/

import ResidualCodec.Proofs.Quant.Limit

namespace ResidualCodec

namespace NuqBins

/-! ## Partition -/

/-- Lower end of a bin. -/
def lower (b : NuqBins) : Nat → Int
  | 0 => 0
  | 1 => b.edge₁
  | 2 => b.edge₂
  | v + 3 => b.edge₃ + v * b.step

/-- Whether a magnitude lies in a bin: not below its lower end, and below that of the next bin. -/
def Holds (b : NuqBins) (v : Nat) (m : Int) : Prop := b.lower v ≤ m ∧ m < b.lower (v + 1)

instance (b : NuqBins) (v : Nat) (m : Int) : Decidable (b.Holds v m) :=
  inferInstanceAs (Decidable (_ ∧ _))

/-- Edges in their order, none of them negative. -/
structure Ordered (b : NuqBins) : Prop where
  step_pos : 0 < b.step
  edge₁_nonneg : 0 ≤ b.edge₁
  edge₁_le : b.edge₁ ≤ b.edge₂
  edge₂_le : b.edge₂ ≤ b.edge₃

theorem lower_three (b : NuqBins) : b.lower 3 = b.edge₃ := by
  show b.edge₃ + ((0 : Nat) : Int) * b.step = b.edge₃
  rw [Nat.cast_zero, Int.zero_mul, Int.add_zero]

theorem lower_add_three (b : NuqBins) (v : Nat) : b.lower (v + 3) = b.edge₃ + v * b.step := rfl

/-- Linear bins are a step wide. -/
theorem lower_add_four (b : NuqBins) (v : Nat) :
    b.lower (v + 4) = b.edge₃ + v * b.step + b.step := by
  have hnext := b.lower_add_three (v + 1)
  rw [Nat.cast_succ, Int.add_mul, Int.one_mul, ← Int.add_assoc] at hnext
  exact hnext

namespace Ordered

variable {b : NuqBins} (h : b.Ordered)

include h

theorem lower_mono {v w : Nat} (hvw : v ≤ w) : b.lower v ≤ b.lower w := by
  refine monotone_nat_of_le_succ ?_ hvw
  intro v
  match v with
  | 0 => exact h.edge₁_nonneg
  | 1 => exact h.edge₁_le
  | 2 => exact h.edge₂_le.trans_eq b.lower_three.symm
  | v + 3 =>
    rw [b.lower_add_three, b.lower_add_four]
    exact Int.le_add_of_nonneg_right (Int.natCast_nonneg _)

/-- A magnitude lies in one bin only. -/
theorem eq_of_holds {v w : Nat} {m : Int} (hv : b.Holds v m) (hw : b.Holds w m) : v = w := by
  obtain ⟨hvlow, hvhigh⟩ := hv
  obtain ⟨hwlow, hwhigh⟩ := hw
  by_contra hne
  rcases Nat.lt_or_gt_of_ne hne with hlt | hlt
  · have hle := h.lower_mono (Nat.succ_le_of_lt hlt)
    exact absurd (hvhigh.trans_le (hle.trans hwlow)) (Int.lt_irrefl m)
  · have hle := h.lower_mono (Nat.succ_le_of_lt hlt)
    exact absurd (hwhigh.trans_le (hle.trans hvlow)) (Int.lt_irrefl m)

/-- A magnitude lies in the bin that it is quantized to. -/
theorem holds_quantize {m : Int} (hm : 0 ≤ m) : b.Holds (b.quantize m) m := by
  simp only [quantize]
  by_cases h₁ : m < b.edge₁
  · rw [if_pos h₁]
    exact ⟨hm, h₁⟩
  rw [if_neg h₁]
  by_cases h₂ : m < b.edge₂
  · rw [if_pos h₂]
    exact ⟨Int.not_lt.mp h₁, h₂⟩
  rw [if_neg h₂]
  by_cases h₃ : m < b.edge₃
  · rw [if_pos h₃]
    exact ⟨Int.not_lt.mp h₂, h₃.trans_eq b.lower_three.symm⟩
  rw [if_neg h₃, Nat.add_comm]
  -- The linear bins: the quotient counts the full steps above the third edge.
  have hpos : (0 : Int) < b.step := Int.natCast_pos.mpr h.step_pos
  have hnonneg : 0 ≤ (m - b.edge₃) / b.step := Int.ediv_nonneg (by omega) hpos.le
  have hdiv := Int.mul_ediv_add_emod (m - b.edge₃) b.step
  have hlow := Int.emod_nonneg (m - b.edge₃) hpos.ne'
  have hhigh := Int.emod_lt_of_pos (m - b.edge₃) hpos
  rw [Int.mul_comm] at hdiv
  rw [Holds, b.lower_add_four, b.lower_add_three, Int.toNat_of_nonneg hnonneg]
  omega

theorem quantize_eq_iff {v : Nat} {m : Int} (hm : 0 ≤ m) : b.quantize m = v ↔ b.Holds v m := by
  constructor
  · rintro rfl
    exact h.holds_quantize hm
  · intro hv
    exact h.eq_of_holds (h.holds_quantize hm) hv

theorem quantize_mono {m n : Int} (hm : 0 ≤ m) (hmn : m ≤ n) : b.quantize m ≤ b.quantize n := by
  by_contra hlt
  have hle : b.lower (b.quantize n + 1) ≤ b.lower (b.quantize m) :=
    h.lower_mono (Nat.succ_le_of_lt (Nat.not_le.mp hlt))
  have hlow := (h.holds_quantize hm).1
  have hhigh := (h.holds_quantize (hm.trans hmn)).2
  omega

end Ordered

/-! ## Points -/

/-- Reconstruction of a coded magnitude, however large it is. -/
def unlimited (b : NuqBins) : Nat → Int
  | 0 => 0
  | 1 => b.point₁
  | 2 => b.point₂
  | v + 3 => b.point₃ + v * b.step

theorem unlimited_three (b : NuqBins) : b.unlimited 3 = b.point₃ := by
  show b.point₃ + ((0 : Nat) : Int) * b.step = b.point₃
  rw [Nat.cast_zero, Int.zero_mul, Int.add_zero]

/-- A reconstruction is limited to 32 bits; the points of the shaped bins always fit. -/
theorem dequantize_eq_min {b : NuqBins} (h₁ : b.point₁ ≤ b.point₃) (h₂ : b.point₂ ≤ b.point₃)
    (h₃ : b.point₃ ≤ max32) (v : Nat) : b.dequantize v = min (b.unlimited v) max32 := by
  match v with
  | 0 => rfl
  | 1 => exact (Int.min_eq_left (h₁.trans h₃)).symm
  | 2 => exact (Int.min_eq_left (h₂.trans h₃)).symm
  | 3 =>
    rw [b.unlimited_three]
    exact (Int.min_eq_left h₃).symm
  | v + 4 => rfl

/-! ## Widths -/

/-- A number of 256ths, rounded to `r`. -/
def Rounds (x r : Int) : Prop := -128 ≤ 256 * r - x ∧ 256 * r - x ≤ 128

theorem rounds_truncate32 {x : Int} (h : x.natAbs ≤ 2 ^ 8 * 2 ^ 15) :
    Rounds x (truncate32 (roundShift x 8)) := by
  have hfits : (roundShift x 8).natAbs ≤ max32 := (natAbs_roundShift_le h).trans (by decide)
  have herror := abs_mul_roundShift_sub_le x 8
  rw [truncate32_of_le hfits]
  constructor
  · have hlow := neg_abs_le (2 ^ 8 * roundShift x 8 - x)
    omega
  · have hhigh := le_abs_self (2 ^ 8 * roundShift x 8 - x)
    omega

/-- Where a point stands: behind an edge by half the width of its bin, less what the offset takes off
it, in 256ths; and above the point before it. -/
def Stands (x width pull : Nat) (before point : Int) : Prop :=
  ∃ r, Rounds (width - pull) r ∧ point = max (edgeAt x + r) (before + 1)

namespace Stands

variable {x w pull step : Nat} {before point : Int} (h : Stands x w pull before point)

include h

theorem lt : before < point := by
  obtain ⟨r, -, rfl⟩ := h
  exact Int.lt_of_add_one_le (le_max_right _ _)

/-- Unless it is pushed, a point does not go past its bin, even if the edges of the bin coincide. -/
theorem le_max_edge : point ≤ max (edgeAt (x + w)) (before + 1) := by
  obtain ⟨r, ⟨-, hr⟩, rfl⟩ := h
  -- Half of a width is not rounded to more than the width is.
  have hhalf : edgeAt x + r ≤ edgeAt (x + w) := by
    simp only [edgeAt]
    omega
  exact max_le_max hhalf Int.le_rfl

/-- The distance to the lower end of a bin that is no wider than a step. -/
theorem le_add_step (hw : w ≤ 128 * step) (hbefore : before + 1 ≤ edgeAt x + step) :
    point ≤ edgeAt x + step := by
  obtain ⟨r, ⟨-, hr⟩, rfl⟩ := h
  exact max_le (by omega) hbefore

/-- The distance to the upper end of a bin that is no wider than a step. -/
theorem edge_le_add_step (hw : w ≤ 128 * step) (hpull : pull ≤ 127 * step) :
    edgeAt (x + w) ≤ point + step + 1 := by
  obtain ⟨r, ⟨hr, -⟩, rfl⟩ := h
  -- Half of the width and the offset are a step together, at most; rounding takes the one unit.
  have hle : edgeAt x + r ≤ max (edgeAt x + r) (before + 1) := le_max_left _ _
  simp only [edgeAt] at hle ⊢
  omega

/-- A bin that is two units wide holds its point, if the offset is not above its width and the point
is not pushed out. -/
theorem mem_bin (hpull : pull ≤ w) (hw : 2 * 128 ≤ w) (hbefore : before + 1 < edgeAt (x + w)) :
    edgeAt x ≤ point ∧ point < edgeAt (x + w) := by
  obtain ⟨r, ⟨hr, hr'⟩, rfl⟩ := h
  -- The edges are two units apart after rounding, the point half as far from the lower one.
  have hlow : 0 ≤ r := by omega
  have hhigh : edgeAt x + r < edgeAt (x + w) := by
    simp only [edgeAt]
    omega
  exact ⟨le_max_of_le_left (by omega), max_lt hhigh hbefore⟩

end Stands

/-- Where edges and points lie: `w₁`, `w₂` and `w₃` are the widths of the first three bins in 128ths,
and `pull` is what the offset takes off the points, in 256ths. -/
structure Measured (b : NuqBins) (w₁ w₂ w₃ pull : Nat) : Prop where
  edge₁ : b.edge₁ = edgeAt w₁
  edge₂ : b.edge₂ = edgeAt (w₁ + w₂)
  edge₃ : b.edge₃ = edgeAt (w₁ + w₂ + w₃)
  point₁ : Stands w₁ w₂ pull 0 b.point₁
  point₂ : Stands (w₁ + w₂) w₃ pull b.point₁ b.point₂
  point₃ : Stands (w₁ + w₂ + w₃) (128 * b.step) pull b.point₂ b.point₃

theorem stands_point {step width widths : Nat} (hstep : step < 2 ^ 15) (hwidth : width < 256)
    (hwidths : widths < 2 ^ 10) (offset : UInt8) (before : Int) :
    Stands (widths * step) (width * step) (offset.toNat * step) before
      (point step (edge step widths) before width offset) := by
  have hoffset := offset.toNat_lt
  refine ⟨truncate32 (roundShift ((width - offset.toNat : Int) * step) 8), ?_, ?_⟩
  · rw [Int.natCast_mul, Int.natCast_mul, ← Int.sub_mul]
    apply rounds_truncate32
    rw [Int.natAbs_mul, Int.natAbs_natCast]
    exact Nat.mul_le_mul (by omega) hstep.le
  · rw [← edge_eq hstep hwidths]
    rfl

/-- The bins of any shape are measured by its knots and its offset. -/
theorem measured_ofShape {step : Nat} (hstep : step < 2 ^ 15) (s : BandShape) :
    (ofShape step s).Measured (s.knot₁.toNat * step) (s.knot₂.toNat * step) (s.knot₃.toNat * step)
      (s.offset.toNat * step) := by
  have h₁ := s.knot₁.toNat_lt
  have h₂ := s.knot₂.toNat_lt
  have h₃ := s.knot₃.toNat_lt
  -- Knots are summed before they are scaled by the step, widths after it.
  refine ⟨?_, ?_, ?_, ?_, ?_, ?_⟩ <;> simp only [ofShape]
  · exact edge_eq hstep (by omega)
  · rw [← Nat.add_mul]
    exact edge_eq hstep (by omega)
  · rw [← Nat.add_mul, ← Nat.add_mul]
    exact edge_eq hstep (by omega)
  · exact stands_point hstep h₂ (by omega) _ _
  · rw [← Nat.add_mul]
    exact stands_point hstep h₃ (by omega) _ _
  · rw [← Nat.add_mul, ← Nat.add_mul]
    exact stands_point hstep (by decide) (by omega) _ _

theorem Measured.ordered {b : NuqBins} {w₁ w₂ w₃ pull : Nat} (h : b.Measured w₁ w₂ w₃ pull)
    (hstep : 0 < b.step) : b.Ordered := by
  have h₁ := h.edge₁
  have h₂ := h.edge₂
  have h₃ := h.edge₃
  simp only [edgeAt] at h₁ h₂ h₃
  exact ⟨hstep, by omega, by omega, by omega⟩

/-- The bin of zero has room for it if the first knot makes half a unit of the step. -/
theorem Measured.holds_zero_iff {b : NuqBins} {w₁ w₂ w₃ pull : Nat}
    (h : b.Measured w₁ w₂ w₃ pull) : b.Holds 0 0 ↔ 64 ≤ w₁ := by
  have h₁ := h.edge₁
  simp only [edgeAt] at h₁
  simp only [Holds, lower]
  omega

end NuqBins

/-! ## Valid shapes -/

/-- What a profile asks of the shape of a band: no bin is wider than a step, and no point is pulled
by half a step. -/
structure BandShape.Valid (s : BandShape) : Prop where
  knot₁ : 0 < s.knot₁.toNat ∧ s.knot₁.toNat ≤ 128
  knot₂ : 0 < s.knot₂.toNat ∧ s.knot₂.toNat ≤ 128
  knot₃ : 0 < s.knot₃.toNat ∧ s.knot₃.toNat ≤ 128
  offset : s.offset.toNat < 128

/-- Shape of a band. -/
def NuqProfile.shape (p : NuqProfile) (b : Band) : BandShape := p.bands.get b

/-- A profile is accepted if nothing is wrong with any of its bands. -/
theorem NuqProfile.valid_of_validate {p : NuqProfile} (h : p.validate = .ok ()) (b : Band) :
    (p.shape b).Valid := by
  have hdefect : p.defect? = none := by
    simp only [validate] at h
    split at h
    case h_1 => cases h
    case h_2 hnone => exact hnone
  simp only [defect?] at hdefect
  split at hdefect
  case h_1 => cases hdefect
  case h_2 hknots =>
    have hvalid := List.find?_eq_none.mp hknots b (List.mem_finRange b)
    have hmem : p.shape b ∈ p.bands.toList :=
      Vector.mem_toList_iff.mpr (Vector.getElem_mem b.isLt)
    have hpull := List.find?_eq_none.mp (Option.map_eq_none_iff.mp hdefect) _ hmem
    simp only [Bool.not_eq_true', Bool.not_eq_false, BandShape.knotsValid, BandShape.knots,
      List.all_cons, List.all_nil, Bool.and_true, Bool.and_eq_true, decide_eq_true_eq] at hvalid
    simp only [Bool.not_eq_true', Bool.not_eq_false, BandShape.offsetValid, decide_eq_true_eq]
      at hpull
    obtain ⟨h₁, h₂, h₃⟩ := hvalid
    exact ⟨h₁, h₂, h₃, hpull⟩

namespace NuqBins

/-- Bins of a valid shape, for a step of the tables. -/
structure Regular (b : NuqBins) (w₁ w₂ w₃ pull : Nat) : Prop
    extends b.Measured w₁ w₂ w₃ pull where
  four_le_step : 4 ≤ b.step
  step_lt : b.step < 2 ^ 15
  width₁ : b.step ≤ w₁ ∧ w₁ ≤ 128 * b.step
  width₂ : b.step ≤ w₂ ∧ w₂ ≤ 128 * b.step
  width₃ : b.step ≤ w₃ ∧ w₃ ≤ 128 * b.step
  pull_le : pull ≤ 127 * b.step

theorem regular_ofShape {s : BandShape} (h : s.Valid) {step : Nat} (hlow : 4 ≤ step)
    (hhigh : step < 2 ^ 15) :
    (ofShape step s).Regular (s.knot₁.toNat * step) (s.knot₂.toNat * step) (s.knot₃.toNat * step)
      (s.offset.toNat * step) := by
  have hwidth : ∀ k : Nat, 0 < k ∧ k ≤ 128 → step ≤ k * step ∧ k * step ≤ 128 * step := by
    rintro k ⟨hpos, hle⟩
    exact ⟨Nat.le_mul_of_pos_left step hpos, Nat.mul_le_mul_right step hle⟩
  exact ⟨measured_ofShape hhigh s, hlow, hhigh, hwidth _ h.knot₁, hwidth _ h.knot₂,
    hwidth _ h.knot₃, Nat.mul_le_mul_right step (Nat.le_of_lt_succ h.offset)⟩

end NuqBins

end ResidualCodec
