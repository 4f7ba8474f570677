/-
  ResidualCodec.Proofs.Quant.Segment

  What the override of a segment does to the steps of its frame. A larger index
  has no smaller step at any depth, so the steps follow the values of overrides
  of one mode, as long as the sum of index and delta is a 16-bit number. A sum
  that is too large wraps below zero, and takes the segment to the smallest
  steps instead of the largest.
-/

import ResidualCodec.Proofs.Quant.Limit

namespace ResidualCodec

/-! ## Overrides -/

theorem clampIndex_mono {x y : Int} (h : x ≤ y) : clampIndex x ≤ clampIndex y := by
  simp only [clampIndex, Fin.mk_le_mk]
  omega

theorem clampIndex_of_nonpos {x : Int} (h : x ≤ 0) : clampIndex x = 0 := by
  apply Fin.ext
  show (max 0 (min x 255)).toNat = 0
  omega

theorem clampIndex_of_le {x : Int} (h : 255 ≤ x) : clampIndex x = 255 := by
  apply Fin.ext
  show (max 0 (min x 255)).toNat = 255
  omega

namespace SegmentOverride

/-- Whether the value is a 16-bit number. -/
def Word : SegmentOverride → Prop
  | .keep => True
  | .delta v => -2 ^ 15 ≤ v ∧ v < 2 ^ 15
  | .absolute v => -2 ^ 15 ≤ v ∧ v < 2 ^ 15

/-- Whether the sum that a delta makes is a 16-bit number too. -/
def Fits (base : QIndex) : SegmentOverride → Prop
  | .delta v => base.val + v < 2 ^ 15
  | _ => True

instance : (s : SegmentOverride) → Decidable s.Word
  | .keep => inferInstanceAs (Decidable True)
  | .delta _ => inferInstanceAs (Decidable (_ ∧ _))
  | .absolute _ => inferInstanceAs (Decidable (_ ∧ _))

instance (base : QIndex) : (s : SegmentOverride) → Decidable (s.Fits base)
  | .keep => inferInstanceAs (Decidable True)
  | .delta _ => inferInstanceAs (Decidable (_ < _))
  | .absolute _ => inferInstanceAs (Decidable True)

/-- The index that the override stands for, computed without a limit on the sum. -/
def target (base : QIndex) : SegmentOverride → QIndex
  | .keep => base
  | .delta v => clampIndex (base.val + v)
  | .absolute v => clampIndex v

/-- Overrides of one mode, the first with no larger a value. -/
inductive Below : SegmentOverride → SegmentOverride → Prop where
  | keep : Below .keep .keep
  | delta {v w : Int} (h : v ≤ w) : Below (.delta v) (.delta w)
  | absolute {v w : Int} (h : v ≤ w) : Below (.absolute v) (.absolute w)

variable {s t : SegmentOverride} {base : QIndex}

theorem apply_of_fits (hs : s.Word) (h : s.Fits base) : s.apply base = s.target base := by
  cases s with
  | keep => rfl
  | absolute v => rfl
  | delta v =>
    have hbase := base.isLt
    simp only [Word, Fits] at hs h
    simp only [apply, target]
    rw [wrapTo_succ_of_lt (w := 15) (by omega) (by omega)]

/-- A sum that does not fit wraps to a number below zero. -/
theorem apply_of_not_fits (hs : s.Word) (h : ¬ s.Fits base) : s.apply base = 0 := by
  cases s with
  | keep => exact absurd trivial h
  | absolute v => exact absurd trivial h
  | delta v =>
    have hbase := base.isLt
    simp only [Word, Fits] at hs h
    have hwrap : wrapTo 16 (base.val + v) = base.val + v - 2 ^ 16 := by
      rw [← wrapTo_succ_of_lt (w := 15) (x := base.val + v - 2 ^ 16) (by omega) (by omega)]
      exact (Int.sub_bmod_right _ _).symm
    simp only [apply]
    rw [hwrap]
    exact clampIndex_of_nonpos (by omega)

theorem target_of_not_fits (h : ¬ s.Fits base) : s.target base = 255 := by
  cases s with
  | keep => exact absurd trivial h
  | absolute v => exact absurd trivial h
  | delta v =>
    simp only [Fits] at h
    exact clampIndex_of_le (by omega)

/-- The override does what it stands for exactly if its sum fits. -/
theorem apply_eq_target_iff (hs : s.Word) : s.apply base = s.target base ↔ s.Fits base := by
  constructor
  · intro h
    by_contra hfits
    rw [apply_of_not_fits hs hfits, target_of_not_fits hfits] at h
    exact absurd h (by decide)
  · exact apply_of_fits hs

theorem Below.target_le (h : s.Below t) : s.target base ≤ t.target base := by
  cases h with
  | keep => exact Nat.le_refl _
  | delta h => exact clampIndex_mono (Int.add_le_add_left h _)
  | absolute h => exact clampIndex_mono h

theorem Below.fits (h : s.Below t) (ht : t.Fits base) : s.Fits base := by
  cases h with
  | keep => trivial
  | absolute h => trivial
  | delta h =>
    simp only [Fits] at ht ⊢
    omega

/-- Indexes follow the values, unless it is the larger value alone that does not fit. -/
theorem Below.apply_le (h : s.Below t) (hs : s.Word) (ht : t.Word)
    (hfits : t.Fits base ∨ ¬ s.Fits base) : s.apply base ≤ t.apply base := by
  rcases hfits with hfits | hfits
  · rw [apply_of_fits hs (h.fits hfits), apply_of_fits ht hfits]
    exact h.target_le
  · rw [apply_of_not_fits hs hfits]
    exact Fin.zero_le _

end SegmentOverride

/-! ## Steps -/

theorem tables_sorted (d : BitDepth) :
    ∀ table ∈ [dcSteps d, acSteps d], table.toList.IsChain (· ≤ ·) := by
  cases d <;> decide +kernel

/-- A larger index has no smaller step. -/
theorem steps_mono {d : BitDepth} {i j : QIndex} (h : i ≤ j) :
    dcStep d i ≤ dcStep d j ∧ acStep d i ≤ acStep d j := by
  have hentry : ∀ table ∈ [dcSteps d, acSteps d], table.getD i 0 ≤ table.getD j 0 := by
    intro table htable
    have hsize := (tables_bounds d table htable).1
    have hsorted := (tables_sorted d table htable).pairwise
    have hi : i.val < table.size := i.isLt.trans_eq hsize.symm
    have hj : j.val < table.size := j.isLt.trans_eq hsize.symm
    rw [← Array.getElem_eq_getD 0 (h := hi), ← Array.getElem_eq_getD 0 (h := hj)]
    rcases Nat.lt_or_eq_of_le h with hlt | heq
    · exact List.pairwise_iff_getElem.mp hsorted i j hi hj hlt
    · exact Nat.le_of_eq (by congr 1)
  exact ⟨hentry _ (.head _), hentry _ (.tail _ (.head _))⟩

namespace Dequantizer

/-- With the same parameters, steps follow the index. -/
theorem steps_mono {q r : Dequantizer} (hparams : q.params = r.params) (hdepth : q.depth = r.depth)
    (h : q.index ≤ r.index) (p : PlaneType) :
    (q.steps p).dc ≤ (r.steps p).dc ∧ (q.steps p).ac ≤ (r.steps p).ac := by
  have hoffset : ∀ delta, q.offset delta ≤ r.offset delta := by
    intro delta
    exact clampIndex_mono (Int.add_le_add_right (Int.ofNat_le.mpr h) delta)
  cases p with
  | luma =>
    simp only [steps]
    rw [hparams, hdepth]
    exact ⟨(ResidualCodec.steps_mono (hoffset _)).1, (ResidualCodec.steps_mono h).2⟩
  | chroma =>
    simp only [steps]
    rw [hparams, hdepth]
    exact ⟨(ResidualCodec.steps_mono (hoffset _)).1, (ResidualCodec.steps_mono (hoffset _)).2⟩

/-- An override does what it stands for exactly if its sum fits, and falls to index 0 otherwise. So
the steps follow the overrides of one mode, unless it is the larger value alone that does not fit;
and lossless coding always has the smallest steps. -/
theorem steps_follow_segment (params : QuantParams) (d : BitDepth) (profile : Option NuqProfile) :
    let q (s : SegmentOverride) : Dequantizer := ⟨params, s, d, profile⟩
    (∀ s : SegmentOverride, s.Word →
      ((q s).index = s.target params.base ↔ s.Fits params.base) ∧
        (¬ s.Fits params.base → (q s).index = 0)) ∧
    (∀ s t : SegmentOverride, s.Word → t.Word → s.Below t →
      t.Fits params.base ∨ ¬ s.Fits params.base → ∀ p,
        ((q s).steps p).dc ≤ ((q t).steps p).dc ∧ ((q s).steps p).ac ≤ ((q t).steps p).ac) ∧
    ∀ s, (q s).lossless = true → ∀ p, (q s).steps p = ⟨4, 4⟩ := by
  intro q
  refine ⟨?_, ?_, ?_⟩
  · intro s hs
    exact ⟨SegmentOverride.apply_eq_target_iff hs, SegmentOverride.apply_of_not_fits hs⟩
  · intro s t hs ht hbelow hfits p
    have hindex : (q s).index ≤ (q t).index := hbelow.apply_le hs ht hfits
    exact steps_mono (q := q s) (r := q t) rfl rfl hindex p
  · intro s hlossless p
    exact steps_of_lossless hlossless p

/-- The largest delta whose sum fits, the next one, and an absolute value that makes a segment of
the frame lossless. -/
theorem steps_follow_segment_limit :
    let q (s : SegmentOverride) : Dequantizer := ⟨{ base := 40 }, s, .twelve, none⟩
    let s := SegmentOverride.delta (-32768)
    let t := SegmentOverride.delta 32727
    let u := SegmentOverride.delta 32728
    let v := SegmentOverride.absolute (-1)
    s.Word ∧ t.Word ∧ u.Word ∧ t.Fits 40 ∧ (q t).index = t.target 40 ∧ ¬ u.Fits 40 ∧
      (q u).index = 0 ∧ s.Below t ∧ ((q s).steps .chroma).dc ≤ ((q t).steps .chroma).dc ∧
      ((q s).steps .chroma).ac ≤ ((q t).steps .chroma).ac ∧ (q v).lossless = true ∧
      (q v).steps .luma = ⟨4, 4⟩ := by
  intro q s t u v
  have hs : s.Word := by decide
  have ht : t.Word := by decide
  have hu : u.Word := by decide
  have htfits : t.Fits 40 := by decide
  have hufits : ¬ u.Fits 40 := by decide
  have hbelow : s.Below t := .delta (by decide)
  have hlossless : (q v).lossless = true := by decide
  obtain ⟨hindex, hsteps, hsmallest⟩ := steps_follow_segment { base := 40 } .twelve none
  obtain ⟨hdc, hac⟩ := hsteps s t hs ht hbelow (.inl htfits) .chroma
  exact ⟨hs, ht, hu, htfits, (hindex t ht).1.mpr htfits, hufits, (hindex u hu).2 hufits, hbelow,
    hdc, hac, hlossless, hsmallest v hlossless .luma⟩

/-- With the largest index, the sum of a large delta does not fit. The segment gets the smallest
steps and becomes lossless, where a delta of zero gives the largest steps. -/
theorem steps_of_wrapped_delta :
    (¬ ∀ q : Dequantizer, q.segment.Word → q.index = q.segment.target q.params.base) ∧
      ¬ ∀ (params : QuantParams) (d : BitDepth) (s t : SegmentOverride), s.Word → t.Word →
        s.Below t → ((⟨params, s, d, none⟩ : Dequantizer).steps .luma).dc ≤
          ((⟨params, t, d, none⟩ : Dequantizer).steps .luma).dc := by
  constructor
  · intro h
    have hindex := h ⟨{ base := 255 }, .delta 32767, .eight, none⟩ (by decide)
    exact absurd hindex (by decide)
  · intro h
    have hstep := h { base := 255 } .eight (.delta 0) (.delta 32767) (by decide) (by decide)
      (.delta (by decide))
    exact absurd hstep (by decide +kernel)

end Dequantizer

end ResidualCodec
