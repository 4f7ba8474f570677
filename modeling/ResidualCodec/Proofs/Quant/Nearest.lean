/-
  ResidualCodec.Proofs.Quant.Nearest

  Equal steps round to the nearest level. What a level stands for goes back to
  the level, even where blocks of 32 points have dropped a bit of it, and so do
  the coefficients of a decoded block as long as none of them was limited.
-/

import ResidualCodec.Proofs.Coefficient.Sound
import ResidualCodec.Proofs.Quant.Limit
import ResidualCodec.Proofs.Tile.Sound

namespace ResidualCodec

/-! ## Signs -/

theorem withSign_of_neg {x : Int} (h : x < 0) (m : Int) : withSign m x = -m := if_pos h

theorem withSign_of_nonneg {x : Int} (h : 0 ≤ x) (m : Int) : withSign m x = m :=
  if_neg (Int.not_lt.mpr h)

theorem withSign_zero (x : Int) : withSign (0 : Nat) x = 0 := ite_self 0

theorem withSign_natAbs_self (x : Int) : withSign x.natAbs x = x := by
  rcases Int.lt_or_le x 0 with hneg | hpos
  · rw [withSign_of_neg hneg]
    omega
  · rw [withSign_of_nonneg hpos]
    omega

theorem withSign_eq_self_iff {m : Nat} {x : Int} : withSign m x = x ↔ m = x.natAbs := by
  constructor
  · intro h
    rw [← h, natAbs_withSign]
  · rintro rfl
    exact withSign_natAbs_self x

/-- A magnitude other than zero hands on the sign that it was given. -/
theorem withSign_withSign {m : Nat} (hm : m ≠ 0) (n x : Int) :
    withSign n (withSign m x) = withSign n x := by
  rcases Int.lt_or_le x 0 with hneg | hpos
  · rw [withSign_of_neg hneg, withSign_of_neg hneg, withSign_of_neg (by omega)]
  · rw [withSign_of_nonneg hpos, withSign_of_nonneg hpos, withSign_of_nonneg (by omega)]

/-- Zero hands on no sign. -/
theorem withSign_withSign_eq_self_iff {n m : Nat} {x : Int} :
    withSign n (withSign m x) = x ↔ n = x.natAbs ∧ (m = 0 → 0 ≤ x) := by
  rcases Nat.eq_zero_or_pos m with rfl | hpos
  · rw [withSign_zero, withSign_of_nonneg Int.le_rfl]
    omega
  · rw [withSign_withSign hpos.ne', withSign_eq_self_iff]
    exact (and_iff_left fun hm => absurd hm hpos.ne').symm

theorem sign_withSign {m : Nat} (hm : m ≠ 0) {x : Int} (hx : x ≠ 0) :
    (withSign m x).sign = x.sign := by
  rcases Int.lt_or_gt_of_ne hx with hneg | hpos
  · rw [withSign_of_neg hneg, Int.sign_eq_neg_one_of_neg hneg]
    exact Int.sign_eq_neg_one_of_neg (by omega)
  · rw [withSign_of_nonneg hpos.le, Int.sign_eq_one_of_pos hpos]
    exact Int.sign_eq_one_of_pos (by omega)

/-- Of zero, there must be no magnitude to change the sign of. -/
theorem withSign_neg {m : Nat} {x : Int} (hm : x = 0 → m = 0) :
    withSign m (-x) = -withSign m x := by
  rcases Int.lt_trichotomy x 0 with hneg | rfl | hpos
  · rw [withSign_of_neg hneg, withSign_of_nonneg (by omega), Int.neg_neg]
  · rw [hm rfl, withSign_zero, withSign_zero]
    rfl
  · rw [withSign_of_neg (by omega), withSign_of_nonneg hpos.le]

/-- Magnitudes that grow with those of their numbers are in the order of the numbers. -/
theorem withSign_mono {f : Int → Nat} (hf : ∀ a b : Int, a.natAbs ≤ b.natAbs → f a ≤ f b)
    {x y : Int} (h : x ≤ y) : withSign (f x) x ≤ withSign (f y) y := by
  -- Below zero the larger magnitude belongs to the smaller number.
  rcases Int.lt_or_le y 0 with hneg | hpos
  · have hle := hf y x (by omega)
    rw [withSign_of_neg hneg, withSign_of_neg (by omega)]
    omega
  · rw [withSign_of_nonneg hpos]
    rcases Int.lt_or_le x 0 with hx | hx
    · rw [withSign_of_neg hx]
      omega
    · have hle := hf x y (by omega)
      rw [withSign_of_nonneg hx]
      omega

/-! ## Levels -/

namespace Uniform

variable {step : Nat} {s : TransformSize}

/-- The nearest level is within half a step, on the scale that the size gives its coefficients. -/
theorem nearest_bounds (hstep : 0 < step) (coeff : Int) :
    nearest coeff step s * step ≤ coeff.natAbs * 2 ^ s.dequantShift + step / 2 ∧
      coeff.natAbs * 2 ^ s.dequantShift + step / 2 < (nearest coeff step s + 1) * step := by
  simp only [nearest]
  rw [Nat.shiftLeft_eq, Nat.mul_comm (_ + 1)]
  exact ⟨Nat.div_mul_le_self _ _, Nat.lt_mul_div_succ _ hstep⟩

theorem nearest_mono {c d : Int} (h : c.natAbs ≤ d.natAbs) :
    nearest c step s ≤ nearest d step s := by
  simp only [nearest]
  rw [Nat.shiftLeft_eq, Nat.shiftLeft_eq]
  have hscaled : c.natAbs * 2 ^ s.dequantShift ≤ d.natAbs * 2 ^ s.dequantShift :=
    Nat.mul_le_mul_right _ h
  exact Nat.div_le_div_right (by omega)

/-- The shift drops less than two, and half a step is two at least. -/
theorem nearest_of_natAbs_eq (hstep : 4 ≤ step) {coeff level : Int}
    (h : coeff.natAbs = magnitude level step s) : nearest coeff step s = level.natAbs := by
  have hunit := s.scale_le_two
  have hpos : 0 < 2 ^ s.dequantShift := Nat.two_pow_pos _
  have hlow : coeff.natAbs * 2 ^ s.dequantShift ≤ level.natAbs * step := by
    rw [h, magnitude, Nat.shiftRight_eq_div_pow]
    exact Nat.div_mul_le_self _ _
  have hhigh : level.natAbs * step < coeff.natAbs * 2 ^ s.dequantShift + 2 ^ s.dequantShift := by
    rw [h, magnitude, Nat.shiftRight_eq_div_pow, ← Nat.succ_mul, Nat.mul_comm (Nat.succ _)]
    exact Nat.lt_mul_div_succ _ hpos
  simp only [nearest]
  rw [Nat.shiftLeft_eq]
  apply Nat.div_eq_of_lt_le
  · omega
  · rw [Nat.succ_mul]
    omega

theorem nearest_zero (hstep : 4 ≤ step) : nearest 0 step s = 0 := by
  have hzero : Int.natAbs 0 = magnitude 0 step s := by
    rw [magnitude, Int.natAbs_zero, Nat.zero_mul, Nat.zero_shiftRight]
  exact nearest_of_natAbs_eq hstep hzero

/-- No level of a 32-bit coefficient is cut. -/
theorem quantize_eq_withSign (hstep : 4 ≤ step) {coeff : Int} (h : coeff.natAbs ≤ 2 ^ 31) :
    quantize coeff step s = withSign (nearest coeff step s) coeff := by
  have hmax : max32 = 2147483647 := rfl
  have hscaled : coeff.natAbs * 2 ^ s.dequantShift ≤ 2 ^ 31 * 2 := Nat.mul_le_mul h s.scale_le_two
  have hle := nearest_le hstep coeff s
  simp only [levelBound] at hle
  simp only [quantize]
  apply truncate32_of_le
  rw [natAbs_withSign]
  omega

theorem natAbs_quantize (hstep : 4 ≤ step) {coeff : Int} (h : coeff.natAbs ≤ 2 ^ 31) :
    (quantize coeff step s).natAbs = nearest coeff step s := by
  rw [quantize_eq_withSign hstep h, natAbs_withSign]

/-- What a level stands for goes back to the level, if it is not limited. -/
theorem quantize_withSign_magnitude (hstep : 4 ≤ step) {level : Int}
    (h : magnitude level step s ≤ max32) :
    quantize (withSign (magnitude level step s) level) step s = level := by
  have hmax : max32 = 2147483647 := rfl
  have hnearest : nearest (withSign (magnitude level step s) level) step s = level.natAbs :=
    nearest_of_natAbs_eq hstep (natAbs_withSign _ _)
  rw [quantize_eq_withSign hstep (by rw [natAbs_withSign]; omega), hnearest]
  by_cases hlevel : level = 0
  · rw [hlevel, Int.natAbs_zero, withSign_zero]
  · have hmagnitude : magnitude level step s ≠ 0 := by
      intro hzero
      have hcoeff : withSign (magnitude level step s) level = 0 := by
        rw [← Int.natAbs_eq_zero, natAbs_withSign, hzero]
      rw [hcoeff, nearest_zero hstep] at hnearest
      exact hlevel (Int.natAbs_eq_zero.mp hnearest.symm)
    rw [withSign_withSign hmagnitude, withSign_natAbs_self]

/-- Levels of a step are the multiples of it that lie nearest to their coefficients, for all 32-bit
coefficients; the magnitude of the smallest one is `2 ^ 31`. -/
structure RoundsToNearest (step : Nat) (s : TransformSize) : Prop where
  inverse : ∀ level : Int, magnitude level step s ≤ max32 →
    quantize (dequantize level step s) step s = level
  near : ∀ coeff : Int, coeff.natAbs ≤ 2 ^ 31 →
    |(coeff.natAbs * 2 ^ s.dequantShift : Int) - (quantize coeff step s).natAbs * step| ≤
      (step / 2 : Nat)
  sign : ∀ coeff : Int, coeff.natAbs ≤ 2 ^ 31 → quantize coeff step s ≠ 0 →
    (quantize coeff step s).sign = coeff.sign
  monotone : ∀ c d : Int, c.natAbs ≤ 2 ^ 31 → d.natAbs ≤ 2 ^ 31 → c ≤ d →
    quantize c step s ≤ quantize d step s

theorem roundsToNearest (hstep : 4 ≤ step) (s : TransformSize) : RoundsToNearest step s := by
  refine ⟨?_, ?_, ?_, ?_⟩
  · intro level h
    simp only [dequantize]
    rw [Int.min_eq_left (Int.ofNat_le.mpr h)]
    exact quantize_withSign_magnitude hstep h
  · intro coeff h
    obtain ⟨hlow, hhigh⟩ := nearest_bounds (s := s) (by omega : 0 < step) coeff
    rw [natAbs_quantize hstep h, abs_le]
    rw [Nat.add_mul, Nat.one_mul] at hhigh
    have hscaled : ((coeff.natAbs * 2 ^ s.dequantShift : Nat) : Int) =
        coeff.natAbs * 2 ^ s.dequantShift := by push_cast; rfl
    have hlevel : ((nearest coeff step s * step : Nat) : Int) = nearest coeff step s * step :=
      Int.natCast_mul _ _
    rw [← hscaled, ← hlevel]
    omega
  · intro coeff h hne
    rw [quantize_eq_withSign hstep h] at hne ⊢
    have hnearest : nearest coeff step s ≠ 0 := by
      rwa [← natAbs_withSign (nearest coeff step s) coeff, Int.natAbs_ne_zero]
    have hcoeff : coeff ≠ 0 := by
      rintro rfl
      exact hnearest (nearest_zero hstep)
    exact sign_withSign hnearest hcoeff
  · intro c d hc hd hle
    rw [quantize_eq_withSign hstep hc, quantize_eq_withSign hstep hd]
    exact withSign_mono (fun _ _ => nearest_mono) hle

end Uniform

/-! ## Blocks -/

namespace Dequantizer

variable {q : Dequantizer}

/-- Without shaped bins every band has equal steps. -/
theorem bins?_of_not_shaped (h : q.shaped = false) (p : PlaneType) (b : Band) :
    q.bins? p b = none := by
  simp only [bins?]
  rw [Option.isNone_iff_eq_none.mp (Option.isSome_eq_false_iff.mp h)]
  rfl

theorem coeffMax_lt (q : Dequantizer) : q.coeffMax < 2 ^ 19 := by
  simp only [coeffMax]
  cases q.depth <;> decide

/-- A coefficient that is not limited goes back to its level. -/
theorem quantize_dequantize_of_not_shaped (h : q.shaped = false) (p : PlaneType) (b : Band)
    {level : Int} {s : TransformSize}
    (hlimit : Uniform.magnitude level ((q.steps p).ofBand b) s ≤ q.coeffMax) :
    q.quantize p b (q.dequantize p b level s) s = level := by
  have hword : Uniform.magnitude level ((q.steps p).ofBand b) s ≤ max32 :=
    hlimit.trans (q.coeffMax_lt.le.trans (by decide))
  simp only [quantize, dequantize]
  rw [bins?_of_not_shaped h p b]
  dsimp only
  rw [Int.min_eq_left (Int.ofNat_le.mpr hword), Int.min_eq_left (Int.ofNat_le.mpr hlimit)]
  exact Uniform.quantize_withSign_magnitude (q.ofBand_bounds p b).1 hword

end Dequantizer

/-- Whether equal steps take no level of the block past the largest coefficient. -/
def CoefBlock.Unlimited (p : BlockParams) (block : CoefBlock) : Prop :=
  ∀ c < p.size.coeffs, ∀ band, p.size.bands[c]? = some band →
    Uniform.magnitude (block.levelAt p c) ((p.dequant.steps p.kind.plane).ofBand band) p.size ≤
      p.dequant.coeffMax

/-- Coefficients of a sound block are quantized to its levels again. -/
theorem CoefBlock.Sound.quantizeBlock_eq {ρ : Type} [BoolReader ρ] {probs : ProbTable}
    {p : BlockParams} {initial : Ctx} {r : ρ} {block : CoefBlock}
    (h : block.Sound probs p initial r) (hshaped : p.dequant.shaped = false)
    (hlimit : block.Unlimited p) : quantizeBlock p block.coeffs = .ok block.levels := by
  -- Raster position by raster position: the block was dequantized, and is quantized, in the band
  -- of its scan index.
  have hlevels : quantizeLevels p block.coeffs = block.levels := by
    apply Array.ext
    · rw [size_quantizeLevels, h.size_levels]
    · intro j hj hj'
      have hlt : j < p.size.coeffs := by rwa [size_quantizeLevels] at hj
      have hindex : scanIndex p.size p.type j < p.size.coeffs := scanIndex_lt hlt
      obtain ⟨b, hb, hquantized⟩ := getD_quantizeLevels block.coeffs hlt
      obtain ⟨c, hc, hdequantized⟩ := h.dequantized _ hindex
      cases Option.some.inj (hb.symm.trans hc)
      have hlevel := hlimit _ hindex b hb
      simp only [CoefBlock.coeffAt, CoefBlock.levelAt] at hdequantized hlevel
      rw [scan_scanIndex hlt] at hdequantized hlevel
      rw [hdequantized, Dequantizer.quantize_dequantize_of_not_shaped hshaped _ _ hlevel]
        at hquantized
      rwa [← Array.getElem_eq_getD 0 (h := hj), ← Array.getElem_eq_getD 0 (h := hj')]
        at hquantized
  simp only [quantizeBlock]
  rw [if_neg (by rw [h.size_coeffs]; exact Nat.lt_irrefl _), hlevels]

/-- Rounding to the nearest level takes back what a level stands for, whatever the step; so a
decoded block with equal steps is quantized to its own levels, if none of them was limited. -/
theorem quantizeBlock_decodeBlock :
    (∀ step, 4 ≤ step → ∀ s, Uniform.RoundsToNearest step s) ∧
    ∀ {ρ : Type} [BoolReader ρ] (d d' : CoefDecoder) (p : BlockParams) (ctx : Nat) (r r' : ρ)
      (block : CoefBlock), p.dequant.shaped = false → d.decodeBlock p ctx r = .ok (block, d', r') →
      block.Unlimited p → quantizeBlock p block.coeffs = .ok block.levels := by
  constructor
  · intro step hstep s
    exact Uniform.roundsToNearest hstep s
  · intro ρ _ d d' p ctx r r' block hshaped hdec hlimit
    have hctx := le_of_decodeBlock hdec
    cases (decodeBlock_ok d p hctx r).symm.trans hdec
    exact (sound_ofRun d.probs p ⟨ctx, by omega⟩ r).quantizeBlock_eq hshaped hlimit

/-- An odd step, of which halves are dropped; and a block whose reader ends early, with the largest
level that is not limited. -/
theorem quantizeBlock_decodeBlock_early_end :
    let d : CoefDecoder := ⟨.standard, false, .empty⟩
    let p : BlockParams :=
      ⟨⟨.s4, .chroma, .inter⟩, ⟨.adst, .dct⟩, .ofFrame { base := 101, chromaDc := -3 } .eight⟩
    let r : Script := { rest :=
      [true, true, true, false, true, true, true, true, false, false, true, true, true, true, true,
       true, false, false, false, false, false, false, true, true, false, true, true, true, false,
       false, false, true] }
    (4 ≤ 5 ∧ Uniform.magnitude (-7) 5 .s32 ≤ max32 ∧
      Uniform.quantize (Uniform.dequantize (-7) 5 .s32) 5 .s32 = -7) ∧
    ∃ block d' r', p.dequant.shaped = false ∧ d.decodeBlock p 1 r = .ok (block, d', r') ∧
      block.levels = #[-4, 0, 0, 0, 287, 0, 0, 0, 0, 0, 0, 0, 0, 0, 0, 0] ∧ block.Unlimited p ∧
      quantizeBlock p block.coeffs = .ok block.levels := by
  intro d p r
  have hstep : 4 ≤ 5 := by decide
  have hword : Uniform.magnitude (-7) 5 .s32 ≤ max32 := by decide
  have hdec := decodeBlock_ok d p (show 1 ≤ 2 by decide) r
  have hshaped : p.dequant.shaped = false := rfl
  have hlevels : (CoefBlock.ofRun p (readBlock d.probs p 1 r)).levels =
      #[-4, 0, 0, 0, 287, 0, 0, 0, 0, 0, 0, 0, 0, 0, 0, 0] := by decide +kernel
  have hlimit : (CoefBlock.ofRun p (readBlock d.probs p 1 r)).Unlimited p := by
    unfold CoefBlock.Unlimited
    decide +kernel
  exact ⟨⟨hstep, hword, (quantizeBlock_decodeBlock.1 5 hstep .s32).inverse _ hword⟩, _, _, _,
    hshaped, hdec, hlevels, hlimit, quantizeBlock_decodeBlock.2 d _ p 1 r _ _ hshaped hdec hlimit⟩

end ResidualCodec
