/-
  ResidualCodec.Proofs.Tile.Empty

  Residuals of zeros. They are coded as empty blocks, with the end of block as
  their only decision, exactly if the quantizer takes zero to zero in every
  band. Equal steps do; shaped bins do as long as the bin of zero is not rounded
  away.
-/

import ResidualCodec.Config
import ResidualCodec.Proofs.BoolCoder.RoundTrip
import ResidualCodec.Proofs.Quant.Requantize
import ResidualCodec.Proofs.Tile.Counting
import ResidualCodec.Proofs.Transform.Zero

namespace ResidualCodec

/-! ## Zero -/

/-- Zero has the level zero, unless the first knot of a shape makes less than half a unit of the
step: the bin of zero is then rounded away. -/
theorem Dequantizer.quantize_zero_iff (q : Dequantizer) (p : PlaneType) (band : Band)
    (s : TransformSize) :
    q.quantize p band 0 s = 0 ↔ ∀ profile, q.shape? = some profile →
      64 ≤ (profile.shape band).knot₁.toNat * (q.steps p).ofBand band := by
  obtain ⟨hlow, hhigh⟩ := q.ofBand_bounds p band
  cases hshape : q.shape? with
  | none =>
    have hshaped : q.shaped = false := by
      simp only [shaped]
      rw [hshape]
      rfl
    have hzero : q.quantize p band 0 s = 0 := by
      simp only [quantize]
      rw [bins?_of_not_shaped hshaped]
      dsimp only
      rw [Uniform.quantize_eq_withSign hlow (by decide), Uniform.nearest_zero hlow]
      rfl
    exact iff_of_true hzero fun profile hprofile => by cases hprofile
  | some profile =>
    have hmeasured := NuqBins.measured_ofShape hhigh (profile.shape band)
    have hordered := hmeasured.ordered (show 0 < (q.steps p).ofBand band by omega)
    rw [quantize_of_bins? (bins?_of_shape? hshape p band) (by decide), Int.natAbs_zero,
      Nat.zero_mul, withSign_of_nonneg Int.le_rfl, Nat.cast_zero, Int.natCast_eq_zero,
      hordered.quantize_eq_iff Int.le_rfl, hmeasured.holds_zero_iff]
    constructor
    · intro h _ hprofile
      cases hprofile
      exact h
    · intro h
      exact h profile rfl

/-- Every band holds some coefficients of every size. -/
theorem TransformSize.mem_bands (s : TransformSize) (b : Band) : b ∈ s.bands := by
  revert b
  cases s <;> decide +kernel

namespace BlockParams

/-- Whether every band of the block has a bin for zero. -/
def HoldsZero (p : BlockParams) : Prop :=
  ∀ profile, p.dequant.shape? = some profile → ∀ band : Band,
    64 ≤ (profile.shape band).knot₁.toNat * (p.dequant.steps p.kind.plane).ofBand band

variable {p : BlockParams}

theorem holdsZero_iff :
    p.HoldsZero ↔ ∀ band, p.dequant.quantize p.kind.plane band 0 p.size = 0 := by
  constructor
  · intro h band
    exact (p.dequant.quantize_zero_iff _ band _).mpr fun profile hshape => h profile hshape band
  · intro h profile hshape band
    exact (p.dequant.quantize_zero_iff _ band _).mp (h band) profile hshape

/-- Neither equal steps nor the standard profile lose the bin of zero. -/
theorem holdsZero_of_standard (h : p.dequant.profile = none ∨ p.dequant.profile = some .standard) :
    p.HoldsZero := by
  intro profile hshape band
  simp only [Dequantizer.shape?] at hshape
  split at hshape
  case isTrue => cases hshape
  case isFalse =>
    rcases h with h | h
    · rw [h] at hshape
      cases hshape
    · cases h.symm.trans hshape
      exact Nat.mul_le_mul (NuqProfile.standard_shapes band).1 (p.dequant.ofBand_bounds _ band).1

end BlockParams

section

variable {p : BlockParams}

theorem getD_zeroBlock (s : TransformSize) (j : Nat) : (zeroBlock s).getD j 0 = 0 := by
  simp only [zeroBlock]
  rw [Array.getD_eq_getD_getElem?, Array.getElem?_replicate]
  split
  case isTrue => rfl
  case isFalse => rfl

/-- Coefficients of zero have levels of zero. -/
theorem getD_quantizeLevels_zero (h : p.HoldsZero) {coeffs : Array Int} {j : Nat}
    (hj : j < p.size.coeffs) (hzero : coeffs.getD j 0 = 0) :
    (quantizeLevels p coeffs).getD j 0 = 0 := by
  obtain ⟨band, -, hlevel⟩ := getD_quantizeLevels coeffs hj
  rw [hlevel, hzero]
  exact BlockParams.holdsZero_iff.mp h band

theorem exists_getD_quantizeLevels (coeffs : Array Int) (band : Band) :
    ∃ j < p.size.coeffs, (quantizeLevels p coeffs).getD j 0 =
      p.dequant.quantize p.kind.plane band (coeffs.getD j 0) p.size := by
  obtain ⟨c, hc⟩ := List.getElem?_of_mem (p.size.mem_bands band)
  have hlt : c < p.size.coeffs := by
    rw [← length_bands]
    exact (List.getElem?_eq_some_iff.mp hc).1
  obtain ⟨q, hq, hraster, hj⟩ := walk_scan (t := p.type) hlt
  cases Option.some.inj (hc.symm.trans (getElem?_walk hq).2.2.1)
  refine ⟨q.raster, hj, ?_⟩
  simp only [quantizeLevels]
  conv_lhs => rw [hraster]
  rw [getD_scatter_scan _ hlt, List.getD_eq_getElem?_getD, List.getElem?_map, hq]
  rfl

/-- The levels of a block of zeros tell whether there is a bin for zero in every band. -/
theorem holdsZero_of_levels
    (h : ∀ j < p.size.coeffs, (quantizeLevels p (zeroBlock p.size)).getD j 0 = 0) :
    p.HoldsZero := by
  rw [BlockParams.holdsZero_iff]
  intro band
  obtain ⟨j, hj, hlevel⟩ := exists_getD_quantizeLevels (p := p) (zeroBlock p.size) band
  rw [h j hj, getD_zeroBlock] at hlevel
  exact hlevel.symm

theorem quantizeLevels_zeroBlock_iff :
    quantizeLevels p (zeroBlock p.size) = zeroBlock p.size ↔ p.HoldsZero := by
  constructor
  · intro h
    apply holdsZero_of_levels
    intro j _
    rw [h, getD_zeroBlock]
  · intro h
    apply Array.ext
    · rw [size_quantizeLevels, size_zeroBlock]
    · intro j hj hj'
      have hlt : j < p.size.coeffs := by rwa [size_quantizeLevels] at hj
      rw [Array.getElem_eq_getD 0, Array.getElem_eq_getD 0, getD_zeroBlock]
      exact getD_quantizeLevels_zero h hlt (getD_zeroBlock _ _)

/-! ## Symbols -/

theorem codedLevels_zeroBlock (p : BlockParams) (bound : Nat) :
    codedLevels p (zeroBlock p.size) bound = [] := by
  simp only [codedLevels]
  rw [trimZeros_eq_rdropWhile, List.rdropWhile_eq_nil_iff]
  intro x hx
  obtain ⟨q, -, rfl⟩ := List.mem_map.mp (List.mem_of_mem_take hx)
  rw [getD_zeroBlock]
  rfl

/-- Without a level the block ends at once: at the DC coefficient, in the context of the block. -/
theorem symbols_nil (p : BlockParams) (initial : Ctx) :
    symbols p initial [] = [.endOfBlock .dc initial] := by
  -- The walk starts at scan index zero, where no neighbour decides the context.
  obtain ⟨q, hq, -⟩ := walk_scan (t := p.type) p.size.coeffs_pos
  obtain ⟨hindex, -, hband, -⟩ := getElem?_walk hq
  have hdc : p.size.bands[0]? = some .dc := by cases p.size <;> decide +kernel
  obtain ⟨qs, hwalk⟩ : ∃ qs, walk p.size p.type = q :: qs := by
    rw [← List.head?_eq_getElem?] at hq
    exact ⟨_, List.eq_cons_of_mem_head? hq⟩
  simp only [symbols]
  rw [hwalk]
  simp only [symbolsFrom, Position.context]
  rw [if_pos hindex, Option.some.inj (hband.symm.trans hdc)]

/-- The code of an empty block is a single decision: its end. -/
theorem encodeCoefs_zeroBlock (probs : ProbTable) (p : BlockParams) (initial : Ctx)
    (bound : Nat) :
    (encodeCoefs probs p initial (zeroBlock p.size) bound).decisions =
        [⟨false, (probs.get ⟨p.kind, .dc, initial⟩).endOfBlock⟩] ∧
      (encodeCoefs probs p initial (zeroBlock p.size) bound).stats.eob = 0 := by
  simp only [encodeCoefs]
  rw [codedLevels_zeroBlock, symbols_nil]
  exact ⟨rfl, rfl⟩

/-! ## Transforms -/

theorem transformResidual_zero (h : p.Sound) {residual : Array Int}
    (hsize : p.size.coeffs ≤ residual.size)
    (hzero : ∀ j < p.size.coeffs, residual.getD j 0 = 0) :
    transformResidual p residual = .ok (zeroBlock p.size) := by
  simp only [transformResidual]
  split
  case isTrue hl =>
    have hs := h.lossless hl
    have hrows : Rows.ofRaster 4 residual = .zero 4 := by
      apply Rows.ofRaster_eq_zero
      rw [hs] at hzero
      exact hzero
    simp only [checkLossless, forwardHadamard]
    rw [if_pos hs, hs, if_neg (hadamard_room hs hsize), hrows, forwardHadamardRows_zero]
    exact congrArg Except.ok (writeTo_zeroBlock .s4)
  case isFalse =>
    simp only [forwardTransform]
    rw [checkBlock_ok h hsize (size_zeroBlock p.size).ge, Rows.ofRaster_eq_zero hzero,
      forwardRows_zero]
    exact congrArg Except.ok (writeTo_zeroBlock p.size)

/-- An empty block is reconstructed to zeros, whatever its coefficients. -/
theorem reconstruct_of_empty (h : p.Sound) {c : CoefBlock}
    (hsize : c.coeffs.size = p.size.coeffs) (hempty : c.eob = 0) :
    c.reconstruct p = .ok (zeroBlock p.size) := by
  have hclear : ∀ n, ((Rows.ofRaster n c.coeffs).each fun _ => 0) = .zero n :=
    fun n => (Rows.square_ofRaster n c.coeffs).each_eq_zero
  simp only [CoefBlock.reconstruct]
  split
  case isTrue hl =>
    have hs := h.lossless hl
    simp only [checkLossless, inverseHadamard]
    rw [if_pos hs, hs, if_neg (hadamard_room hs hsize.ge), if_pos hempty, hclear]
    exact congrArg Except.ok (writeTo_zeroBlock .s4)
  case isFalse =>
    simp only [inverseTransform]
    rw [checkBlock_ok h hsize.ge (size_zeroBlock p.size).ge]
    dsimp only [bind, Except.bind]
    rw [if_pos hempty, hclear]
    exact congrArg Except.ok (writeTo_zeroBlock p.size)

/-! ## Blocks -/

/-- Any reader that replays the code of an empty block gives zeros, and stops behind it. -/
theorem decodeResidual_of_replays_empty (h : p.Sound) {ρ : Type} [BoolReader ρ] {r r' : ρ}
    (d : CoefDecoder) (ctx : Ctx)
    (hreplays : Replays r
      (encodeCoefs d.probs p ctx (zeroBlock p.size) p.size.coeffs).decisions r') :
    ∃ out d', d.decodeResidual p ctx r = .ok (.ok out, d', r') ∧ out.coefs.eob = 0 ∧
      out.residual = zeroBlock p.size := by
  obtain ⟨block, hdec, hrecovers⟩ :=
    decodeBlock_of_replays d (Nat.le_of_lt_succ ctx.isLt) hreplays
  obtain ⟨d', hdec⟩ : ∃ d', d.decodeBlock p ctx r = .ok (block, d', r') := ⟨_, hdec⟩
  have hempty : block.eob = 0 :=
    hrecovers.eob.trans (encodeCoefs_zeroBlock d.probs p ctx p.size.coeffs).2
  have hresidual := reconstruct_of_empty h (size_coeffs_of_decodeBlock hdec) hempty
  refine ⟨⟨block, zeroBlock p.size⟩, d', ?_, hempty, rfl⟩
  simp only [CoefDecoder.decodeResidual]
  rw [hdec]
  dsimp only [bind, Except.bind, pure, Except.pure]
  rw [hresidual]
  rfl

/-- A residual that is coded as an empty block: its levels are zero, the end of block is its only
decision, and it is decoded to zeros, whatever follows it. -/
structure CodesEmpty (e : CoefEncoder) (p : BlockParams) (ctx : Ctx) (residual : Array Int)
    (block : EncodedBlock) (e' : CoefEncoder) : Prop where
  encodes : e.encodeResidual p ctx residual = .ok (block, e')
  levels : block.levels = zeroBlock p.size
  eob : block.coded.stats.eob = 0
  decisions : block.coded.decisions = [⟨false, (e.probs.get ⟨p.kind, .dc, ctx⟩).endOfBlock⟩]
  decodes : ∀ (d : CoefDecoder) (suffix : List UInt8), d.probs = e.probs →
    ∃ out d' r', d.decodeResidual p ctx
        (BoolDecoder.start (BoolEncoder.encode block.coded.decisions ++ suffix)) =
          .ok (.ok out, d', r') ∧
      out.coefs.eob = 0 ∧ out.residual = zeroBlock p.size

/-- The levels of a residual of zeros are those of coefficients of zero. -/
theorem levels_of_encodeResidual_zero (h : p.Sound) {residual : Array Int}
    (hsize : p.size.coeffs ≤ residual.size)
    (hzero : ∀ j < p.size.coeffs, residual.getD j 0 = 0) {e e' : CoefEncoder} {ctx : Ctx}
    {block : EncodedBlock} (henc : e.encodeResidual p ctx residual = .ok (block, e')) :
    block.levels = quantizeLevels p (zeroBlock p.size) := by
  obtain ⟨coeffs, hcoeffs, henc⟩ := exists_of_bind_eq_ok henc
  obtain ⟨⟨coded, e₁⟩, -, henc⟩ := exists_of_bind_eq_ok henc
  cases henc
  rw [transformResidual_zero h hsize hzero] at hcoeffs
  cases hcoeffs
  rfl

theorem exists_codesEmpty_iff (h : p.Sound) (e : CoefEncoder) (ctx : Ctx) {residual : Array Int}
    (hsize : p.size.coeffs ≤ residual.size)
    (hzero : ∀ j < p.size.coeffs, residual.getD j 0 = 0) :
    (∃ block e', CodesEmpty e p ctx residual block e') ↔ p.HoldsZero := by
  constructor
  · -- The levels alone tell: no other levels than those of the transformed zeros are coded.
    rintro ⟨block, e', hempty⟩
    rw [← quantizeLevels_zeroBlock_iff,
      ← levels_of_encodeResidual_zero h hsize hzero hempty.encodes]
    exact hempty.levels
  · intro hholds
    obtain ⟨block, e', henc⟩ := exists_encodesResidual h e ctx hsize
    have hlevels : block.levels = zeroBlock p.size :=
      (levels_of_encodeResidual_zero h hsize hzero henc.encodes).trans
        (quantizeLevels_zeroBlock_iff.mpr hholds)
    have hcoded := henc.coded
    rw [hlevels] at hcoded
    obtain ⟨hdecisions, heob⟩ := encodeCoefs_zeroBlock e.probs p ctx p.size.coeffs
    rw [← hcoded] at hdecisions heob
    refine ⟨block, e', henc.encodes, hlevels, heob, hdecisions, ?_⟩
    intro d suffix hprobs
    obtain ⟨m, hreplays, -⟩ := BoolEncoder.encode_replays block.coded.decisions suffix
    rw [hcoded, ← hprobs] at hreplays ⊢
    obtain ⟨out, d', hdec, hout⟩ := decodeResidual_of_replays_empty h d ctx hreplays
    exact ⟨out, d', m, hdec, hout⟩

end

/-- Whatever the quantizer, the probabilities and the context: coefficients of zero have levels of
zero, and residuals of zeros are coded as empty blocks, exactly if every band of the block has a bin
for zero. -/
theorem encodeResidual_zero_iff {p : BlockParams} (h : p.Sound) :
    (p.HoldsZero ↔ ∀ coeffs : Array Int, p.size.coeffs ≤ coeffs.size →
      ∃ levels, quantizeBlock p coeffs = .ok levels ∧
        ∀ j < p.size.coeffs, coeffs.getD j 0 = 0 → levels.getD j 0 = 0) ∧
    ∀ (e : CoefEncoder) (ctx : Ctx) (residual : Array Int), p.size.coeffs ≤ residual.size →
      (∀ j < p.size.coeffs, residual.getD j 0 = 0) →
        (p.HoldsZero ↔ ∃ block e', CodesEmpty e p ctx residual block e') := by
  have hquantize : ∀ coeffs : Array Int, p.size.coeffs ≤ coeffs.size →
      quantizeBlock p coeffs = .ok (quantizeLevels p coeffs) :=
    fun _ hsize => if_neg (Nat.not_lt.mpr hsize)
  refine ⟨⟨?_, ?_⟩, ?_⟩
  · intro hholds coeffs hsize
    refine ⟨_, hquantize coeffs hsize, ?_⟩
    intro j hj hzero
    exact getD_quantizeLevels_zero hholds hj hzero
  · intro hlevels
    obtain ⟨levels, hquantized, hzero⟩ := hlevels (zeroBlock p.size) (size_zeroBlock p.size).ge
    cases (hquantize _ (size_zeroBlock p.size).ge).symm.trans hquantized
    apply holdsZero_of_levels
    intro j hj
    exact hzero j hj (getD_zeroBlock _ _)
  · intro e ctx residual hsize hzero
    exact (exists_codesEmpty_iff h e ctx hsize hzero).symm

/-- The first bin of this profile makes half a unit of the step, and no less. -/
theorem encodeResidual_zero_iff_narrow :
    let q : Dequantizer :=
      ⟨{ base := 1 }, .keep, .eight, some ⟨Vector.replicate 6 ⟨8, 1, 128, 127⟩⟩⟩
    let p : BlockParams := ⟨⟨.s8, .chroma, .inter⟩, ⟨.adst, .dct⟩, q⟩
    let e : CoefEncoder := ⟨.standard, false, .empty⟩
    p.Sound ∧ p.HoldsZero ∧ p.size.coeffs ≤ (zeroBlock .s8).size ∧
      (∀ j < p.size.coeffs, (zeroBlock .s8).getD j 0 = 0) ∧
      (∃ levels, quantizeBlock p (zeroBlock .s8) = .ok levels ∧
        ∀ j < p.size.coeffs, (zeroBlock .s8).getD j 0 = 0 → levels.getD j 0 = 0) ∧
      ∃ block e', CodesEmpty e p 2 (zeroBlock .s8) block e' := by
  intro q p e
  have hsound : p.Sound := ⟨by decide, by decide +kernel⟩
  have hholds : p.HoldsZero := by
    have hshape : p.dequant.shape? = some ⟨Vector.replicate 6 ⟨8, 1, 128, 127⟩⟩ := rfl
    intro profile hprofile
    cases hshape.symm.trans hprofile
    decide +kernel
  have hsize : p.size.coeffs ≤ (zeroBlock .s8).size := (size_zeroBlock .s8).ge
  have hzero : ∀ j < p.size.coeffs, (zeroBlock .s8).getD j 0 = 0 := fun j _ => getD_zeroBlock _ j
  obtain ⟨hquantize, hencode⟩ := encodeResidual_zero_iff hsound
  exact ⟨hsound, hholds, hsize, hzero, hquantize.mp hholds _ hsize,
    (hencode e 2 _ hsize hzero).mp hholds⟩

/-- Profiles are accepted that have no bin for zero: where less than half a unit of the step is left
to it, zeros have levels of one. -/
theorem encodeResidual_zero_without_bin :
    let c : Config := { profile := some ⟨Vector.replicate 6 ⟨7, 128, 128, 0⟩⟩ }
    let p : BlockParams := ⟨⟨.s4, .luma, .intra⟩, .dctDct, c.dequantizer { base := 1 } .keep⟩
    c.validate = .ok () ∧ p.Sound ∧
      quantizeBlock p (zeroBlock .s4) = .ok (Array.replicate 16 1) ∧
      ∀ (e : CoefEncoder) (ctx : Ctx),
        ¬ ∃ block e', CodesEmpty e p ctx (zeroBlock .s4) block e' := by
  intro c p
  have hsound : p.Sound := ⟨by decide, by decide +kernel⟩
  have hlevels : quantizeLevels p (zeroBlock .s4) = Array.replicate 16 1 := by decide +kernel
  refine ⟨by decide +kernel, hsound, congrArg Except.ok hlevels, ?_⟩
  intro e ctx hempty
  have hholds : p.HoldsZero :=
    (exists_codesEmpty_iff hsound e ctx (size_zeroBlock .s4).ge
      fun j _ => getD_zeroBlock .s4 j).mp hempty
  have hzero := quantizeLevels_zeroBlock_iff.mpr hholds
  exact absurd (hlevels.symm.trans hzero) (by decide)

end ResidualCodec
