/-
  ResidualCodec.Proofs.Tile.Unclamped

  The levels of a residual are never clamped: whatever its samples, its
  transform and its quantizer, no level is larger than the largest magnitude
  that has a code. What is decoded are the levels themselves.
-/

import ResidualCodec.Proofs.BoolCoder.RoundTrip
import ResidualCodec.Proofs.Quant.Limit
import ResidualCodec.Proofs.Tile.Counting
import ResidualCodec.Proofs.Tile.RoundTrip
import ResidualCodec.Proofs.Transform.Hadamard
import ResidualCodec.Proofs.Transform.Magnitude

namespace ResidualCodec

/-! ## Limits -/

/-- Bound of the coefficients of a block. Lossless ones are up to sixteen times as large as the
samples. -/
def BlockParams.coeffBound (p : BlockParams) : Nat :=
  if p.dequant.lossless then 16 * p.depth.maxResidual else forwardBound p.size p.depth.maxResidual

/-- The levels of the largest coefficients have codes. Blocks of 32 points leave the least room,
less than one in a thousand. -/
theorem levelBound_le_maxMagnitude (p : BlockParams) :
    2 * p.coeffBound ≤ max32 ∧ levelBound p.size p.coeffBound ≤ maxMagnitude p.depth := by
  have hlossless : ∀ (s : TransformSize) (d : BitDepth), 2 * (16 * d.maxResidual) ≤ max32 ∧
      levelBound s (16 * d.maxResidual) ≤ maxMagnitude d := by
    intro s d
    cases s <;> cases d <;> decide
  have hforward : ∀ (s : TransformSize) (d : BitDepth),
      2 * forwardBound s d.maxResidual ≤ max32 ∧
        levelBound s (forwardBound s d.maxResidual) ≤ maxMagnitude d := by
    intro s d
    cases s <;> cases d <;> decide
  simp only [BlockParams.coeffBound]
  split
  case isTrue => exact hlossless p.size p.depth
  case isFalse => exact hforward p.size p.depth

/-! ## Levels -/

section

variable {p : BlockParams} (h : p.Sound) {residual : Array Int}
  (hsize : p.size.coeffs ≤ residual.size)
  (hresidual : ∀ j < p.size.coeffs, (residual.getD j 0).natAbs ≤ p.depth.maxResidual)

include h hsize hresidual

theorem natAbs_of_mem_transformResidual {coeffs : Array Int}
    (hcoeffs : transformResidual p residual = .ok coeffs) {x : Int} (hx : x ∈ coeffs) :
    x.natAbs ≤ p.coeffBound := by
  simp only [transformResidual] at hcoeffs
  simp only [BlockParams.coeffBound]
  split at hcoeffs
  case isTrue hlossless =>
    have hs := h.lossless hlossless
    rw [hs] at hsize hresidual
    rw [checkLossless, if_pos hs, hs] at hcoeffs
    have hroom : 16 * p.depth.maxResidual ≤ max32 := by cases p.depth <;> decide
    obtain ⟨k, rfl, hk⟩ := exists_of_mem_forwardHadamard hsize hcoeffs hresidual hroom hx
    rw [if_pos hlossless]
    simp only [unitStep]
    omega
  case isFalse hlossy =>
    rw [if_neg hlossy]
    have hcheck := checkBlock_ok h hsize (size_zeroBlock p.size).ge
    exact natAbs_of_mem_forwardTransform hcheck (size_zeroBlock p.size) hresidual hcoeffs hx

theorem natAbs_of_mem_quantizeLevels {coeffs : Array Int}
    (hcoeffs : transformResidual p residual = .ok coeffs) {x : Int}
    (hx : x ∈ quantizeLevels p coeffs) : x.natAbs ≤ maxMagnitude p.depth := by
  obtain ⟨hword, hlevel⟩ := levelBound_le_maxMagnitude p
  rcases eq_zero_or_mem_of_mem_scatter hx with rfl | hmem
  · exact Nat.zero_le _
  · obtain ⟨q, -, rfl⟩ := List.mem_map.mp hmem
    have hcoeff : (coeffs.getD q.raster 0).natAbs ≤ p.coeffBound := by
      rw [Array.getD_eq_getD_getElem?]
      cases hget : coeffs[q.raster]? with
      | none => exact Nat.zero_le _
      | some y =>
        exact natAbs_of_mem_transformResidual h hsize hresidual hcoeffs (Array.mem_of_getElem? hget)
    calc (p.dequant.quantize p.kind.plane q.band (coeffs.getD q.raster 0) p.size).natAbs
        ≤ levelBound p.size (coeffs.getD q.raster 0).natAbs :=
          Dequantizer.natAbs_quantize_le _ _ _ (by omega)
      _ ≤ levelBound p.size p.coeffBound := levelBound_mono hcoeff
      _ ≤ maxMagnitude p.depth := hlevel

/-- Levels as they are encoded: none of them is clamped. -/
theorem natAbs_of_encodeResidual {e e' : CoefEncoder} {ctx : Nat} {block : EncodedBlock}
    (hencodes : e.encodeResidual p ctx residual = .ok (block, e')) :
    ∀ x ∈ block.levels, x.natAbs ≤ maxMagnitude p.depth := by
  obtain ⟨coeffs, hcoeffs, hencodes⟩ := exists_of_bind_eq_ok hencodes
  obtain ⟨⟨coded, e₁⟩, -, hencodes⟩ := exists_of_bind_eq_ok hencodes
  cases hencodes
  exact fun x => natAbs_of_mem_quantizeLevels h hsize hresidual hcoeffs

/-- Every residual of the bit depth is encoded into levels that all have codes, and a decoder of
the same probabilities finds these levels in the stream, whatever follows it. -/
theorem decodeBlock_encodeResidual (e : CoefEncoder) (d : CoefDecoder) (hprobs : d.probs = e.probs)
    {ctx : Nat} (hctx : ctx ≤ 2) (suffix : List UInt8) :
    ∃ block e', e.encodeResidual p ctx residual = .ok (block, e') ∧
      (∀ x ∈ block.levels, x.natAbs ≤ maxMagnitude p.depth) ∧
      ∃ coefs d' r',
        d.decodeBlock p ctx
          (BoolDecoder.start (BoolEncoder.encode block.coded.decisions ++ suffix)) =
            .ok (coefs, d', r') ∧
        coefs.corruption = none ∧ coefs.levels = block.levels := by
  obtain ⟨block, e', hencoded⟩ := exists_encodesResidual h e ⟨ctx, by omega⟩ hsize
  have hbound := natAbs_of_encodeResidual h hsize hresidual hencoded.encodes
  obtain ⟨r', hreplays, -⟩ := BoolEncoder.encode_replays block.coded.decisions suffix
  have hcoded := hencoded.coded
  rw [← hprobs] at hcoded
  rw [hcoded] at hreplays
  obtain ⟨coefs, hdecodes, hrecovers⟩ := decodeBlock_of_replays d hctx hreplays
  have hlevels : coefs.levels = block.levels := by
    rw [hrecovers.levels_eq hencoded.size, Array.map_congr_left (g := id), Array.map_id]
    intro x hx
    exact clampLevel_of_le (hbound x hx)
  refine ⟨block, e', hencoded.encodes, hbound, ?_⟩
  rw [hcoded]
  exact ⟨coefs, _, r', hdecodes, hrecovers.intact, hlevels⟩

end

/-- The largest block of the smallest step, at the limit of twelve bits, with shaped bins. -/
theorem decodeBlock_encodeResidual_largest :
    let p : BlockParams :=
      ⟨⟨.s32, .luma, .inter⟩, .dctDct, ⟨{ lumaDc := 1 }, .keep, .twelve, some .standard⟩⟩
    let e : CoefEncoder := ⟨.standard, false, .empty⟩
    let d : CoefDecoder := ⟨.standard, false, .empty⟩
    let residual : Array Int := Array.replicate 1024 (-4095)
    ∃ block e', e.encodeResidual p 0 residual = .ok (block, e') ∧
      (∀ x ∈ block.levels, x.natAbs ≤ maxMagnitude .twelve) ∧
      ∃ coefs d' r',
        d.decodeBlock p 0 (BoolDecoder.start (BoolEncoder.encode block.coded.decisions ++ [7])) =
          .ok (coefs, d', r') ∧
        coefs.corruption = none ∧ coefs.levels = block.levels := by
  intro p e d residual
  have hsound : p.Sound := ⟨by decide, by decide⟩
  have hsize : p.size.coeffs ≤ residual.size := Array.size_replicate.ge
  have hresidual : ∀ j < p.size.coeffs, (residual.getD j 0).natAbs ≤ p.depth.maxResidual := by
    intro j hj
    have hlt : j < 1024 := hj
    rw [Array.getD_eq_getD_getElem?, Array.getElem?_replicate, if_pos hlt]
    decide
  exact decodeBlock_encodeResidual hsound hsize hresidual e d rfl (by decide) [7]

end ResidualCodec
