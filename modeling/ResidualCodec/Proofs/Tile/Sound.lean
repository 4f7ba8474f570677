/-
  ResidualCodec.Proofs.Tile.Sound

  Under a valid plan no block asks for anything that has no answer: every plane
  exists, every transform admits its bases, and lossless blocks are 4x4. Coding
  such blocks always gives a result.
-/

import ResidualCodec.Proofs.Coefficient.RoundTrip
import ResidualCodec.Proofs.Transform.Rows
import ResidualCodec.Tile.Decode
import ResidualCodec.Tile.Encode

namespace ResidualCodec

/-! ## Valid plans -/

/-- What the transforms ask of a block. -/
structure BlockParams.Sound (p : BlockParams) : Prop where
  admits : p.size.Admits p.type
  lossless : p.dequant.lossless = true → p.size = .s4

/-- What a tile asks of a block. -/
structure TileBlock.Sound (q : Dequantizer) (b : TileBlock) : Prop where
  plane_lt : b.plane < 3
  params : (b.params q).Sound

theorem sound_of_blockDefect?_eq_none {p : TilePlan} {q : Dequantizer} {b : TileBlock}
    (h : p.blockDefect? q b = none) : b.Sound q := by
  simp only [TilePlan.blockDefect?] at h
  split at h
  case h_1 => cases h
  case h_2 e he =>
    split at h
    case isTrue => cases h
    case isFalse =>
      split at h
      case isTrue => cases h
      case isFalse hadmits =>
        split at h
        case isTrue => cases h
        case isFalse hlossless =>
          refine ⟨?_, not_not.mp hadmits, ?_⟩
          · exact (Vector.getElem?_eq_some_iff.mp he).1
          · intro hl
            by_contra hs
            exact hlossless ⟨hl, hs⟩

/-- Every block of a valid plan is sound. -/
theorem sound_of_validate {p : TilePlan} {q : Dequantizer} (h : p.validate q = .ok ())
    {b : TileBlock} (hb : b ∈ p.blocks) : b.Sound q := by
  have hdefect : p.defect? q = none := by
    simp only [TilePlan.validate] at h
    split at h
    case h_1 => cases h
    case h_2 hnone => exact hnone
  obtain ⟨i, hi⟩ := List.getElem?_of_mem hb
  have hmem : (b, i) ∈ p.blocks.zipIdx := List.mem_zipIdx_iff_getElem?.mpr hi
  have hnone := List.findSome?_eq_none_iff.mp hdefect (b, i) hmem
  exact sound_of_blockDefect?_eq_none (Option.map_eq_none_iff.mp hnone)

/-! ## Transforms -/

section

variable {p : BlockParams}

theorem size_zeroBlock (s : TransformSize) : (zeroBlock s).size = s.coeffs :=
  Array.size_replicate

theorem checkBlock_ok (h : p.Sound) {input output : Array Int} (hin : p.size.coeffs ≤ input.size)
    (hout : p.size.coeffs ≤ output.size) : checkBlock p.size p.type input output = .ok () :=
  checkBlock_eq_ok h.admits hin hout

/-- Input and output of a lossless block hold the 16 entries that the Hadamard transforms ask
for. -/
theorem hadamard_room (hs : p.size = .s4) {input : Array Int} (hin : p.size.coeffs ≤ input.size) :
    ¬ (input.size < 16 ∨ (zeroBlock .s4).size < 16) := by
  rw [hs] at hin
  rw [size_zeroBlock]
  exact not_or.mpr ⟨Nat.not_lt.mpr hin, by decide⟩

/-- A residual with enough samples is transformed. -/
theorem exists_transformResidual (h : p.Sound) {residual : Array Int}
    (hsize : p.size.coeffs ≤ residual.size) :
    ∃ coeffs, transformResidual p residual = .ok coeffs := by
  simp only [transformResidual]
  split
  case isTrue hl =>
    have hs := h.lossless hl
    simp only [checkLossless, forwardHadamard]
    rw [if_pos hs, hs, if_neg (hadamard_room hs hsize)]
    exact ⟨_, rfl⟩
  case isFalse =>
    simp only [forwardTransform]
    rw [checkBlock_ok h hsize (size_zeroBlock p.size).ge]
    exact ⟨_, rfl⟩

/-- A block with all its coefficients is reconstructed. -/
theorem exists_reconstruct (h : p.Sound) {c : CoefBlock} (hsize : c.coeffs.size = p.size.coeffs) :
    ∃ residual, c.reconstruct p = .ok residual := by
  simp only [CoefBlock.reconstruct]
  split
  case isTrue hl =>
    have hs := h.lossless hl
    simp only [checkLossless, inverseHadamard]
    rw [if_pos hs, hs, if_neg (hadamard_room hs hsize.ge)]
    dsimp only [bind, Except.bind]
    split
    case isTrue => exact ⟨_, rfl⟩
    case isFalse => exact ⟨_, rfl⟩
  case isFalse =>
    simp only [inverseTransform]
    rw [checkBlock_ok h hsize.ge (size_zeroBlock p.size).ge]
    dsimp only [bind, Except.bind]
    split
    case isTrue => exact ⟨_, rfl⟩
    case isFalse => exact ⟨_, rfl⟩

theorem size_quantizeLevels (coeffs : Array Int) :
    (quantizeLevels p coeffs).size = p.size.coeffs :=
  size_scatter _ _ _

/-- The level of a raster position is quantized in the band of its scan index. -/
theorem getD_quantizeLevels (coeffs : Array Int) {j : Nat} (hj : j < p.size.coeffs) :
    ∃ band, p.size.bands[scanIndex p.size p.type j]? = some band ∧
      (quantizeLevels p coeffs).getD j 0 =
        p.dequant.quantize p.kind.plane band (coeffs.getD j 0) p.size := by
  obtain ⟨q, hq, hraster⟩ := walk_scanIndex (t := p.type) hj
  refine ⟨q.band, (getElem?_walk hq).2.2.1, ?_⟩
  simp only [quantizeLevels]
  rw [Array.getD_eq_getD_getElem?, getElem?_scatter_walk _ hj, Option.getD_some,
    List.getD_eq_getElem?_getD, List.getElem?_map, hq, ← hraster]
  rfl

end

/-! ## Blocks of a tile -/

section

variable {q : Dequantizer} {b : TileBlock}

/-- The planes of sound blocks have contexts. -/
theorem exists_initial (h : b.Sound q) (cs : PlaneContexts) : ∃ ctx, cs.initial b = .ok ctx := by
  simp only [PlaneContexts.initial]
  rw [Vector.getElem?_eq_getElem h.plane_lt]
  exact ⟨_, rfl⟩

/-- An encoder that has encoded a residual: the block holds a level for each coefficient and the
code of all of them, and the events of the block are counted. -/
structure EncodesResidual (e : CoefEncoder) (p : BlockParams) (ctx : Ctx) (residual : Array Int)
    (block : EncodedBlock) (e' : CoefEncoder) : Prop where
  encodes : e.encodeResidual p ctx residual = .ok (block, e')
  size : block.levels.size = p.size.coeffs
  coded : block.coded = encodeCoefs e.probs p ctx block.levels p.size.coeffs
  encoder : e' = { e with
    counts := e.counts.recordUnless e.frameParallel p.kind block.coded.events }

/-- What the transform makes of a residual is quantized and encoded. -/
theorem encodesResidual_of_transform {p : BlockParams} (e : CoefEncoder) (ctx : Ctx)
    {residual coeffs : Array Int} (hcoeffs : transformResidual p residual = .ok coeffs) :
    let coded := encodeCoefs e.probs p ctx (quantizeLevels p coeffs) p.size.coeffs
    EncodesResidual e p ctx residual ⟨quantizeLevels p coeffs, coded⟩
      { e with counts := e.counts.recordUnless e.frameParallel p.kind coded.events } := by
  refine ⟨?_, size_quantizeLevels coeffs, rfl, rfl⟩
  simp only [CoefEncoder.encodeResidual]
  rw [hcoeffs]
  dsimp only [bind, Except.bind]
  rw [encodeBlock_ok e (Nat.le_of_lt_succ ctx.isLt) (size_quantizeLevels coeffs)]
  rfl

/-- A sound block with enough samples is encoded. -/
theorem exists_encodesResidual {p : BlockParams} (h : p.Sound) (e : CoefEncoder) (ctx : Ctx)
    {residual : Array Int} (hsize : p.size.coeffs ≤ residual.size) :
    ∃ block e', EncodesResidual e p ctx residual block e' := by
  obtain ⟨coeffs, hcoeffs⟩ := exists_transformResidual h hsize
  exact ⟨_, _, encodesResidual_of_transform e ctx hcoeffs⟩

/-! ## Steps of a tile -/

variable {ρ : Type} [BoolReader ρ] {r r' : ρ} {cs : PlaneContexts} {d d' : CoefDecoder}

/-- A decoded block has a coefficient for every position. -/
theorem size_coeffs_of_decodeBlock {p : BlockParams} {ctx : Ctx} {block : CoefBlock}
    (h : d.decodeBlock p ctx r = .ok (block, d', r')) : block.coeffs.size = p.size.coeffs := by
  rw [decodeBlock_ok d p (Nat.le_of_lt_succ ctx.isLt)] at h
  cases h
  exact size_scatter _ _ _

/-- Nothing is read for a skipped block. -/
theorem decodeBlocks_cons_skip (rest : List TileBlock) (h : b.Sound q) (hskip : b.skip = true) :
    decodeBlocks q (b :: rest) cs d r =
      (decodeBlocks q rest (cs.skip b) d r).map (·.cons none) := by
  obtain ⟨ctx, hctx⟩ := exists_initial h cs
  conv_lhs => unfold decodeBlocks
  rw [hctx]
  dsimp only [bind, Except.bind]
  rw [if_pos hskip]
  cases decodeBlocks q rest (cs.skip b) d r with
  | error => rfl
  | ok => rfl

/-- A block that is decoded is followed by the others, unless it is corrupt. -/
theorem decodeBlocks_cons (rest : List TileBlock) (h : b.Sound q) (hskip : b.skip = false)
    {ctx : Ctx} (hctx : cs.initial b = .ok ctx) {block : CoefBlock}
    (hdec : d.decodeBlock (b.params q) ctx r = .ok (block, d', r')) :
    ∃ residual, block.reconstruct (b.params q) = .ok residual ∧
      decodeBlocks q (b :: rest) cs d r =
        match block.corruption with
        | some c => .ok ⟨some ⟨block, residual⟩ :: rest.map fun _ => none,
            cs.update b (0 < block.eob), d', some (0, c)⟩
        | none => (decodeBlocks q rest (cs.update b (0 < block.eob)) d' r').map
            (·.cons (some ⟨block, residual⟩)) := by
  obtain ⟨residual, hres⟩ := exists_reconstruct h.params (size_coeffs_of_decodeBlock hdec)
  refine ⟨residual, hres, ?_⟩
  conv_lhs => unfold decodeBlocks
  simp only [CoefDecoder.decodeResidual]
  rw [hctx]
  dsimp only [bind, Except.bind]
  rw [if_neg (by rw [hskip]; exact Bool.false_ne_true), hdec]
  dsimp only [pure, Except.pure]
  rw [hres]
  rfl

end

/-! ## Tiles -/

section

variable (p : TilePlan) (probs : ProbTable) (q : Dequantizer) (parallel : Bool)

/-- A tile is what its blocks are decoded to, from clear contexts. -/
theorem decodeTile_eq_map (data : List UInt8) :
    decodeTile p data probs q parallel =
      (decodeBlocks q p.blocks (.create p) ⟨probs, parallel, .empty⟩ (BoolDecoder.start data)).map
        fun out => ⟨out.blocks, out.decoder.counts, out.corruption⟩ := by
  simp only [decodeTile, decodeTileWith]
  rw [show WorkerContexts.start none p = .create p from rfl]
  cases decodeBlocks q p.blocks (.create p) ⟨probs, parallel, .empty⟩ (BoolDecoder.start data) with
  | error => rfl
  | ok => rfl

variable {residuals : List (Array Int)}

/-- With a residual for each block, a tile is what its blocks are encoded to. -/
theorem encodeTile_eq_map (hlength : residuals.length = p.blocks.length) :
    encodeTile p residuals probs q parallel =
      (encodeBlocks q (p.blocks.zip residuals) (.create p) ⟨probs, parallel, .empty⟩ {}).map
        fun out => ⟨out.2.2.2.finish, out.1, out.2.2.1.counts⟩ := by
  simp only [encodeTile, encodeTileWith]
  rw [if_neg (not_not_intro hlength), show WorkerContexts.start none p = .create p from rfl]
  dsimp only [bind, Except.bind]
  cases encodeBlocks q (p.blocks.zip residuals) (.create p) ⟨probs, parallel, .empty⟩ {} with
  | error => rfl
  | ok => rfl

variable {p probs q parallel}

/-- A tile is encoded only with a residual for each block. -/
theorem length_eq_of_encodeTile {tile : EncodedTile}
    (h : encodeTile p residuals probs q parallel = .ok tile) :
    residuals.length = p.blocks.length := by
  by_contra hne
  simp only [encodeTile, encodeTileWith] at h
  rw [if_pos hne] at h
  cases h

end

end ResidualCodec
