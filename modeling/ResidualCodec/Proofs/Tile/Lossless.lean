/-
  ResidualCodec.Proofs.Tile.Lossless

  Lossless tiles are exact. The coefficients of a residual come back from its
  levels, since no limit of the levels or the coefficients is in their way, and
  the inverse transform makes the samples of them again.
-/

import ResidualCodec.Proofs.Quant.Lossless
import ResidualCodec.Proofs.Tile.Counting
import ResidualCodec.Proofs.Tile.Decoded
import ResidualCodec.Proofs.Tile.RoundTrip
import ResidualCodec.Proofs.Transform.Hadamard

namespace ResidualCodec

/-! ## Coefficients -/

section

variable {p : BlockParams}

variable {ρ : Type} [BoolReader ρ] {probs : ProbTable} {initial : Ctx} {r : ρ} {block : CoefBlock}

/-- An empty block has no coefficient other than zero. -/
theorem CoefBlock.Sound.eq_zero_of_empty (h : block.Sound probs p initial r)
    (hempty : block.eob = 0) {x : Int} (hx : x ∈ block.coeffs) : x = 0 := by
  obtain ⟨j, hj, rfl⟩ := Array.getElem_of_mem hx
  have hlt : j < p.size.coeffs := by rwa [h.size_coeffs] at hj
  have hindex : scanIndex p.size p.type j < p.size.coeffs := scanIndex_lt hlt
  have hcoeff : block.coeffAt p (scanIndex p.size p.type j) = 0 := by
    apply h.zero _ hindex
    apply h.empty _ hindex
    rw [hempty]
    exact Nat.zero_le _
  simp only [CoefBlock.coeffAt] at hcoeff
  rwa [scan_scanIndex hlt, ← Array.getElem_eq_getD 0] at hcoeff

/-- Decoded are the coefficients that were quantized, if they are those of samples of the bit
depth. -/
theorem coeffs_eq_of_lossless (hlossless : p.dequant.lossless = true) (hs : p.size = .s4)
    (h : block.Sound probs p initial r) {coeffs : Array Int} (hsize : coeffs.size = p.size.coeffs)
    (hcoeffs : ∀ x ∈ coeffs, ∃ k : Int, x = k * unitStep ∧ k.natAbs ≤ 4 * (2 ^ p.depth.bits - 1))
    (hlevels : block.levels = (quantizeLevels p coeffs).map (clampLevel p.depth)) :
    block.coeffs = coeffs := by
  apply Array.ext
  · rw [h.size_coeffs, hsize]
  · intro j hj hj'
    have hlt : j < p.size.coeffs := by rwa [hsize] at hj'
    obtain ⟨k, hk, hbound⟩ := hcoeffs coeffs[j] (Array.getElem_mem hj')
    have hlevels_lt : j < (quantizeLevels p coeffs).size := by rwa [size_quantizeLevels]
    have hmap_lt : j < ((quantizeLevels p coeffs).map (clampLevel p.depth)).size := by
      rwa [Array.size_map]
    obtain ⟨b, -, hquantized⟩ := getD_quantizeLevels coeffs hlt
    obtain ⟨c, -, hdequantized⟩ := h.dequantized _ (scanIndex_lt (t := p.type) hlt)
    rw [← Array.getElem_eq_getD 0 (h := hlevels_lt), ← Array.getElem_eq_getD 0 (h := hj'),
      hk] at hquantized
    simp only [CoefBlock.coeffAt, CoefBlock.levelAt] at hdequantized
    rw [scan_scanIndex hlt, ← Array.getElem_eq_getD 0 (h := hj), hlevels,
      ← Array.getElem_eq_getD 0 (h := hmap_lt), Array.getElem_map, hquantized, hs] at hdequantized
    rw [hdequantized, hk]
    exact Dequantizer.dequantize_clampLevel_quantize_of_lossless hlossless _ _ _ hbound

end

/-! ## Blocks -/

/-- A block of a tile as it is encoded: levels are those of the coefficients of the residual. -/
inductive BlockEncoded (q : Dequantizer) : TileBlock × Array Int → Option EncodedBlock → Prop where
  | skipped {b : TileBlock} (residual : Array Int) (skip : b.skip = true) :
      BlockEncoded q (b, residual) none
  | coded {b : TileBlock} {residual coeffs : Array Int} {e : EncodedBlock} (skip : b.skip = false)
      (transformed : transformResidual (b.params q) residual = .ok coeffs)
      (quantized : e.levels = quantizeLevels (b.params q) coeffs) :
      BlockEncoded q (b, residual) (some e)

theorem blockEncoded_of_encodeBlocks {q : Dequantizer} {bs : List (TileBlock × Array Int)}
    {cs cs' : PlaneContexts} {e e' : CoefEncoder} {w w' : BoolEncoder}
    {blocks : List (Option EncodedBlock)}
    (h : encodeBlocks q bs cs e w = .ok (blocks, cs', e', w')) :
    List.Forall₂ (BlockEncoded q) bs blocks := by
  induction bs generalizing cs e w blocks with
  | nil =>
    cases h
    exact .nil
  | cons bx rest ih =>
    obtain ⟨b, residual⟩ := bx
    unfold encodeBlocks at h
    obtain ⟨ctx, -, h⟩ := exists_of_bind_eq_ok h
    split at h
    case isTrue hskip =>
      obtain ⟨⟨more, cs₁, e₁, w₁⟩, hmore, h⟩ := exists_of_bind_eq_ok h
      cases h
      exact .cons (.skipped residual hskip) (ih hmore)
    case isFalse hskip =>
      obtain ⟨⟨block, e₁⟩, hblock, h⟩ := exists_of_bind_eq_ok h
      obtain ⟨coeffs, hcoeffs, hblock⟩ := exists_of_bind_eq_ok hblock
      obtain ⟨⟨coded, e₂⟩, -, hblock⟩ := exists_of_bind_eq_ok hblock
      cases hblock
      obtain ⟨⟨more, cs₁, e₁, w₁⟩, hmore, h⟩ := exists_of_bind_eq_ok h
      cases h
      exact .cons (.coded (Bool.eq_false_iff.mpr hskip) hcoeffs rfl) (ih hmore)

section

variable {q : Dequantizer} {b : TileBlock} {residual : Array Int}

/-- Samples of a lossless block come back from its coefficients. -/
theorem residual_eq_of_lossless (hb : b.Sound q) (hlossless : q.lossless = true)
    (hsize : 16 ≤ residual.size)
    (hrange : ∀ j < 16, (residual.getD j 0).natAbs ≤ 2 ^ q.depth.bits - 1) {e : EncodedBlock}
    {x : ResidualBlock} (hencoded : BlockEncoded q (b, residual) (some e))
    (hkept : BlockKept q b (some e) (some x)) {ρ : Type} [BoolReader ρ] {probs : ProbTable}
    (hdecoded : BlockDecoded ρ probs q b x) : x.residual = residual.extract 0 16 := by
  have hs : (b.params q).size = .s4 := hb.params.lossless hlossless
  have hbs : b.size = .s4 := hs
  have hroom : 16 * (2 ^ q.depth.bits - 1) ≤ max32 := by cases q.depth <;> decide
  obtain ⟨-, -, ctx, r, -, -, -, hsound⟩ := hdecoded.decoded
  cases hencoded with
  | @coded _ _ coeffs _ _ transformed quantized =>
    cases hkept with
    | coded _ _ _ levels =>
      have hforward : forwardHadamard residual (zeroBlock .s4) = .ok coeffs := by
        simp only [transformResidual] at transformed
        rw [if_pos (show (b.params q).dequant.lossless = true from hlossless)] at transformed
        obtain ⟨-, -, hforward⟩ := exists_of_bind_eq_ok transformed
        rwa [hs] at hforward
      have hcoeffs : x.coefs.coeffs = coeffs := by
        apply coeffs_eq_of_lossless hlossless hs hsound
        · rw [hs]
          exact size_of_forwardHadamard hsize hforward
        · intro y hy
          exact exists_of_mem_forwardHadamard hsize hforward hrange hroom hy
        · rw [← quantized]
          exact levels
      have hzero : x.coefs.eob = 0 → ∀ y ∈ coeffs, y = 0 := by
        intro hempty y hy
        rw [← hcoeffs] at hy
        exact hsound.eq_zero_of_empty hempty hy
      have hresidual := hdecoded.residual
      rw [if_pos hlossless, hbs, hcoeffs,
        inverseHadamard_forwardHadamard hsize hforward hrange hroom hzero] at hresidual
      exact (Except.ok.inj hresidual).symm

end

/-! ## Tiles -/

section

variable {p : TilePlan} {q : Dequantizer}

/-- A tile that is encoded and decoded again, block by block: how its blocks were encoded, what is
kept of them, and how they were decoded. -/
structure TileReplayed (p : TilePlan) (q : Dequantizer) (residuals : List (Array Int))
    (probs : ProbTable) (enc : EncodedTile) (dec : DecodedTile) : Prop where
  encoded : List.Forall₂ (BlockEncoded q) (p.blocks.zip residuals) enc.blocks
  kept : BlocksKept q p.blocks enc.blocks dec.blocks
  decoded : ∀ (i : Nat) (b : TileBlock) (x : ResidualBlock), p.blocks[i]? = some b →
    dec.blocks[i]? = some (some x) → BlockDecoded BoolDecoder probs q b x

/-- A tile is decoded from the decisions that it was encoded into. -/
theorem exists_tileReplayed (hvalid : p.validate q = .ok ()) {residuals : List (Array Int)}
    (hlength : residuals.length = p.blocks.length)
    (hsize : ∀ bx ∈ p.blocks.zip residuals, bx.1.skip = false → bx.1.size.coeffs ≤ bx.2.size)
    (probs : ProbTable) (parallel : Bool) :
    ∃ enc dec, encodeTile p residuals probs q parallel = .ok enc ∧
      decodeTile p enc.data probs q parallel = .ok dec ∧
      TileReplayed p q residuals probs enc dec := by
  have hfst : (p.blocks.zip residuals).map Prod.fst = p.blocks := List.map_fst_zip hlength.ge
  have hsound : ∀ b ∈ p.blocks, b.Sound q := by
    intro b hb
    exact sound_of_validate hvalid hb
  have hsounds : ∀ bx ∈ p.blocks.zip residuals, bx.1.Sound q := by
    intro bx hbx
    exact hsound bx.1 (List.of_mem_zip hbx).1
  obtain ⟨blocks, cs, e, ds, henc, hdec⟩ := @decodeBlocks_encodeBlocks q BoolDecoder _ _
    hsounds hsize (.create p) ⟨probs, parallel, .empty⟩ {}
  obtain ⟨m, hreplays, -⟩ := BoolEncoder.encode_replays ds []
  rw [List.append_nil] at hreplays
  obtain ⟨out, hout, hkept⟩ := hdec _ m hreplays
  rw [hfst] at hout hkept
  obtain ⟨out', hout', hdecoded⟩ := exists_blocksDecoded hsound (.create p)
    ⟨probs, parallel, .empty⟩ (BoolDecoder.start (BoolEncoder.encode ds))
  -- There is but one result of decoding.
  cases hout.symm.trans hout'
  refine ⟨⟨BoolEncoder.encode ds, blocks, e.counts⟩, ⟨out, e.counts, none⟩, ?_, ?_,
    blockEncoded_of_encodeBlocks henc, hkept, ?_⟩
  · rw [encodeTile_eq_map _ _ _ _ hlength, henc]
    rfl
  · rw [decodeTile_eq_map, hout']
    rfl
  · intro i b x hb hx
    exact hdecoded.blockDecoded hb hx

/-- Whatever the plan, the probabilities and the samples of the bit depth, a lossless tile gives
back the first 16 samples of every block that is not skipped. -/
theorem decodeTile_encodeTile_of_lossless (hlossless : q.lossless = true)
    (hvalid : p.validate q = .ok ()) {residuals : List (Array Int)}
    (hlength : residuals.length = p.blocks.length)
    (hsize : ∀ bx ∈ p.blocks.zip residuals, bx.1.skip = false → 16 ≤ bx.2.size)
    (hrange : ∀ bx ∈ p.blocks.zip residuals, bx.1.skip = false →
      ∀ j < 16, (bx.2.getD j 0).natAbs ≤ 2 ^ q.depth.bits - 1)
    (probs : ProbTable) (parallel : Bool) :
    ∃ enc dec, encodeTile p residuals probs q parallel = .ok enc ∧
      decodeTile p enc.data probs q parallel = .ok dec ∧
      ∀ (i : Nat) (b : TileBlock) (residual : Array Int), p.blocks[i]? = some b →
        residuals[i]? = some residual → b.skip = false →
        ∃ x, dec.blocks[i]? = some (some x) ∧ x.residual = residual.extract 0 16 := by
  have hroom : ∀ bx ∈ p.blocks.zip residuals, bx.1.skip = false →
      bx.1.size.coeffs ≤ bx.2.size := by
    intro bx hbx hskip
    have hs : bx.1.size = .s4 :=
      (sound_of_validate hvalid (List.of_mem_zip hbx).1).params.lossless hlossless
    rw [hs]
    exact hsize bx hbx hskip
  obtain ⟨enc, dec, henc, hdec, h⟩ := exists_tileReplayed hvalid hlength hroom probs parallel
  refine ⟨enc, dec, henc, hdec, ?_⟩
  intro i b residual hb hresidual hskip
  have hzip : (p.blocks.zip residuals)[i]? = some (b, residual) :=
    List.getElem?_zip_eq_some.mpr ⟨hb, hresidual⟩
  have hmem := List.mem_of_getElem? hzip
  obtain ⟨coded, out, hcoded, hout, hkept⟩ := h.kept.getElem? hb
  have hencoded : BlockEncoded q (b, residual) coded := by
    have hpair : ((p.blocks.zip residuals).zip enc.blocks)[i]? = some ((b, residual), coded) :=
      List.getElem?_zip_eq_some.mpr ⟨hzip, hcoded⟩
    exact (List.forall₂_iff_zip.mp h.encoded).2 (List.mem_of_getElem? hpair)
  cases hkept with
  | skipped skip =>
    rw [hskip] at skip
    cases skip
  | @coded e x skip intact eob levels =>
    refine ⟨x, hout, ?_⟩
    exact residual_eq_of_lossless (sound_of_validate hvalid (List.mem_of_getElem? hb)) hlossless
      (hsize _ hmem hskip) (hrange _ hmem hskip) hencoded (.coded skip intact eob levels)
      (h.decoded i b x hb hout)

/-- The largest samples there are at twelve bits, with a profile that lossless coding leaves alone,
and a segment that makes the frame lossless. -/
theorem decodeTile_encodeTile_of_lossless_extreme :
    let p : TilePlan := .yuv420 ⟨3, 2⟩
      [{ col := 2, row := 1, size := .s4, type := ⟨.adst, .adst⟩ },
       { plane := 1, size := .s4, skip := true },
       { plane := 2, col := 1, size := .s4, ref := .inter }]
    let q : Dequantizer := ⟨{ base := 40 }, .absolute (-3), .twelve, some .standard⟩
    let residuals : List (Array Int) :=
      [(Array.replicate 8 4095) ++ Array.replicate 12 (-4095), #[], Array.replicate 16 1]
    q.lossless = true ∧ p.validate q = .ok () ∧ residuals.length = p.blocks.length ∧
      (∀ bx ∈ p.blocks.zip residuals, bx.1.skip = false → 16 ≤ bx.2.size) ∧
      (∀ bx ∈ p.blocks.zip residuals, bx.1.skip = false →
        ∀ j < 16, (bx.2.getD j 0).natAbs ≤ 2 ^ q.depth.bits - 1) ∧
      ∃ enc dec, encodeTile p residuals .standard q false = .ok enc ∧
        decodeTile p enc.data .standard q false = .ok dec ∧
        ∀ (i : Nat) (b : TileBlock) (residual : Array Int), p.blocks[i]? = some b →
          residuals[i]? = some residual → b.skip = false →
          ∃ x, dec.blocks[i]? = some (some x) ∧ x.residual = residual.extract 0 16 := by
  intro p q residuals
  have hlossless : q.lossless = true := rfl
  have hvalid : p.validate q = .ok () := rfl
  have hlength : residuals.length = p.blocks.length := rfl
  have hsize : ∀ bx ∈ p.blocks.zip residuals, bx.1.skip = false → 16 ≤ bx.2.size := by decide
  have hrange : ∀ bx ∈ p.blocks.zip residuals, bx.1.skip = false →
      ∀ j < 16, (bx.2.getD j 0).natAbs ≤ 2 ^ q.depth.bits - 1 := by decide
  exact ⟨hlossless, hvalid, hlength, hsize, hrange,
    decodeTile_encodeTile_of_lossless hlossless hvalid hlength hsize hrange _ _⟩

end

end ResidualCodec
