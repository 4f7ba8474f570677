/-
  ResidualCodec.Proofs.Tile.RoundTrip

  A tile that is encoded under a valid plan is decoded under it without
  corruption: the levels of every coded block come back, clamped to what can be
  coded, and both sides count the same.
-/

import ResidualCodec.Proofs.BoolCoder.RoundTrip
import ResidualCodec.Proofs.Tile.Sound

namespace ResidualCodec

/-! ## Blocks -/

/-- A block of a tile and what encoder and decoder have of it: nothing where it is skipped, and
elsewhere the same number of coded positions and the same levels, clamped by the decoder. -/
inductive BlockKept (q : Dequantizer) (b : TileBlock) :
    Option EncodedBlock → Option ResidualBlock → Prop where
  | skipped (skip : b.skip = true) : BlockKept q b none none
  | coded {e : EncodedBlock} {d : ResidualBlock} (skip : b.skip = false)
      (intact : d.coefs.corruption = none) (eob : d.coefs.eob = e.coded.stats.eob)
      (levels : d.coefs.levels = e.levels.map (clampLevel q.depth)) : BlockKept q b (some e) (some d)

/-- All blocks of a list are kept, one by one. -/
inductive BlocksKept (q : Dequantizer) :
    List TileBlock → List (Option EncodedBlock) → List (Option ResidualBlock) → Prop where
  | nil : BlocksKept q [] [] []
  | cons {b : TileBlock} {e : Option EncodedBlock} {d : Option ResidualBlock}
      {bs : List TileBlock} {es : List (Option EncodedBlock)} {ds : List (Option ResidualBlock)}
      (first : BlockKept q b e d) (rest : BlocksKept q bs es ds) :
      BlocksKept q (b :: bs) (e :: es) (d :: ds)

namespace BlocksKept

variable {q : Dequantizer} {bs : List TileBlock} {es : List (Option EncodedBlock)}
  {ds : List (Option ResidualBlock)}

theorem length_eq (h : BlocksKept q bs es ds) :
    es.length = bs.length ∧ ds.length = bs.length := by
  induction h with
  | nil => exact ⟨rfl, rfl⟩
  | cons first rest ih => exact ⟨congrArg Nat.succ ih.1, congrArg Nat.succ ih.2⟩

theorem getElem? (h : BlocksKept q bs es ds) {i : Nat} {b : TileBlock} (hb : bs[i]? = some b) :
    ∃ e d, es[i]? = some e ∧ ds[i]? = some d ∧ BlockKept q b e d := by
  induction h generalizing i with
  | nil => cases hb
  | cons first rest ih =>
    cases i with
    | zero =>
      cases hb
      exact ⟨_, _, rfl, rfl, first⟩
    | succ i => exact ih hb

end BlocksKept

/-- Levels that are recovered without a bound are all levels, clamped. -/
theorem Recovers.levels_eq {p : BlockParams} {levels : Array Int} {coded : EncodedCoefs}
    {block : CoefBlock} (h : Recovers p levels p.size.coeffs coded block)
    (hsize : levels.size = p.size.coeffs) : block.levels = levels.map (clampLevel p.depth) := by
  apply Array.ext
  · rw [h.size, Array.size_map, hsize]
  · intro j hj _
    have hlt : j < p.size.coeffs := by rwa [h.size] at hj
    have hlevel := h.level j hlt
    rw [if_pos (scanIndex_lt hlt), Array.getD_eq_getD_getElem?, Array.getD_eq_getD_getElem?,
      Array.getElem?_eq_getElem hj, Array.getElem?_eq_getElem (by omega)] at hlevel
    rw [Array.getElem_map]
    exact hlevel

/-! ## Runs of blocks -/

/-- The decoder that starts with the probabilities and the counts of an encoder. -/
def CoefEncoder.decoder (e : CoefEncoder) : CoefDecoder := ⟨e.probs, e.frameParallel, e.counts⟩

theorem BoolEncoder.writeAll_append (w : BoolEncoder) (ds es : List Decision) :
    w.writeAll (ds ++ es) = (w.writeAll ds).writeAll es :=
  List.foldl_append ..

section

variable {q : Dequantizer} {ρ : Type} [BoolReader ρ]

variable {b : TileBlock} {cs : PlaneContexts} {e e' : CoefEncoder}

/-- Nothing is written for a skipped block. -/
theorem encodeBlocks_cons_skip (hb : b.Sound q) (hskip : b.skip = true) (residual : Array Int)
    (rest : List (TileBlock × Array Int)) (w : BoolEncoder) :
    encodeBlocks q ((b, residual) :: rest) cs e w =
      (encodeBlocks q rest (cs.skip b) e w).map fun out => (none :: out.1, out.2) := by
  obtain ⟨ctx, hctx⟩ := exists_initial hb cs
  conv_lhs => unfold encodeBlocks
  rw [hctx]
  dsimp only [bind, Except.bind]
  rw [if_pos hskip]
  cases encodeBlocks q rest (cs.skip b) e w with
  | error => rfl
  | ok => rfl

variable {ctx : Ctx} {residual : Array Int} {block : EncodedBlock}

/-- The decisions of an encoded block are written before those of the blocks after it. -/
theorem encodeBlocks_cons (hskip : b.skip = false) (hctx : cs.initial b = .ok ctx)
    (h : EncodesResidual e (b.params q) ctx residual block e')
    (rest : List (TileBlock × Array Int)) (w : BoolEncoder) :
    encodeBlocks q ((b, residual) :: rest) cs e w =
      (encodeBlocks q rest (cs.update b (0 < block.coded.stats.eob)) e'
        (w.writeAll block.coded.decisions)).map fun out => (some block :: out.1, out.2) := by
  conv_lhs => unfold encodeBlocks
  rw [hctx]
  dsimp only [bind, Except.bind]
  rw [if_neg (by rw [hskip]; exact Bool.false_ne_true), h.encodes]
  dsimp only
  cases encodeBlocks q rest (cs.update b (0 < block.coded.stats.eob)) e'
    (w.writeAll block.coded.decisions) with
  | error => rfl
  | ok => rfl

/-- A reader that replays an encoded block hands it on to the decoder, which is then where the
encoder was after the block. -/
theorem decodeBlocks_cons_of_replays {r m : ρ} (hb : b.Sound q) (hskip : b.skip = false)
    (hctx : cs.initial b = .ok ctx) (h : EncodesResidual e (b.params q) ctx residual block e')
    (hr : Replays r block.coded.decisions m) (rest : List TileBlock) :
    ∃ decoded, BlockKept q b (some block) (some decoded) ∧
      decodeBlocks q (b :: rest) cs e.decoder r =
        (decodeBlocks q rest (cs.update b (0 < block.coded.stats.eob)) e'.decoder m).map
          (·.cons (some decoded)) := by
  have hle : ctx.val ≤ 2 := Nat.le_of_lt_succ ctx.isLt
  have hcoded : block.coded = encodeCoefs e.decoder.probs (b.params q)
      ⟨ctx.val, Nat.lt_succ_of_le hle⟩ block.levels (b.params q).size.coeffs := h.coded
  rw [hcoded] at hr
  obtain ⟨coefs, hdec, hrecovers⟩ := decodeBlock_of_replays e.decoder hle hr
  rw [← hcoded] at hdec hrecovers
  obtain ⟨samples, -, hstep⟩ := decodeBlocks_cons rest hb hskip hctx hdec
  rw [hrecovers.intact, hrecovers.eob] at hstep
  refine ⟨⟨coefs, samples⟩, .coded hskip hrecovers.intact hrecovers.eob ?_, ?_⟩
  · exact hrecovers.levels_eq h.size
  · rw [hstep, h.encoder]
    rfl

/-- Blocks are encoded into decisions, and whoever replays the decisions decodes the blocks. Both
sides keep the same contexts and counts from block to block, so that the next block starts alike. -/
theorem decodeBlocks_encodeBlocks {bs : List (TileBlock × Array Int)}
    (hsound : ∀ bx ∈ bs, bx.1.Sound q)
    (hsize : ∀ bx ∈ bs, bx.1.skip = false → bx.1.size.coeffs ≤ bx.2.size)
    (cs : PlaneContexts) (e : CoefEncoder) (w : BoolEncoder) :
    ∃ blocks cs' e' ds, encodeBlocks q bs cs e w = .ok (blocks, cs', e', w.writeAll ds) ∧
      ∀ r r' : ρ, Replays r ds r' → ∃ out,
        decodeBlocks q (bs.map Prod.fst) cs e.decoder r = .ok ⟨out, cs', e'.decoder, none⟩ ∧
        BlocksKept q (bs.map Prod.fst) blocks out := by
  induction bs generalizing cs e w with
  | nil =>
    refine ⟨[], cs, e, [], rfl, ?_⟩
    intro r r' _
    exact ⟨[], rfl, .nil⟩
  | cons bx rest ih =>
    obtain ⟨b, residual⟩ := bx
    obtain ⟨hb, htail⟩ := List.forall_mem_cons.mp hsound
    obtain ⟨hroom, hrooms⟩ := List.forall_mem_cons.mp hsize
    have hrest := ih htail hrooms
    obtain ⟨ctx, hctx⟩ := exists_initial hb cs
    cases hskip : b.skip with
    | true =>
      obtain ⟨blocks, cs', e', ds, henc, hdec⟩ := hrest (cs.skip b) e w
      refine ⟨none :: blocks, cs', e', ds, ?_, ?_⟩
      · rw [encodeBlocks_cons_skip hb hskip, henc]
        rfl
      · intro r r' hr
        obtain ⟨out, hout, hkept⟩ := hdec r r' hr
        refine ⟨none :: out, ?_, .cons (.skipped hskip) hkept⟩
        rw [List.map_cons, decodeBlocks_cons_skip _ hb hskip, hout]
        rfl
    | false =>
      obtain ⟨block, e₁, h⟩ := exists_encodesResidual hb.params e ctx (hroom hskip)
      obtain ⟨blocks, cs', e', ds, henc, hdec⟩ := hrest
        (cs.update b (0 < block.coded.stats.eob)) e₁ (w.writeAll block.coded.decisions)
      refine ⟨some block :: blocks, cs', e', block.coded.decisions ++ ds, ?_, ?_⟩
      · rw [encodeBlocks_cons hskip hctx h, henc, BoolEncoder.writeAll_append]
        rfl
      · intro r r' hr
        obtain ⟨m, hblock, hmore⟩ := hr.of_append
        obtain ⟨decoded, hfirst, hstep⟩ :=
          decodeBlocks_cons_of_replays hb hskip hctx h hblock (rest.map Prod.fst)
        obtain ⟨out, hout, hkept⟩ := hdec m r' hmore
        refine ⟨some decoded :: out, ?_, .cons hfirst hkept⟩
        rw [List.map_cons, hstep, hout]
        rfl

end

/-! ## Tiles -/

/-- What a round trip of a tile keeps: nothing was missing, there is one entry for each block on
both sides, blocks are kept one by one, and so are the counts. -/
structure TileKept (p : TilePlan) (q : Dequantizer) (enc : EncodedTile) (dec : DecodedTile) :
    Prop where
  intact : dec.corruption = none
  encoded_length : enc.blocks.length = p.blocks.length
  decoded_length : dec.blocks.length = p.blocks.length
  blocks : ∀ (i : Nat) (b : TileBlock), p.blocks[i]? = some b →
    ∃ e d, enc.blocks[i]? = some e ∧ dec.blocks[i]? = some d ∧ BlockKept q b e d
  counts : dec.counts = enc.counts

/-- Every valid plan is encoded with every residual that has samples enough, and decoding the
stream keeps the tile. -/
theorem decodeTile_encodeTile {p : TilePlan} {q : Dequantizer}
    (hvalid : p.validate q = .ok ()) {residuals : List (Array Int)}
    (hlength : residuals.length = p.blocks.length)
    (hsize : ∀ bx ∈ p.blocks.zip residuals, bx.1.skip = false → bx.1.size.coeffs ≤ bx.2.size)
    (probs : ProbTable) (parallel : Bool) :
    ∃ enc dec, encodeTile p residuals probs q parallel = .ok enc ∧
      decodeTile p enc.data probs q parallel = .ok dec ∧ TileKept p q enc dec := by
  have hfst : (p.blocks.zip residuals).map Prod.fst = p.blocks :=
    List.map_fst_zip hlength.ge
  have hsound : ∀ bx ∈ p.blocks.zip residuals, bx.1.Sound q := by
    intro bx hbx
    exact sound_of_validate hvalid (List.of_mem_zip hbx).1
  obtain ⟨blocks, cs, e, ds, henc, hdec⟩ := @decodeBlocks_encodeBlocks q BoolDecoder _ _
    hsound hsize (WorkerContexts.start none p) ⟨probs, parallel, .empty⟩ {}
  obtain ⟨m, hreplays, -⟩ := BoolEncoder.encode_replays ds []
  rw [List.append_nil] at hreplays
  obtain ⟨out, hout, hkept⟩ := hdec _ m hreplays
  rw [hfst] at hout hkept
  have hdecoded : decodeBlocks q p.blocks (WorkerContexts.start none p) ⟨probs, parallel, .empty⟩
      (BoolDecoder.start (BoolEncoder.encode ds)) = .ok ⟨out, cs, e.decoder, none⟩ := hout
  refine ⟨⟨BoolEncoder.encode ds, blocks, e.counts⟩, ⟨out, e.counts, none⟩, ?_, ?_, ?_⟩
  · simp only [encodeTile, encodeTileWith]
    rw [if_neg (not_not_intro hlength)]
    dsimp only [bind, Except.bind]
    rw [henc]
    rfl
  · simp only [decodeTile, decodeTileWith]
    dsimp only [bind, Except.bind]
    rw [hdecoded]
    rfl
  · obtain ⟨henclen, hdeclen⟩ := hkept.length_eq
    refine ⟨rfl, henclen, hdeclen, ?_, rfl⟩
    intro i b hb
    exact hkept.getElem? hb

/-- A tile whose first block reaches past the visible area, and whose second block is skipped. -/
theorem decodeTile_encodeTile_overhang :
    let p : TilePlan := .yuv420 ⟨5, 4⟩
      [{ col := 4, row := 3, size := .s8 }, { plane := 1, size := .s16, skip := true },
       { plane := 2, col := 2, size := .s4, type := ⟨.adst, .dct⟩, ref := .inter }]
    let q : Dequantizer := .ofFrame { base := 40, chromaDc := -7 } .ten
    let residuals : List (Array Int) := [Array.replicate 64 300, #[], Array.replicate 20 (-9)]
    p.validate q = .ok () ∧ residuals.length = p.blocks.length ∧
      (∀ bx ∈ p.blocks.zip residuals, bx.1.skip = false → bx.1.size.coeffs ≤ bx.2.size) ∧
      ∃ enc dec, encodeTile p residuals .standard q true = .ok enc ∧
        decodeTile p enc.data .standard q true = .ok dec ∧ TileKept p q enc dec := by
  intro p q residuals
  have hvalid : p.validate q = .ok () := rfl
  have hlength : residuals.length = p.blocks.length := rfl
  have hsize : ∀ bx ∈ p.blocks.zip residuals, bx.1.skip = false →
      bx.1.size.coeffs ≤ bx.2.size := by decide
  exact ⟨hvalid, hlength, hsize, decodeTile_encodeTile hvalid hlength hsize _ _⟩

end ResidualCodec
