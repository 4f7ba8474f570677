/-
  ResidualCodec.Proofs.Tile.Truncation

  A cut tile never decodes to something else: its blocks are those of the whole
  tile up to the block where the data ended, that block agrees on every
  coefficient that was decoded, and a tile in which nothing was missing does not
  depend on what follows its data.
-/

import ResidualCodec.Proofs.BoolCoder.Truncation
import ResidualCodec.Proofs.Coefficient.Truncation
import ResidualCodec.Proofs.Tile.Sound

namespace ResidualCodec

variable {ρ : Type} [BoolReader ρ] {q : Dequantizer}

/-! ## Blocks -/

/-- Blocks of a tile can be decoded whatever their reader holds. -/
theorem exists_decodeBlocks {bs : List TileBlock} (hsound : ∀ b ∈ bs, b.Sound q)
    (cs : PlaneContexts) (d : CoefDecoder) (r : ρ) :
    ∃ out, decodeBlocks q bs cs d r = .ok out := by
  induction bs generalizing cs d r with
  | nil => exact ⟨_, rfl⟩
  | cons b rest ih =>
    obtain ⟨hb, htail⟩ := List.forall_mem_cons.mp hsound
    have hrest := ih htail
    cases hskip : b.skip with
    | true =>
      obtain ⟨out, hout⟩ := hrest (cs.skip b) d r
      rw [decodeBlocks_cons_skip _ hb hskip, hout]
      exact ⟨_, rfl⟩
    | false =>
      obtain ⟨ctx, hctx⟩ := exists_initial hb cs
      have hdec := decodeBlock_ok d (b.params q) (Nat.le_of_lt_succ ctx.isLt) r
      obtain ⟨residual, -, hstep⟩ := decodeBlocks_cons rest hb hskip hctx hdec
      rw [hstep]
      split
      case h_1 => exact ⟨_, rfl⟩
      case h_2 =>
        obtain ⟨out, hout⟩ := hrest _ _ _
        rw [hout]
        exact ⟨_, rfl⟩

/-- The remaining blocks of a cut tile beside those of the whole one: the same blocks one by one,
up to one that is corrupt on the side of the cut tile. -/
inductive BlocksCut (q : Dequantizer) : List TileBlock → DecodedBlocks → DecodedBlocks → Prop where
  | nil (cs : PlaneContexts) (d : CoefDecoder) : BlocksCut q [] ⟨[], cs, d, none⟩ ⟨[], cs, d, none⟩
  | corrupt {b : TileBlock} (rest : List TileBlock) {x y : ResidualBlock} {c : Corruption}
      (cs : PlaneContexts) (d : CoefDecoder) {more : List (Option ResidualBlock)}
      {whole : DecodedBlocks} (corruption : x.coefs.corruption = some c)
      (agrees : AgreesBelowEob (b.params q) x.coefs y.coefs)
      (blocks : whole.blocks = some y :: more) :
      BlocksCut q (b :: rest) ⟨some x :: rest.map fun _ => none, cs, d, some (0, c)⟩ whole
  | cons (b : TileBlock) {rest : List TileBlock} {cut whole : DecodedBlocks}
      (block : Option ResidualBlock) (more : BlocksCut q rest cut whole) :
      BlocksCut q (b :: rest) (cut.cons block) (whole.cons block)

/-- The block that is decoded first stands first among the blocks. -/
theorem exists_blocks_eq_cons {b : TileBlock} {rest : List TileBlock}
    (hsound : ∀ x ∈ b :: rest, x.Sound q) (hskip : b.skip = false) {cs : PlaneContexts} {ctx : Ctx}
    (hctx : cs.initial b = .ok ctx) {d d' : CoefDecoder} {r r' : ρ} {block : CoefBlock}
    (hdec : d.decodeBlock (b.params q) ctx r = .ok (block, d', r')) :
    ∃ residual more out, decodeBlocks q (b :: rest) cs d r = .ok out ∧
      out.blocks = some ⟨block, residual⟩ :: more := by
  obtain ⟨hb, htail⟩ := List.forall_mem_cons.mp hsound
  obtain ⟨residual, -, hstep⟩ := decodeBlocks_cons rest hb hskip hctx hdec
  refine ⟨residual, ?_⟩
  rw [hstep]
  split
  case h_1 => exact ⟨_, _, rfl, rfl⟩
  case h_2 =>
    obtain ⟨out, hout⟩ := exists_decodeBlocks htail (cs.update b (0 < block.eob)) d' r'
    rw [hout]
    exact ⟨_, _, rfl, rfl⟩

/-- Readers in lockstep decode a cut tile and a whole one. A first reader that was past its end
before finds the first coded block corrupt. -/
theorem blocksCut_decodeBlocks {R : ρ → ρ → Prop} (hR : Lockstep R) {bs : List TileBlock}
    (hsound : ∀ b ∈ bs, b.Sound q) (cs : PlaneContexts) (d : CoefDecoder) {r f : ρ}
    (h : BoolReader.overrun r = true ∨ R r f) :
    ∃ cut whole, decodeBlocks q bs cs d r = .ok cut ∧ decodeBlocks q bs cs d f = .ok whole ∧
      BlocksCut q bs cut whole := by
  induction bs generalizing cs d r f with
  | nil => exact ⟨_, _, rfl, rfl, .nil cs d⟩
  | cons b rest ih =>
    obtain ⟨hb, htail⟩ := List.forall_mem_cons.mp hsound
    have hrest := ih htail
    obtain ⟨ctx, hctx⟩ := exists_initial hb cs
    cases hskip : b.skip with
    | true =>
      obtain ⟨cut, whole, hcut, hwhole, hblocks⟩ := hrest (cs.skip b) d h
      rw [decodeBlocks_cons_skip _ hb hskip, decodeBlocks_cons_skip _ hb hskip, hcut, hwhole]
      exact ⟨_, _, rfl, rfl, .cons b none hblocks⟩
    | false =>
      have hle : ctx.val ≤ 2 := Nat.le_of_lt_succ ctx.isLt
      have hcut := cut_readBlock hR d.probs (b.params q) ⟨ctx.val, Nat.lt_succ_of_le hle⟩ h
      have hlen := length_levels_readBlock d.probs (b.params q) ⟨ctx.val, Nat.lt_succ_of_le hle⟩ r
      have hr := decodeBlock_ok d (b.params q) hle r
      have hf := decodeBlock_ok d (b.params q) hle f
      generalize readBlock d.probs (b.params q) ⟨ctx.val, _⟩ r = x at hcut hlen hr
      generalize readBlock d.probs (b.params q) ⟨ctx.val, _⟩ f = y at hcut hf
      cases hcut with
      | @whole ss m n rel =>
        -- The two runs differ in their readers alone, which are still in lockstep.
        obtain ⟨residual, hres, hstep⟩ := decodeBlocks_cons rest hb hskip hctx hr
        obtain ⟨other, hother, hstep'⟩ := decodeBlocks_cons rest hb hskip hctx hf
        have heq : other = residual := Except.ok.inj (hother.symm.trans hres)
        obtain ⟨cut, whole, hcut, hwhole, hblocks⟩ := hrest _ _ (.inr rel)
        refine ⟨_, _, ?_, ?_,
          .cons b (some ⟨.ofRun (b.params q) ⟨ss, none, m⟩, residual⟩) hblocks⟩
        · exact hstep.trans (congrArg (Except.map _) hcut)
        · rw [heq] at hstep'
          exact hstep'.trans (congrArg (Except.map _) hwhole)
      | broken s m first =>
        obtain ⟨residual, -, hstep⟩ := decodeBlocks_cons rest hb hskip hctx hr
        obtain ⟨other, more, whole, hwhole, hblocks⟩ :=
          exists_blocks_eq_cons hsound hskip hctx hf
        refine ⟨_, whole, hstep, hwhole, ?_⟩
        exact .corrupt rest _ _ rfl (agreesBelowEob_ofRun hlen first) hblocks

/-! ## What a cut tile keeps -/

namespace BlocksCut

variable {bs : List TileBlock} {cut whole : DecodedBlocks}

/-- Where no block is corrupt, nothing was cut. -/
theorem eq_of_intact (h : BlocksCut q bs cut whole) (hintact : cut.corruption = none) :
    whole = cut := by
  induction h with
  | nil => rfl
  | corrupt => cases hintact
  | cons b block more ih => rw [ih (Option.map_eq_none_iff.mp hintact)]

/-- Blocks before the corrupt one are those of the whole tile. -/
theorem getElem?_eq (h : BlocksCut q bs cut whole) {n : Nat} {c : Corruption}
    (hcorrupt : cut.corruption = some (n, c)) {i : Nat} (hi : i < n) :
    cut.blocks[i]? = whole.blocks[i]? := by
  induction h generalizing n i with
  | nil => cases hcorrupt
  | corrupt =>
    cases hcorrupt
    exact absurd hi (Nat.not_lt_zero i)
  | cons b block more ih =>
    obtain ⟨⟨k, c'⟩, hk, heq⟩ := Option.map_eq_some_iff.mp hcorrupt
    cases heq
    cases i with
    | zero => rfl
    | succ i => exact ih hk (Nat.lt_of_succ_lt_succ hi)

/-- The corrupt block agrees with that of the whole tile as far as it was decoded. -/
theorem exists_agreesBelowEob (h : BlocksCut q bs cut whole) {n : Nat} {c : Corruption}
    (hcorrupt : cut.corruption = some (n, c)) :
    ∃ b x y, bs[n]? = some b ∧ cut.blocks[n]? = some (some x) ∧
      whole.blocks[n]? = some (some y) ∧ x.coefs.corruption = some c ∧
      AgreesBelowEob (b.params q) x.coefs y.coefs := by
  induction h generalizing n with
  | nil => cases hcorrupt
  | corrupt rest cs d corruption agrees blocks =>
    cases hcorrupt
    refine ⟨_, _, _, rfl, rfl, ?_, corruption, agrees⟩
    rw [blocks]
    rfl
  | cons b block more ih =>
    obtain ⟨⟨k, c'⟩, hk, heq⟩ := Option.map_eq_some_iff.mp hcorrupt
    cases heq
    exact ih hk

end BlocksCut

/-! ## Tiles -/

/-- A decoded tile whose data was cut beside the tile of the whole data. -/
structure TileCut (p : TilePlan) (q : Dequantizer) (cut whole : DecodedTile) : Prop where
  -- A tile in which nothing is corrupt is the whole tile.
  clean : cut.corruption = none → whole = cut
  -- Blocks before the corrupt one, if there is one, are blocks of the whole tile.
  before : ∀ i : Nat, (∀ n c, cut.corruption = some (n, c) → i < n) →
    cut.blocks[i]? = whole.blocks[i]?
  -- The corrupt block has the levels of the whole tile at all scan indexes below its end.
  corrupt : ∀ n c, cut.corruption = some (n, c) →
    ∃ b x y, p.blocks[n]? = some b ∧ cut.blocks[n]? = some (some x) ∧
      whole.blocks[n]? = some (some y) ∧ x.coefs.corruption = some c ∧
      AgreesBelowEob (b.params q) x.coefs y.coefs

/-- Under a valid plan any bytes decode to a tile, and any first part of them to that tile, cut. -/
theorem decodeTile_truncated {p : TilePlan} {q : Dequantizer} (hvalid : p.validate q = .ok ())
    {part data : List UInt8} (hpart : part <+: data) (probs : ProbTable) (parallel : Bool) :
    ∃ cut whole, decodeTile p part probs q parallel = .ok cut ∧
      decodeTile p data probs q parallel = .ok whole ∧ TileCut p q cut whole := by
  obtain ⟨suffix, rfl⟩ := hpart
  have hsound : ∀ b ∈ p.blocks, b.Sound q := by
    intro b hb
    exact sound_of_validate hvalid hb
  obtain ⟨cut, whole, hcut, hwhole, h⟩ := blocksCut_decodeBlocks
    (BoolDecoder.lockstep_precedes suffix) hsound (WorkerContexts.start none p)
    ⟨probs, parallel, .empty⟩ (BoolDecoder.precedes_start suffix part)
  refine ⟨⟨cut.blocks, cut.decoder.counts, cut.corruption⟩,
    ⟨whole.blocks, whole.decoder.counts, whole.corruption⟩, ?_, ?_, ?_, ?_, ?_⟩
  · simp only [decodeTile, decodeTileWith]
    rw [hcut]
    rfl
  · simp only [decodeTile, decodeTileWith]
    rw [hwhole]
    rfl
  · intro hintact
    rw [h.eq_of_intact hintact]
  · intro i hi
    cases hcorrupt : cut.corruption with
    | none =>
      show cut.blocks[i]? = whole.blocks[i]?
      rw [h.eq_of_intact hcorrupt]
    | some nc => exact h.getElem?_eq hcorrupt (hi nc.1 nc.2 hcorrupt)
  · intro n c hcorrupt
    exact h.exists_agreesBelowEob hcorrupt

/-- Two blocks over bytes of no encoder, of which the last three are cut off. -/
theorem decodeTile_truncated_arbitrary :
    let p : TilePlan := .yuv420 ⟨4, 4⟩ [{ size := .s4 }, { plane := 1, col := 1, size := .s8 }]
    let q : Dequantizer := .ofFrame { base := 100 } .eight
    let part : List UInt8 := [0x5a, 0xc3, 0x11]
    let data : List UInt8 := [0x5a, 0xc3, 0x11, 0xff, 0x00, 0x9e]
    p.validate q = .ok () ∧ part <+: data ∧
      ∃ cut whole, decodeTile p part .standard q false = .ok cut ∧
        decodeTile p data .standard q false = .ok whole ∧ TileCut p q cut whole := by
  intro p q part data
  have hvalid : p.validate q = .ok () := rfl
  have hpart : part <+: data := ⟨[0xff, 0x00, 0x9e], rfl⟩
  exact ⟨hvalid, hpart, decodeTile_truncated hvalid hpart _ _⟩

end ResidualCodec
