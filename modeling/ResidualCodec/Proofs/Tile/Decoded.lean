/-
  ResidualCodec.Proofs.Tile.Decoded

  Any bytes decode under a valid plan. Blocks come out one by one with the plan,
  up to the first corrupt one; what is there of a block was decoded from the
  stream and transformed back, also where the block is corrupt.
-/

import ResidualCodec.Proofs.Coefficient.Sound
import ResidualCodec.Proofs.Tile.Guarded
import ResidualCodec.Proofs.Tile.Sound

namespace ResidualCodec

/-! ## Blocks -/

/-- Samples of decoded coefficients, by the transform that the quantizer calls for. -/
theorem eq_ok_of_reconstruct {c : CoefBlock} {p : BlockParams} {residual : Array Int}
    (h : c.reconstruct p = .ok residual) :
    (if p.dequant.lossless then inverseHadamard c.coeffs (zeroBlock p.size) c.eob
      else inverseTransform p.size p.type c.coeffs (zeroBlock p.size) c.eob p.depth) =
      .ok residual := by
  simp only [CoefBlock.reconstruct] at h
  split at h
  case isTrue hlossless =>
    rw [if_pos hlossless]
    simp only [checkLossless] at h
    split at h
    case isTrue => exact h
    case isFalse => cases h
  case isFalse hlossless => rwa [if_neg hlossless]

/-- A block of a tile that was decoded, by a decoder of some probabilities from some reader. -/
structure BlockDecoded (ρ : Type) [BoolReader ρ] (probs : ProbTable) (q : Dequantizer)
    (b : TileBlock) (x : ResidualBlock) : Prop where
  coded : b.skip = false
  decoded : ∃ (d d' : CoefDecoder) (ctx : Ctx) (r r' : ρ), d.probs = probs ∧
    d.decodeBlock (b.params q) ctx r = .ok (x.coefs, d', r') ∧
    x.coefs.Sound probs (b.params q) ctx r
  residual : (if q.lossless then inverseHadamard x.coefs.coeffs (zeroBlock b.size) x.coefs.eob
    else inverseTransform b.size b.type x.coefs.coeffs (zeroBlock b.size) x.coefs.eob q.depth) =
    .ok x.residual

/-- Blocks of a tile as they are decoded: a skipped one has no entry, and a corrupt one ends the
tile. -/
inductive BlocksDecoded (ρ : Type) [BoolReader ρ] (probs : ProbTable) (q : Dequantizer) :
    List TileBlock → DecodedBlocks → Prop where
  | nil (cs : PlaneContexts) (d : CoefDecoder) : BlocksDecoded ρ probs q [] ⟨[], cs, d, none⟩
  | skipped {b : TileBlock} {rest : List TileBlock} {out : DecodedBlocks} (skip : b.skip = true)
      (more : BlocksDecoded ρ probs q rest out) :
      BlocksDecoded ρ probs q (b :: rest) (out.cons none)
  | corrupt {b : TileBlock} (rest : List TileBlock) {x : ResidualBlock} {c : Corruption}
      (cs : PlaneContexts) (d : CoefDecoder) (block : BlockDecoded ρ probs q b x)
      (corruption : x.coefs.corruption = some c) :
      BlocksDecoded ρ probs q (b :: rest) ⟨some x :: rest.map fun _ => none, cs, d, some (0, c)⟩
  | intact {b : TileBlock} {rest : List TileBlock} {x : ResidualBlock} {out : DecodedBlocks}
      (block : BlockDecoded ρ probs q b x) (intact : x.coefs.corruption = none)
      (more : BlocksDecoded ρ probs q rest out) :
      BlocksDecoded ρ probs q (b :: rest) (out.cons (some x))

/-- Sound blocks are decoded in this way whatever the reader holds. -/
theorem exists_blocksDecoded {ρ : Type} [BoolReader ρ] {q : Dequantizer} {bs : List TileBlock}
    (hsound : ∀ b ∈ bs, b.Sound q) (cs : PlaneContexts) (d : CoefDecoder) (r : ρ) :
    ∃ out, decodeBlocks q bs cs d r = .ok out ∧ BlocksDecoded ρ d.probs q bs out := by
  induction bs generalizing cs d r with
  | nil => exact ⟨_, rfl, .nil cs d⟩
  | cons b rest ih =>
    obtain ⟨hb, htail⟩ := List.forall_mem_cons.mp hsound
    have hrest := ih htail
    cases hskip : b.skip with
    | true =>
      obtain ⟨out, hout, hmore⟩ := hrest (cs.skip b) d r
      refine ⟨out.cons none, ?_, .skipped hskip hmore⟩
      rw [decodeBlocks_cons_skip _ hb hskip, hout]
      rfl
    | false =>
      obtain ⟨ctx, hctx⟩ := exists_initial hb cs
      obtain ⟨d', m, hdec, hprobs⟩ : ∃ d' m, d.decodeBlock (b.params q) ctx r =
          .ok (.ofRun (b.params q) (readBlock d.probs (b.params q) ctx r), d', m) ∧
          d'.probs = d.probs :=
        ⟨_, _, decodeBlock_ok d (b.params q) (Nat.le_of_lt_succ ctx.isLt) r, rfl⟩
      obtain ⟨residual, hres, hstep⟩ := decodeBlocks_cons rest hb hskip hctx hdec
      have hblock : BlockDecoded ρ d.probs q b
          ⟨.ofRun (b.params q) (readBlock d.probs (b.params q) ctx r), residual⟩ :=
        ⟨hskip, ⟨d, d', ctx, r, m, rfl, hdec, sound_ofRun ..⟩, eq_ok_of_reconstruct hres⟩
      rw [hstep]
      split
      case h_1 c hcorrupt => exact ⟨_, rfl, .corrupt rest _ _ hblock hcorrupt⟩
      case h_2 hintact =>
        obtain ⟨out, hout, hmore⟩ := hrest (cs.update b _) d' m
        rw [hprobs] at hmore
        refine ⟨out.cons _, ?_, .intact hblock hintact hmore⟩
        rw [hout]
        rfl

/-! ## What holds of every tile -/

namespace DecodedBlocks

variable (out : DecodedBlocks) (e : Option ResidualBlock)

/-- Whether a block is there, and corrupt. -/
def CorruptAt (i : Nat) (c : Corruption) : Prop :=
  ∃ x, out.blocks[i]? = some (some x) ∧ x.coefs.corruption = some c

variable {out e}

theorem corruption_cons {i : Nat} {c : Corruption} :
    (out.cons e).corruption = some (i, c) ↔ ∃ k, out.corruption = some (k, c) ∧ k + 1 = i := by
  simp only [cons]
  rw [Option.map_eq_some_iff]
  constructor
  · rintro ⟨⟨k, c'⟩, hk, heq⟩
    cases heq
    exact ⟨k, hk, rfl⟩
  · rintro ⟨k, hk, rfl⟩
    exact ⟨(k, c), hk, rfl⟩

/-- Behind a block that is not corrupt, a corrupt one is one further on. -/
theorem corruption_cons_iff (he : ∀ x, e = some x → x.coefs.corruption = none)
    (h : ∀ i c, out.corruption = some (i, c) ↔ out.CorruptAt i c) (i : Nat) (c : Corruption) :
    (out.cons e).corruption = some (i, c) ↔ (out.cons e).CorruptAt i c := by
  rw [corruption_cons]
  cases i with
  | zero =>
    apply iff_of_false
    · rintro ⟨k, -, hk⟩
      cases hk
    · rintro ⟨x, hx, hcorrupt⟩
      rw [he x (Option.some.inj hx)] at hcorrupt
      cases hcorrupt
  | succ i =>
    constructor
    · rintro ⟨k, hk, heq⟩
      cases heq
      exact (h i c).mp hk
    · intro hx
      exact ⟨i, (h i c).mpr hx, rfl⟩

/-- Whether a block comes after the corrupt one. -/
def Unreached (j : Nat) : Prop := ∃ i c, out.corruption = some (i, c) ∧ i < j

/-- In front of a corrupt block that is further on, nothing is left out. -/
theorem not_unreached_cons_zero : ¬ (out.cons e).Unreached 0 := by
  rintro ⟨i, c, -, hi⟩
  exact Nat.not_lt_zero i hi

theorem unreached_cons_succ {j : Nat} : (out.cons e).Unreached (j + 1) ↔ out.Unreached j := by
  constructor
  · rintro ⟨i, c, hcorrupt, hi⟩
    obtain ⟨k, hk, rfl⟩ := corruption_cons.mp hcorrupt
    exact ⟨k, c, hk, Nat.lt_of_succ_lt_succ hi⟩
  · rintro ⟨k, c, hk, hkj⟩
    exact ⟨k + 1, c, corruption_cons.mpr ⟨k, hk, rfl⟩, Nat.succ_lt_succ hkj⟩

end DecodedBlocks

namespace BlocksDecoded

variable {ρ : Type} [BoolReader ρ] {probs : ProbTable} {q : Dequantizer} {bs : List TileBlock}
  {out : DecodedBlocks}

theorem length_eq (h : BlocksDecoded ρ probs q bs out) : out.blocks.length = bs.length := by
  induction h with
  | nil => rfl
  | skipped skip more ih => exact congrArg Nat.succ ih
  | corrupt rest => exact congrArg Nat.succ (List.length_map _)
  | intact block intact more ih => exact congrArg Nat.succ ih

/-- The corruption of a tile is that of its one corrupt block. -/
theorem corruption_iff (h : BlocksDecoded ρ probs q bs out) (i : Nat) (c : Corruption) :
    out.corruption = some (i, c) ↔ out.CorruptAt i c := by
  induction h generalizing i c with
  | nil =>
    apply iff_of_false
    · intro h
      cases h
    · rintro ⟨x, hx, -⟩
      cases hx
  | skipped skip more ih =>
    apply DecodedBlocks.corruption_cons_iff
    · intro x hx
      cases hx
    · exact ih
  | @corrupt b rest x c₀ cs d block corruption =>
    cases i with
    | zero =>
      constructor
      · intro h
        cases h
        exact ⟨x, rfl, corruption⟩
      · rintro ⟨y, hy, hcorrupt⟩
        cases hy
        rw [corruption] at hcorrupt
        rw [Option.some.inj hcorrupt]
    | succ i =>
      apply iff_of_false
      · intro h
        cases h
      · rintro ⟨y, hy, -⟩
        obtain ⟨-, -, hnone⟩ := List.mem_map.mp (List.mem_of_getElem? hy)
        cases hnone
  | intact block intact more ih =>
    apply DecodedBlocks.corruption_cons_iff
    · intro x hx
      cases hx
      exact intact
    · exact ih

/-- Left out is what is skipped, and what comes after the corrupt block. -/
theorem missing_iff (h : BlocksDecoded ρ probs q bs out) {j : Nat} {b : TileBlock}
    (hb : bs[j]? = some b) :
    out.blocks[j]? = some none ↔ b.skip = true ∨ out.Unreached j := by
  induction h generalizing j with
  | nil => cases hb
  | skipped skip more ih =>
    cases j with
    | zero =>
      cases hb
      exact iff_of_true rfl (.inl skip)
    | succ j =>
      rw [DecodedBlocks.unreached_cons_succ]
      exact ih hb
  | corrupt rest cs d block =>
    cases j with
    | zero =>
      cases hb
      apply iff_of_false
      · intro h
        cases h
      · rintro (hskip | ⟨i, c, -, hi⟩)
        · rw [block.coded] at hskip
          cases hskip
        · exact Nat.not_lt_zero i hi
    | succ j =>
      refine iff_of_true ?_ (.inr ⟨0, _, rfl, Nat.succ_pos j⟩)
      show (rest.map fun _ => none)[j]? = some none
      rw [List.getElem?_map, show rest[j]? = some b from hb]
      rfl
  | intact block intact more ih =>
    cases j with
    | zero =>
      cases hb
      apply iff_of_false
      · intro h
        cases h
      · rintro (hskip | hunreached)
        · rw [block.coded] at hskip
          cases hskip
        · exact DecodedBlocks.not_unreached_cons_zero hunreached
    | succ j =>
      rw [DecodedBlocks.unreached_cons_succ]
      exact ih hb

/-- What is there of a block was decoded. -/
theorem blockDecoded (h : BlocksDecoded ρ probs q bs out) {j : Nat} {b : TileBlock}
    (hb : bs[j]? = some b) {x : ResidualBlock} (hx : out.blocks[j]? = some (some x)) :
    BlockDecoded ρ probs q b x := by
  induction h generalizing j with
  | nil => cases hb
  | skipped skip more ih =>
    cases j with
    | zero => cases hx
    | succ j => exact ih hb hx
  | corrupt rest cs d block =>
    cases j with
    | zero =>
      cases hb
      cases hx
      exact block
    | succ j =>
      obtain ⟨-, -, hnone⟩ := List.mem_map.mp (List.mem_of_getElem? hx)
      cases hnone
  | intact block intact more ih =>
    cases j with
    | zero =>
      cases hb
      cases hx
      exact block
    | succ j => exact ih hb hx

end BlocksDecoded

/-! ## Tiles -/

/-- What holds of a tile whatever bytes it was decoded from. -/
structure DecodedTile.Sound (p : TilePlan) (q : Dequantizer) (probs : ProbTable)
    (tile : DecodedTile) : Prop where
  length : tile.blocks.length = p.blocks.length
  corruption : ∀ (i : Nat) (c : Corruption), tile.corruption = some (i, c) ↔
    ∃ x, tile.blocks[i]? = some (some x) ∧ x.coefs.corruption = some c
  -- The corrupt block is the first one that is corrupt.
  first : ∀ (i : Nat) (c : Corruption), tile.corruption = some (i, c) →
    ∀ j < i, ∀ x, tile.blocks[j]? = some (some x) → x.coefs.corruption = none
  missing : ∀ (j : Nat) (b : TileBlock), p.blocks[j]? = some b →
    (tile.blocks[j]? = some none ↔
      b.skip = true ∨ ∃ i c, tile.corruption = some (i, c) ∧ i < j)
  decoded : ∀ (j : Nat) (b : TileBlock) (x : ResidualBlock), p.blocks[j]? = some b →
    tile.blocks[j]? = some (some x) → BlockDecoded BoolDecoder probs q b x

/-- Under a valid plan any bytes decode to a sound tile, and no access is ever out of range. -/
theorem decodeTile_sound {p : TilePlan} {q : Dequantizer} (hvalid : p.validate q = .ok ())
    (data : List UInt8) (probs : ProbTable) (parallel : Bool) :
    ∃ tile, decodeTile p data probs q parallel = .ok tile ∧
      Guarded.decodeTile p data probs q parallel = .ok tile ∧ tile.Sound p q probs := by
  have hsound : ∀ b ∈ p.blocks, b.Sound q := by
    intro b hb
    exact sound_of_validate hvalid hb
  obtain ⟨out, hout, h⟩ := exists_blocksDecoded hsound (.create p)
    ⟨probs, parallel, .empty⟩ (BoolDecoder.start data)
  have htile : decodeTile p data probs q parallel =
      .ok ⟨out.blocks, out.decoder.counts, out.corruption⟩ := by
    rw [decodeTile_eq_map, hout]
    rfl
  refine ⟨_, htile, (Guarded.decodeTile_eq ..).trans htile, h.length_eq, h.corruption_iff, ?_, ?_,
    ?_⟩
  · intro i c hcorrupt j hj x hx
    by_contra hne
    obtain ⟨c', hc'⟩ := Option.ne_none_iff_exists'.mp hne
    have hfirst := (h.corruption_iff j c').mpr ⟨x, hx, hc'⟩
    cases hcorrupt.symm.trans hfirst
    exact Nat.lt_irrefl _ hj
  · intro j b hb
    exact h.missing_iff hb
  · intro j b x hb hx
    exact h.blockDecoded hb hx

/-- Bytes of no encoder under a plan whose first block is skipped. -/
theorem decodeTile_sound_arbitrary :
    let p : TilePlan := .yuv420 ⟨6, 3⟩
      [{ size := .s8, skip := true }, { plane := 2, col := 1, size := .s4, type := ⟨.dct, .adst⟩ },
       { col := 5, row := 2, size := .s32, ref := .inter }]
    let q : Dequantizer := .ofFrame { base := 255, lumaDc := 15 } .twelve
    let data : List UInt8 := [0xff, 0x13, 0x80]
    p.validate q = .ok () ∧
      ∃ tile, decodeTile p data .standard q true = .ok tile ∧
        Guarded.decodeTile p data .standard q true = .ok tile ∧ tile.Sound p q .standard := by
  intro p q data
  have hvalid : p.validate q = .ok () := rfl
  exact ⟨hvalid, decodeTile_sound hvalid _ _ _⟩

end ResidualCodec
