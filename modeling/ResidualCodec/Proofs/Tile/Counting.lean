/-
  ResidualCodec.Proofs.Tile.Counting

  What a coder has counted before does not change what it codes, and adds to what
  it counts. So the counts of tiles that are coded one after the other by the
  same coder are the sum of what each of them counts alone.
-/

import ResidualCodec.Proofs.Counts.Sum
import ResidualCodec.Proofs.Tile.Sound
import ResidualCodec.Tile.Frame

namespace ResidualCodec

/-- A computation in two steps gives what the second one makes of what the first one gives. -/
theorem exists_of_bind_eq_ok {ε α β : Type} {x : Except ε α} {f : α → Except ε β} {b : β}
    (h : x >>= f = .ok b) : ∃ a, x = .ok a ∧ f a = .ok b := by
  cases x with
  | error => cases h
  | ok a => exact ⟨a, rfl, h⟩

/-! ## Decoders -/

/-- The decoder with something counted before. -/
def CoefDecoder.after (t : CountTable) (d : CoefDecoder) : CoefDecoder :=
  { d with counts := t.merge d.counts }

section

variable {ρ : Type} [BoolReader ρ] (t : CountTable)

theorem decodeBlock_after (d : CoefDecoder) (p : BlockParams) (ctx : Nat) (r : ρ) :
    (d.after t).decodeBlock p ctx r =
      (d.decodeBlock p ctx r).map fun out => (out.1, out.2.1.after t, out.2.2) := by
  obtain ⟨probs, parallel, counts⟩ := d
  simp only [CoefDecoder.decodeBlock]
  cases checkCtx ctx with
  | error => rfl
  | ok c =>
    cases parallel with
    | true => rfl
    | false =>
      have hcounts := CountTable.recordAll_merge t counts p.kind (readBlock probs p c r).events
      exact congrArg (fun u => Except.ok (CoefBlock.ofRun p (readBlock probs p c r),
        CoefDecoder.mk probs false u, (readBlock probs p c r).reader)) hcounts

theorem decodeResidual_after (d : CoefDecoder) (p : BlockParams) (ctx : Nat) (r : ρ) :
    (d.after t).decodeResidual p ctx r =
      (d.decodeResidual p ctx r).map fun out => (out.1, out.2.1.after t, out.2.2) := by
  simp only [CoefDecoder.decodeResidual]
  rw [decodeBlock_after]
  cases d.decodeBlock p ctx r with
  | error => rfl
  | ok => rfl

/-- The blocks with something counted before them. -/
def DecodedBlocks.after (out : DecodedBlocks) : DecodedBlocks :=
  { out with decoder := out.decoder.after t }

theorem decodeBlocks_after (q : Dequantizer) (bs : List TileBlock) (cs : PlaneContexts)
    (d : CoefDecoder) (r : ρ) :
    decodeBlocks q bs cs (d.after t) r = (decodeBlocks q bs cs d r).map (·.after t) := by
  induction bs generalizing cs d r with
  | nil => rfl
  | cons b rest ih =>
    unfold decodeBlocks
    cases cs.initial b with
    | error => rfl
    | ok ctx =>
      dsimp only [bind, Except.bind]
      split
      case isTrue =>
        rw [ih]
        cases decodeBlocks q rest (cs.skip b) d r with
        | error => rfl
        | ok => rfl
      case isFalse =>
        rw [decodeResidual_after]
        cases d.decodeResidual (b.params q) ctx r with
        | error => rfl
        | ok out =>
          obtain ⟨block, d', m⟩ := out
          dsimp only [Except.map]
          cases block with
          | error => rfl
          | ok block =>
            dsimp only
            split
            case h_1 => rfl
            case h_2 =>
              rw [ih]
              cases decodeBlocks q rest (cs.update b (0 < block.coefs.eob)) d' m with
              | error => rfl
              | ok => rfl

variable {q : Dequantizer} {bs : List TileBlock} {cs : PlaneContexts} {d : CoefDecoder} {r : ρ}

theorem decoder_eq_of_decodeBlock {p : BlockParams} {ctx : Nat} {block : CoefBlock}
    {d' : CoefDecoder} {r' : ρ} (h : d.decodeBlock p ctx r = .ok (block, d', r')) :
    d' = { d with counts := d'.counts } := by
  obtain ⟨c, -, h⟩ := exists_of_bind_eq_ok h
  cases h
  rfl

/-- Decoding changes nothing of a decoder but its counts. -/
theorem decoder_eq_of_decodeBlocks {out : DecodedBlocks} (h : decodeBlocks q bs cs d r = .ok out) :
    out.decoder = { d with counts := out.decoder.counts } := by
  induction bs generalizing cs d r out with
  | nil =>
    cases h
    rfl
  | cons b rest ih =>
    unfold decodeBlocks at h
    obtain ⟨ctx, -, h⟩ := exists_of_bind_eq_ok h
    split at h
    case isTrue =>
      obtain ⟨more, hmore, h⟩ := exists_of_bind_eq_ok h
      have hkept := ih hmore
      cases h
      exact hkept
    case isFalse =>
      obtain ⟨⟨result, d', m⟩, hresult, h⟩ := exists_of_bind_eq_ok h
      obtain ⟨⟨coefs, d'', m'⟩, hcoefs, hresult⟩ := exists_of_bind_eq_ok hresult
      cases hresult
      have hd := decoder_eq_of_decodeBlock hcoefs
      obtain ⟨block, -, h⟩ := exists_of_bind_eq_ok h
      split at h
      case h_1 =>
        cases h
        exact hd
      case h_2 =>
        obtain ⟨more, hmore, h⟩ := exists_of_bind_eq_ok h
        have hkept := ih hmore
        rw [hd] at hkept
        cases h
        exact hkept

end

/-! ## Encoders -/

/-- The encoder with something counted before. -/
def CoefEncoder.after (t : CountTable) (e : CoefEncoder) : CoefEncoder :=
  { e with counts := t.merge e.counts }

section

variable (t : CountTable)

theorem encodeBlock_after (e : CoefEncoder) (p : BlockParams) (ctx : Nat) (levels : Array Int)
    (bound : Nat) :
    (e.after t).encodeBlock p ctx levels bound =
      (e.encodeBlock p ctx levels bound).map fun out => (out.1, out.2.after t) := by
  obtain ⟨probs, parallel, counts⟩ := e
  have hestimate : (CoefEncoder.after t ⟨probs, parallel, counts⟩).estimate p ctx levels bound =
      CoefEncoder.estimate ⟨probs, parallel, counts⟩ p ctx levels bound := rfl
  simp only [CoefEncoder.encodeBlock]
  rw [hestimate]
  cases CoefEncoder.estimate ⟨probs, parallel, counts⟩ p ctx levels bound with
  | error => rfl
  | ok coded =>
    cases parallel with
    | true => rfl
    | false =>
      have hcounts := CountTable.recordAll_merge t counts p.kind coded.events
      exact congrArg (fun u => Except.ok (coded, CoefEncoder.mk probs false u)) hcounts

theorem encodeResidual_after (e : CoefEncoder) (p : BlockParams) (ctx : Nat)
    (residual : Array Int) :
    (e.after t).encodeResidual p ctx residual =
      (e.encodeResidual p ctx residual).map fun out => (out.1, out.2.after t) := by
  simp only [CoefEncoder.encodeResidual]
  cases transformResidual p residual with
  | error => rfl
  | ok coeffs =>
    dsimp only [bind, Except.bind]
    rw [encodeBlock_after]
    cases e.encodeBlock p ctx (quantizeLevels p coeffs) p.size.coeffs with
    | error => rfl
    | ok => rfl

theorem encodeBlocks_after (q : Dequantizer) (bs : List (TileBlock × Array Int))
    (cs : PlaneContexts) (e : CoefEncoder) (w : BoolEncoder) :
    encodeBlocks q bs cs (e.after t) w =
      (encodeBlocks q bs cs e w).map fun out => (out.1, out.2.1, out.2.2.1.after t, out.2.2.2) := by
  induction bs generalizing cs e w with
  | nil => rfl
  | cons bx rest ih =>
    obtain ⟨b, residual⟩ := bx
    unfold encodeBlocks
    cases cs.initial b with
    | error => rfl
    | ok ctx =>
      dsimp only [bind, Except.bind]
      split
      case isTrue =>
        rw [ih]
        cases encodeBlocks q rest (cs.skip b) e w with
        | error => rfl
        | ok => rfl
      case isFalse =>
        rw [encodeResidual_after]
        cases e.encodeResidual (b.params q) ctx residual with
        | error => rfl
        | ok out =>
          obtain ⟨block, e'⟩ := out
          dsimp only [Except.map]
          rw [ih]
          cases encodeBlocks q rest (cs.update b (0 < block.coded.stats.eob)) e'
            (w.writeAll block.coded.decisions) with
          | error => rfl
          | ok => rfl

variable {q : Dequantizer} {bs : List (TileBlock × Array Int)} {cs cs' : PlaneContexts}
  {e e' : CoefEncoder} {w w' : BoolEncoder}

omit t

theorem encoder_eq_of_encodeBlock {p : BlockParams} {ctx : Nat} {levels : Array Int} {bound : Nat}
    {coded : EncodedCoefs} (h : e.encodeBlock p ctx levels bound = .ok (coded, e')) :
    e' = { e with counts := e'.counts } := by
  obtain ⟨c, -, h⟩ := exists_of_bind_eq_ok h
  split at h
  case isTrue =>
    cases h
    rfl
  case isFalse =>
    cases h
    rfl

/-- Encoding changes nothing of an encoder but its counts. -/
theorem encoder_eq_of_encodeBlocks {blocks : List (Option EncodedBlock)}
    (h : encodeBlocks q bs cs e w = .ok (blocks, cs', e', w')) :
    e' = { e with counts := e'.counts } := by
  induction bs generalizing cs e w blocks with
  | nil =>
    cases h
    rfl
  | cons bx rest ih =>
    obtain ⟨b, residual⟩ := bx
    unfold encodeBlocks at h
    obtain ⟨ctx, -, h⟩ := exists_of_bind_eq_ok h
    split at h
    case isTrue =>
      obtain ⟨⟨more, cs₁, e₁, w₁⟩, hmore, h⟩ := exists_of_bind_eq_ok h
      cases h
      exact ih hmore
    case isFalse =>
      obtain ⟨⟨block, e₁⟩, hblock, h⟩ := exists_of_bind_eq_ok h
      obtain ⟨coeffs, -, hblock⟩ := exists_of_bind_eq_ok hblock
      obtain ⟨⟨coded, e₂⟩, hcoded, hblock⟩ := exists_of_bind_eq_ok hblock
      cases hblock
      obtain ⟨⟨more, cs₁, e₁, w₁⟩, hmore, h⟩ := exists_of_bind_eq_ok h
      cases h
      have hkept := ih hmore
      rw [encoder_eq_of_encodeBlock hcoded] at hkept
      exact hkept

end

/-! ## Tiles -/

/-- Decode a tile with a decoder that may have decoded others before. -/
def CoefDecoder.decodeTile (q : Dequantizer) (d : CoefDecoder) (s : TileStream) :
    Except Fault CoefDecoder := do
  let out ← decodeBlocks q s.plan.blocks (.create s.plan) d (BoolDecoder.start s.data)
  return out.decoder

/-- Encode a tile with an encoder that may have encoded others before. -/
def CoefEncoder.encodeTile (q : Dequantizer) (e : CoefEncoder) (s : TileSource) :
    Except Fault CoefEncoder := do
  if s.residuals.length ≠ s.plan.blocks.length then throw .residualCount
  let (_, _, e, _) ← encodeBlocks q (s.plan.blocks.zip s.residuals) (.create s.plan) e {}
  return e

section

variable {q : Dequantizer} {probs : ProbTable} {parallel : Bool}

/-- A tile adds to the counts of a decoder what it counts alone. -/
theorem CoefDecoder.decodeTile_eq {s : TileStream} {tile : DecodedTile}
    (h : ResidualCodec.decodeTile s.plan s.data probs q parallel = .ok tile) (t : CountTable) :
    CoefDecoder.decodeTile q ⟨probs, parallel, t⟩ s =
      .ok ⟨probs, parallel, t.merge tile.counts⟩ := by
  have hafter : (⟨probs, parallel, t⟩ : CoefDecoder) = .after t ⟨probs, parallel, .empty⟩ := by
    simp only [after]
    rw [CountTable.merge_empty]
  rw [decodeTile_eq_map] at h
  cases hout : decodeBlocks q s.plan.blocks (.create s.plan) ⟨probs, parallel, .empty⟩
      (BoolDecoder.start s.data) with
  | error =>
    rw [hout] at h
    cases h
  | ok out =>
    rw [hout] at h
    cases h
    simp only [decodeTile]
    rw [hafter, decodeBlocks_after, hout]
    show Except.ok (CoefDecoder.after t out.decoder) = _
    rw [decoder_eq_of_decodeBlocks hout]
    rfl

/-- A tile adds to the counts of an encoder what it counts alone. -/
theorem CoefEncoder.encodeTile_eq {s : TileSource} {tile : EncodedTile}
    (h : ResidualCodec.encodeTile s.plan s.residuals probs q parallel = .ok tile)
    (t : CountTable) :
    CoefEncoder.encodeTile q ⟨probs, parallel, t⟩ s =
      .ok ⟨probs, parallel, t.merge tile.counts⟩ := by
  have hafter : (⟨probs, parallel, t⟩ : CoefEncoder) = .after t ⟨probs, parallel, .empty⟩ := by
    simp only [after]
    rw [CountTable.merge_empty]
  have hlength := length_eq_of_encodeTile h
  rw [encodeTile_eq_map _ _ _ _ hlength] at h
  cases hout : encodeBlocks q (s.plan.blocks.zip s.residuals) (.create s.plan)
      ⟨probs, parallel, .empty⟩ {} with
  | error =>
    rw [hout] at h
    cases h
  | ok out =>
    obtain ⟨blocks, cs, e, w⟩ := out
    rw [hout] at h
    cases h
    simp only [encodeTile]
    rw [if_neg (not_not_intro hlength), hafter]
    dsimp only [bind, Except.bind]
    rw [encodeBlocks_after, hout]
    show Except.ok (CoefEncoder.after t e) = _
    rw [encoder_eq_of_encodeBlocks hout]
    rfl

/-- Where each step adds the counts of its result, a run adds the sum of them. -/
theorem foldlM_merge {α β σ : Type} {step : σ → α → Except Fault σ} {state : CountTable → σ}
    {counts : β → CountTable} {alone : α → β → Prop}
    (hstep : ∀ a b t, alone a b → step (state t) a = .ok (state (t.merge (counts b))))
    {as : List α} {bs : List β} (h : List.Forall₂ alone as bs) (t : CountTable) :
    as.foldlM step (state t) = .ok (state (t.merge (.sum (bs.map counts)))) := by
  induction h generalizing t with
  | nil =>
    rw [List.map_nil, show CountTable.sum [] = .empty from rfl, CountTable.merge_empty]
    rfl
  | cons hfirst hrest ih =>
    rw [List.foldlM_cons, hstep _ _ t hfirst]
    dsimp only [bind, Except.bind]
    rw [ih, List.map_cons, CountTable.sum_cons, CountTable.merge_assoc]

end

end ResidualCodec
