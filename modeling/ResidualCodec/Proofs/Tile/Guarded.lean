/-
  ResidualCodec.Proofs.Tile.Guarded

  The tile decoder with every access guarded: the planes, the ranges of flags
  that a block covers on the edges of its plane, and whatever its coefficients
  are decoded and transformed with. It comes out as the decoder does, for every
  plan.
-/

import ResidualCodec.Proofs.Transform.Guarded

namespace ResidualCodec

namespace Guarded

/-! ## Decoding -/

/-- The first flag of a span and the one behind its last, both moved back to the end of the edge.
They must enclose a range of the edge. -/
def clip (f : EdgeFlags) (start count : Nat) : Except Fault (Nat × Nat) :=
  let first := min start f.size
  let last := min (start + count) f.size
  if first ≤ last ∧ last ≤ f.size then .ok (first, last) else .error .indexOutOfBounds

def anySet (f : EdgeFlags) (start count : Nat) : Except Fault Bool := do
  let (first, last) ← clip f start count
  return (f.extract first last).any id

def fill (f : EdgeFlags) (start count : Nat) (flag : Bool) : Except Fault EdgeFlags := do
  let (first, last) ← clip f start count
  return f.mapIdx fun i old => if first ≤ i ∧ i < last then flag else old

def initial (c : EntropyContext) (col row : Nat) (s : TransformSize) : Except Fault Nat := do
  let above ← anySet c.above col s.units
  let left ← anySet c.left row s.units
  return above.toNat + left.toNat

def mark (c : EntropyContext) (col row width height : Nat) (flag : Bool) :
    Except Fault EntropyContext := do
  let above ← fill c.above col width flag
  let left ← fill c.left row height flag
  return ⟨above, left⟩

/-- Mark what a block covers in its plane, which must exist. -/
def markBlock (cs : PlaneContexts) (b : TileBlock) (flag : Bool) : Except Fault PlaneContexts :=
  if h : b.plane < 3 then do
    let c ← mark cs[b.plane] b.col b.row b.size.units b.size.units flag
    return cs.set b.plane c
  else .error .indexOutOfBounds

def decodeBlocks {ρ : Type} [BoolReader ρ] (q : Dequantizer) : List TileBlock → PlaneContexts →
    CoefDecoder → ρ → Except Fault DecodedBlocks
  | [], cs, d, _ => .ok ⟨[], cs, d, none⟩
  | b :: rest, cs, d, r => do
    let ctx ← initial (← entry cs[b.plane]?) b.col b.row b.size
    if b.skip then
      return (← decodeBlocks q rest (← markBlock cs b false) d r).cons none
    let (block, d, r) ← decodeBlock d (b.params q) ctx r
    let residual ← reconstruct block (b.params q)
    let cs ← markBlock cs b (0 < block.eob)
    match block.corruption with
    | some c => return ⟨some ⟨block, residual⟩ :: rest.map fun _ => none, cs, d, some (0, c)⟩
    | none => return (← decodeBlocks q rest cs d r).cons (some ⟨block, residual⟩)

def decodeTile (p : TilePlan) (data : List UInt8) (probs : ProbTable) (q : Dequantizer)
    (frameParallel : Bool) : Except Fault DecodedTile := do
  let out ← decodeBlocks q p.blocks (.create p) { probs, frameParallel } (BoolDecoder.start data)
  return ⟨out.blocks, out.decoder.counts, out.corruption⟩

/-! ## Contexts -/

section

variable (f : EdgeFlags) (start count : Nat)

theorem clip_eq : clip f start count = .ok (min start f.size, min (start + count) f.size) :=
  if_pos ⟨by omega, by omega⟩

/-- Flags past the end of the edge are not set. -/
theorem anySet_eq : anySet f start count = .ok (f.anySet start count) := by
  have hextract : f.extract (min start f.size) (min (start + count) f.size) =
      f.extract start (start + count) := by
    apply Array.ext
    · rw [Array.size_extract, Array.size_extract]
      omega
    · intro i hi _
      rw [Array.size_extract] at hi
      rw [Array.getElem_extract, Array.getElem_extract]
      congr 1
      omega
  simp only [anySet, EdgeFlags.anySet]
  rw [clip_eq, ← hextract]
  rfl

/-- Flags past the end of the edge are passed over. -/
theorem fill_eq (flag : Bool) : fill f start count flag = .ok (f.fill start count flag) := by
  have hfill : (f.mapIdx fun i old =>
      if min start f.size ≤ i ∧ i < min (start + count) f.size then flag else old) =
      f.fill start count flag := by
    apply Array.ext
    · rw [Array.size_mapIdx, EdgeFlags.size_fill]
    · intro i hi _
      rw [Array.size_mapIdx] at hi
      simp only [EdgeFlags.fill]
      rw [Array.getElem_mapIdx, Array.getElem_mapIdx]
      congr 1
      exact propext ⟨fun h => by omega, fun h => by omega⟩
  simp only [fill]
  rw [clip_eq, ← hfill]
  rfl

end

theorem initial_eq (c : EntropyContext) (col row : Nat) (s : TransformSize) :
    initial c col row s = .ok (c.initial col row s).val := by
  simp only [initial]
  rw [anySet_eq, anySet_eq]
  rfl

theorem mark_eq (c : EntropyContext) (col row width height : Nat) (flag : Bool) :
    mark c col row width height flag = .ok (c.mark col row width height flag) := by
  simp only [mark]
  rw [fill_eq, fill_eq]
  rfl

section

variable {cs : PlaneContexts} {b : TileBlock} (hplane : b.plane < 3)

include hplane

theorem markBlock_eq (flag : Bool) : markBlock cs b flag = .ok (cs.update b flag) := by
  simp only [markBlock, PlaneContexts.update]
  rw [dif_pos hplane, dif_pos hplane, mark_eq]
  rfl

/-- A skipped block is marked like one without coefficients. -/
theorem skip_eq_update : cs.skip b = cs.update b false := by
  simp only [PlaneContexts.skip, PlaneContexts.update]
  rw [dif_pos hplane, dif_pos hplane]
  rfl

end

/-! ## Tiles -/

/-- No guard fails but that for the plane, which the decoder has as well. -/
theorem decodeBlocks_eq {ρ : Type} [BoolReader ρ] (q : Dequantizer) (bs : List TileBlock)
    (cs : PlaneContexts) (d : CoefDecoder) (r : ρ) :
    decodeBlocks q bs cs d r = ResidualCodec.decodeBlocks q bs cs d r := by
  induction bs generalizing cs d r with
  | nil => rfl
  | cons b rest ih =>
    conv_lhs => unfold decodeBlocks
    conv_rhs => unfold ResidualCodec.decodeBlocks
    rcases Nat.lt_or_ge b.plane 3 with hplane | hplane
    · have hplanes : cs[b.plane]? = some cs[b.plane] := Vector.getElem?_eq_getElem hplane
      have hinitial : cs.initial b = .ok (cs[b.plane].initial b.col b.row b.size) := by
        simp only [PlaneContexts.initial]
        rw [hplanes]
      rw [entry_of_eq_some hplanes, hinitial]
      dsimp only [bind, Except.bind]
      rw [initial_eq]
      dsimp only
      split
      case isTrue =>
        rw [markBlock_eq hplane, ← skip_eq_update hplane]
        dsimp only
        rw [ih]
      case isFalse =>
        simp only [CoefDecoder.decodeResidual]
        rw [decodeBlock_eq, decodeBlock_ok _ _ (Nat.le_of_lt_succ (Fin.isLt _))]
        dsimp only [bind, Except.bind, pure, Except.pure]
        rw [reconstruct_eq (size_scatter _ _ _)]
        cases CoefBlock.reconstruct _ (b.params q) with
        | error => rfl
        | ok residual =>
          dsimp only [Except.map]
          rw [markBlock_eq hplane]
          dsimp only
          cases CoefBlock.corruption _ with
          | some c => rfl
          | none =>
            dsimp only
            rw [ih]
    · have hplanes : cs[b.plane]? = none := Vector.getElem?_eq_none hplane
      simp only [PlaneContexts.initial]
      generalize cs[b.plane]? = plane at hplanes ⊢
      subst hplanes
      rfl

theorem decodeTile_eq (p : TilePlan) (data : List UInt8) (probs : ProbTable) (q : Dequantizer)
    (parallel : Bool) :
    decodeTile p data probs q parallel = ResidualCodec.decodeTile p data probs q parallel := by
  simp only [decodeTile]
  rw [decodeBlocks_eq, decodeTile_eq_map]
  cases ResidualCodec.decodeBlocks q p.blocks (.create p) ⟨probs, parallel, .empty⟩
    (BoolDecoder.start data) with
  | error => rfl
  | ok => rfl

end Guarded

end ResidualCodec
