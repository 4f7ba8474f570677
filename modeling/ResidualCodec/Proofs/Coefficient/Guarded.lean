/-
  ResidualCodec.Proofs.Coefficient.Guarded

  The block decoder with every access to a table or buffer guarded: an index
  that lies past the end is a fault, and nothing is read or written there. It
  counts its way through the scan with numbers for bands, contexts and energies.
  No guard ever fails, as both decoders give the same.
-/

import ResidualCodec.Proofs.Coefficient.Reading
import ResidualCodec.Proofs.Coefficient.Truncation

namespace ResidualCodec

namespace Guarded

/-! ## Access -/

section

variable {α : Type}

/-- An entry of a table, which must be there. -/
def entry : Option α → Except Fault α
  | some a => .ok a
  | none => .error .indexOutOfBounds

/-- Write to a place of a buffer, which must be there. -/
def put (a : Array α) (i : Nat) (x : α) : Except Fault (Array α) :=
  if i < a.size then .ok (a.setIfInBounds i x) else .error .indexOutOfBounds

theorem entry_of_eq_some {x : Option α} {a : α} (h : x = some a) : entry x = .ok a := by
  rw [h]
  rfl

theorem put_of_lt {a : Array α} {i : Nat} (h : i < a.size) (x : α) :
    put a i x = .ok (a.setIfInBounds i x) :=
  if_pos h

end

/-! ## Decoding -/

section

variable {ρ : Type} [BoolReader ρ]

/-- Follow the decisions of a reader from a node to a leaf. -/
def readFrom (t : SymbolTree) (probs : List UInt8) :
    ρ → (fuel : Nat) → (node : Nat) → Except Fault (Nat × ρ)
  | _, 0, _ => .error .endlessTree
  | r, fuel + 1, node => do
    let p ← entry probs[node / 2]?
    let (bit, r) := BoolReader.read r p
    let next ← entry t[node + bit.toNat]?
    if next < 0 then return ((-next).toNat, r) else readFrom t probs r fuel next.toNat

def readToken (probs : NodeProbs) (r : ρ) : Except Fault (Token × ρ) := do
  let (larger, r) := BoolReader.read r probs.one
  if larger then
    let row ← entry Pareto.rows[probs.one.toNat]?
    let (leaf, r) ← readFrom magnitudeTree row r (magnitudeTree.size + 1) 0
    return (← entry Token.all[leaf]?, r)
  else return (.one, r)

/-- Probabilities of the extra bits; those of the highest category are the last ones of a table. -/
def extraProbs (d : BitDepth) (token : Token) : Except Fault (List UInt8) :=
  if token = .category .sixth ∧ category6Probs.length < d.category6Bits then
    .error .indexOutOfBounds
  else .ok (token.extraProbs d)

def readCoefficient (probs : NodeProbs) (d : BitDepth) (b : Band) (c : Ctx) (checked : Bool)
    (r : ρ) : Except Fault (SymbolRead × ρ) := do
  let (nonzero, r) := BoolReader.read r probs.zero
  if nonzero then
    let (token, r) ← readToken probs r
    let (offset, r) := BoolReader.readExtra r (← extraProbs d token) 0
    let (negative, r) := BoolReader.readBit r
    if BoolReader.overrun r then return (.exhausted (some token), r)
    else return (.symbol ⟨b, c, checked, token, offset, negative⟩, r)
  else if BoolReader.overrun r then return (.exhausted (some .zero), r)
  else return (.symbol ⟨b, c, checked, .zero, 0, false⟩, r)

def readSymbol (probs : NodeProbs) (d : BitDepth) (b : Band) (c : Ctx) (checked : Bool) (r : ρ) :
    Except Fault (SymbolRead × ρ) :=
  if checked then
    let (more, r) := BoolReader.read r probs.endOfBlock
    if BoolReader.overrun r then .ok (.exhausted none, r)
    else if more then readCoefficient probs d b c checked r
    else .ok (.symbol (.endOfBlock b c), r)
  else readCoefficient probs d b c checked r

/-- The slot of a scan index. -/
def slotAt (p : BlockParams) (initial c : Nat) (energies : Array Nat) : Except Fault Slot := do
  let band ← entry p.size.bands[c]?
  if c = 0 then Slot.ofNumbers p.kind band initial
  else Slot.ofNumbers p.kind band (← contextAt (scanOrder p.size p.type).neighbors energies c)

/-- Read symbols from a scan index on, over a number of positions. -/
def readSymbols (probs : ProbTable) (p : BlockParams) (initial : Nat) :
    (left c : Nat) → (energies : Array Nat) → (checked : Bool) → ρ → Except Fault (SymbolRun ρ)
  | 0, _, _, _, r => .ok ⟨[], none, r⟩
  | left + 1, c, energies, checked, r => do
    let slot ← slotAt p initial c energies
    match ← readSymbol (probs.get slot) p.depth slot.band slot.ctx checked r with
    | (.exhausted token, r) => return ⟨[], some ⟨slot.band, slot.ctx, checked, token⟩, r⟩
    | (.symbol s, r) =>
      if s.token = .endOfBlock then return ⟨[s], none, r⟩
      let energies ← put energies (← entry (scanOrder p.size p.type).scan[c]?) s.token.energy
      let run ← readSymbols probs p initial left (c + 1) energies (s.token != .zero) r
      return { run with symbols := s :: run.symbols }

/-- Put levels and their coefficients into raster blocks, from a scan index on. -/
def place (p : BlockParams) :
    (c : Nat) → List Int → Array Int × Array Int → Except Fault (Array Int × Array Int)
  | _, [], blocks => .ok blocks
  | c, x :: xs, (levels, coeffs) => do
    let raster ← entry (scanOrder p.size p.type).scan[c]?
    let band ← entry p.size.bands[c]?
    let levels ← put levels raster x
    let coeffs ← put coeffs raster (p.dequant.dequantize p.kind.plane band x p.size)
    place p (c + 1) xs (levels, coeffs)

/-- Decode a block from buffers of its size, filled with zeros. -/
def decodeBlock (d : CoefDecoder) (p : BlockParams) (ctx : Nat) (r : ρ) :
    Except Fault (CoefBlock × CoefDecoder × ρ) := do
  let n := p.size.coeffs
  let run ← readSymbols d.probs p ctx n 0 (Array.replicate n 0) true r
  let (levels, coeffs) ← place p 0 run.levels (Array.replicate n 0, Array.replicate n 0)
  let counts := if d.frameParallel then d.counts else d.counts.recordAll p.kind run.events
  let eob := run.levels.length
  return (⟨levels, coeffs, eob, run.broken.map fun s => ⟨eob, s.token⟩⟩,
    { d with counts := counts }, run.reader)

end

/-! ## Symbols -/

section

variable {ρ : Type} [BoolReader ρ]

section

variable {t : SymbolTree} {probs : List UInt8} {allowed : Nat → Bool}

/-- Where every path ends at a leaf, no guard fails on the way. -/
theorem readFrom_eq {steps fuel node : Nat} (hfuel : steps ≤ fuel)
    (h : t.endsWithin probs.length allowed steps node = true) (r : ρ) :
    readFrom t probs r fuel node =
      .ok ((t.readFrom probs r fuel node).1.getD 0, (t.readFrom probs r fuel node).2) := by
  induction steps generalizing fuel node r with
  | zero => exact absurd h Bool.false_ne_true
  | succ steps ih =>
    obtain ⟨fuel, rfl⟩ : ∃ k, fuel = k + 1 := ⟨fuel - 1, by omega⟩
    obtain ⟨hlt, hentry⟩ := SymbolTree.of_endsWithin h
    have hprob : probs[node / 2]? = some (probs.getD (node / 2) 0) := by
      rw [List.getD_eq_getElem?_getD, List.getElem?_eq_getElem hlt]
      rfl
    obtain ⟨next, hnext, hside⟩ := hentry (BoolReader.read r (probs.getD (node / 2) 0)).1
    rw [SymbolTree.readFrom_succ]
    dsimp only [readFrom]
    rw [entry_of_eq_some hprob]
    dsimp only [bind, Except.bind]
    rw [entry_of_eq_some hnext, hnext]
    dsimp only [Option.elim_some]
    rcases hside with ⟨hneg, -⟩ | ⟨hneg, hends⟩
    · rw [if_pos hneg, if_pos hneg]
      rfl
    · rw [if_neg hneg, if_neg hneg]
      exact ih (Nat.le_of_succ_le_succ hfuel) hends _

end

variable (probs : NodeProbs)

theorem readToken_eq (r : ρ) : readToken probs r = .ok (ResidualCodec.readToken probs r) := by
  simp only [readToken, ResidualCodec.readToken]
  split
  case isTrue =>
    have hrow : Pareto.rows[probs.one.toNat]? = some (paretoProbs probs.one) := by
      rw [paretoProbs_eq_rowOf]
      exact getElem?_rows probs.one
    have htree := endsWithin_magnitudeTree
    rw [← length_paretoProbs probs.one] at htree
    obtain ⟨i, token, hread, htoken, -⟩ :=
      exists_read_magnitudeTree (paretoProbs probs.one) (BoolReader.read r probs.one).2
    have hleaf := readFrom_eq (show 4 ≤ magnitudeTree.size + 1 by decide) htree
      (BoolReader.read r probs.one).2
    rw [entry_of_eq_some hrow]
    dsimp only [bind, Except.bind]
    rw [hleaf]
    dsimp only
    rw [show magnitudeTree.readFrom _ _ _ _ = magnitudeTree.read _ _ from rfl]
    rw [hread, Option.getD_some, entry_of_eq_some htoken, List.getD_eq_getElem?_getD, htoken]
    rfl
  case isFalse => rfl

theorem extraProbs_eq (d : BitDepth) (token : Token) :
    extraProbs d token = .ok (token.extraProbs d) := by
  apply if_neg
  rintro ⟨-, hlt⟩
  cases d <;> exact absurd hlt (by decide)

variable (d : BitDepth) (b : Band) (c : Ctx) (checked : Bool) (r : ρ)

theorem readCoefficient_eq :
    readCoefficient probs d b c checked r =
      .ok (ResidualCodec.readCoefficient probs d b c checked r) := by
  simp only [readCoefficient, ResidualCodec.readCoefficient]
  split
  case isTrue =>
    rw [readToken_eq]
    dsimp only [bind, Except.bind]
    rw [extraProbs_eq]
    dsimp only
    split
    case isTrue => rfl
    case isFalse => rfl
  case isFalse =>
    split
    case isTrue => rfl
    case isFalse => rfl

theorem readSymbol_eq :
    readSymbol probs d b c checked r = .ok (ResidualCodec.readSymbol probs d b c checked r) := by
  simp only [readSymbol, ResidualCodec.readSymbol]
  split
  case isTrue =>
    split
    case isTrue => rfl
    case isFalse =>
      split
      case isTrue => exact readCoefficient_eq ..
      case isFalse => rfl
  case isFalse => exact readCoefficient_eq ..

end

/-! ## Runs -/

section

variable {ρ : Type} [BoolReader ρ] {p : BlockParams}

theorem ofNumbers_val (k : BlockKind) (b : Band) (c : Ctx) :
    Slot.ofNumbers k b c = .ok ⟨k, b, c⟩ :=
  dif_pos ⟨b.isLt, c.isLt⟩

/-- The slot of a stop of the walk. Its context is in range because energies are. -/
theorem slotAt_eq {c : Nat} {q : Position} (hq : (walk p.size p.type)[c]? = some q)
    {energies : Array Energy} (hsize : energies.size = p.size.coeffs) (initial : Ctx) :
    slotAt p initial c (energies.map Fin.val) =
      .ok ⟨p.kind, q.band, q.context initial energies⟩ := by
  obtain ⟨hindex, -, hband, hneighbors⟩ := getElem?_walk hq
  obtain ⟨hfirst, hsecond⟩ := neighbors_lt_of_mem_walk (List.mem_of_getElem? hq)
  have henergy : ∀ i < p.size.coeffs,
      (energies.map Fin.val)[i]? = some (energies.getD i .none).val := by
    intro i hi
    rw [Array.getElem?_map, Array.getD_eq_getD_getElem?,
      Array.getElem?_eq_getElem (by rwa [hsize])]
    rfl
  simp only [slotAt, Position.context]
  rw [entry_of_eq_some hband]
  dsimp only [bind, Except.bind]
  split
  case isTrue hzero =>
    rw [if_pos (by rwa [hindex])]
    exact ofNumbers_val ..
  case isFalse hpos =>
    have hctx : contextAt (scanOrder p.size p.type).neighbors (energies.map Fin.val) c =
        .ok (Ctx.ofEnergies (energies.getD q.neighbors.1 .none)
          (energies.getD q.neighbors.2 .none)).val := by
      simp only [contextAt]
      rw [hneighbors]
      dsimp only
      rw [henergy _ hfirst, henergy _ hsecond]
      rfl
    rw [if_neg (by rwa [hindex]), hctx]
    exact ofNumbers_val ..

/-- At the start of a block, a context that is out of range is found to be so. -/
theorem slotAt_zero_of_lt {initial : Nat} (h : 2 < initial) (energies : Array Nat) :
    slotAt p initial 0 energies = .error .indexOutOfBounds := by
  simp only [slotAt]
  cases p.size.bands[0]? with
  | none => rfl
  | some b => exact dif_neg (by omega)

/-- From any scan index the run is that over the rest of the walk. -/
theorem readSymbols_eq (probs : ProbTable) (initial : Ctx) {left c : Nat}
    (hc : c + left = p.size.coeffs) (energies : Array Energy)
    (hsize : energies.size = p.size.coeffs) (checked : Bool) (r : ρ) :
    readSymbols probs p initial left c (energies.map Fin.val) checked r =
      .ok (ResidualCodec.readSymbols probs p initial ((walk p.size p.type).drop c) energies checked
        r) := by
  have hlength := length_walk p.size p.type
  induction left generalizing c energies checked r with
  | zero =>
    rw [List.drop_eq_nil_of_le (by omega)]
    rfl
  | succ left ih =>
    have hlt : c < (walk p.size p.type).length := by omega
    have hq := List.getElem?_eq_getElem hlt
    rw [List.drop_eq_getElem_cons hlt]
    generalize (walk p.size p.type)[c] = q at hq
    obtain ⟨-, hscan, -, -⟩ := getElem?_walk hq
    have hplace : q.raster < (energies.map Fin.val).size := by
      rw [Array.size_map, hsize]
      exact raster_lt_of_mem_walk (List.mem_of_getElem? hq)
    conv_lhs => unfold readSymbols
    dsimp only [bind, Except.bind]
    rw [slotAt_eq hq hsize]
    dsimp only
    rw [readSymbol_eq]
    dsimp only
    cases hread : ResidualCodec.readSymbol
        (probs.get ⟨p.kind, q.band, q.context initial energies⟩) p.depth q.band
        (q.context initial energies) checked r with
    | mk outcome m =>
      cases outcome with
      | exhausted token =>
        rw [readSymbols_cons_exhausted hread]
        rfl
      | symbol s =>
        by_cases hend : s.token = .endOfBlock
        · rw [readSymbols_cons_end hread hend]
          exact if_pos hend
        · have hrest := ih (show c + 1 + left = p.size.coeffs by omega)
            (energies.setIfInBounds q.raster s.token.energy)
            (by rwa [Array.size_setIfInBounds]) (s.token != .zero) m
          rw [Array.map_setIfInBounds] at hrest
          rw [readSymbols_cons_symbol hread hend]
          dsimp only
          rw [if_neg hend, entry_of_eq_some hscan]
          dsimp only
          rw [put_of_lt hplace]
          dsimp only
          rw [hrest]
          rfl

/-! ## Blocks -/

/-- What is placed from a scan index on is scattered over the rest of the walk. -/
theorem place_eq {c : Nat} {xs : List Int} (hc : c + xs.length ≤ p.size.coeffs)
    {levels coeffs : Array Int} (hlevels : levels.size = p.size.coeffs)
    (hcoeffs : coeffs.size = p.size.coeffs) :
    let ps := (walk p.size p.type).drop c
    let ys := List.zipWith (fun q x => p.dequant.dequantize p.kind.plane q.band x p.size) ps xs
    place p c xs (levels, coeffs) =
      .ok ((ps.zip xs).foldl (fun a px => a.setIfInBounds px.1.raster px.2) levels,
        (ps.zip ys).foldl (fun a px => a.setIfInBounds px.1.raster px.2) coeffs) := by
  have hlength := length_walk p.size p.type
  induction xs generalizing c levels coeffs with
  | nil =>
    intro ps ys
    simp only [ys, List.zipWith_nil_right, List.zip_nil_right]
    rfl
  | cons x xs ih =>
    rw [List.length_cons] at hc
    have hlt : c < (walk p.size p.type).length := by omega
    have hq := List.getElem?_eq_getElem hlt
    rw [List.drop_eq_getElem_cons hlt]
    generalize (walk p.size p.type)[c] = q at hq
    obtain ⟨-, hscan, hband, -⟩ := getElem?_walk hq
    have hraster := raster_lt_of_mem_walk (List.mem_of_getElem? hq)
    intro ps ys
    conv_lhs => unfold place
    rw [entry_of_eq_some hscan, entry_of_eq_some hband]
    dsimp only [bind, Except.bind]
    rw [put_of_lt (by rwa [hlevels]), put_of_lt (by rwa [hcoeffs])]
    dsimp only
    exact ih (by omega) (by rwa [Array.size_setIfInBounds]) (by rwa [Array.size_setIfInBounds])

theorem place_eq_scatter {xs : List Int} (hlength : xs.length ≤ p.size.coeffs) :
    let ps := walk p.size p.type
    let zeros := Array.replicate p.size.coeffs 0
    place p 0 xs (zeros, zeros) = .ok (scatter p.size.coeffs ps xs, scatter p.size.coeffs ps <|
      List.zipWith (fun q x => p.dequant.dequantize p.kind.plane q.band x p.size) ps xs) :=
  place_eq (by rwa [Nat.zero_add]) Array.size_replicate Array.size_replicate

/-- No guard fails, unless the context of the block is out of range, which the decoder itself
guards against. -/
theorem decodeBlock_eq (d : CoefDecoder) (p : BlockParams) (ctx : Nat) (r : ρ) :
    decodeBlock d p ctx r = d.decodeBlock p ctx r := by
  rcases Nat.lt_or_ge 2 ctx with hctx | hctx
  · obtain ⟨n, hn⟩ := Nat.exists_eq_succ_of_ne_zero p.size.coeffs_pos.ne'
    have hcheck : checkCtx ctx = .error .indexOutOfBounds := dif_neg (by omega)
    simp only [decodeBlock, CoefDecoder.decodeBlock]
    rw [hcheck, hn]
    simp only [readSymbols]
    rw [slotAt_zero_of_lt hctx]
    rfl
  · have hrun : readSymbols d.probs p ctx p.size.coeffs 0 (Array.replicate p.size.coeffs 0) true r =
        .ok (readBlock d.probs p ⟨ctx, Nat.lt_succ_of_le hctx⟩ r) := by
      have hwalk := readSymbols_eq (p := p) d.probs ⟨ctx, Nat.lt_succ_of_le hctx⟩ (Nat.zero_add _)
        (noEnergy p.size) Array.size_replicate true r
      simp only [noEnergy] at hwalk
      rw [Array.map_replicate] at hwalk
      exact hwalk
    simp only [decodeBlock]
    rw [decodeBlock_ok d p hctx, hrun]
    dsimp only [bind, Except.bind]
    rw [place_eq_scatter (length_levels_readBlock ..)]
    rfl

end

end Guarded

end ResidualCodec
