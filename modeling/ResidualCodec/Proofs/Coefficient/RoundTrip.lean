/-
  ResidualCodec.Proofs.Coefficient.RoundTrip

  A reader that replays the decisions of a coded block decodes the block: every
  level up to the bound comes back at its raster position, clamped to what can
  be coded, and encoder and decoder count the same events.
-/

import Mathlib.Data.List.DropRight
import Mathlib.Data.List.GetD
import ResidualCodec.Proofs.Coefficient.Symbol
import ResidualCodec.Proofs.Counts.Merge
import ResidualCodec.Proofs.Scan.Walk

namespace ResidualCodec

/-! ## Coded levels -/

theorem trimZeros_eq_rdropWhile (xs : List Int) : trimZeros xs = xs.rdropWhile (· == 0) := rfl

theorem getLast?_trimZeros (xs : List Int) : (trimZeros xs).getLast? ≠ some 0 := by
  rw [trimZeros_eq_rdropWhile]
  intro h
  have hne : xs.rdropWhile (· == 0) ≠ [] := by
    intro hnil
    rw [hnil] at h
    cases h
  have hlast := List.rdropWhile_last_not (· == 0) xs hne
  rw [List.getLast?_eq_some_getLast hne] at h
  rw [Option.some.inj h] at hlast
  exact hlast rfl

/-- A level that is trimmed away reads as what it was. -/
theorem getD_trimZeros (xs : List Int) (i : Nat) : (trimZeros xs).getD i 0 = xs.getD i 0 := by
  have hsplit : trimZeros xs ++ xs.rtakeWhile (· == 0) = xs :=
    List.rdropWhile_append_rtakeWhile
  have hzeros : ∀ x ∈ xs.rtakeWhile (· == 0), x = 0 := by
    intro x hx
    have hzero := List.mem_rtakeWhile_imp (p := fun x : Int => x == 0) hx
    exact eq_of_beq hzero
  conv_rhs => rw [← hsplit]
  by_cases hi : i < (trimZeros xs).length
  · rw [List.getD_append _ _ _ _ hi]
  · rw [List.getD_append_right _ _ _ _ (by omega), List.getD_eq_default _ _ (by omega),
      List.getD_eq_getElem?_getD]
    cases hx : (xs.rtakeWhile (· == 0))[i - (trimZeros xs).length]? with
    | none => rfl
    | some x => exact (hzeros x (List.mem_of_getElem? hx)).symm

/-- Level at a scan index. -/
def BlockParams.levelAt (p : BlockParams) (levels : Array Int) (c : Nat) : Int :=
  levels.getD ((scanOrder p.size p.type).scan.getD c 0) 0

section

variable (p : BlockParams) (levels : Array Int) (bound : Nat)

theorem length_codedLevels_le_min :
    (codedLevels p levels bound).length ≤ min bound p.size.coeffs := by
  calc (codedLevels p levels bound).length
      ≤ ((gather (walk p.size p.type) levels).take bound).length :=
        (List.rdropWhile_prefix (· == 0) _).length_le
    _ = min bound p.size.coeffs := by rw [List.length_take, length_gather_walk]

theorem length_codedLevels_le_bound : (codedLevels p levels bound).length ≤ bound :=
  (length_codedLevels_le_min p levels bound).trans (Nat.min_le_left _ _)

theorem length_codedLevels : (codedLevels p levels bound).length ≤ p.size.coeffs :=
  (length_codedLevels_le_min p levels bound).trans (Nat.min_le_right _ _)

/-- Below the bound every level is coded, and above it none. -/
theorem getD_codedLevels_scan {c : Nat} (hc : c < p.size.coeffs) :
    (codedLevels p levels bound).getD c 0 = if c < bound then p.levelAt levels c else 0 := by
  simp only [codedLevels]
  rw [getD_trimZeros, List.getD_eq_getElem?_getD, List.getElem?_take]
  split
  case isTrue =>
    rw [getElem?_gather_scan levels hc]
    rfl
  case isFalse => rfl

theorem getD_codedLevels {j : Nat} (hj : j < p.size.coeffs) :
    (codedLevels p levels bound).getD (scanIndex p.size p.type j) 0 =
      if scanIndex p.size p.type j < bound then levels.getD j 0 else 0 := by
  rw [getD_codedLevels_scan p levels bound (scanIndex_lt hj), BlockParams.levelAt,
    scan_scanIndex hj]

end

/-- Levels that do not end in a zero go on not to. -/
theorem getLast?_of_cons {x : Int} {xs : List Int} (h : (x :: xs).getLast? ≠ some 0) :
    xs.getLast? ≠ some 0 := by
  cases xs with
  | nil =>
    intro hnone
    cases hnone
  | cons y ys => rwa [List.getLast?_cons_cons] at h

/-- Behind the last of such levels the end of block is asked for. -/
theorem ofLevel_bne_zero_of_getLast? {x : Int} {xs : List Int} (h : (x :: xs).getLast? ≠ some 0)
    (d : BitDepth) (b : Band) (c : Ctx) (checked : Bool) (hnil : xs = []) :
    ((Symbol.ofLevel d b c checked x).token != .zero) = true := by
  subst hnil
  rw [bne_iff_ne, Ne, Symbol.ofLevel_eq_zero_iff]
  rintro rfl
  exact h rfl

/-! ## Runs of symbols -/

section

variable {d : BitDepth} {initial : Ctx}

/-- Every position has one symbol at most. -/
theorem length_symbolsFrom_le (qs : List Position) (energies : Array Energy) (checked : Bool)
    (xs : List Int) : (symbolsFrom d initial qs energies checked xs).length ≤ qs.length := by
  induction qs generalizing energies checked xs with
  | nil => exact Nat.le_refl 0
  | cons q qs ih =>
    cases xs with
    | nil => exact Nat.succ_le_succ (Nat.zero_le _)
    | cons x xs => exact Nat.succ_le_succ (ih _ _ xs)

theorem codable_of_mem_symbolsFrom {qs : List Position} {energies : Array Energy} {checked : Bool}
    {xs : List Int} : ∀ s ∈ symbolsFrom d initial qs energies checked xs, s.Codable d := by
  induction qs generalizing energies checked xs with
  | nil => exact List.forall_mem_nil _
  | cons q qs ih =>
    cases xs with
    | nil => exact List.forall_mem_singleton.mpr (Symbol.codable_endOfBlock d _ _)
    | cons x xs => exact List.forall_mem_cons.mpr ⟨Symbol.codable_ofLevel d _ _ _ x, ih⟩

/-- The symbols of coded levels give the levels back, each as far as it can be coded. -/
theorem filterMap_level?_symbolsFrom {qs : List Position} {xs : List Int}
    (hlen : xs.length ≤ qs.length) (energies : Array Energy) (checked : Bool) :
    (symbolsFrom d initial qs energies checked xs).filterMap Symbol.level? =
      xs.map (clampLevel d) := by
  induction qs generalizing xs energies checked with
  | nil =>
    rw [List.eq_nil_of_length_eq_zero (Nat.le_zero.mp hlen)]
    rfl
  | cons q qs ih =>
    cases xs with
    | nil => rfl
    | cons x xs =>
      simp only [symbolsFrom]
      rw [List.filterMap_cons, Symbol.level?_ofLevel, List.map_cons]
      dsimp only
      rw [ih (Nat.le_of_succ_le_succ hlen)]

end

section

variable {ρ : Type} [BoolReader ρ] {r r' : ρ} {probs : ProbTable} {p : BlockParams} {initial : Ctx}

section

variable {q : Position} {qs : List Position} {energies : Array Energy} {checked : Bool}

theorem readSymbols_cons_end {s : Symbol}
    (h : readSymbol (probs.get ⟨p.kind, q.band, q.context initial energies⟩) p.depth q.band
      (q.context initial energies) checked r = (.symbol s, r')) (hs : s.token = .endOfBlock) :
    readSymbols probs p initial (q :: qs) energies checked r = ⟨[s], none, r'⟩ := by
  simp only [readSymbols]
  rw [h]
  exact if_pos hs

theorem readSymbols_cons_symbol {s : Symbol}
    (h : readSymbol (probs.get ⟨p.kind, q.band, q.context initial energies⟩) p.depth q.band
      (q.context initial energies) checked r = (.symbol s, r')) (hs : s.token ≠ .endOfBlock) :
    readSymbols probs p initial (q :: qs) energies checked r =
      let run := readSymbols probs p initial qs
        (energies.setIfInBounds q.raster s.token.energy) (s.token != .zero) r'
      { run with symbols := s :: run.symbols } := by
  conv_lhs => unfold readSymbols
  dsimp only
  rw [h]
  exact if_neg hs

theorem readSymbols_cons_exhausted {token : Option Token}
    (h : readSymbol (probs.get ⟨p.kind, q.band, q.context initial energies⟩) p.depth q.band
      (q.context initial energies) checked r = (.exhausted token, r')) :
    readSymbols probs p initial (q :: qs) energies checked r =
      ⟨[], some ⟨q.band, q.context initial energies, checked, token⟩, r'⟩ := by
  simp only [readSymbols]
  rw [h]

end

/-- Decisions of symbols, each with the probabilities of its slot. -/
def symbolDecisions (probs : ProbTable) (p : BlockParams) (ss : List Symbol) : List Decision :=
  ss.flatMap fun s => s.decisions (probs.get ⟨p.kind, s.band, s.ctx⟩) p.depth

/-- The reader meets the symbols of coded levels in their order, and stops after the last of them.
The end of block is asked for only where the levels may end: not after a zero. -/
theorem readSymbols_of_replays {qs : List Position} {energies : Array Energy} {checked : Bool}
    {xs : List Int} (hopen : xs = [] → checked = true) (hlast : xs.getLast? ≠ some 0)
    (h : Replays r (symbolDecisions probs p
      (symbolsFrom p.depth initial qs energies checked xs)) r') :
    readSymbols probs p initial qs energies checked r =
      ⟨symbolsFrom p.depth initial qs energies checked xs, none, r'⟩ := by
  -- Along the positions: each turn reads the symbol of one level, or the end of block.
  induction qs generalizing energies checked xs r with
  | nil =>
    rw [h.eq_of_nil]
    rfl
  | cons q qs ih =>
    cases xs with
    | nil =>
      have hone : Replays r ((Symbol.endOfBlock q.band (q.context initial energies)).decisions
          (probs.get ⟨p.kind, q.band, q.context initial energies⟩) p.depth) r' := by
        rw [← List.append_nil (Symbol.decisions _ _ _)]
        exact h
      have hread : readSymbol (probs.get ⟨p.kind, q.band, q.context initial energies⟩) p.depth
          q.band (q.context initial energies) true r =
          (.symbol (.endOfBlock q.band (q.context initial energies)), r') :=
        readSymbol_of_replays (Symbol.codable_endOfBlock p.depth _ _) hone
      rw [hopen rfl, readSymbols_cons_end hread rfl]
      rfl
    | cons x xs =>
      obtain ⟨m, hfirst, hrest⟩ := Replays.of_append h
      have hread : readSymbol (probs.get ⟨p.kind, q.band, q.context initial energies⟩) p.depth
          q.band (q.context initial energies) checked r =
          (.symbol (.ofLevel p.depth q.band (q.context initial energies) checked x), m) :=
        readSymbol_of_replays (Symbol.codable_ofLevel p.depth _ _ _ x) hfirst
      have hrun := ih (ofLevel_bne_zero_of_getLast? hlast _ _ _ _) (getLast?_of_cons hlast) hrest
      rw [readSymbols_cons_symbol hread (Symbol.ofLevel_ne_endOfBlock _ _ _ _ _), hrun]
      rfl

end

/-! ## Blocks -/

/-- What a decoded block says about the levels that were encoded: nothing was missing, as many
positions are coded, and each level below the bound is back in its place, clamped. -/
structure Recovers (p : BlockParams) (levels : Array Int) (bound : Nat) (coded : EncodedCoefs)
    (block : CoefBlock) : Prop where
  intact : block.corruption = none
  eob : block.eob = coded.stats.eob
  size : block.levels.size = p.size.coeffs
  level : ∀ j < p.size.coeffs, block.levels.getD j 0 =
    if scanIndex p.size p.type j < bound then clampLevel p.depth (levels.getD j 0) else 0

theorem checkCtx_of_le {ctx : Nat} (h : ctx ≤ 2) : checkCtx ctx = .ok ⟨ctx, by omega⟩ :=
  dif_pos (by omega)

/-- A table after the events of a block, which are not counted in a frame of parallel mode. -/
def CountTable.recordUnless (parallel : Bool) (t : CountTable) (k : BlockKind)
    (es : List CountEvent) : CountTable :=
  if parallel then t else t.recordAll k es

/-- An encoder fails only on a wrong number of levels or a context out of range. -/
theorem encodeBlock_ok (e : CoefEncoder) {p : BlockParams} {ctx : Nat} {levels : Array Int}
    (hctx : ctx ≤ 2) (hsize : levels.size = p.size.coeffs) (bound : Nat) :
    let coded := encodeCoefs e.probs p ⟨ctx, by omega⟩ levels bound
    e.encodeBlock p ctx levels bound = .ok (coded,
      { e with counts := e.counts.recordUnless e.frameParallel p.kind coded.events }) := by
  intro coded
  simp only [CoefEncoder.encodeBlock, CoefEncoder.estimate]
  rw [if_neg (not_not_intro hsize), checkCtx_of_le hctx]
  dsimp only [bind, Except.bind, pure, Except.pure]
  simp only [CountTable.recordUnless]
  split
  case isTrue => rfl
  case isFalse => rfl

/-- An encoder that has not failed was given a context in range and a level for every
coefficient. -/
theorem le_of_encodeBlock {e : CoefEncoder} {p : BlockParams} {ctx : Nat} {levels : Array Int}
    {bound : Nat} {out : EncodedCoefs × CoefEncoder}
    (h : e.encodeBlock p ctx levels bound = .ok out) :
    ctx ≤ 2 ∧ levels.size = p.size.coeffs := by
  simp only [CoefEncoder.encodeBlock, CoefEncoder.estimate] at h
  by_cases hsize : levels.size = p.size.coeffs
  · refine ⟨?_, hsize⟩
    by_contra hctx
    rw [if_neg (not_not_intro hsize), checkCtx, dif_neg (by omega)] at h
    cases h
  · rw [if_pos hsize] at h
    cases h

/-- A decoder fails only on a context out of range; it counts what its run of symbols counts. -/
theorem decodeBlock_ok {ρ : Type} [BoolReader ρ] (d : CoefDecoder) (p : BlockParams) {ctx : Nat}
    (hctx : ctx ≤ 2) (r : ρ) :
    let run := readBlock d.probs p ⟨ctx, by omega⟩ r
    d.decodeBlock p ctx r = .ok (.ofRun p run,
      { d with counts := d.counts.recordUnless d.frameParallel p.kind run.events },
      run.reader) := by
  intro run
  simp only [CoefDecoder.decodeBlock]
  rw [checkCtx_of_le hctx]
  rfl

theorem le_of_decodeBlock {ρ : Type} [BoolReader ρ] {d : CoefDecoder} {p : BlockParams} {ctx : Nat}
    {r : ρ} {out : CoefBlock × CoefDecoder × ρ} (h : d.decodeBlock p ctx r = .ok out) :
    ctx ≤ 2 := by
  by_contra hctx
  simp only [CoefDecoder.decodeBlock] at h
  rw [checkCtx, dif_neg (by omega)] at h
  cases h

section

variable {ρ : Type} {r r' : ρ}

/-- A run of the symbols of coded levels has these levels, clamped. -/
theorem levels_symbols (p : BlockParams) (initial : Ctx) (levels : Array Int) (bound : Nat)
    (r' : ρ) :
    (⟨symbols p initial (codedLevels p levels bound), none, r'⟩ : SymbolRun ρ).levels =
      (codedLevels p levels bound).map (clampLevel p.depth) :=
  filterMap_level?_symbolsFrom
    ((length_codedLevels p levels bound).trans_eq (length_walk _ _).symm) _ _

/-- The block of the symbols of coded levels recovers the levels. -/
theorem recovers_ofRun (probs : ProbTable) (p : BlockParams) (initial : Ctx) (levels : Array Int)
    (bound : Nat) (r' : ρ) :
    Recovers p levels bound (encodeCoefs probs p initial levels bound)
      (.ofRun p ⟨symbols p initial (codedLevels p levels bound), none, r'⟩) := by
  have hlevels := levels_symbols p initial levels bound r'
  refine ⟨rfl, ?_, size_scatter _ _ _, ?_⟩
  · show (SymbolRun.levels _).length = (codedLevels p levels bound).length
    rw [hlevels, List.length_map]
  · intro j hj
    show (scatter _ _ (SymbolRun.levels _)).getD j 0 = _
    rw [hlevels, Array.getD_eq_getD_getElem?, getElem?_scatter_walk _ hj, Option.getD_some,
      ← clampLevel_zero p.depth, List.getD_map, getD_codedLevels p levels bound hj]
    split
    case isTrue => rfl
    case isFalse => rfl

variable [BoolReader ρ]

/-- The run of a block that is replayed holds the symbols of its coded levels. -/
theorem readBlock_of_replays {probs : ProbTable} {p : BlockParams} {initial : Ctx}
    {levels : Array Int} {bound : Nat}
    (h : Replays r (encodeCoefs probs p initial levels bound).decisions r') :
    readBlock probs p initial r = ⟨symbols p initial (codedLevels p levels bound), none, r'⟩ := by
  apply readSymbols_of_replays
  · intro _
    rfl
  · exact getLast?_trimZeros _
  · exact h

/-- Whatever reader replays the decisions of an encoded block, the decoder takes all of them and
recovers the levels. It counts the events of the encoder. -/
theorem decodeBlock_of_replays (d : CoefDecoder) {p : BlockParams} {ctx : Nat} (hctx : ctx ≤ 2)
    {levels : Array Int} {bound : Nat}
    (h : Replays r (encodeCoefs d.probs p ⟨ctx, by omega⟩ levels bound).decisions r') :
    let coded := encodeCoefs d.probs p ⟨ctx, by omega⟩ levels bound
    ∃ block, d.decodeBlock p ctx r = .ok (block,
        { d with counts := d.counts.recordUnless d.frameParallel p.kind coded.events }, r') ∧
      Recovers p levels bound coded block := by
  refine ⟨_, ?_, recovers_ofRun d.probs p ⟨ctx, by omega⟩ levels bound r'⟩
  have hevents : SymbolRun.events
      (⟨symbols p ⟨ctx, by omega⟩ (codedLevels p levels bound), none, r'⟩ : SymbolRun ρ) =
      (encodeCoefs d.probs p ⟨ctx, by omega⟩ levels bound).events := List.append_nil _
  rw [decodeBlock_ok d p hctx, readBlock_of_replays h, hevents]

end

/-! ## Duality -/

/-- A block that is encoded, and decoded again by a reader that knows the bits of its decisions and
has more bits after them. -/
structure CodedTwice (e e' : CoefEncoder) (d d' : CoefDecoder) (p : BlockParams) (ctx : Nat)
    (levels : Array Int) (bound : Nat) (tail : List Bool) (coded : EncodedCoefs)
    (block : CoefBlock) : Prop where
  encodes : e.encodeBlock p ctx levels bound = .ok (coded, e')
  -- All bits of the block are taken and none of the others, and the probabilities asked with are
  -- those of the encoder, the latest of them first.
  decodes : d.decodeBlock p ctx ({ rest := coded.decisions.map Decision.bit ++ tail } : Script) =
    .ok (block, d', { rest := tail, taken := coded.decisions.length, exhausted := false,
                      asked := (coded.decisions.map Decision.prob).reverse })
  recovers : Recovers p levels bound coded block
  -- Where the two count, they add the same increments to their counters.
  counts :
    let increments := CountTable.empty.recordAll p.kind coded.events
    (e.frameParallel = false → e'.counts = e.counts.merge increments) ∧
      (d.frameParallel = false → d'.counts = d.counts.merge increments)

theorem recordUnless_false (t : CountTable) (k : BlockKind) (es : List CountEvent) :
    t.recordUnless false k es = t.merge (CountTable.empty.recordAll k es) :=
  CountTable.recordAll_eq_merge t k es

/-- Encoder and decoder of one table of probabilities meet in every decision of every block. -/
theorem decodeBlock_encodeBlock (e : CoefEncoder) (d : CoefDecoder) (hprobs : d.probs = e.probs)
    (p : BlockParams) {ctx : Nat} (hctx : ctx ≤ 2) {levels : Array Int}
    (hsize : levels.size = p.size.coeffs) (bound : Nat) (tail : List Bool) :
    ∃ coded e' block d', CodedTwice e e' d d' p ctx levels bound tail coded block := by
  have henc := encodeBlock_ok e hctx hsize bound
  have hreplays := Script.replays
    (encodeCoefs e.probs p ⟨ctx, by omega⟩ levels bound).decisions tail 0 []
  rw [Nat.zero_add, List.append_nil] at hreplays
  rw [← hprobs] at henc hreplays
  obtain ⟨block, hdec, hrecovers⟩ := decodeBlock_of_replays d hctx hreplays
  refine ⟨_, _, block, _, henc, hdec, hrecovers, ?_, ?_⟩
  · intro hcounting
    rw [hcounting]
    exact recordUnless_false _ _ _
  · intro hcounting
    rw [hcounting]
    exact recordUnless_false _ _ _

/-- A block of 4x4 with a run of zeros and a level beyond the largest magnitude. -/
theorem decodeBlock_encodeBlock_small :
    let e : CoefEncoder := ⟨.standard, false, .empty⟩
    let d : CoefDecoder := ⟨.standard, false, .empty⟩
    let p : BlockParams := ⟨⟨.s4, .luma, .inter⟩, ⟨.adst, .dct⟩, .ofFrame {} .eight⟩
    let levels : Array Int := #[3, 0, 0, -70000, 1, 0, 0, 0, 0, 0, 0, 0, 0, 0, 0, -1]
    d.probs = e.probs ∧ 1 ≤ 2 ∧ levels.size = p.size.coeffs ∧
      ∃ coded e' block d', CodedTwice e e' d d' p 1 levels 12 [true] coded block :=
  ⟨rfl, by decide, rfl, decodeBlock_encodeBlock _ _ rfl _ (by decide) rfl _ _⟩

end ResidualCodec
