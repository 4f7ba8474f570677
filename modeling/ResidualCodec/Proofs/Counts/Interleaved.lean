/-
  ResidualCodec.Proofs.Counts.Interleaved

  Coders that count while they code: a question for the end of block when it is
  asked, a token when it has been coded, and nothing in a frame of parallel mode.
  Whatever table they count into, they are the coders that count a block when it
  is done, so no count is looked at on the way.
-/

import ResidualCodec.Proofs.Coefficient.Canonical

namespace ResidualCodec

/-! ## Counting on the way -/

/-- The table that a coder counts into, if it counts. -/
def CountTable.unless (parallel : Bool) (t : CountTable) : Option CountTable :=
  if parallel then none else some t

/-- Count events where there is a table for them. -/
def countInto (k : BlockKind) (counts : Option CountTable) (es : List CountEvent) :
    Option CountTable :=
  counts.map fun t => t.recordAll k es

section

variable (k : BlockKind) (counts : Option CountTable)

theorem countInto_nil : countInto k counts [] = counts := Option.map_id'

theorem countInto_append (es fs : List CountEvent) :
    countInto k (countInto k counts es) fs = countInto k counts (es ++ fs) := by
  simp only [countInto, CountTable.recordAll]
  rw [Option.map_map]
  refine congrFun (congrArg Option.map ?_) counts
  funext t
  exact (List.foldl_append ..).symm

end

/-- What is left in the table of a coder, once it has counted or not. -/
theorem getD_countInto_unless (parallel : Bool) (t : CountTable) (k : BlockKind)
    (es : List CountEvent) :
    (countInto k (t.unless parallel) es).getD t = t.recordUnless parallel k es := by
  cases parallel <;> rfl

/-! ## Reading -/

section

variable {ρ : Type} [BoolReader ρ]

/-- Read symbols over the remaining positions, and count each before the next one is read. -/
def readCounting (probs : ProbTable) (p : BlockParams) (initial : Ctx) :
    List Position → (energies : Array Energy) → (checked : Bool) → ρ → Option CountTable →
      SymbolRun ρ × Option CountTable
  | [], _, _, r, counts => (⟨[], none, r⟩, counts)
  | q :: qs, energies, checked, r, counts =>
    let c := q.context initial energies
    let counts := countInto p.kind counts (Symbol.checkEvents q.band c checked)
    match readSymbol (probs.get ⟨p.kind, q.band, c⟩) p.depth q.band c checked r with
    | (.exhausted token, r) => (⟨[], some ⟨q.band, c, checked, token⟩, r⟩, counts)
    | (.symbol s, r) =>
      let counts := countInto p.kind counts [.token q.band c s.token.bin]
      if s.token = .endOfBlock then (⟨[s], none, r⟩, counts)
      else
        let (run, counts) := readCounting probs p initial qs
          (energies.setIfInBounds q.raster s.token.energy) (s.token != .zero) r counts
        ({ run with symbols := s :: run.symbols }, counts)

/-- A symbol counts the question that it was read after, and its token. -/
theorem events_of_readSymbol {probs : NodeProbs} {d : BitDepth} {b : Band} {c : Ctx}
    {checked : Bool} {r r' : ρ} {s : Symbol}
    (h : readSymbol probs d b c checked r = (.symbol s, r')) :
    s.events = Symbol.checkEvents b c checked ++ [.token b c s.token.bin] := by
  have hanswered := answered_of_readSymbol h
  simp only [Symbol.events]
  rw [hanswered.band, hanswered.ctx, hanswered.checked]

omit [BoolReader ρ] in
theorem SymbolRun.events_cons (s : Symbol) (run : SymbolRun ρ) :
    SymbolRun.events { run with symbols := s :: run.symbols } = s.events ++ run.events := by
  simp only [events]
  rw [List.flatMap_cons, List.append_assoc]

/-- Counting on the way neither changes what is read, nor counts anything but what is read. -/
theorem readCounting_eq (probs : ProbTable) (p : BlockParams) (initial : Ctx) (qs : List Position)
    (energies : Array Energy) (checked : Bool) (r : ρ) (counts : Option CountTable) :
    readCounting probs p initial qs energies checked r counts =
      let run := readSymbols probs p initial qs energies checked r
      (run, countInto p.kind counts run.events) := by
  -- Along the positions, with whatever has been counted at those before.
  induction qs generalizing energies checked r counts with
  | nil => exact congrArg (Prod.mk _) (countInto_nil p.kind counts).symm
  | cons q qs ih =>
    unfold readCounting
    dsimp only
    cases hread : readSymbol (probs.get ⟨p.kind, q.band, q.context initial energies⟩) p.depth q.band
      (q.context initial energies) checked r with
    | mk outcome m =>
      cases outcome with
      | exhausted token =>
        rw [readSymbols_cons_exhausted hread]
        simp only [SymbolRun.events, Option.toList_some, List.flatMap_nil, List.nil_append,
          List.flatMap_singleton]
      | symbol s =>
        have hevents := events_of_readSymbol hread
        dsimp only
        rw [countInto_append, ← hevents]
        by_cases hend : s.token = .endOfBlock
        · rw [readSymbols_cons_end hread hend, if_pos hend]
          simp only [SymbolRun.events, Option.toList_none, List.flatMap_nil, List.append_nil,
            List.flatMap_singleton]
        · rw [readSymbols_cons_symbol hread hend, if_neg hend, ih]
          dsimp only
          rw [SymbolRun.events_cons, countInto_append]

/-- Decode a block and count on the way. -/
def CoefDecoder.decodeCounting (d : CoefDecoder) (p : BlockParams) (ctx : Nat) (r : ρ) :
    Except Fault (CoefBlock × CoefDecoder × ρ) := do
  let (run, counts) := readCounting d.probs p (← checkCtx ctx) (walk p.size p.type)
    (noEnergy p.size) true r (d.counts.unless d.frameParallel)
  return (.ofRun p run, { d with counts := counts.getD d.counts }, run.reader)

theorem decodeCounting_eq (d : CoefDecoder) (p : BlockParams) (ctx : Nat) (r : ρ) :
    d.decodeCounting p ctx r = d.decodeBlock p ctx r := by
  simp only [CoefDecoder.decodeCounting, CoefDecoder.decodeBlock]
  cases checkCtx ctx with
  | error => rfl
  | ok c =>
    dsimp only [bind, Except.bind]
    rw [readCounting_eq]
    dsimp only
    rw [getD_countInto_unless]
    rfl

end

/-! ## Writing -/

/-- Decisions of the remaining levels over the remaining positions, and the number of their tokens;
each level is counted before the next one is coded. -/
def writeCounting (probs : ProbTable) (p : BlockParams) (initial : Ctx) :
    List Position → (energies : Array Energy) → (checked : Bool) → List Int → Option CountTable →
      List Decision × Nat × Option CountTable
  | [], _, _, _, counts => ([], 0, counts)
  | q :: _, energies, _, [], counts =>
    let c := q.context initial energies
    let counts := countInto p.kind counts [.check q.band c]
    let counts := countInto p.kind counts [.token q.band c .endOfBlock]
    ((Symbol.endOfBlock q.band c).decisions (probs.get ⟨p.kind, q.band, c⟩) p.depth, 1, counts)
  | q :: qs, energies, checked, x :: xs, counts =>
    let c := q.context initial energies
    let s := Symbol.ofLevel p.depth q.band c checked x
    let counts := countInto p.kind counts (Symbol.checkEvents q.band c checked)
    let counts := countInto p.kind counts [.token q.band c s.token.bin]
    let (ds, tokens, counts) := writeCounting probs p initial qs
      (energies.setIfInBounds q.raster s.token.energy) (s.token != .zero) xs counts
    (s.decisions (probs.get ⟨p.kind, q.band, c⟩) p.depth ++ ds, tokens + 1, counts)

/-- Counting on the way neither changes what is written, nor counts anything but what is
written. -/
theorem writeCounting_eq (probs : ProbTable) (p : BlockParams) (initial : Ctx) (qs : List Position)
    (energies : Array Energy) (checked : Bool) (xs : List Int) (counts : Option CountTable) :
    writeCounting probs p initial qs energies checked xs counts =
      let ss := symbolsFrom p.depth initial qs energies checked xs
      let counts := countInto p.kind counts (ss.flatMap Symbol.events)
      (symbolDecisions probs p ss, ss.length, counts) := by
  induction qs generalizing energies checked xs counts with
  | nil => exact congrArg (fun t => ([], 0, t)) (countInto_nil p.kind counts).symm
  | cons q qs ih =>
    cases xs with
    | nil =>
      simp only [writeCounting, symbolsFrom, symbolDecisions]
      rw [countInto_append, List.flatMap_singleton, List.flatMap_singleton]
      rfl
    | cons x xs =>
      simp only [writeCounting, symbolsFrom]
      rw [ih, List.flatMap_cons, countInto_append]
      dsimp only
      rw [countInto_append]
      rfl

/-- Code a block and count on the way. -/
def CoefEncoder.encodeCounting (e : CoefEncoder) (p : BlockParams) (ctx : Nat)
    (levels : Array Int) (bound : Nat) :
    Except Fault (List Decision × EncodeStats × CoefEncoder) := do
  if levels.size ≠ p.size.coeffs then throw .levelCount
  let xs := codedLevels p levels bound
  let (ds, tokens, counts) := writeCounting e.probs p (← checkCtx ctx) (walk p.size p.type)
    (noEnergy p.size) true xs (e.counts.unless e.frameParallel)
  return (ds, ⟨xs.length, tokens, totalCost ds⟩, { e with counts := counts.getD e.counts })

theorem encodeCounting_eq (e : CoefEncoder) (p : BlockParams) (ctx : Nat) (levels : Array Int)
    (bound : Nat) : e.encodeCounting p ctx levels bound =
      (e.encodeBlock p ctx levels bound).map fun out => (out.1.decisions, out.1.stats, out.2) := by
  obtain ⟨probs, parallel, t⟩ := e
  simp only [CoefEncoder.encodeCounting, CoefEncoder.encodeBlock, CoefEncoder.estimate]
  split
  case isTrue => rfl
  case isFalse =>
    cases checkCtx ctx with
    | error => rfl
    | ok c =>
      dsimp only [bind, Except.bind, pure, Except.pure]
      rw [writeCounting_eq]
      dsimp only
      rw [getD_countInto_unless]
      cases parallel <;> rfl

end ResidualCodec
