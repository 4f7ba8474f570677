/-
  ResidualCodec.Proofs.Coefficient.Sound

  What a decoder makes of a reader that it knows nothing about: always a block,
  after a bounded number of decisions and without an access past the end of a
  table, whose levels and coefficients fit together and whose end is either an
  end of block, the last position, or the place where the reader was exhausted.
-/

import ResidualCodec.Proofs.Coefficient.Guarded
import ResidualCodec.Proofs.Coefficient.Progress

namespace ResidualCodec

/-! ## Dequantization -/

theorem Dequantizer.dequantize_zero (q : Dequantizer) (p : PlaneType) (b : Band)
    (s : TransformSize) : q.dequantize p b 0 s = 0 := by
  have hmin : ∀ m : Int, m = 0 → withSign (min m q.coeffMax) 0 = 0 := by
    rintro m rfl
    show min 0 (q.coeffMax : Int) = 0
    omega
  simp only [dequantize]
  split
  case h_1 =>
    apply hmin
    exact Int.zero_shiftRight _
  case h_2 =>
    apply hmin
    simp only [Uniform.magnitude]
    rw [Int.natAbs_zero, Nat.zero_mul, Nat.zero_shiftRight]
    rfl

/-! ## Soundness -/

namespace CoefBlock

/-- Level at a scan index. -/
def levelAt (p : BlockParams) (block : CoefBlock) (c : Nat) : Int :=
  block.levels.getD ((scanOrder p.size p.type).scan.getD c 0) 0

/-- Coefficient at a scan index. -/
def coeffAt (p : BlockParams) (block : CoefBlock) (c : Nat) : Int :=
  block.coeffs.getD ((scanOrder p.size p.type).scan.getD c 0) 0

variable {ρ : Type} (p : BlockParams) (run : SymbolRun ρ)

/-- A level of a run at a scan index. -/
theorem levelAt_ofRun {c : Nat} (hc : c < p.size.coeffs) :
    (ofRun p run).levelAt p c = run.levels.getD c 0 :=
  getD_scatter_scan _ hc

/-- A coefficient of a run at a scan index is what the level there stands for. -/
theorem coeffAt_ofRun {c : Nat} (hc : c < p.size.coeffs) {q : Position}
    (hq : (walk p.size p.type)[c]? = some q) :
    (ofRun p run).coeffAt p c =
      p.dequant.dequantize p.kind.plane q.band (run.levels.getD c 0) p.size := by
  refine (getD_scatter_scan _ hc).trans ?_
  rw [List.getD_eq_getElem?_getD, List.getElem?_zipWith, hq, List.getD_eq_getElem?_getD]
  cases run.levels[c]? with
  | none => exact (p.dequant.dequantize_zero ..).symm
  | some x => rfl

end CoefBlock

section

variable {ρ : Type} [BoolReader ρ] (probs : ProbTable) (p : BlockParams) (initial : Ctx) (r : ρ)

/-- A corruption tells where a reader was found exhausted: behind as many symbols as its position
says, and without a token exactly if it was the question for the end of block that found it. -/
def Corruption.Tells (c : Corruption) : Prop :=
  ∃ st q, Progress.Leads probs p initial (.start p r) c.position st ∧ st.left.head? = some q ∧
    (st.read probs p initial q).1 = .exhausted c.token ∧
    (c.token = none ↔ ExhaustedAtEnd (st.nodeProbs probs p initial q) st.checked st.reader)

/-- What holds of a block whatever its reader has answered. -/
structure CoefBlock.Sound (block : CoefBlock) : Prop where
  size_levels : block.levels.size = p.size.coeffs
  size_coeffs : block.coeffs.size = p.size.coeffs
  eob_le : block.eob ≤ p.size.coeffs
  empty : ∀ c < p.size.coeffs, block.eob ≤ c → block.levelAt p c = 0
  bounded : ∀ x ∈ block.levels, x.natAbs ≤ maxMagnitude p.depth
  dequantized : ∀ c < p.size.coeffs, ∃ band, p.size.bands[c]? = some band ∧
    block.coeffAt p c =
      p.dequant.dequantize p.kind.plane band (block.levelAt p c) p.size
  zero : ∀ c < p.size.coeffs, block.levelAt p c = 0 → block.coeffAt p c = 0
  -- An end of block stands behind a level that is different from zero.
  last : block.corruption = none → 0 < block.eob → block.eob < p.size.coeffs →
    block.levelAt p (block.eob - 1) ≠ 0
  corrupt : ∀ c, block.corruption = some c →
    c.position = block.eob ∧ block.eob < p.size.coeffs ∧ c.Tells probs p initial r

/-- The block of a run that is read is sound. -/
theorem sound_ofRun :
    (CoefBlock.ofRun p (readBlock probs p initial r)).Sound probs p initial r := by
  have hyields : Progress.Yields probs p initial (.start p r) (readBlock probs p initial r) :=
    Progress.yields_run _
  have hlength := length_levels_readBlock probs p initial r
  generalize readBlock probs p initial r = run at hyields hlength
  have hband : ∀ c < p.size.coeffs, ∃ q, (walk p.size p.type)[c]? = some q ∧
      p.size.bands[c]? = some q.band := by
    intro c hc
    have hq := List.getElem?_eq_getElem (l := walk p.size p.type) (by rwa [length_walk])
    exact ⟨_, hq, (getElem?_walk hq).2.2.1⟩
  refine ⟨size_scatter _ _ _, size_scatter _ _ _, hlength, ?_, ?_, ?_, ?_, ?_, ?_⟩
  · intro c hc hend
    rw [CoefBlock.levelAt_ofRun p run hc]
    exact List.getD_eq_default _ _ hend
  · intro x hx
    rcases eq_zero_or_mem_of_mem_scatter hx with rfl | hmem
    · exact Nat.zero_le _
    · exact hyields.natAbs_le x hmem
  · intro c hc
    obtain ⟨q, hq, hqband⟩ := hband c hc
    refine ⟨q.band, hqband, ?_⟩
    rw [CoefBlock.coeffAt_ofRun p run hc hq, CoefBlock.levelAt_ofRun p run hc]
  · intro c hc hzero
    obtain ⟨q, hq, -⟩ := hband c hc
    rw [CoefBlock.levelAt_ofRun p run hc] at hzero
    rw [CoefBlock.coeffAt_ofRun p run hc hq, hzero, Dequantizer.dequantize_zero]
  · intro hintact hpos hshort
    have hbroken : run.broken = none := Option.map_eq_none_iff.mp hintact
    change run.levels.length < p.size.coeffs at hshort
    change 0 < run.levels.length at hpos
    rcases hyields.getLast?_levels hbroken (by rwa [Progress.start, length_walk]) with
      ⟨hnil, -⟩ | ⟨x, hx, hlast⟩
    · rw [hnil] at hpos
      exact absurd hpos (Nat.lt_irrefl 0)
    · show (CoefBlock.ofRun p run).levelAt p (run.levels.length - 1) ≠ 0
      rw [CoefBlock.levelAt_ofRun p run (by omega), List.getD_eq_getElem?_getD,
        ← List.getLast?_eq_getElem?, hlast]
      exact hx
  · intro c hc
    obtain ⟨s, hs, rfl⟩ := Option.map_eq_some_iff.mp hc
    obtain ⟨st, q, m, hleads, hhead, hread⟩ := hyields.exists_leads hs
    have hleft : st.left = (walk p.size p.type).drop run.levels.length := hleads.left_eq
    refine ⟨rfl, ?_, st, q, hleads, hhead, congrArg Prod.fst hread,
      Progress.of_read_exhausted hread⟩
    rw [hleft, List.head?_drop] at hhead
    rw [← length_walk p.size p.type]
    exact (List.getElem?_eq_some_iff.mp hhead).1

end

/-! ## Any reader -/

/-- What a decoder makes of a block and an unknown reader. -/
structure DecodesSoundly {ρ : Type} [BoolReader ρ] (d : CoefDecoder) (p : BlockParams) (ctx : Ctx)
    (r : ρ) (block : CoefBlock) (d' : CoefDecoder) (r' : ρ) (reads : Nat) : Prop where
  decodes : d.decodeBlock p ctx r = .ok (block, d', r')
  -- No index is ever past the end of a table or a buffer.
  guarded : Guarded.decodeBlock d p ctx r = .ok (block, d', r')
  metered : d.decodeBlock p ctx (⟨r, 0⟩ : Metered ρ) = .ok (block, d', ⟨r', reads⟩)
  reads_le : reads ≤ 26 * p.size.coeffs
  sound : block.Sound d.probs p ctx r

/-- Every reader leads every decoder to a sound block. -/
theorem decodeBlock_sound {ρ : Type} [BoolReader ρ] (d : CoefDecoder) (p : BlockParams) (ctx : Ctx)
    (r : ρ) : ∃ block d' r' reads, DecodesSoundly d p ctx r block d' r' reads := by
  have hctx : ctx.val ≤ 2 := Nat.le_of_lt_succ ctx.isLt
  obtain ⟨n, hn, hmetered⟩ :=
    readSymbols_metered d.probs p ctx (walk p.size p.type) (noEnergy p.size) true r 0
  have hdec := decodeBlock_ok d p hctx r
  have hdecm := decodeBlock_ok d p hctx (⟨r, 0⟩ : Metered ρ)
  rw [readBlock, hmetered] at hdecm
  rw [Nat.zero_add, length_walk] at hn
  exact ⟨_, _, _, n, hdec, (Guarded.decodeBlock_eq ..).trans hdec, hdecm, hn, sound_ofRun ..⟩

end ResidualCodec
