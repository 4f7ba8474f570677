/-
  ResidualCodec.Proofs.Tile.Opposite

  Lossy coding does not prefer a sign. Opposite residuals have opposite
  coefficients, these are quantized to opposite levels, and the code of opposite
  levels differs in its sign bits only, which cost the same either way and are
  not counted.
-/

import ResidualCodec.Proofs.Coefficient.Cost
import ResidualCodec.Proofs.Quant.Nearest
import ResidualCodec.Proofs.Transform.Odd

namespace ResidualCodec

/-! ## Levels -/

theorem Uniform.quantize_neg {step : Nat} (hstep : 4 ≤ step) (s : TransformSize) {coeff : Int}
    (h : coeff.natAbs ≤ 2 ^ 31) : quantize (-coeff) step s = -quantize coeff step s := by
  have hnearest : nearest (-coeff) step s = nearest coeff step s := by
    simp only [nearest]
    rw [Int.natAbs_neg]
  rw [quantize_eq_withSign hstep h, quantize_eq_withSign hstep (by rwa [Int.natAbs_neg]), hnearest]
  apply withSign_neg
  rintro rfl
  exact nearest_zero hstep

theorem Dequantizer.quantize_neg {q : Dequantizer} (hshaped : q.shaped = false) (p : PlaneType)
    (b : Band) (s : TransformSize) {coeff : Int} (h : coeff.natAbs ≤ 2 ^ 31) :
    q.quantize p b (-coeff) s = -q.quantize p b coeff s := by
  simp only [quantize]
  rw [bins?_of_not_shaped hshaped]
  exact Uniform.quantize_neg (q.ofBand_bounds p b).1 s h

theorem quantizeLevels_opposite {p : BlockParams} (hshaped : p.dequant.shaped = false)
    {coeffs coeffs' : Array Int} {bound : Nat} (h : OppositeCoeffs p.size bound coeffs coeffs')
    (hbound : forwardBound p.size bound ≤ 2 ^ 31) :
    quantizeLevels p coeffs' = negated (quantizeLevels p coeffs) := by
  -- Raster position by raster position: either level is quantized in the band of its scan index.
  apply Array.ext
  · rw [size_negated, size_quantizeLevels, size_quantizeLevels]
  · intro j hj hj'
    have hlt : j < p.size.coeffs := by rwa [size_quantizeLevels] at hj
    obtain ⟨b, hb, hlevel⟩ := getD_quantizeLevels coeffs hlt
    obtain ⟨b', hb', hlevel'⟩ := getD_quantizeLevels coeffs' hlt
    cases hb.symm.trans hb'
    rw [Array.getElem_eq_getD 0, Array.getElem_eq_getD 0, getD_negated, hlevel, hlevel',
      h.opposite j hlt]
    exact Dequantizer.quantize_neg hshaped _ _ _ ((h.bounded j hlt).trans hbound)

/-! ## Symbols -/

namespace Symbol

/-- The symbol without its sign. -/
def unsigned (s : Symbol) : Symbol := { s with negative := false }

theorem unsigned_ofLevel_neg (d : BitDepth) (b : Band) (c : Ctx) (checked : Bool) (x : Int) :
    (ofLevel d b c checked (-x)).unsigned = (ofLevel d b c checked x).unsigned := by
  simp only [ofLevel, unsigned]
  rw [Int.natAbs_neg]

theorem token_unsigned (s : Symbol) : s.unsigned.token = s.token := rfl

theorem totalCost_unsigned (probs : NodeProbs) (d : BitDepth) (s : Symbol) :
    totalCost (s.unsigned.decisions probs d) = totalCost (s.decisions probs d) := by
  rcases s with ⟨band, ctx, checked, token, offset, negative⟩
  show totalCost (decisions probs d ⟨band, ctx, checked, token, offset, false⟩) = _
  simp only [decisions]
  by_cases hend : token = .endOfBlock
  · rw [if_pos hend, if_pos hend]
  · rw [if_neg hend, if_neg hend]
    by_cases hzero : token = .zero
    · rw [if_pos hzero, if_pos hzero]
    · -- The sign is the last decision.
      have hsign : totalCost [.even false] = totalCost [.even negative] := by
        simp only [totalCost, Decision.even]
        rw [bitCost_even negative]
      rw [if_neg hzero, if_neg hzero, totalCost_append _ [.even false], hsign, ← totalCost_append]

end Symbol

/-! ## Codes -/

section

variable (probs : ProbTable) (p : BlockParams) (initial : Ctx)

theorem totalCost_map_unsigned (ss : List Symbol) :
    totalCost (symbolDecisions probs p (ss.map Symbol.unsigned)) =
      totalCost (symbolDecisions probs p ss) := by
  induction ss with
  | nil => rfl
  | cons s ss ih =>
    simp only [symbolDecisions, List.map_cons, List.flatMap_cons] at ih ⊢
    rw [totalCost_append, totalCost_append, ih]
    exact congrArg (· + _) (Symbol.totalCost_unsigned _ _ s)

theorem trimZeros_negateAll (xs : List Int) :
    trimZeros (negateAll xs) = negateAll (trimZeros xs) := by
  have hzero : ((· == 0) ∘ fun x : Int => -x) = (· == 0) := by
    funext x
    rw [Function.comp_apply, Bool.eq_iff_iff, beq_iff_eq, beq_iff_eq]
    exact Int.neg_eq_zero
  simp only [trimZeros, negateAll]
  rw [← List.map_reverse, List.dropWhile_map, hzero, List.map_reverse]

theorem codedLevels_negated (levels : Array Int) (bound : Nat) :
    codedLevels p (negated levels) bound = negateAll (codedLevels p levels bound) := by
  have hgather : gather (walk p.size p.type) (negated levels) =
      negateAll (gather (walk p.size p.type) levels) := by
    simp only [gather, negateAll]
    rw [List.map_map]
    exact List.map_congr_left fun q _ => getD_negated levels q.raster
  rw [codedLevels, hgather, codedLevels, ← trimZeros_negateAll]
  exact congrArg trimZeros List.map_take.symm

/-- Symbols of opposite levels differ in their signs at most: contexts are made of tokens, and
tokens of magnitudes. -/
theorem unsigned_symbolsFrom_negateAll (d : BitDepth) (qs : List Position)
    (energies : Array Energy) (checked : Bool) (xs : List Int) :
    (symbolsFrom d initial qs energies checked (negateAll xs)).map Symbol.unsigned =
      (symbolsFrom d initial qs energies checked xs).map Symbol.unsigned := by
  -- Along the positions: equal tokens leave equal energies, and the next contexts are made of them.
  induction qs generalizing energies checked xs with
  | nil => rfl
  | cons q qs ih =>
    cases xs with
    | nil => rfl
    | cons x xs =>
      have hsymbol := Symbol.unsigned_ofLevel_neg d q.band (q.context initial energies) checked x
      have htoken := congrArg Symbol.token hsymbol
      rw [Symbol.token_unsigned, Symbol.token_unsigned] at htoken
      simp only [negateAll, List.map_cons, symbolsFrom]
      rw [hsymbol, htoken]
      exact congrArg (_ :: ·) (ih _ _ xs)

/-- Opposite levels have codes of one size and of one cost, which are counted alike. -/
theorem encodeCoefs_negated (levels : Array Int) (bound : Nat) :
    (encodeCoefs probs p initial (negated levels) bound).stats =
        (encodeCoefs probs p initial levels bound).stats ∧
      (encodeCoefs probs p initial (negated levels) bound).events =
        (encodeCoefs probs p initial levels bound).events := by
  have hunsigned := unsigned_symbolsFrom_negateAll initial p.depth (walk p.size p.type)
    (noEnergy p.size) true (codedLevels p levels bound)
  rw [← codedLevels_negated] at hunsigned
  -- Numbers, costs and events do not change with the signs: it is enough to compare what is left.
  have hlength := congrArg List.length hunsigned
  rw [List.length_map, List.length_map] at hlength
  have hcost := congrArg (fun ss => totalCost (symbolDecisions probs p ss)) hunsigned
  rw [totalCost_map_unsigned, totalCost_map_unsigned] at hcost
  have hevents := congrArg (List.flatMap Symbol.events) hunsigned
  rw [List.flatMap_map, List.flatMap_map] at hevents
  have heob : (codedLevels p (negated levels) bound).length =
      (codedLevels p levels bound).length := by
    rw [codedLevels_negated, length_negateAll]
  refine ⟨?_, hevents⟩
  simp only [encodeCoefs, symbols]
  rw [heob, hlength]
  exact congrArg (EncodeStats.mk _ _) hcost

end

/-! ## Residuals -/

/-- A sample for each position of a block, of 16 bits or the opposite of one. -/
structure ShortSamples (s : TransformSize) (residual : Array Int) : Prop where
  size : s.coeffs ≤ residual.size
  bounded : ∀ j < s.coeffs, (residual.getD j 0).natAbs ≤ 2 ^ 15

/-- A residual and the opposite one, encoded in one place: their levels are opposite, and the
encoder is the same after either of them. -/
structure CodesOpposite (e : CoefEncoder) (p : BlockParams) (ctx : Ctx) (residual : Array Int)
    (block block' : EncodedBlock) (e' : CoefEncoder) : Prop where
  encodes : e.encodeResidual p ctx residual = .ok (block, e')
  encodesNegated : e.encodeResidual p ctx (negated residual) = .ok (block', e')
  levels : block'.levels = negated block.levels
  stats : block'.coded.stats = block.coded.stats
  events : block'.coded.events = block.coded.events

theorem transformResidual_of_not_lossless {p : BlockParams} (h : p.dequant.lossless = false)
    (residual : Array Int) : transformResidual p residual =
      forwardTransform p.size p.type residual (zeroBlock p.size) :=
  if_neg (Bool.eq_false_iff.mp h)

/-- Coefficients of short samples have levels of 32 bits. -/
theorem forwardBound_two_pow_le (s : TransformSize) : forwardBound s (2 ^ 15) ≤ 2 ^ 31 := by
  cases s <;> decide

theorem exists_codesOpposite {p : BlockParams} (hlossless : p.dequant.lossless = false)
    (hshaped : p.dequant.shaped = false) (hadmits : p.size.Admits p.type) (e : CoefEncoder)
    (ctx : Ctx) {residual : Array Int} (h : ShortSamples p.size residual) :
    ∃ block block' e', CodesOpposite e p ctx residual block block' e' := by
  have hroom : p.size.coeffs ≤ (zeroBlock p.size).size := (size_zeroBlock p.size).ge
  obtain ⟨coeffs, coeffs', hcoeffs, hcoeffs', hopposite⟩ := exists_oppositeCoeffs hadmits h.size
    hroom hroom (fitsForward_two_pow p.size) h.bounded
  rw [← transformResidual_of_not_lossless hlossless] at hcoeffs hcoeffs'
  have hlevels := quantizeLevels_opposite hshaped hopposite (forwardBound_two_pow_le p.size)
  obtain ⟨hstats, hevents⟩ :=
    encodeCoefs_negated e.probs p ctx (quantizeLevels p coeffs) p.size.coeffs
  rw [← hlevels] at hstats hevents
  -- The encoders have counted the same events, so they are the same.
  have hencodes := (encodesResidual_of_transform e ctx hcoeffs).encodes
  have hencodes' := (encodesResidual_of_transform e ctx hcoeffs').encodes
  rw [hevents] at hencodes'
  exact ⟨_, _, _, hencodes, hencodes', hlevels, hstats, hevents⟩

/-- To change the signs of a residual is to change the signs of its coefficients, whatever the size
and the type of the transform. Of blocks with equal steps it changes the signs of the levels, and
neither the number of positions, tokens or bits nor what is counted. -/
theorem negated_residual :
    (∀ (s : TransformSize) (t : TransformType) (residual output output' : Array Int),
      s.Admits t → ShortSamples s residual → s.coeffs ≤ output.size → s.coeffs ≤ output'.size →
      ∃ coeffs coeffs', forwardTransform s t residual output = .ok coeffs ∧
        forwardTransform s t (negated residual) output' = .ok coeffs' ∧
        ∀ j < s.coeffs, coeffs'.getD j 0 = -coeffs.getD j 0) ∧
    ∀ (e : CoefEncoder) (p : BlockParams) (ctx : Ctx) (residual : Array Int),
      p.dequant.lossless = false → p.dequant.shaped = false → p.size.Admits p.type →
      ShortSamples p.size residual →
      ∃ block block' e', CodesOpposite e p ctx residual block block' e' := by
  constructor
  · intro s t residual output output' hadmits h hroom hroom'
    obtain ⟨coeffs, coeffs', hcoeffs, hcoeffs', hopposite⟩ := exists_oppositeCoeffs hadmits h.size
      hroom hroom' (fitsForward_two_pow s) h.bounded
    exact ⟨coeffs, coeffs', hcoeffs, hcoeffs', hopposite.opposite⟩
  · intro e p ctx residual hlossless hshaped hadmits h
    exact exists_codesOpposite hlossless hshaped hadmits e ctx h

/-- Samples at both ends of their range. -/
theorem negated_residual_extremes :
    let e : CoefEncoder := ⟨.standard, false, .empty⟩
    let p : BlockParams :=
      ⟨⟨.s4, .luma, .inter⟩, ⟨.adst, .dct⟩, .ofFrame { base := 60 } .eight⟩
    let residual : Array Int :=
      #[32768, -32768, 1, 0, -32767, 3, 0, 0, 5, 0, 0, -7, 0, 0, 0, 32768]
    (∃ coeffs coeffs', forwardTransform .s4 p.type residual (zeroBlock .s4) = .ok coeffs ∧
      forwardTransform .s4 p.type (negated residual) (zeroBlock .s4) = .ok coeffs' ∧
      ∀ j < 16, coeffs'.getD j 0 = -coeffs.getD j 0) ∧
    ∃ block block' e', CodesOpposite e p 0 residual block block' e' ∧
      block'.levels = #[-524, 2431, -1338, 324, 2259, -865, 0, -2087, -1284, -470, -3853, -2161,
        -838, -2903, -2515, -2486] := by
  intro e p residual
  have hshort : ShortSamples .s4 residual := ⟨by decide, by decide +kernel⟩
  have hadmits : TransformSize.s4.Admits p.type := by decide
  have hroom : TransformSize.s4.coeffs ≤ (zeroBlock .s4).size := (size_zeroBlock .s4).ge
  obtain ⟨block, block', e', h⟩ := negated_residual.2 e p 0 residual rfl rfl hadmits hshort
  refine ⟨negated_residual.1 .s4 p.type residual _ _ hadmits hshort hroom hroom,
    block, block', e', h, ?_⟩
  have hlevels : (e.encodeResidual p (0 : Ctx) (negated residual)).map (·.1.levels) =
      .ok #[-524, 2431, -1338, 324, 2259, -865, 0, -2087, -1284, -470, -3853, -2161,
        -838, -2903, -2515, -2486] := by
    decide +kernel
  rw [h.encodesNegated] at hlevels
  exact Except.ok.inj hlevels

end ResidualCodec
