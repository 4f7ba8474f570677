/-
  ResidualCodec.Proofs.Coefficient.Canonical

  A block has one coding. Whatever bits a decoder has taken for an intact block,
  encoding the levels again writes the same bits with the same probabilities,
  unless the block ends in zeros at its last position: an encoder would have
  written an end of block before them.
-/

import ResidualCodec.Proofs.Coefficient.Sound
import ResidualCodec.Proofs.Token.Canonical

namespace ResidualCodec

/-! ## Symbols -/

namespace Symbol

variable {d : BitDepth} {s : Symbol}

/-- The sign of a symbol is that of its level. -/
theorem Codable.negative_eq (h : s.Codable d) {x : Int} (hx : s.level? = some x) :
    s.negative = decide (x < 0) := by
  have hend := ne_endOfBlock_of_level? hx
  rw [level?_of_ne_endOfBlock hend] at hx
  have hlevel := Option.some.inj hx
  cases hneg : s.negative with
  | false =>
    rw [hneg, if_neg Bool.false_ne_true] at hlevel
    exact (decide_eq_false (by omega)).symm
  | true =>
    have hzero : s.token ≠ .zero := by
      intro hzero
      rw [h.positive (.inl hzero)] at hneg
      cases hneg
    have hpos := base_pos hzero hend
    rw [hneg, if_pos rfl] at hlevel
    exact (decide_eq_true (by omega)).symm

/-- The symbol of a level is the only one with this level. -/
theorem Codable.ofLevel_eq (h : s.Codable d) {x : Int} (hx : s.level? = some x) :
    ofLevel d s.band s.ctx s.checked x = s := by
  have hmin : min x.natAbs (maxMagnitude d) = s.token.base + s.offset := by
    rw [natAbs_of_level? hx]
    exact Nat.min_eq_left h.magnitude_le
  have htoken : Token.ofMagnitude (s.token.base + s.offset) = s.token :=
    Token.ofMagnitude_base_add (ne_endOfBlock_of_level? hx) h.offset_lt
  simp only [ofLevel]
  rw [hmin, htoken, Nat.add_sub_cancel_left, ← h.negative_eq hx]

end Symbol

/-! ## Reading a symbol -/

/-- A symbol that was read at a place: the reader has answered its decisions, and is not
exhausted by them. -/
structure Symbol.Answered {ρ : Type} [BoolReader ρ] (s : Symbol) (ds : List Decision) (b : Band)
    (c : Ctx) (checked : Bool) (r r' : ρ) : Prop where
  band : s.band = b
  ctx : s.ctx = c
  checked : s.checked = checked
  answers : Answers r ds r'
  inside : BoolReader.overrun r' = false

section

variable {ρ : Type} [BoolReader ρ] {r r' : ρ} {probs : NodeProbs} {d : BitDepth} {b : Band}
  {c : Ctx} {checked : Bool} {s : Symbol}

theorem answered_of_readCoefficient
    (h : readCoefficient probs d b c checked r = (.symbol s, r')) :
    s.token ≠ .endOfBlock ∧ s.Answered (s.valueDecisions probs d) b c checked r r' := by
  simp only [readCoefficient] at h
  cases hread : BoolReader.read r probs.zero with
  | mk nonzero m =>
    rw [hread] at h
    dsimp only at h
    cases nonzero with
    | false =>
      rw [if_neg Bool.false_ne_true] at h
      split at h
      case isTrue => cases h
      case isFalse hover =>
        cases h
        exact ⟨Token.noConfusion, rfl, rfl, rfl, .cons hread (.nil _),
          Bool.eq_false_of_not_eq_true hover⟩
    | true =>
      rw [if_pos rfl] at h
      split at h
      case isTrue => cases h
      case isFalse hover =>
        cases h
        obtain ⟨hzero, hend⟩ := readToken_ne probs m
        refine ⟨hend, rfl, rfl, rfl, ?_, Bool.eq_false_of_not_eq_true hover⟩
        simp only [Symbol.valueDecisions]
        rw [if_neg hzero]
        exact .cons hread <| (answers_readToken probs m).append <|
          (answers_readExtra _ _ 0).append (answers_readBit _)

/-- What a reader answers for a symbol is what is written for the symbol. -/
theorem answered_of_readSymbol (h : readSymbol probs d b c checked r = (.symbol s, r')) :
    s.Answered (s.decisions probs d) b c checked r r' := by
  cases checked with
  | false =>
    obtain ⟨hend, hvalue⟩ := answered_of_readCoefficient h
    rw [Symbol.decisions_of_ne_endOfBlock probs d hend, hvalue.checked]
    exact hvalue
  | true =>
    rw [readSymbol_checked] at h
    dsimp only at h
    split at h
    case isTrue => cases h
    case isFalse hover =>
      split at h
      case isTrue hmore =>
        obtain ⟨hend, hvalue⟩ := answered_of_readCoefficient h
        have hasked := answers_read r probs.endOfBlock
        rw [hmore] at hasked
        rw [Symbol.decisions_of_ne_endOfBlock probs d hend, hvalue.checked, if_pos rfl]
        exact { hvalue with answers := hasked.append hvalue.answers }
      case isFalse hmore =>
        cases h
        have hasked := answers_read r probs.endOfBlock
        rw [Bool.eq_false_of_not_eq_true hmore] at hasked
        exact ⟨rfl, rfl, rfl, hasked, Bool.eq_false_of_not_eq_true hover⟩

end

/-! ## Runs -/

section

variable {ρ : Type} [BoolReader ρ] {probs : ProbTable} {p : BlockParams} {initial : Ctx}
  {st : Progress ρ} {run : SymbolRun ρ}

namespace Progress

theorem answered_of_read {q : Position} {s : Symbol} {r : ρ}
    (h : st.read probs p initial q = (.symbol s, r)) :
    s.Answered (s.decisions (probs.get ⟨p.kind, s.band, s.ctx⟩) p.depth) q.band
      (q.context initial st.energies) st.checked st.reader r := by
  have hanswered := answered_of_readSymbol h
  rw [hanswered.band, hanswered.ctx]
  exact hanswered

/-- An intact run holds the symbols of its levels. -/
theorem Yields.symbolsFrom_levels (h : Yields probs p initial st run)
    (hintact : run.broken = none) :
    symbolsFrom p.depth initial st.left st.energies st.checked run.levels = run.symbols := by
  induction h with
  | complete left =>
    rw [left]
    rfl
  | exhausted => cases hintact
  | @ended st q qs s r left read token =>
    have hs := answered_of_read read
    have hend := (of_read_symbol read).1.endOfBlock_eq token
    rw [hs.band, hs.ctx] at hend
    rw [left, SymbolRun.levels_ended token]
    exact congrArg (· :: []) hend
  | @symbol st q qs s r run left read token rest ih =>
    have hs := answered_of_read read
    obtain ⟨x, hx, hlevels⟩ := run.levels_cons token
    have hsymbol := (of_read_symbol read).1.ofLevel_eq hx
    rw [hs.band, hs.ctx, hs.checked] at hsymbol
    have hrest := ih hintact
    rw [next_left left] at hrest
    rw [left, hlevels]
    simp only [symbolsFrom]
    rw [hsymbol]
    exact congrArg (s :: ·) hrest

/-- The reader of an intact run has answered the decisions of its symbols. -/
theorem Yields.answers (h : Yields probs p initial st run) (hintact : run.broken = none) :
    Answers st.reader (symbolDecisions probs p run.symbols) run.reader := by
  induction h with
  | complete => exact .nil _
  | exhausted => cases hintact
  | @ended st q qs s r left read token =>
    show Answers st.reader (_ ++ []) r
    rw [List.append_nil]
    exact (answered_of_read read).answers
  | symbol left read token rest ih => exact (answered_of_read read).answers.append (ih hintact)

/-- A reader that an intact run has started with before its end is not past its end behind it. -/
theorem Yields.inside (h : Yields probs p initial st run) (hintact : run.broken = none)
    (hstart : BoolReader.overrun st.reader = false) : BoolReader.overrun run.reader = false := by
  induction h with
  | complete => exact hstart
  | exhausted => cases hintact
  | ended left read token => exact (answered_of_read read).inside
  | symbol left read token rest ih => exact ih hintact (answered_of_read read).inside

end Progress

end

/-! ## Levels -/

theorem trimZeros_append_replicate {xs : List Int} (hlast : xs.getLast? ≠ some 0) (n : Nat) :
    trimZeros (xs ++ List.replicate n 0) = xs := by
  rw [trimZeros_eq_rdropWhile]
  induction n with
  | zero =>
    rw [List.replicate_zero, List.append_nil, List.rdropWhile_eq_self_iff]
    intro hne hzero
    rw [List.getLast?_eq_some_getLast hne, eq_of_beq hzero] at hlast
    exact hlast rfl
  | succ n ih =>
    rw [List.replicate_succ', ← List.append_assoc, List.rdropWhile_concat_pos _ _ _ rfl, ih]

/-- What was scattered is gathered again, with the zeros of the positions that were left over. -/
theorem gather_scatter_walk {s : TransformSize} {t : TransformType} {xs : List Int}
    (hlen : xs.length ≤ s.coeffs) :
    gather (walk s t) (scatter s.coeffs (walk s t) xs) =
      xs ++ List.replicate (s.coeffs - xs.length) 0 := by
  apply List.ext_getElem?
  intro i
  by_cases hi : i < s.coeffs
  · obtain ⟨q, hq, -, hlt⟩ := walk_scan (t := t) hi
    simp only [gather]
    rw [List.getElem?_map, hq, Option.map_some, Array.getD_eq_getD_getElem?,
      getElem?_scatter (enumerates_walk s t).nodup xs hq hlt, Option.getD_some,
      List.getD_eq_getElem?_getD, List.getElem?_append]
    split
    case isTrue hin => rw [List.getElem?_eq_getElem hin, Option.getD_some]
    case isFalse hout =>
      rw [List.getElem?_eq_none (by omega), List.getElem?_replicate, if_pos (by omega),
        Option.getD_none]
  · rw [List.getElem?_eq_none (by rw [length_gather_walk]; omega), List.getElem?_eq_none]
    rw [List.length_append, List.length_replicate]
    omega

/-! ## Blocks -/

namespace CoefBlock

/-- The last position of the block was coded, and as a zero. -/
def EndsInZeros (p : BlockParams) (block : CoefBlock) : Prop :=
  block.eob = p.size.coeffs ∧ block.levelAt p (p.size.coeffs - 1) = 0

section

variable {ρ : Type} {p : BlockParams} {run : SymbolRun ρ}

theorem endsInZeros_ofRun_iff : (ofRun p run).EndsInZeros p ↔
    run.levels.length = p.size.coeffs ∧ run.levels.getLast? = some 0 := by
  have hpos := p.size.coeffs_pos
  apply and_congr_right
  intro hfull
  change run.levels.length = p.size.coeffs at hfull
  rw [levelAt_ofRun p run (by omega), List.getD_eq_getElem?_getD, List.getLast?_eq_getElem?,
    hfull, List.getElem?_eq_getElem (by omega), Option.getD_some, Option.some_inj]

end

end CoefBlock

section

variable {ρ : Type} [BoolReader ρ] {probs : ProbTable} {p : BlockParams} {initial : Ctx} {r : ρ}

/-- The levels of a block that does not end in zeros are coded as they were read. -/
theorem codedLevels_ofRun (hintact : (readBlock probs p initial r).broken = none)
    (hzeros : ¬ (CoefBlock.ofRun p (readBlock probs p initial r)).EndsInZeros p) :
    codedLevels p (CoefBlock.ofRun p (readBlock probs p initial r)).levels p.size.coeffs =
      (readBlock probs p initial r).levels := by
  have hyields : Progress.Yields probs p initial (.start p r) (readBlock probs p initial r) :=
    Progress.yields_run _
  have hlen := length_levels_readBlock probs p initial r
  rw [CoefBlock.endsInZeros_ofRun_iff] at hzeros
  generalize readBlock probs p initial r = run at *
  have hlast : run.levels.getLast? ≠ some 0 := by
    intro hzero
    by_cases hfull : run.levels.length = p.size.coeffs
    · exact hzeros ⟨hfull, hzero⟩
    · have hshort : run.levels.length < (Progress.start p r).left.length := by
        rw [Progress.start, length_walk]
        omega
      rcases hyields.getLast?_levels hintact hshort with ⟨hnil, -⟩ | ⟨x, hx, hlast⟩
      · rw [hnil] at hzero
        cases hzero
      · exact hx (Option.some.inj (hlast.symm.trans hzero))
  simp only [codedLevels]
  show trimZeros (List.take _ (gather _ (scatter _ _ run.levels))) = _
  rw [List.take_of_length_le (Nat.le_of_eq (length_gather_walk _)), gather_scatter_walk hlen,
    trimZeros_append_replicate hlast]

end

/-! ## Canonical decisions -/

/-- A block that was decoded from bits, and encoded again. -/
structure Reencoded (p : BlockParams) (bits : List Bool) (block : CoefBlock) (r : Script)
    (coded : EncodedCoefs) : Prop where
  -- The decisions that are written have the bits that were read.
  bits : bits = coded.decisions.map Decision.bit ++ r.rest
  -- They are as many as were read, with the probabilities that were asked with.
  reader : r = { rest := r.rest, taken := coded.decisions.length, exhausted := false,
                 asked := (coded.decisions.map Decision.prob).reverse }
  eob : coded.stats.eob = block.eob

/-- The levels of an intact run are coded as they were read. -/
theorem reencoded_readBlock (probs : ProbTable) (p : BlockParams) (initial : Ctx) (bits : List Bool)
    (hintact : (readBlock probs p initial ({ rest := bits } : Script)).broken = none) :
    let run := readBlock probs p initial ({ rest := bits } : Script)
    ¬ (CoefBlock.ofRun p run).EndsInZeros p →
      Reencoded p bits (.ofRun p run) run.reader
        (encodeCoefs probs p initial (CoefBlock.ofRun p run).levels p.size.coeffs) := by
  intro run hzeros
  have hyields : Progress.Yields probs p initial (.start p ({ rest := bits } : Script)) run :=
    Progress.yields_run _
  have hlevels := codedLevels_ofRun hintact hzeros
  have hsymbols := hyields.symbolsFrom_levels hintact
  have hanswers := hyields.answers hintact
  rw [← hsymbols, ← hlevels] at hanswers
  obtain ⟨hbits, hreader⟩ := Script.of_answers hanswers (hyields.inside hintact rfl)
  rw [List.append_nil, Nat.zero_add] at hreader
  exact ⟨hbits, hreader, congrArg List.length hlevels⟩

/-- Encoding an intact block again writes what was read for it. -/
theorem encodeBlock_of_decodeBlock (e : CoefEncoder) {d d' : CoefDecoder}
    (hprobs : e.probs = d.probs) {p : BlockParams} {ctx : Nat} {bits : List Bool}
    {block : CoefBlock} {r : Script}
    (h : d.decodeBlock p ctx ({ rest := bits } : Script) = .ok (block, d', r))
    (hintact : block.corruption = none) (hzeros : ¬ block.EndsInZeros p) :
    ∃ coded e', e.encodeBlock p ctx block.levels p.size.coeffs = .ok (coded, e') ∧
      Reencoded p bits block r coded := by
  have hctx := le_of_decodeBlock h
  rw [decodeBlock_ok d p hctx] at h
  cases h
  refine ⟨_, _, encodeBlock_ok e hctx (size_scatter _ _ _) _, ?_⟩
  rw [hprobs]
  exact reencoded_readBlock _ _ _ _ (Option.map_eq_none_iff.mp hintact) hzeros

/-- The decisions are a coding of the levels: a decoder that is given their bits takes them all,
asks with their probabilities, and arrives at the levels, in a block that is intact and does not end
in zeros. -/
def IsCoding (d : CoefDecoder) (p : BlockParams) (ctx : Nat) (levels : Array Int)
    (ds : List Decision) : Prop :=
  ∃ block d',
    d.decodeBlock p ctx ({ rest := ds.map Decision.bit } : Script) =
      .ok (block, d', { rest := [], taken := ds.length, exhausted := false,
                        asked := (ds.map Decision.prob).reverse }) ∧
    block.corruption = none ∧ ¬ block.EndsInZeros p ∧ block.levels = levels

/-- The levels of a whole block, none of them beyond what can be coded. -/
def CodableLevels (p : BlockParams) (levels : Array Int) : Prop :=
  levels.size = p.size.coeffs ∧ ∀ x ∈ levels, x.natAbs ≤ maxMagnitude p.depth

theorem eq_of_map_bit_of_map_prob {ds es : List Decision}
    (hbits : ds.map Decision.bit = es.map Decision.bit)
    (hprobs : ds.map Decision.prob = es.map Decision.prob) : ds = es := by
  induction ds generalizing es with
  | nil => exact (List.map_eq_nil_iff.mp hbits.symm).symm
  | cons d ds ih =>
    obtain ⟨e, es, rfl, -, -⟩ := List.map_eq_cons_iff.mp hbits.symm
    obtain ⟨hbit, hbits⟩ := List.cons.inj hbits
    obtain ⟨hprob, hprobs⟩ := List.cons.inj hprobs
    rw [ih hbits hprobs, show d = e from congr (congrArg Decision.mk hbit) hprob]

section

variable {d : CoefDecoder} {p : BlockParams} {ctx : Nat} {levels : Array Int} {ds : List Decision}

/-- A coding is what an encoder writes. -/
theorem IsCoding.eq_decisions (h : IsCoding d p ctx levels ds) {e e' : CoefEncoder}
    (hprobs : e.probs = d.probs) {coded : EncodedCoefs}
    (hcoded : e.encodeBlock p ctx levels p.size.coeffs = .ok (coded, e')) :
    ds = coded.decisions := by
  obtain ⟨block, d', hdec, hintact, hzeros, rfl⟩ := h
  obtain ⟨coded', e'', henc, hre⟩ := encodeBlock_of_decodeBlock e hprobs hdec hintact hzeros
  rw [hcoded] at henc
  cases henc
  have hasked := congrArg Script.asked hre.reader
  apply eq_of_map_bit_of_map_prob
  · exact hre.bits.trans (List.append_nil _)
  · exact List.reverse_injective hasked

/-- Nothing but codable levels has a coding. -/
theorem IsCoding.codable (h : IsCoding d p ctx levels ds) : CodableLevels p levels := by
  obtain ⟨block, d', hdec, -, -, rfl⟩ := h
  have hctx := le_of_decodeBlock hdec
  rw [decodeBlock_ok d p hctx] at hdec
  obtain ⟨rfl, -⟩ := Prod.mk.inj (Except.ok.inj hdec)
  have hsound := sound_ofRun d.probs p ⟨ctx, by omega⟩
    ({ rest := ds.map Decision.bit } : Script)
  exact ⟨hsound.size_levels, hsound.bounded⟩

/-- The symbols of codable levels are those of a block that holds the levels unchanged. -/
theorem ofRun_symbols_of_codable (probs : ProbTable) (initial : Ctx) (r : Script)
    (h : CodableLevels p levels) :
    let block := CoefBlock.ofRun p
      ⟨symbols p initial (codedLevels p levels p.size.coeffs), none, r⟩
    ¬ block.EndsInZeros p ∧ block.levels = levels := by
  obtain ⟨hsize, hbound⟩ := h
  have hrecovers := recovers_ofRun probs p initial levels p.size.coeffs r
  constructor
  · rw [CoefBlock.endsInZeros_ofRun_iff, levels_symbols, List.getLast?_map]
    rintro ⟨-, hzero⟩
    obtain ⟨x, hlast, hx⟩ := Option.map_eq_some_iff.mp hzero
    rw [eq_zero_of_clampLevel hx] at hlast
    exact getLast?_trimZeros _ hlast
  · apply Array.ext
    · exact hrecovers.size.trans hsize.symm
    · intro j hj hj'
      have hlt : j < p.size.coeffs := hsize ▸ hj'
      have hlevel := hrecovers.level j hlt
      rw [if_pos (scanIndex_lt hlt), Array.getD_eq_getD_getElem?, Array.getD_eq_getD_getElem?,
        Array.getElem?_eq_getElem hj, Array.getElem?_eq_getElem hj', Option.getD_some,
        Option.getD_some, clampLevel_of_le (hbound _ (Array.getElem_mem hj'))] at hlevel
      exact hlevel

/-- What an encoder writes for codable levels is a coding of them. -/
theorem isCoding_of_encodeBlock {e e' : CoefEncoder} (hprobs : e.probs = d.probs)
    (h : CodableLevels p levels) {coded : EncodedCoefs}
    (hcoded : e.encodeBlock p ctx levels p.size.coeffs = .ok (coded, e')) :
    IsCoding d p ctx levels coded.decisions := by
  have hctx := (le_of_encodeBlock hcoded).1
  cases (encodeBlock_ok e hctx h.1 p.size.coeffs).symm.trans hcoded
  rw [hprobs]
  let ds := (encodeCoefs d.probs p ⟨ctx, by omega⟩ levels p.size.coeffs).decisions
  have hreplays := Script.replays ds [] 0 []
  rw [Nat.zero_add, List.append_nil, List.append_nil] at hreplays
  have hdec := decodeBlock_ok d p hctx ({ rest := ds.map Decision.bit } : Script)
  rw [readBlock_of_replays hreplays] at hdec
  obtain ⟨hzeros, hlevels⟩ := ofRun_symbols_of_codable d.probs ⟨ctx, by omega⟩ _ h
  exact ⟨_, _, hdec, rfl, hzeros, hlevels⟩

end

/-- Encoding undoes decoding: an encoder of the same probabilities writes for an intact block what
was read for it, unless the block ends in zeros. So there is one coding for every block of levels
that can be coded, and none for the others. -/
theorem encodeBlock_decodeBlock (e : CoefEncoder) (d : CoefDecoder) (hprobs : e.probs = d.probs)
    (p : BlockParams) {ctx : Nat} (hctx : ctx ≤ 2) :
    (∀ bits block d' r, d.decodeBlock p ctx ({ rest := bits } : Script) = .ok (block, d', r) →
      block.corruption = none → ¬ block.EndsInZeros p →
      ∃ coded e', e.encodeBlock p ctx block.levels p.size.coeffs = .ok (coded, e') ∧
        Reencoded p bits block r coded) ∧
    ∀ levels, (∃! ds, IsCoding d p ctx levels ds) ↔ CodableLevels p levels := by
  constructor
  · intro bits block d' r hdec hintact hzeros
    exact encodeBlock_of_decodeBlock e hprobs hdec hintact hzeros
  · intro levels
    constructor
    · rintro ⟨ds, hds, -⟩
      exact hds.codable
    · intro hlevels
      have henc := encodeBlock_ok e hctx hlevels.1 p.size.coeffs
      refine ⟨_, isCoding_of_encodeBlock hprobs hlevels henc, ?_⟩
      intro ds hds
      exact hds.eq_decisions hprobs henc

/-- The only coding of a block of 4x4, which is decoded and encoded again. -/
theorem encodeBlock_decodeBlock_small :
    let e : CoefEncoder := ⟨.standard, false, .empty⟩
    let d : CoefDecoder := ⟨.standard, true, .empty⟩
    let p : BlockParams := ⟨⟨.s4, .luma, .inter⟩, ⟨.adst, .dct⟩, .ofFrame {} .eight⟩
    let levels : Array Int := #[3, 0, 0, -16450, 1, 0, 0, 0, 0, 0, 0, 0, 0, 0, 0, -1]
    e.probs = d.probs ∧ 0 ≤ 2 ∧ CodableLevels p levels ∧ (∃! ds, IsCoding d p 0 levels ds) ∧
      ∃ bits block d' r coded e',
        d.decodeBlock p 0 ({ rest := bits } : Script) = .ok (block, d', r) ∧
        block.corruption = none ∧ ¬ block.EndsInZeros p ∧ block.levels = levels ∧
        e.encodeBlock p 0 block.levels p.size.coeffs = .ok (coded, e') ∧
        Reencoded p bits block r coded := by
  intro e d p levels
  obtain ⟨hencode, hcoding⟩ := encodeBlock_decodeBlock e d rfl p (show 0 ≤ 2 by decide)
  have hlevels : CodableLevels p levels := ⟨rfl, by decide⟩
  obtain ⟨ds, ⟨block, d', hdec, hintact, hzeros, hblock⟩, -⟩ := (hcoding levels).mpr hlevels
  obtain ⟨coded, e', henc, hre⟩ := hencode _ _ _ _ hdec hintact hzeros
  exact ⟨rfl, by decide, hlevels, (hcoding levels).mpr hlevels, _, block, d', _, coded, e', hdec,
    hintact, hzeros, hblock, henc, hre⟩

end ResidualCodec
