/-
  ResidualCodec.Proofs.Counts.Independence

  Counting has no influence on coding. Over any sequence of blocks a coder gives
  the same results, and asks its reader for the same decisions, whatever it has
  counted before and whether it counts at all; and what it adds to its counters
  depends on the blocks only.
-/

import ResidualCodec.Proofs.Counts.Balance
import ResidualCodec.Proofs.Counts.Interleaved

namespace ResidualCodec

/-! ## Blocks in a row -/

/-- A block for an encoder. -/
structure BlockSource where
  params : BlockParams
  ctx : Nat
  levels : Array Int
  bound : Nat

/-- Whether the block has a context in range and a level for every coefficient. -/
def BlockSource.Valid (s : BlockSource) : Prop :=
  s.ctx ≤ 2 ∧ s.levels.size = s.params.size.coeffs

section

variable {α β σ τ : Type}

/-- Code blocks one after the other, up to the first fault. -/
def codeAll (step : σ → α → Except Fault (β × σ)) : List α → σ → Except Fault (List β × σ)
  | [], s => .ok ([], s)
  | a :: as, s => do
    let (b, s) ← step s a
    let (bs, s) ← codeAll step as s
    return (b :: bs, s)

/-- Steps that do not fail make a run that does not fail. -/
theorem codeAll_ok {step : σ → α → Except Fault (β × σ)} {as : List α}
    (h : ∀ a ∈ as, ∀ s, ∃ out, step s a = .ok out) (s : σ) :
    ∃ out, codeAll step as s = .ok out := by
  induction as generalizing s with
  | nil => exact ⟨_, rfl⟩
  | cons a as ih =>
    obtain ⟨hfirst, hrest⟩ := List.forall_mem_cons.mp h
    obtain ⟨⟨b, m⟩, hb⟩ := hfirst s
    obtain ⟨⟨bs, s'⟩, hbs⟩ := ih hrest m
    refine ⟨(b :: bs, s'), ?_⟩
    simp only [codeAll]
    rw [hb]
    dsimp only [bind, Except.bind]
    rw [hbs]
    rfl

/-! ## Blind steps -/

/-- A table with something added to it, unless nothing is counted. -/
def CountTable.addUnless (parallel : Bool) (t u : CountTable) : CountTable :=
  if parallel then t else t.merge u

namespace CountTable

variable (parallel : Bool) (t u v : CountTable)

theorem addUnless_empty : t.addUnless parallel .empty = t := by
  cases parallel with
  | true => rfl
  | false => exact merge_empty t

theorem addUnless_addUnless :
    (t.addUnless parallel u).addUnless parallel v = t.addUnless parallel (u.merge v) := by
  cases parallel with
  | true => rfl
  | false => exact merge_assoc t u v

theorem recordUnless_eq_addUnless (k : BlockKind) (es : List CountEvent) :
    t.recordUnless parallel k es = t.addUnless parallel (empty.recordAll k es) := by
  cases parallel with
  | true => rfl
  | false => exact recordAll_eq_merge t k es

end CountTable

/-- A computation of a coder that does the same with every table, in parallel mode or not: its
result, what it adds to the table and what the rest of its state becomes are given before. -/
def Blind (coder : Bool → CountTable → τ → σ) (f : σ → Except Fault (β × σ)) : Prop :=
  ∀ x, ∃ outcome : Except Fault (β × CountTable × τ), ∀ parallel t,
    f (coder parallel t x) = outcome.map fun out =>
      (out.1, coder parallel (t.addUnless parallel out.2.1) out.2.2)

/-- Blind steps make a blind run: what the run adds is what its steps add together. -/
theorem Blind.codeAll {coder : Bool → CountTable → τ → σ} {step : σ → α → Except Fault (β × σ)}
    (h : ∀ a, Blind coder fun s => step s a) (as : List α) :
    Blind coder (ResidualCodec.codeAll step as) := by
  -- The outcome of a run is that of its first step, and that of the others from where the first
  -- one has left the rest of the state; only the tables are added up.
  induction as with
  | nil =>
    intro x
    refine ⟨.ok ([], .empty, x), ?_⟩
    intro parallel t
    show Except.ok (([] : List β), coder parallel t x) = _
    simp only [Except.map]
    rw [CountTable.addUnless_empty]
  | cons a as ih =>
    intro x
    obtain ⟨first, hfirst⟩ := h a x
    dsimp only at hfirst
    cases first with
    | error fault =>
      refine ⟨.error fault, ?_⟩
      intro parallel t
      simp only [ResidualCodec.codeAll]
      rw [hfirst]
      rfl
    | ok out =>
      obtain ⟨b, u, m⟩ := out
      obtain ⟨rest, hrest⟩ := ih m
      refine ⟨rest.map fun out => (b :: out.1, u.merge out.2.1, out.2.2), ?_⟩
      intro parallel t
      simp only [ResidualCodec.codeAll]
      rw [hfirst]
      dsimp only [bind, Except.bind, Except.map]
      rw [hrest]
      cases rest with
      | error => rfl
      | ok out =>
        dsimp only [Except.map]
        rw [CountTable.addUnless_addUnless]
        rfl

end

/-! ## Coders -/

/-- Code a block for the writer: its decisions and what is known about them. -/
def CoefEncoder.encodeNext (e : CoefEncoder) (s : BlockSource) :
    Except Fault ((List Decision × EncodeStats) × CoefEncoder) :=
  (e.encodeBlock s.params s.ctx s.levels s.bound).map fun out =>
    ((out.1.decisions, out.1.stats), out.2)

/-- The same, counting on the way. -/
def CoefEncoder.encodeNextCounting (e : CoefEncoder) (s : BlockSource) :
    Except Fault ((List Decision × EncodeStats) × CoefEncoder) :=
  (e.encodeCounting s.params s.ctx s.levels s.bound).map fun out => ((out.1, out.2.1), out.2.2)

theorem encodeNextCounting_eq (e : CoefEncoder) (s : BlockSource) :
    e.encodeNextCounting s = e.encodeNext s := by
  simp only [CoefEncoder.encodeNextCounting, CoefEncoder.encodeNext]
  rw [encodeCounting_eq]
  cases e.encodeBlock s.params s.ctx s.levels s.bound with
  | error => rfl
  | ok => rfl

theorem blind_encodeNext (probs : ProbTable) (s : BlockSource) :
    Blind (fun parallel t (_ : Unit) => CoefEncoder.mk probs parallel t) fun e =>
      e.encodeNext s := by
  intro _
  refine ⟨(CoefEncoder.estimate ⟨probs, true, .empty⟩ s.params s.ctx s.levels s.bound).map
    fun coded => ((coded.decisions, coded.stats), CountTable.empty.recordAll s.params.kind
      coded.events, ()), ?_⟩
  intro parallel t
  -- No field of the encoder but its probabilities is looked at.
  have hestimate : CoefEncoder.estimate ⟨probs, parallel, t⟩ s.params s.ctx s.levels s.bound =
      CoefEncoder.estimate ⟨probs, true, .empty⟩ s.params s.ctx s.levels s.bound := rfl
  simp only [CoefEncoder.encodeNext, CoefEncoder.encodeBlock]
  rw [hestimate]
  cases CoefEncoder.estimate ⟨probs, true, .empty⟩ s.params s.ctx s.levels s.bound with
  | error => rfl
  | ok coded =>
    dsimp only [bind, Except.bind, Except.map]
    rw [← CountTable.recordUnless_eq_addUnless]
    cases parallel <;> rfl

section

variable {ρ : Type} [BoolReader ρ]

/-- Decode the next block of the reader. -/
def CoefDecoder.decodeNext (s : CoefDecoder × ρ) (b : BlockParams × Nat) :
    Except Fault (CoefBlock × CoefDecoder × ρ) := s.1.decodeBlock b.1 b.2 s.2

/-- The same, counting on the way. -/
def CoefDecoder.decodeNextCounting (s : CoefDecoder × ρ) (b : BlockParams × Nat) :
    Except Fault (CoefBlock × CoefDecoder × ρ) := s.1.decodeCounting b.1 b.2 s.2

theorem blind_decodeNext (probs : ProbTable) (b : BlockParams × Nat) :
    Blind (fun parallel t (r : ρ) => (CoefDecoder.mk probs parallel t, r)) fun s =>
      CoefDecoder.decodeNext s b := by
  intro r
  obtain ⟨p, ctx⟩ := b
  refine ⟨(checkCtx ctx).map fun c =>
    let run := readBlock probs p c r
    (.ofRun p run, CountTable.empty.recordAll p.kind run.events, run.reader), ?_⟩
  intro parallel t
  simp only [CoefDecoder.decodeNext, CoefDecoder.decodeBlock]
  cases checkCtx ctx with
  | error => rfl
  | ok c =>
    dsimp only [bind, Except.bind, Except.map]
    rw [← CountTable.recordUnless_eq_addUnless]
    rfl

end

/-! ## Runs -/

/-- Runs of a coder over the same blocks: started with a table, in parallel mode or not, it gives
its results and the table in the end. -/
abbrev CodingRuns (β : Type) := Bool → CountTable → Except Fault (β × CountTable)

/-- The runs of an encoder, by what it does for a block. -/
def CoefEncoder.runs
    (next : CoefEncoder → BlockSource → Except Fault ((List Decision × EncodeStats) × CoefEncoder))
    (probs : ProbTable) (sources : List BlockSource) :
    CodingRuns (List (List Decision × EncodeStats)) := fun parallel t =>
  (codeAll next sources ⟨probs, parallel, t⟩).map fun out => (out.1, out.2.counts)

/-- The runs of a decoder on a reader, by what it does for a block. The reader in the end is a
result: one that remembers its decisions has been asked for the same ones if it is the same. -/
def CoefDecoder.runs {ρ : Type}
    (next : CoefDecoder × ρ → BlockParams × Nat → Except Fault (CoefBlock × CoefDecoder × ρ))
    (probs : ProbTable) (blocks : List (BlockParams × Nat)) (r : ρ) :
    CodingRuns (List CoefBlock × ρ) := fun parallel t =>
  (codeAll next blocks (⟨probs, parallel, t⟩, r)).map fun out => ((out.1, out.2.2), out.2.1.counts)

/-- Runs that counting has no influence on. -/
structure CodingRuns.Independent {β : Type} (runs : CodingRuns β) : Prop where
  -- The results are the same, or the fault is.
  results : ∀ parallel parallel' t t',
    (runs parallel t).map Prod.fst = (runs parallel' t').map Prod.fst
  kept : ∀ t b t', runs true t = .ok (b, t') → t' = t
  added : ∃ u : CountTable, ∀ t b t', runs false t = .ok (b, t') →
    ∀ s, ∀ f ∈ Tally.counters,
      (f (t'.get s)).toNat = ((f (t.get s)).toNat + (f (u.get s)).toNat) % 2 ^ 32

/-- Runs that add to the table what is given before are independent of it. -/
theorem CodingRuns.independent_of_outcome {β : Type} {runs : CodingRuns β}
    {outcome : Except Fault (β × CountTable)}
    (h : ∀ parallel t, runs parallel t =
      outcome.map fun out => (out.1, t.addUnless parallel out.2)) : runs.Independent := by
  cases outcome with
  | error fault =>
    constructor
    case results =>
      intro parallel parallel' t t'
      rw [h, h]
      rfl
    case kept =>
      intro t b t' hrun
      rw [h] at hrun
      cases hrun
    case added =>
      refine ⟨.empty, ?_⟩
      intro t b t' hrun
      rw [h] at hrun
      cases hrun
  | ok out =>
    constructor
    case results =>
      intro parallel parallel' t t'
      rw [h, h]
      rfl
    case kept =>
      intro t b t' hrun
      rw [h] at hrun
      cases hrun
      rfl
    case added =>
      refine ⟨out.2, ?_⟩
      intro t b t' hrun s f hf
      rw [h] at hrun
      cases hrun
      show (f ((t.merge out.2).get s)).toNat = _
      rw [CountTable.get_merge, Tally.counter_add _ _ hf, UInt32.toNat_add]

theorem independent_encodeNext (probs : ProbTable) (sources : List BlockSource) :
    (CoefEncoder.runs CoefEncoder.encodeNext probs sources).Independent := by
  obtain ⟨outcome, hruns⟩ := Blind.codeAll (blind_encodeNext probs) sources ()
  apply CodingRuns.independent_of_outcome
  case outcome => exact outcome.map fun out => (out.1, out.2.1)
  intro parallel t
  simp only [CoefEncoder.runs]
  rw [hruns]
  cases outcome <;> rfl

theorem independent_decodeNext {ρ : Type} [BoolReader ρ] (probs : ProbTable)
    (blocks : List (BlockParams × Nat)) (r : ρ) :
    (CoefDecoder.runs CoefDecoder.decodeNext probs blocks r).Independent := by
  obtain ⟨outcome, hruns⟩ := Blind.codeAll (blind_decodeNext probs) blocks r
  apply CodingRuns.independent_of_outcome
  case outcome => exact outcome.map fun out => ((out.1, out.2.2), out.2.1)
  intro parallel t
  simp only [CoefDecoder.runs]
  rw [hruns]
  cases outcome <;> rfl

/-- Neither an encoder nor a decoder on any reader is influenced by what it counts, over any
sequence of blocks; nor does it matter to either whether a block is counted on the way or when it is
done. -/
structure CountingIsBlind (probs : ProbTable) (sources : List BlockSource)
    (blocks : List (BlockParams × Nat)) {ρ : Type} [BoolReader ρ] (r : ρ) : Prop where
  encoder : (CoefEncoder.runs CoefEncoder.encodeNext probs sources).Independent
  encoder_counting : CoefEncoder.runs CoefEncoder.encodeNextCounting probs sources =
    CoefEncoder.runs CoefEncoder.encodeNext probs sources
  encoder_total : (∀ s ∈ sources, s.Valid) → ∀ parallel t, ∃ out,
    CoefEncoder.runs CoefEncoder.encodeNext probs sources parallel t = .ok out
  decoder : (CoefDecoder.runs CoefDecoder.decodeNext probs blocks r).Independent
  decoder_counting : CoefDecoder.runs CoefDecoder.decodeNextCounting probs blocks r =
    CoefDecoder.runs CoefDecoder.decodeNext probs blocks r
  decoder_total : (∀ b ∈ blocks, b.2 ≤ 2) → ∀ parallel t, ∃ out,
    CoefDecoder.runs CoefDecoder.decodeNext probs blocks r parallel t = .ok out

theorem countingIsBlind (probs : ProbTable) (sources : List BlockSource)
    (blocks : List (BlockParams × Nat)) {ρ : Type} [BoolReader ρ] (r : ρ) :
    CountingIsBlind probs sources blocks r := by
  constructor
  case encoder => exact independent_encodeNext probs sources
  case encoder_counting =>
    congr 1
    funext e s
    exact encodeNextCounting_eq e s
  case encoder_total =>
    intro hvalid parallel t
    have hstep : ∀ s ∈ sources, ∀ e : CoefEncoder, ∃ out, e.encodeNext s = .ok out := by
      intro s hs e
      obtain ⟨hctx, hsize⟩ := hvalid s hs
      exact ⟨_, congrArg (Except.map _) (encodeBlock_ok e hctx hsize s.bound)⟩
    obtain ⟨out, hout⟩ := codeAll_ok hstep ⟨probs, parallel, t⟩
    exact ⟨_, congrArg (Except.map _) hout⟩
  case decoder => exact independent_decodeNext probs blocks r
  case decoder_counting =>
    congr 1
    funext s b
    exact decodeCounting_eq s.1 b.1 b.2 s.2
  case decoder_total =>
    intro hctx parallel t
    have hstep : ∀ b ∈ blocks, ∀ s : CoefDecoder × ρ, ∃ out,
        CoefDecoder.decodeNext s b = .ok out := by
      intro b hb s
      exact ⟨_, decodeBlock_ok s.1 b.1 (hctx b hb) s.2⟩
    obtain ⟨out, hout⟩ := codeAll_ok hstep (⟨probs, parallel, t⟩, r)
    exact ⟨_, congrArg (Except.map _) hout⟩

end ResidualCodec
