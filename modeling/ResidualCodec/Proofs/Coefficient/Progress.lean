/-
  ResidualCodec.Proofs.Coefficient.Progress

  A block is read symbol by symbol, from its first position to its last one, an
  end of block, or the end of the reader. How a run comes about is a relation of
  four rules, and what holds of every run is proved along them.
-/

import ResidualCodec.Proofs.Coefficient.Reading

namespace ResidualCodec

/-! ## Levels of a run -/

namespace SymbolRun

variable {ρ : Type}

/-- Every symbol but the end of block adds its level in front. -/
theorem levels_cons {s : Symbol} (hs : s.token ≠ .endOfBlock) (run : SymbolRun ρ) :
    ∃ x, s.level? = some x ∧
      levels { run with symbols := s :: run.symbols } = x :: run.levels := by
  refine ⟨_, Symbol.level?_of_ne_endOfBlock hs, ?_⟩
  simp only [levels]
  rw [List.filterMap_cons, Symbol.level?_of_ne_endOfBlock hs]

theorem levels_ended {s : Symbol} (hs : s.token = .endOfBlock) (r : ρ) :
    levels (⟨[s], none, r⟩ : SymbolRun ρ) = [] := by
  simp only [levels]
  rw [List.filterMap_cons, Symbol.level?, if_pos hs]
  rfl

end SymbolRun

/-- How far a decoder is inside a block. -/
structure Progress (ρ : Type) where
  -- Positions that are not read yet.
  left : List Position
  energies : Array Energy
  -- Whether the end of block is asked for next.
  checked : Bool
  reader : ρ

namespace Progress

variable {ρ : Type}

/-! ## Steps -/

/-- Where a block starts. -/
def start (p : BlockParams) (r : ρ) : Progress ρ :=
  ⟨walk p.size p.type, noEnergy p.size, true, r⟩

/-- Probabilities at a position. -/
def nodeProbs (st : Progress ρ) (probs : ProbTable) (p : BlockParams) (initial : Ctx)
    (q : Position) : NodeProbs :=
  probs.get ⟨p.kind, q.band, q.context initial st.energies⟩

/-- Behind a symbol at the next position. -/
def next (st : Progress ρ) (q : Position) (s : Symbol) (r : ρ) : Progress ρ :=
  ⟨st.left.tail, st.energies.setIfInBounds q.raster s.token.energy, s.token != .zero, r⟩

theorem next_left {st : Progress ρ} {q : Position} {qs : List Position} (h : st.left = q :: qs)
    (s : Symbol) (r : ρ) : (st.next q s r).left = qs := by
  simp only [next]
  rw [h]
  rfl

variable [BoolReader ρ]

/-- Read a symbol at a position. -/
def read (st : Progress ρ) (probs : ProbTable) (p : BlockParams) (initial : Ctx) (q : Position) :
    SymbolRead × ρ :=
  readSymbol (st.nodeProbs probs p initial q) p.depth q.band (q.context initial st.energies)
    st.checked st.reader

/-- The run over all positions that are left. -/
def run (st : Progress ρ) (probs : ProbTable) (p : BlockParams) (initial : Ctx) : SymbolRun ρ :=
  readSymbols probs p initial st.left st.energies st.checked st.reader

variable {probs : ProbTable} {p : BlockParams} {initial : Ctx} {st : Progress ρ} {q : Position}
  {r : ρ}

theorem of_read_symbol {s : Symbol} (h : st.read probs p initial q = (.symbol s, r)) :
    s.Codable p.depth ∧ (s.token = .endOfBlock → st.checked = true) := by
  rcases readSymbol_spec (st.nodeProbs probs p initial q) p.depth q.band
    (q.context initial st.energies) st.checked st.reader with ⟨token, hread, -⟩ | ⟨t, hread, ht⟩
  · cases hread.symm.trans (congrArg Prod.fst h)
  · cases hread.symm.trans (congrArg Prod.fst h)
    exact ht

theorem of_read_exhausted {token : Option Token}
    (h : st.read probs p initial q = (.exhausted token, r)) :
    token = none ↔ ExhaustedAtEnd (st.nodeProbs probs p initial q) st.checked st.reader := by
  rcases readSymbol_spec (st.nodeProbs probs p initial q) p.depth q.band
    (q.context initial st.energies) st.checked st.reader with ⟨token', hread, ht⟩ | ⟨t, hread, -⟩
  · cases hread.symm.trans (congrArg Prod.fst h)
    exact ht
  · cases hread.symm.trans (congrArg Prod.fst h)

/-! ## Runs -/

/-- A run as it comes about: the positions are complete, or the reader is exhausted, or the block
ends, or a symbol is read and the run goes on behind it. -/
inductive Yields (probs : ProbTable) (p : BlockParams) (initial : Ctx) :
    Progress ρ → SymbolRun ρ → Prop where
  | complete {st : Progress ρ} (left : st.left = []) :
      Yields probs p initial st ⟨[], none, st.reader⟩
  | exhausted {st : Progress ρ} {q : Position} {qs : List Position} {token : Option Token} {r : ρ}
      (left : st.left = q :: qs) (read : st.read probs p initial q = (.exhausted token, r)) :
      Yields probs p initial st
        ⟨[], some ⟨q.band, q.context initial st.energies, st.checked, token⟩, r⟩
  | ended {st : Progress ρ} {q : Position} {qs : List Position} {s : Symbol} {r : ρ}
      (left : st.left = q :: qs) (read : st.read probs p initial q = (.symbol s, r))
      (token : s.token = .endOfBlock) : Yields probs p initial st ⟨[s], none, r⟩
  | symbol {st : Progress ρ} {q : Position} {qs : List Position} {s : Symbol} {r : ρ}
      {run : SymbolRun ρ} (left : st.left = q :: qs)
      (read : st.read probs p initial q = (.symbol s, r)) (token : s.token ≠ .endOfBlock)
      (rest : Yields probs p initial (st.next q s r) run) :
      Yields probs p initial st { run with symbols := s :: run.symbols }

/-- What the decoder reads comes about in this way. -/
theorem yields_run (st : Progress ρ) : Yields probs p initial st (st.run probs p initial) := by
  obtain ⟨left, energies, checked, r⟩ := st
  induction left generalizing energies checked r with
  | nil => exact .complete rfl
  | cons q qs ih =>
    have hleft : (⟨q :: qs, energies, checked, r⟩ : Progress ρ).left = q :: qs := rfl
    simp only [run]
    cases hread : readSymbol (probs.get ⟨p.kind, q.band, q.context initial energies⟩) p.depth
        q.band (q.context initial energies) checked r with
    | mk outcome m =>
      cases outcome with
      | exhausted token =>
        rw [readSymbols_cons_exhausted hread]
        exact .exhausted hleft hread
      | symbol s =>
        by_cases hend : s.token = .endOfBlock
        · rw [readSymbols_cons_end hread hend]
          exact .ended hleft hread hend
        · rw [readSymbols_cons_symbol hread hend]
          exact .symbol hleft hread hend (ih _ _ m)

/-- As many symbols lead from one progress to another, none of them an end of block. -/
inductive Leads (probs : ProbTable) (p : BlockParams) (initial : Ctx) :
    Progress ρ → Nat → Progress ρ → Prop where
  | refl (st : Progress ρ) : Leads probs p initial st 0 st
  | symbol {st st' : Progress ρ} {q : Position} {qs : List Position} {s : Symbol} {r : ρ} {n : Nat}
      (left : st.left = q :: qs) (read : st.read probs p initial q = (.symbol s, r))
      (token : s.token ≠ .endOfBlock) (rest : Leads probs p initial (st.next q s r) n st') :
      Leads probs p initial st (n + 1) st'

/-- Symbols are read at the positions in turn. -/
theorem Leads.left_eq {st' : Progress ρ} {n : Nat} (h : Leads probs p initial st n st') :
    st'.left = st.left.drop n := by
  induction h with
  | refl => rfl
  | symbol left read token rest ih =>
    rw [ih, next_left left, left]
    rfl

/-! ## What holds of every run -/

namespace Yields

variable {run : SymbolRun ρ}

/-- Every symbol of a run is one that an encoder could have written. -/
theorem codable (h : Yields probs p initial st run) : ∀ s ∈ run.symbols, s.Codable p.depth := by
  induction h with
  | complete => exact List.forall_mem_nil _
  | exhausted => exact List.forall_mem_nil _
  | ended left read token => exact List.forall_mem_singleton.mpr (of_read_symbol read).1
  | symbol left read token rest ih => exact List.forall_mem_cons.mpr ⟨(of_read_symbol read).1, ih⟩

/-- Every position has one symbol at most, broken or not. -/
theorem length_symbols_le (h : Yields probs p initial st run) :
    run.symbols.length + run.broken.toList.length ≤ st.left.length := by
  induction h with
  | complete => exact Nat.zero_le _
  | exhausted left =>
    rw [left]
    exact Nat.succ_le_succ (Nat.zero_le _)
  | ended left =>
    rw [left]
    exact Nat.succ_le_succ (Nat.zero_le _)
  | @symbol st q qs s r run left read token rest ih =>
    rw [next_left left] at ih
    rw [left]
    show run.symbols.length + 1 + run.broken.toList.length ≤ qs.length + 1
    omega

/-- No level is larger than what can be coded. -/
theorem natAbs_le (h : Yields probs p initial st run) :
    ∀ x ∈ run.levels, x.natAbs ≤ maxMagnitude p.depth := by
  induction h with
  | complete => exact List.forall_mem_nil _
  | exhausted => exact List.forall_mem_nil _
  | ended left read token =>
    rw [SymbolRun.levels_ended token]
    exact List.forall_mem_nil _
  | @symbol st q qs s r run left read token rest ih =>
    obtain ⟨x, hx, hlevels⟩ := run.levels_cons token
    rw [hlevels, List.forall_mem_cons, Symbol.natAbs_of_level? hx]
    exact ⟨(of_read_symbol read).1.magnitude_le, ih⟩

/-- A run that stops before the last position stops at an end of block, which was asked for: there
is no level at all, or the last one is different from zero. -/
theorem getLast?_levels (h : Yields probs p initial st run) (hintact : run.broken = none)
    (hshort : run.levels.length < st.left.length) :
    run.levels = [] ∧ st.checked = true ∨ ∃ x ≠ 0, run.levels.getLast? = some x := by
  induction h with
  | complete left =>
    rw [left] at hshort
    exact absurd hshort (Nat.not_lt_zero _)
  | exhausted => cases hintact
  | ended left read token =>
    exact .inl ⟨SymbolRun.levels_ended token _, (of_read_symbol read).2 token⟩
  | @symbol st q qs s r run left read token rest ih =>
    obtain ⟨x, hx, hlevels⟩ := run.levels_cons token
    rw [hlevels, left] at hshort
    right
    rw [hlevels]
    rcases ih hintact (by rw [next_left left]; exact Nat.lt_of_succ_lt_succ hshort) with
      ⟨hnil, hchecked⟩ | ⟨y, hy, hlast⟩
    · refine ⟨x, ?_, by rw [hnil]; rfl⟩
      rw [Ne, (of_read_symbol read).1.level_eq_zero_iff hx]
      exact bne_iff_ne.mp hchecked
    · refine ⟨y, hy, ?_⟩
      rw [List.getLast?_cons, hlast]
      rfl

/-- A broken run stops at a position, to which all its levels lead. -/
theorem exists_leads (h : Yields probs p initial st run) {s : BrokenSymbol}
    (hbroken : run.broken = some s) :
    ∃ st' q r, Leads probs p initial st run.levels.length st' ∧ st'.left.head? = some q ∧
      st'.read probs p initial q = (.exhausted s.token, r) := by
  induction h with
  | complete => cases hbroken
  | ended => cases hbroken
  | @exhausted st q qs token r left read =>
    cases hbroken
    refine ⟨st, q, r, .refl st, ?_, read⟩
    rw [left]
    rfl
  | @symbol st q qs t r run left read token rest ih =>
    obtain ⟨st', q', r', hleads, hhead, hread⟩ := ih hbroken
    obtain ⟨x, -, hlevels⟩ := run.levels_cons token
    refine ⟨st', q', r', ?_, hhead, hread⟩
    rw [hlevels]
    exact .symbol left read token hleads

end Yields

end Progress

/-! ## Cost -/

/-- A meter goes up by 26 at most for each position, and changes nothing else. -/
theorem readSymbols_metered {ρ : Type} [BoolReader ρ] (probs : ProbTable) (p : BlockParams)
    (initial : Ctx) (qs : List Position) (energies : Array Energy) (checked : Bool) (r : ρ)
    (reads : Nat) :
    let run := readSymbols probs p initial qs energies checked r
    ∃ n ≤ reads + 26 * qs.length,
      readSymbols probs p initial qs energies checked (⟨r, reads⟩ : Metered ρ) =
        ⟨run.symbols, run.broken, ⟨run.reader, n⟩⟩ := by
  induction qs generalizing energies checked r reads with
  | nil => exact ⟨reads, Nat.le_refl _, rfl⟩
  | cons q qs ih =>
    obtain ⟨k, hk, hmetered⟩ := (spends_readSymbol (ρ := ρ)
      (probs.get ⟨p.kind, q.band, q.context initial energies⟩) p.depth q.band
      (q.context initial energies) checked).exists_eq r reads
    cases hread : readSymbol (probs.get ⟨p.kind, q.band, q.context initial energies⟩) p.depth
        q.band (q.context initial energies) checked r with
    | mk outcome m =>
      rw [hread] at hmetered
      have hlen : reads + 26 * (q :: qs).length = reads + 26 + 26 * qs.length := by
        rw [List.length_cons]
        omega
      cases outcome with
      | exhausted token =>
        rw [readSymbols_cons_exhausted hread, readSymbols_cons_exhausted hmetered]
        exact ⟨k, by omega, rfl⟩
      | symbol s =>
        by_cases hend : s.token = .endOfBlock
        · rw [readSymbols_cons_end hread hend, readSymbols_cons_end hmetered hend]
          exact ⟨k, by omega, rfl⟩
        · obtain ⟨n, hn, hrest⟩ := ih (energies.setIfInBounds q.raster s.token.energy)
            (s.token != .zero) m k
          rw [readSymbols_cons_symbol hread hend, readSymbols_cons_symbol hmetered hend, hrest]
          exact ⟨n, by omega, rfl⟩

end ResidualCodec
