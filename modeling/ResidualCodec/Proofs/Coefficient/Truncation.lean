/-
  ResidualCodec.Proofs.Coefficient.Truncation

  Every symbol is looked at only after the end of the reader was checked. So of
  two readers in lockstep, the one that runs out first gives the symbols of the
  other up to there, and then reports that it ran out.
-/

import ResidualCodec.Proofs.Coefficient.RoundTrip
import ResidualCodec.Proofs.Reader.Lockstep

namespace ResidualCodec

/-! ## Outcomes -/

section

variable {ρ : Type}

/-- Of readers that are related, the first is found exhausted, or else both give the same symbol
and stay related. -/
def Follows (R : ρ → ρ → Prop) (c : ρ → SymbolRead × ρ) : Prop :=
  ∀ r f, R r f → (∃ token, (c r).1 = .exhausted token) ∨
    ∃ s, (c r).1 = .symbol s ∧ (c f).1 = .symbol s ∧ R (c r).2 (c f).2

namespace Follows

variable {R : ρ → ρ → Prop} {c c' : ρ → SymbolRead × ρ}

theorem symbol (s : Symbol) : Follows R fun r => (.symbol s, r) := by
  intro r f h
  exact .inr ⟨s, rfl, rfl, h⟩

theorem ite (b : Bool) (h : Follows R c) (h' : Follows R c') :
    Follows R fun r => if b then c r else c' r := by
  cases b with
  | true => exact h
  | false => exact h'

end Follows

/-- The run of a reader beside that of another one that may go on longer: the same symbols with
nothing broken, or the first symbols of the other run up to a broken one. -/
inductive SymbolRun.Cut (R : ρ → ρ → Prop) : SymbolRun ρ → SymbolRun ρ → Prop where
  | whole (ss : List Symbol) {r f : ρ} (rel : R r f) : Cut R ⟨ss, none, r⟩ ⟨ss, none, f⟩
  | broken {ss : List Symbol} (s : BrokenSymbol) (r : ρ) {run : SymbolRun ρ}
      (first : ss <+: run.symbols) : Cut R ⟨ss, some s, r⟩ run

theorem SymbolRun.Cut.cons {R : ρ → ρ → Prop} {x y : SymbolRun ρ} (h : Cut R x y) (s : Symbol) :
    Cut R { x with symbols := s :: x.symbols } { y with symbols := s :: y.symbols } := by
  cases h with
  | whole ss rel => exact .whole (s :: ss) rel
  | broken t r first => exact .broken t r (List.cons_prefix_cons.mpr ⟨rfl, first⟩)

end

variable {ρ : Type} [BoolReader ρ] {R : ρ → ρ → Prop}

/-- A reading of a symbol that also finds out when its reader was exhausted before. -/
structure Checked (R : ρ → ρ → Prop) (c : ρ → SymbolRead × ρ) : Prop where
  follows : Follows R c
  lost {r : ρ} (h : BoolReader.overrun r = true) : ∃ token, (c r).1 = .exhausted token

theorem Checked.ite (b : Bool) {c c' : ρ → SymbolRead × ρ} (h : Checked R c) (h' : Checked R c') :
    Checked R fun r => if b then c r else c' r := by
  cases b with
  | true => exact h
  | false => exact h'

namespace Steady

variable {α : Type} {c : ρ → α × ρ} {k : α → ρ → SymbolRead × ρ}

/-- A check after a steady computation makes up for whatever was not checked in it. -/
theorem check (hc : Steady R c) (hR : Lockstep R) (token : α → Option Token)
    (hk : ∀ a, Follows R (k a)) :
    Checked R fun r =>
      if BoolReader.overrun (c r).2 then (.exhausted (token (c r).1), (c r).2)
      else k (c r).1 (c r).2 where
  follows := by
    intro r f h
    dsimp only
    rcases hc.same h with hlost | ⟨heq, hrel⟩
    · left
      rw [if_pos hlost]
      exact ⟨_, rfl⟩
    · obtain ⟨hr, hf⟩ := hR.inside hrel
      rw [hr, hf, if_neg Bool.false_ne_true, if_neg Bool.false_ne_true, ← heq]
      exact hk _ _ _ hrel
  lost h := by
    rw [if_pos (hc.lost h)]
    exact ⟨_, rfl⟩

/-- A checked reading may stand after a steady computation. -/
theorem bindChecked (hc : Steady R c) (hk : ∀ a, Checked R (k a)) :
    Checked R fun r => k (c r).1 (c r).2 where
  follows := by
    intro r f h
    dsimp only
    rcases hc.same h with hlost | ⟨heq, hrel⟩
    · exact .inl ((hk _).lost hlost)
    · rw [← heq]
      exact (hk _).follows _ _ hrel
  lost h := (hk _).lost (hc.lost h)

end Steady

/-! ## Tokens -/

section

variable (hR : Lockstep R)

include hR

theorem SymbolTree.steady_readFrom (t : SymbolTree) (probs : List UInt8) (fuel node : Nat) :
    Steady R fun r => t.readFrom probs r fuel node := by
  induction fuel generalizing node with
  | zero => exact .pure none
  | succ fuel ih =>
    have hstep := (hR.steady_read (probs.getD (node / 2) 0)).bind fun bit =>
      .elim t[node + bit.toNat]? (.pure none) fun next =>
        .ite (next < 0) (.pure (some (-next).toNat)) (ih next.toNat)
    simp only [readFrom_succ]
    exact hstep

theorem steady_readToken (probs : NodeProbs) : Steady R fun r => readToken probs r := by
  have htree := (magnitudeTree.steady_readFrom hR (paretoProbs probs.one)
    (magnitudeTree.size + 1) 0).bind fun leaf =>
      .pure (Token.all.getD (leaf.getD 0) .zero)
  have hread := (hR.steady_read probs.one).bind fun larger =>
    .ite (larger = true) htree (.pure .one)
  exact hread

/-! ## Symbols -/

section

variable (probs : NodeProbs) (d : BitDepth) (b : Band) (c : Ctx) (checked : Bool)

/-- The one check of a coefficient stands after its last decision. -/
theorem checked_readCoefficient : Checked R fun r => readCoefficient probs d b c checked r := by
  have hlarge := (steady_readToken hR probs).bind fun token =>
    (hR.steady_readExtra (token.extraProbs d) 0).bind fun offset =>
      hR.steady_readBit.bind fun negative => .pure (token, offset, negative)
  have hnonzero := hlarge.check hR (fun a => some a.1) fun a =>
    .symbol ⟨b, c, checked, a.1, a.2.1, a.2.2⟩
  have hzero := (Steady.pure ()).check hR (fun _ => some .zero) fun _ =>
    .symbol ⟨b, c, checked, .zero, 0, false⟩
  have hread := (hR.steady_read probs.zero).bindChecked fun nonzero => .ite nonzero hnonzero hzero
  exact hread

/-- The question for the end of block is checked before it is answered. -/
theorem checked_readSymbol : Checked R fun r => readSymbol probs d b c checked r := by
  have hcoef := checked_readCoefficient hR probs d b c checked
  have hasked := (hR.steady_read probs.endOfBlock).check hR (fun _ => none) fun more =>
    .ite more hcoef.follows (.symbol (.endOfBlock b c))
  have hread := Checked.ite checked hasked hcoef
  exact hread

end

end

/-! ## Runs -/

section

variable (hR : Lockstep R) (probs : ProbTable) (p : BlockParams) (initial : Ctx)

include hR

/-- Along the positions: each turn reads the same symbol twice, or finds the first reader
exhausted. -/
theorem cut_readSymbols (qs : List Position) (energies : Array Energy) (checked : Bool) {r f : ρ}
    (h : R r f) :
    SymbolRun.Cut R (readSymbols probs p initial qs energies checked r)
      (readSymbols probs p initial qs energies checked f) := by
  induction qs generalizing energies checked r f with
  | nil => exact .whole [] h
  | cons q qs ih =>
    have hread := checked_readSymbol hR (probs.get ⟨p.kind, q.band, q.context initial energies⟩)
      p.depth q.band (q.context initial energies) checked
    rcases hread.follows r f h with ⟨token, hr⟩ | ⟨s, hr, hf, hrel⟩
    · rw [readSymbols_cons_exhausted (Prod.ext hr rfl)]
      exact .broken _ _ List.nil_prefix
    · by_cases hend : s.token = .endOfBlock
      · rw [readSymbols_cons_end (Prod.ext hr rfl) hend, readSymbols_cons_end (Prod.ext hf rfl) hend]
        exact .whole [s] hrel
      · rw [readSymbols_cons_symbol (Prod.ext hr rfl) hend,
          readSymbols_cons_symbol (Prod.ext hf rfl) hend]
        exact (ih _ _ hrel).cons s

/-- A block is cut in the same way; a reader that was exhausted before gives nothing of it. -/
theorem cut_readBlock {r f : ρ} (h : BoolReader.overrun r = true ∨ R r f) :
    SymbolRun.Cut R (readBlock probs p initial r) (readBlock probs p initial f) := by
  rcases h with hlost | hrel
  · simp only [readBlock]
    have hpos := p.size.coeffs_pos
    rw [← length_walk p.size p.type] at hpos
    obtain ⟨q, qs, hwalk⟩ := List.exists_cons_of_length_pos hpos
    have hread := checked_readSymbol hR
      (probs.get ⟨p.kind, q.band, q.context initial (noEnergy p.size)⟩) p.depth q.band
      (q.context initial (noEnergy p.size)) true
    obtain ⟨token, hr⟩ := hread.lost hlost
    rw [hwalk, readSymbols_cons_exhausted (Prod.ext hr rfl)]
    exact .broken _ _ List.nil_prefix
  · exact cut_readSymbols hR probs p initial _ _ true hrel

end

/-! ## Blocks -/

/-- No more levels are read than there are positions. -/
theorem length_levels_readSymbols (probs : ProbTable) (p : BlockParams) (initial : Ctx)
    (qs : List Position) (energies : Array Energy) (checked : Bool) (r : ρ) :
    (readSymbols probs p initial qs energies checked r).levels.length ≤ qs.length := by
  induction qs generalizing energies checked r with
  | nil => exact Nat.le_refl 0
  | cons q qs ih =>
    cases hread : readSymbol (probs.get ⟨p.kind, q.band, q.context initial energies⟩) p.depth
        q.band (q.context initial energies) checked r with
    | mk outcome m =>
      cases outcome with
      | exhausted token =>
        rw [readSymbols_cons_exhausted hread]
        exact Nat.zero_le _
      | symbol s =>
        by_cases hend : s.token = .endOfBlock
        · rw [readSymbols_cons_end hread hend]
          simp only [SymbolRun.levels]
          rw [List.filterMap_cons, Symbol.level?, if_pos hend]
          exact Nat.zero_le _
        · rw [readSymbols_cons_symbol hread hend]
          simp only [SymbolRun.levels]
          rw [List.filterMap_cons, Symbol.level?, if_neg hend]
          exact Nat.succ_le_succ (ih _ _ m)

theorem length_levels_readBlock (probs : ProbTable) (p : BlockParams) (initial : Ctx) (r : ρ) :
    (readBlock probs p initial r).levels.length ≤ p.size.coeffs := by
  rw [← length_walk p.size p.type]
  exact length_levels_readSymbols probs p initial _ _ true r

/-- A block that was cut off agrees with the whole one on the scan indexes that were decoded. -/
structure AgreesBelowEob (p : BlockParams) (cut whole : CoefBlock) : Prop where
  eob_le : cut.eob ≤ p.size.coeffs
  level : ∀ c < cut.eob,
    cut.levels.getD ((scanOrder p.size p.type).scan.getD c 0) 0 =
      whole.levels.getD ((scanOrder p.size p.type).scan.getD c 0) 0

theorem agreesBelowEob_ofRun {σ : Type} {p : BlockParams} {x y : SymbolRun σ}
    (hle : x.levels.length ≤ p.size.coeffs) (h : x.symbols <+: y.symbols) :
    AgreesBelowEob p (.ofRun p x) (.ofRun p y) := by
  refine ⟨hle, ?_⟩
  intro c hc
  have hfirst : x.levels <+: y.levels := h.filterMap Symbol.level?
  have hlt : c < x.levels.length := hc
  show (scatter _ _ x.levels).getD _ 0 = (scatter _ _ y.levels).getD _ 0
  rw [getD_scatter_scan _ (by omega), getD_scatter_scan _ (by omega),
    List.getD_eq_getElem?_getD, List.getD_eq_getElem?_getD,
    List.prefix_iff_getElem?.mp hfirst c hlt, List.getElem?_eq_getElem hlt]

end ResidualCodec
