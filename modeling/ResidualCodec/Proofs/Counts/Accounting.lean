/-
  ResidualCodec.Proofs.Counts.Accounting

  What an encoder reports about a block and what it counts, read off the levels
  alone. Along the scan, levels are taken up to the last one that is different
  from zero; each of them makes a token, and so does the end of block unless the
  block is full. The end of block is asked for before the first level and after
  every level but a zero, so that there are as many questions as levels
  different from zero, and one more for the end.
-/

import ResidualCodec.Proofs.Coefficient.Cost
import ResidualCodec.Proofs.Counts.Totals

namespace ResidualCodec

/-! ## Levels along the scan -/

/-- Whether the levels below a bound end behind this many of them. -/
structure BlockParams.EndsAt (p : BlockParams) (levels : Array Int) (bound eob : Nat) : Prop where
  le_bound : eob ≤ bound
  le_coeffs : eob ≤ p.size.coeffs
  zero : ∀ c, eob ≤ c → c < bound → c < p.size.coeffs → p.levelAt levels c = 0
  last : eob ≠ 0 → p.levelAt levels (eob - 1) ≠ 0

section

variable (p : BlockParams) (levels : Array Int) (bound : Nat)

theorem endsAt_length_codedLevels :
    p.EndsAt levels bound (codedLevels p levels bound).length := by
  have hbound := length_codedLevels_le_bound p levels bound
  have hcoeffs := length_codedLevels p levels bound
  refine ⟨hbound, hcoeffs, ?_, ?_⟩
  · intro c hend hc hlt
    have hlevel := getD_codedLevels_scan p levels bound hlt
    rwa [List.getD_eq_default _ _ hend, if_pos hc, eq_comm] at hlevel
  · intro hne hzero
    have hlt : (codedLevels p levels bound).length - 1 < (codedLevels p levels bound).length :=
      Nat.sub_one_lt hne
    have hlevel := getD_codedLevels_scan p levels bound (hlt.trans_le hcoeffs)
    rw [if_pos (hlt.trans_le hbound), hzero, List.getD_eq_getElem _ _ hlt] at hlevel
    apply getLast?_trimZeros ((gather (walk p.size p.type) levels).take bound)
    rw [List.getLast?_eq_getElem?]
    exact (List.getElem?_eq_getElem hlt).trans (congrArg some hlevel)

/-- The levels that are coded are those at the scan indexes before the end. -/
theorem codedLevels_eq_map_range : codedLevels p levels bound =
    (List.range (codedLevels p levels bound).length).map (p.levelAt levels) := by
  have hbound := length_codedLevels_le_bound p levels bound
  have hcoeffs := length_codedLevels p levels bound
  apply List.ext_getElem
  · rw [List.length_map, List.length_range]
  · intro c hc _
    have hlevel := getD_codedLevels_scan p levels bound (c := c) (by omega)
    rw [if_pos (by omega), List.getD_eq_getElem _ _ hc] at hlevel
    rw [hlevel, List.getElem_map, List.getElem_range]

end

/-! ## Symbols -/

/-- Counter that a magnitude falls in. -/
def CountBin.ofMagnitude : Nat → CountBin
  | 0 => .zero
  | 1 => .one
  | _ + 2 => .twoOrMore

theorem CountBin.ofMagnitude_eq_iff (m : Nat) : (ofMagnitude m = .zero ↔ m = 0) ∧
    (ofMagnitude m = .one ↔ m = 1) ∧ (ofMagnitude m = .twoOrMore ↔ 2 ≤ m) ∧
    (ofMagnitude m = .endOfBlock ↔ False) := by
  match m with
  | 0 => decide
  | 1 => decide
  | m + 2 => simp [ofMagnitude]

/-- A level is counted by its own magnitude, even if a smaller one is coded. -/
theorem Symbol.bin_ofLevel (d : BitDepth) (b : Band) (c : Ctx) (checked : Bool) (x : Int) :
    (ofLevel d b c checked x).token.bin = .ofMagnitude x.natAbs := by
  have hmax : 2 ≤ maxMagnitude d := by cases d <;> decide
  show (Token.ofMagnitude (min x.natAbs (maxMagnitude d))).bin = _
  fun_cases Token.ofMagnitude (min x.natAbs (maxMagnitude d))
  case case1 hzero =>
    rw [show x.natAbs = 0 by omega]
    rfl
  case case2 hzero hone =>
    rw [show x.natAbs = 1 by omega]
    rfl
  all_goals
    obtain ⟨m, hm⟩ : ∃ m, x.natAbs = m + 2 := ⟨x.natAbs - 2, by omega⟩
    rw [hm]
    rfl

section

variable {d : BitDepth} {initial : Ctx} {qs : List Position} {xs : List Int}

/-- Symbols of one kind are as many as levels of one kind, and the end of block where there is
room for it. -/
theorem countP_symbolsFrom {P : Symbol → Bool} {Q : Int → Bool} {ended : Bool}
    (hlevel : ∀ b c checked x, P (.ofLevel d b c checked x) = Q x)
    (hend : ∀ b c, P (.endOfBlock b c) = ended) (hlen : xs.length ≤ qs.length)
    (energies : Array Energy) (checked : Bool) :
    (symbolsFrom d initial qs energies checked xs).countP P =
      xs.countP Q + if xs.length < qs.length then (if ended then 1 else 0) else 0 := by
  induction qs generalizing xs energies checked with
  | nil =>
    rw [List.eq_nil_of_length_eq_zero (Nat.le_zero.mp hlen)]
    rfl
  | cons q qs ih =>
    cases xs with
    | nil =>
      simp only [symbolsFrom]
      rw [List.countP_singleton, hend, List.countP_nil, Nat.zero_add]
      exact (if_pos (Nat.zero_lt_succ qs.length)).symm
    | cons x xs =>
      simp only [symbolsFrom]
      rw [List.countP_cons, List.countP_cons, hlevel, ih (Nat.le_of_succ_le_succ hlen),
        List.length_cons, List.length_cons]
      simp only [Nat.add_lt_add_iff_right]
      omega

/-- The end of block is asked for at the first symbol, as far as it is open, behind every level
different from zero, and behind the last one if there is room for more. -/
theorem countP_checked_symbolsFrom (hlen : xs.length ≤ qs.length) (energies : Array Energy)
    {checked : Bool} (hopen : xs = [] → checked = true) (hlast : xs.getLast? ≠ some 0) :
    (symbolsFrom d initial qs energies checked xs).countP Symbol.checked + (!checked).toNat =
      xs.countP (· ≠ 0) + if xs.length < qs.length then 1 else 0 := by
  induction qs generalizing xs energies checked with
  | nil =>
    have hnil := List.eq_nil_of_length_eq_zero (Nat.le_zero.mp hlen)
    rw [hnil, hopen hnil]
    rfl
  | cons q qs ih =>
    cases xs with
    | nil =>
      rw [hopen rfl]
      rfl
    | cons x xs =>
      simp only [symbolsFrom]
      generalize q.context initial energies = c
      have hcount := ih (Nat.le_of_succ_le_succ hlen)
        (energies.setIfInBounds q.raster (Symbol.ofLevel d q.band c checked x).token.energy)
        (ofLevel_bne_zero_of_getLast? hlast d q.band c checked) (getLast?_of_cons hlast)
      have hzero := Symbol.ofLevel_eq_zero_iff d q.band c checked x
      have hasked : (Symbol.ofLevel d q.band c checked x).checked = checked := rfl
      generalize Symbol.ofLevel d q.band c checked x = s at hcount hzero hasked ⊢
      -- A symbol that does not ask for the end comes after a zero.
      have hfirst : (if s.checked = true then 1 else 0) + (!checked).toNat = 1 := by
        rw [hasked]
        cases checked <;> rfl
      have hnext : (!(s.token != .zero)).toNat + (if decide (x ≠ 0) = true then 1 else 0) = 1 := by
        by_cases hx : x = 0
        · rw [hzero.mpr hx, hx]
          rfl
        · rw [if_pos (decide_eq_true hx), bne_iff_ne.mpr (hzero.not.mpr hx)]
          rfl
      rw [List.countP_cons, List.countP_cons, List.length_cons, List.length_cons]
      simp only [Nat.add_lt_add_iff_right]
      omega

end

/-! ## Blocks -/

/-- Number of levels before an end whose magnitudes are of some kind. -/
def BlockParams.levelCount (p : BlockParams) (levels : Array Int) (eob : Nat) (Q : Nat → Bool) :
    Nat :=
  (List.range eob).countP fun c => Q (p.levelAt levels c).natAbs

/-- Number of ends of block that are coded: none behind a block that is full. -/
def BlockParams.ends (p : BlockParams) (eob : Nat) : Nat := if eob < p.size.coeffs then 1 else 0

section

variable (p : BlockParams) (levels : Array Int) (bound : Nat)

theorem countP_codedLevels (Q : Nat → Bool) :
    (codedLevels p levels bound).countP (fun x => Q x.natAbs) =
      p.levelCount levels (codedLevels p levels bound).length Q := by
  conv_lhs => rw [codedLevels_eq_map_range]
  rw [List.countP_map]
  rfl

theorem countP_ne_zero (xs : List Int) : xs.countP (· ≠ 0) =
    xs.countP (fun x => decide (x.natAbs = 1)) + xs.countP (fun x => decide (2 ≤ x.natAbs)) := by
  induction xs with
  | nil => rfl
  | cons x xs ih =>
    simp only [List.countP_cons, decide_eq_true_eq] at ih ⊢
    split <;> split <;> split <;> omega

variable (initial : Ctx)

/-- Symbols of one kind are counted by the levels before the end. -/
theorem countP_symbols {P : Symbol → Bool} {Q : Nat → Bool} {ended : Bool}
    (hlevel : ∀ b c checked x, P (.ofLevel p.depth b c checked x) = Q x.natAbs)
    (hend : ∀ b c, P (.endOfBlock b c) = ended) :
    (symbols p initial (codedLevels p levels bound)).countP P =
      p.levelCount levels (codedLevels p levels bound).length Q +
        if ended then p.ends (codedLevels p levels bound).length else 0 := by
  have hlen := length_codedLevels p levels bound
  rw [← length_walk p.size p.type] at hlen
  simp only [symbols, BlockParams.ends]
  rw [countP_symbolsFrom (Q := fun x => Q x.natAbs) hlevel hend hlen, countP_codedLevels,
    length_walk]
  cases ended with
  | true => rfl
  | false => exact congrArg _ (ite_self 0)

theorem length_symbols : (symbols p initial (codedLevels p levels bound)).length =
    (codedLevels p levels bound).length + p.ends (codedLevels p levels bound).length := by
  have hcount := countP_symbols p levels bound initial (P := fun _ => true) (Q := fun _ => true)
    (fun _ _ _ _ => rfl) (fun _ _ => rfl)
  rwa [BlockParams.levelCount, List.countP_true, List.countP_true, List.length_range] at hcount

/-- There is a question for every level but the zeros, since the last level is none of them. -/
theorem countP_checked_symbols :
    (symbols p initial (codedLevels p levels bound)).countP Symbol.checked =
      p.levelCount levels (codedLevels p levels bound).length (· = 1) +
        p.levelCount levels (codedLevels p levels bound).length (2 ≤ ·) +
          p.ends (codedLevels p levels bound).length := by
  have hlen := length_codedLevels p levels bound
  rw [← length_walk p.size p.type] at hlen
  have hcount : (symbols p initial (codedLevels p levels bound)).countP Symbol.checked = _ :=
    countP_checked_symbolsFrom hlen (noEnergy p.size) (fun _ => rfl) (getLast?_trimZeros _)
  rw [countP_ne_zero, countP_codedLevels p levels bound (· = 1),
    countP_codedLevels p levels bound (2 ≤ ·), length_walk] at hcount
  exact hcount

/-- Symbols of a counter are counted by the levels that fall in it. -/
theorem countP_bin_symbols (bin : CountBin) {Q : Nat → Prop} [DecidablePred Q]
    (hQ : ∀ m, CountBin.ofMagnitude m = bin ↔ Q m) :
    (symbols p initial (codedLevels p levels bound)).countP (fun x => decide (x.token.bin = bin)) =
      p.levelCount levels (codedLevels p levels bound).length (fun m => decide (Q m)) +
        if decide (CountBin.endOfBlock = bin) then p.ends (codedLevels p levels bound).length
        else 0 := by
  refine countP_symbols p levels bound initial ?_ fun _ _ => rfl
  intro b c checked x
  rw [Symbol.bin_ofLevel]
  exact decide_eq_decide.mpr (hQ x.natAbs)

theorem grows_encodeCoefs (probs : ProbTable) {t : CountTable}
    (hfits : t.Fits p.kind (encodeCoefs probs p initial levels bound).events) :
    let coded := encodeCoefs probs p initial levels bound
    let eob := coded.stats.eob
    t.Grows (t.recordAll p.kind coded.events) p.kind (p.levelCount levels eob (· = 0))
      (p.levelCount levels eob (· = 1)) (p.levelCount levels eob (2 ≤ ·)) (p.ends eob) := by
  intro coded eob
  have htotal : ∀ f ∈ Tally.counters, ∀ P : Symbol → Bool,
      (∀ x, (f x.tally).toNat = (P x).toNat) →
      (t.recordAll p.kind coded.events).kindTotal p.kind f = t.kindTotal p.kind f +
        (symbols p initial (codedLevels p levels bound)).countP P := fun f hf P hP =>
    CountTable.kindTotal_recordAll hf p.kind hP fun b c => hfits b c f hf
  refine ⟨?_, ?_, ?_, ?_, ?_⟩
  · rw [htotal _ (.head _) _ fun x => x.toNat_tally.1,
      countP_bin_symbols _ _ _ _ _ fun m => (CountBin.ofMagnitude_eq_iff m).1]
    rfl
  · rw [htotal _ (.tail _ (.head _)) _ fun x => x.toNat_tally.2.1,
      countP_bin_symbols _ _ _ _ _ fun m => (CountBin.ofMagnitude_eq_iff m).2.1]
    rfl
  · rw [htotal _ (.tail _ (.tail _ (.head _))) _ fun x => x.toNat_tally.2.2.1,
      countP_bin_symbols _ _ _ _ _ fun m => (CountBin.ofMagnitude_eq_iff m).2.2.1]
    rfl
  · rw [htotal _ (.tail _ (.tail _ (.tail _ (.head _)))) _ fun x => x.toNat_tally.2.2.2.1,
      countP_bin_symbols _ _ _ _ _ fun m => (CountBin.ofMagnitude_eq_iff m).2.2.2]
    have hnone : p.levelCount levels (codedLevels p levels bound).length
        (fun _ => decide False) = 0 := congrFun List.countP_false _
    rw [hnone, Nat.zero_add]
    rfl
  · rw [htotal _ (.tail _ (.tail _ (.tail _ (.tail _ (.head _))))) _ fun x =>
      x.toNat_tally.2.2.2.2, countP_checked_symbols]
    rfl

end

/-- What an encoder makes of a block: what it reports, and what it leaves in its counts. -/
structure Accounts (e e' : CoefEncoder) (p : BlockParams) (levels : Array Int) (bound : Nat)
    (coded : EncodedCoefs) : Prop where
  endsAt : p.EndsAt levels bound coded.stats.eob
  tokens : coded.stats.tokens = coded.stats.eob + p.ends coded.stats.eob
  cost : coded.stats.cost = (coded.decisions.map fun d => bitCost d.bit d.prob).sum
  cost_lt : coded.stats.cost < 2 ^ 32
  parallel : e.frameParallel = true → e' = e
  others : ∀ s, s.kind ≠ p.kind → e'.counts.get s = e.counts.get s
  grows : e.frameParallel = false → e.counts.Fits p.kind coded.events →
    e.counts.Grows e'.counts p.kind (p.levelCount levels coded.stats.eob (· = 0))
      (p.levelCount levels coded.stats.eob (· = 1)) (p.levelCount levels coded.stats.eob (2 ≤ ·))
      (p.ends coded.stats.eob)

/-- A block has 1024 symbols at most, so that its cost fits into 32 bits by far. -/
theorem cost_encodeCoefs_lt (probs : ProbTable) (p : BlockParams) (initial : Ctx)
    (levels : Array Int) (bound : Nat) :
    (encodeCoefs probs p initial levels bound).stats.cost < 2 ^ 32 := by
  have hcost := totalCost_le (encodeCoefs probs p initial levels bound).decisions
  have hdecisions : (encodeCoefs probs p initial levels bound).decisions.length ≤ _ :=
    length_symbolDecisions_le probs p (symbols p initial (codedLevels p levels bound))
  have hsymbols : (symbols p initial (codedLevels p levels bound)).length ≤ _ :=
    length_symbolsFrom_le (walk p.size p.type) _ _ _
  have hcoeffs := p.size.coeffs_le_1024
  rw [length_walk] at hsymbols
  show totalCost (encodeCoefs probs p initial levels bound).decisions < 2 ^ 32
  omega

/-- An encoder reports and counts a block as its levels tell, whatever the probabilities; and an
estimate reports the same. -/
theorem encodeBlock_accounts (e : CoefEncoder) (p : BlockParams) {ctx : Nat} (hctx : ctx ≤ 2)
    {levels : Array Int} (hsize : levels.size = p.size.coeffs) (bound : Nat) :
    ∃ coded e', e.encodeBlock p ctx levels bound = .ok (coded, e') ∧
      e.estimate p ctx levels bound = .ok coded ∧ Accounts e e' p levels bound coded := by
  refine ⟨_, _, encodeBlock_ok e hctx hsize bound, ?_, ?_⟩
  · simp only [CoefEncoder.estimate]
    rw [if_neg (not_not_intro hsize), checkCtx_of_le hctx]
    rfl
  · constructor
    case endsAt => exact endsAt_length_codedLevels p levels bound
    case tokens => exact length_symbols p levels bound _
    case cost => exact totalCost_eq_sum _
    case cost_lt => exact cost_encodeCoefs_lt e.probs p _ levels bound
    case parallel =>
      intro hparallel
      simp only [CountTable.recordUnless]
      rw [if_pos hparallel]
    case others =>
      intro s hs
      simp only [CountTable.recordUnless]
      split
      case isTrue => rfl
      case isFalse => exact CountTable.get_recordAll_of_ne _ _ hs
    case grows =>
      intro hcounting hfits
      rw [hcounting]
      exact grows_encodeCoefs p levels bound _ e.probs hfits

/-- Two levels of one, a zero between them, a level beyond the largest magnitude, and one that the
bound cuts off; the counters have been counted into before. -/
theorem encodeBlock_accounts_cut :
    let p : BlockParams := ⟨⟨.s4, .luma, .inter⟩, ⟨.dct, .dct⟩, .ofFrame {} .eight⟩
    let t : CountTable := CountTable.empty.recordAll p.kind [.check 0 1, .token 0 1 .one]
    let e : CoefEncoder := ⟨.standard, false, t⟩
    let levels : Array Int := #[1, -70000, 0, 0, 0, -1, 0, 0, 0, 0, 0, 0, 0, 0, 0, 9]
    ∃ coded e', 1 ≤ 2 ∧ levels.size = p.size.coeffs ∧
      e.encodeBlock p 1 levels 15 = .ok (coded, e') ∧ coded.stats.eob = 5 ∧
      coded.stats.tokens = 6 ∧ e.counts.Fits p.kind coded.events ∧
      e.counts.Grows e'.counts p.kind 2 2 1 1 ∧ e'.counts.kindTotal p.kind Tally.checks = 5 := by
  intro p t e levels
  have hsize : levels.size = p.size.coeffs := rfl
  obtain ⟨coded, e', hencode, -, haccounts⟩ :=
    encodeBlock_accounts e p (show 1 ≤ 2 by decide) hsize 15
  have hcoded : coded = encodeCoefs e.probs p 1 levels 15 := by
    cases (encodeBlock_ok e (by decide) hsize 15).symm.trans hencode
    rfl
  have heob : coded.stats.eob = 5 := by
    rw [hcoded]
    decide +kernel
  have hends : p.ends coded.stats.eob = 1 := by rw [heob]; decide
  have hfits : e.counts.Fits p.kind coded.events := by
    rw [hcoded]
    simp only [CountTable.Fits, Tally.counters, List.forall_mem_cons]
    decide +kernel
  have hgrows := haccounts.grows rfl hfits
  have htokens := haccounts.tokens
  have hzeros : p.levelCount levels 5 (· = 0) = 2 := by decide +kernel
  have hones : p.levelCount levels 5 (· = 1) = 2 := by decide +kernel
  have hlarger : p.levelCount levels 5 (2 ≤ ·) = 1 := by decide +kernel
  rw [hends, heob] at htokens
  rw [hends, heob, hzeros, hones, hlarger] at hgrows
  have hchecks : e.counts.kindTotal p.kind Tally.checks = 1 := by decide +kernel
  exact ⟨coded, e', by decide, hsize, hencode, heob, htokens, hfits, hgrows,
    hgrows.checks.trans (by rw [hchecks])⟩

end ResidualCodec
