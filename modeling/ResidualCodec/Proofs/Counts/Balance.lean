/-
  ResidualCodec.Proofs.Counts.Balance

  The counters of a slot keep in step with each other, whatever has been counted
  into their table. An end of block is counted only where it was asked for, and
  whoever asked counts a token next, unless the reader ends in between. So an
  adaptation may subtract the counters.
-/

import ResidualCodec.Proofs.Coefficient.Progress
import ResidualCodec.Proofs.Counts.Sum

namespace ResidualCodec

/-! ## Counters in step -/

namespace Tally

/-- Numbers for the counters of a slot that are in step: an end of block for a question at most,
and a token for every question but the unanswered ones. -/
structure InStep (g : (Tally → UInt32) → Nat) (unanswered : Nat) : Prop where
  ended_le : g endOfBlock ≤ g checks
  checks_le : g checks ≤ g zero + g one + g twoOrMore + g endOfBlock + unanswered

variable {g g' : (Tally → UInt32) → Nat} {m n : Nat}

theorem InStep.add (h : InStep g m) (h' : InStep g' n) : InStep (fun f => g f + g' f) (m + n) := by
  obtain ⟨hended, hchecks⟩ := h
  obtain ⟨hended', hchecks'⟩ := h'
  constructor
  · show g endOfBlock + g' endOfBlock ≤ g checks + g' checks
    omega
  · show g checks + g' checks ≤ g zero + g' zero + (g one + g' one) +
      (g twoOrMore + g' twoOrMore) + (g endOfBlock + g' endOfBlock) + (m + n)
    omega

/-- Only the numbers for the five counters matter. -/
theorem InStep.congr (h : InStep g n) (hg : ∀ f ∈ counters, g' f = g f) : InStep g' n := by
  obtain ⟨hended, hchecks⟩ := h
  simp only [counters, List.forall_mem_cons] at hg
  obtain ⟨hzero, hone, hmore, hend, hcheck, -⟩ := hg
  constructor
  · rw [hend, hcheck]
    exact hended
  · rw [hzero, hone, hmore, hend, hcheck]
    exact hchecks

end Tally

namespace CountTable

/-! ## Sums without a limit -/

/-- Sum of a counter of a slot over tables, however large it gets. -/
def counted (ts : List CountTable) (s : Slot) (f : Tally → UInt32) : Nat :=
  (ts.map fun t => (f (t.get s)).toNat).sum

theorem counted_append (ts us : List CountTable) (s : Slot) :
    counted (ts ++ us) s = fun f => counted ts s f + counted us s f := by
  funext f
  simp only [counted]
  rw [List.map_append, List.sum_append]

/-- The counters of a slot are in step over all the tables. -/
def Balanced (ts : List CountTable) (s : Slot) (unanswered : Nat) : Prop :=
  Tally.InStep (counted ts s) unanswered

theorem balanced_nil (s : Slot) : Balanced [] s 0 := ⟨Nat.le_refl _, Nat.le_refl _⟩

theorem Balanced.append {ts us : List CountTable} {s : Slot} {m n : Nat} (h : Balanced ts s m)
    (h' : Balanced us s n) : Balanced (ts ++ us) s (m + n) := by
  simp only [Balanced]
  rw [counted_append]
  exact Tally.InStep.add h h'

/-! ## Events -/

/-- Every event counted in a table of its own. -/
def each (k : BlockKind) (es : List CountEvent) : List CountTable := es.map (empty.record k)

theorem each_append (k : BlockKind) (es fs : List CountEvent) :
    each k (es ++ fs) = each k es ++ each k fs := List.map_append

theorem recordAll_eq_sum (k : BlockKind) (es : List CountEvent) :
    empty.recordAll k es = sum (each k es) := by
  induction es with
  | nil => rfl
  | cons e es ih =>
    show (empty.record k e).recordAll k es = sum (empty.record k e :: each k es)
    rw [recordAll_eq_merge, ih, sum_cons]

section

variable (k : BlockKind) (b : Band) (c : Ctx) (s : Slot)

theorem get_check : (empty.record k (.check b c)).get s =
    if (⟨k, b, c⟩ : Slot) = s then { checks := 1 } else {} := by
  show (empty.modify ⟨k, b, c⟩ Tally.check).get s = _
  rw [SlotTable.get_modify, empty, SlotTable.get_replicate]
  rfl

theorem get_token (bin : CountBin) : (empty.record k (.token b c bin)).get s =
    if (⟨k, b, c⟩ : Slot) = s then ({} : Tally).count bin else {} := by
  show (empty.modify ⟨k, b, c⟩ (·.count bin)).get s = _
  rw [SlotTable.get_modify, empty, SlotTable.get_replicate]

/-- A question without an answer. -/
theorem balanced_check : Balanced (each k [.check b c]) s 1 := by
  constructor
  all_goals
    simp only [counted, each, List.map_cons, List.map_nil, get_check]
    split <;> decide

theorem balanced_check_token (bin : CountBin) :
    Balanced (each k [.check b c, .token b c bin]) s 0 := by
  constructor
  all_goals
    simp only [counted, each, List.map_cons, List.map_nil, get_check, get_token]
    split <;> cases bin <;> decide

/-- Without a question, any token but an end of block. -/
theorem balanced_token {bin : CountBin} (hbin : bin ≠ .endOfBlock) :
    Balanced (each k [.token b c bin]) s 0 := by
  constructor
  all_goals
    simp only [counted, each, List.map_cons, List.map_nil, get_token]
    cases bin with
    | endOfBlock => exact absurd rfl hbin
    | _ => split <;> decide

end

/-- An event adds one to a counter at most. -/
theorem counter_record_le {f : Tally → UInt32} (hf : f ∈ Tally.counters) (k : BlockKind)
    (e : CountEvent) (s : Slot) : (f ((empty.record k e).get s)).toNat ≤ 1 := by
  simp only [Tally.counters, List.mem_cons, List.not_mem_nil, or_false] at hf
  cases e with
  | check b c =>
    rw [get_check]
    rcases hf with rfl | rfl | rfl | rfl | rfl <;> split <;> decide
  | token b c bin =>
    rw [get_token]
    rcases hf with rfl | rfl | rfl | rfl | rfl <;> split <;> cases bin <;> decide

theorem counted_each_le {f : Tally → UInt32} (hf : f ∈ Tally.counters) (k : BlockKind)
    (es : List CountEvent) (s : Slot) : counted (each k es) s f ≤ es.length := by
  induction es with
  | nil => exact Nat.le_refl 0
  | cons e es ih =>
    have hfirst := counter_record_le hf k e s
    show (f ((empty.record k e).get s)).toNat + counted (each k es) s f ≤ es.length + 1
    omega

/-- The counters of a single table hold what few events add to them. -/
theorem Balanced.recordAll {k : BlockKind} {es : List CountEvent} {s : Slot} {n : Nat}
    (h : Balanced (each k es) s n) (hes : es.length < 2 ^ 32) :
    Balanced [empty.recordAll k es] s n := by
  apply Tally.InStep.congr h
  intro f hf
  have hsum := toNat_counter_sum hf (each k es) s
  have hfits : counted (each k es) s f < 2 ^ 32 :=
    Nat.lt_of_le_of_lt (counted_each_le hf k es s) hes
  calc counted [empty.recordAll k es] s f
      = (f ((sum (each k es)).get s)).toNat := by
        rw [← recordAll_eq_sum]
        exact Nat.add_zero _
    _ = counted (each k es) s f % 2 ^ 32 := hsum
    _ = counted (each k es) s f := Nat.mod_eq_of_lt hfits

/-! ## Blocks -/

section

variable (k : BlockKind) (s : Slot) {d : BitDepth}

/-- What a symbol counts is in step, since an end of block is always asked for. -/
theorem balanced_symbol {x : Symbol} (hx : x.Codable d) : Balanced (each k x.events) s 0 := by
  simp only [Symbol.events, Symbol.checkEvents]
  cases hchecked : x.checked with
  | true => exact balanced_check_token k x.band x.ctx s x.token.bin
  | false =>
    apply balanced_token
    intro hbin
    have hend : x.token = .endOfBlock := by
      cases htoken : x.token with
      | endOfBlock => rfl
      | _ =>
        rw [htoken] at hbin
        cases hbin
    rw [hx.checked hend] at hchecked
    cases hchecked

theorem balanced_symbols {xs : List Symbol} (hxs : ∀ x ∈ xs, x.Codable d) :
    Balanced (each k (xs.flatMap Symbol.events)) s 0 := by
  induction xs with
  | nil => exact balanced_nil s
  | cons x xs ih =>
    obtain ⟨hx, hxs⟩ := List.forall_mem_cons.mp hxs
    rw [List.flatMap_cons, each_append]
    exact (balanced_symbol k s hx).append (ih hxs)

end

theorem length_flatMap_events_le (xs : List Symbol) :
    (xs.flatMap Symbol.events).length ≤ 2 * xs.length := by
  induction xs with
  | nil => exact Nat.le_refl 0
  | cons x xs ih =>
    have hx : x.events.length ≤ 2 := by
      simp only [Symbol.events, Symbol.checkEvents]
      cases x.checked
      all_goals exact Nat.le_of_ble_eq_true rfl
    rw [List.flatMap_cons, List.length_append, List.length_cons]
    omega

section

variable {ρ : Type} (run : SymbolRun ρ)

/-- What a run counts is in step, but for the question that it may have broken off at. -/
theorem balanced_run (k : BlockKind) (s : Slot) {d : BitDepth}
    (hrun : ∀ x ∈ run.symbols, x.Codable d) :
    Balanced (each k run.events) s run.broken.isSome.toNat := by
  simp only [SymbolRun.events]
  rw [each_append, ← Nat.zero_add run.broken.isSome.toNat]
  apply (balanced_symbols k s hrun).append
  cases run.broken with
  | none => exact balanced_nil s
  | some x =>
    simp only [Option.toList_some, List.flatMap_singleton, Symbol.checkEvents]
    cases x.checked with
    | true => exact balanced_check k x.band x.ctx s
    | false => exact ⟨Nat.le_refl _, Nat.zero_le _⟩

theorem length_events_le :
    run.events.length ≤ 2 * (run.symbols.length + run.broken.toList.length) := by
  have hsymbols := length_flatMap_events_le run.symbols
  simp only [SymbolRun.events]
  rw [List.length_append]
  cases run.broken with
  | none =>
    show (run.symbols.flatMap Symbol.events).length + 0 ≤ _
    omega
  | some x =>
    have hbroken : (Symbol.checkEvents x.band x.ctx x.checked).length ≤ 1 := by
      simp only [Symbol.checkEvents]
      cases x.checked
      all_goals exact Nat.le_of_ble_eq_true rfl
    rw [Option.toList_some, List.flatMap_singleton, List.length_singleton]
    omega

/-- The table of a run of a block, which is too short to fill counters of 32 bits. -/
theorem balanced_recordUnless (parallel : Bool) (k : BlockKind) (s : Slot) {d : BitDepth}
    (hrun : ∀ x ∈ run.symbols, x.Codable d)
    (hlength : run.symbols.length + run.broken.toList.length ≤ 1024) :
    Balanced [empty.recordUnless parallel k run.events] s
      (if parallel then 0 else run.broken.isSome.toNat) := by
  have hevents := length_events_le run
  cases parallel with
  | true =>
    have hnone : Balanced (each k []) s 0 := balanced_nil s
    exact hnone.recordAll (by decide)
  | false => exact (balanced_run run k s hrun).recordAll (by omega)

end

theorem recordUnless_eq_merge (parallel : Bool) (t : CountTable) (k : BlockKind)
    (es : List CountEvent) :
    t.recordUnless parallel k es = t.merge (empty.recordUnless parallel k es) := by
  cases parallel with
  | true => exact (merge_empty t).symm
  | false => exact recordAll_eq_merge t k es

end CountTable

/-! ## What a block adds -/

/-- What an encoder adds to its counts for a block. -/
def CoefEncoder.added (e : CoefEncoder) (p : BlockParams) (ctx : Nat) (levels : Array Int)
    (bound : Nat) : CountTable :=
  match { e with counts := .empty }.encodeBlock p ctx levels bound with
  | .ok (_, e') => e'.counts
  | .error _ => .empty

/-- What a decoder adds to its counts for a block. -/
def CoefDecoder.added {ρ : Type} [BoolReader ρ] (d : CoefDecoder) (p : BlockParams) (ctx : Nat)
    (r : ρ) : CountTable :=
  match { d with counts := .empty }.decodeBlock p ctx r with
  | .ok (_, d', _) => d'.counts
  | .error _ => .empty

section

variable {e e' : CoefEncoder} {p : BlockParams} {ctx : Nat} {levels : Array Int} {bound : Nat}
  {coded : EncodedCoefs}

/-- A block that is encoded adds counters in step. -/
theorem added_of_encodeBlock (h : e.encodeBlock p ctx levels bound = .ok (coded, e')) :
    e'.counts = e.counts.merge (e.added p ctx levels bound) ∧
      ∀ s, CountTable.Balanced [e.added p ctx levels bound] s 0 := by
  obtain ⟨hctx, hsize⟩ := le_of_encodeBlock h
  cases (encodeBlock_ok e hctx hsize bound).symm.trans h
  simp only [CoefEncoder.added]
  rw [encodeBlock_ok _ hctx hsize bound]
  dsimp only
  refine ⟨CountTable.recordUnless_eq_merge _ _ _ _, ?_⟩
  intro s
  -- The symbols of an encoder are a run that does not break off.
  let run : SymbolRun Unit :=
    ⟨symbols p ⟨ctx, by omega⟩ (codedLevels p levels bound), none, ()⟩
  have hevents : run.events =
      (encodeCoefs e.probs p ⟨ctx, by omega⟩ levels bound).events := List.append_nil _
  have hlength : run.symbols.length ≤ (walk p.size p.type).length := length_symbolsFrom_le _ _ _ _
  have hcoeffs := p.size.coeffs_le_1024
  rw [length_walk] at hlength
  have hstep := CountTable.balanced_recordUnless run e.frameParallel p.kind s
    codable_of_mem_symbolsFrom (Nat.le_trans hlength hcoeffs)
  rw [hevents, show run.broken.isSome.toNat = 0 from rfl, ite_self] at hstep
  exact hstep

end

section

variable {ρ : Type} [BoolReader ρ] {d d' : CoefDecoder} {p : BlockParams} {ctx : Nat} {r r' : ρ}
  {block : CoefBlock}

/-- Number of corrupt blocks that a decoder counts when it decodes a block. -/
def CoefDecoder.corruptBlocks (d : CoefDecoder) (block : CoefBlock) : Nat :=
  if d.frameParallel then 0 else block.corruption.isSome.toNat

/-- A block that is decoded adds counters in step, less the question that a corrupt block may have
ended with. -/
theorem added_of_decodeBlock (h : d.decodeBlock p ctx r = .ok (block, d', r')) :
    d'.counts = d.counts.merge (d.added p ctx r) ∧
      ∀ s, CountTable.Balanced [d.added p ctx r] s (d.corruptBlocks block) := by
  have hctx := le_of_decodeBlock h
  cases (decodeBlock_ok d p hctx r).symm.trans h
  simp only [CoefDecoder.added]
  rw [decodeBlock_ok _ p hctx r]
  dsimp only
  refine ⟨CountTable.recordUnless_eq_merge _ _ _ _, ?_⟩
  intro s
  have hyields : Progress.Yields d.probs p ⟨ctx, by omega⟩ (.start p r)
      (readBlock d.probs p ⟨ctx, by omega⟩ r) := Progress.yields_run _
  have hlength := hyields.length_symbols_le
  have hcoeffs := p.size.coeffs_le_1024
  rw [show (Progress.start p r).left = walk p.size p.type from rfl, length_walk] at hlength
  have hstep := CountTable.balanced_recordUnless (readBlock d.probs p ⟨ctx, by omega⟩ r)
    d.frameParallel p.kind s hyields.codable (Nat.le_trans hlength hcoeffs)
  rw [← Option.isSome_map (f := fun s => (⟨_, s.token⟩ : Corruption))] at hstep
  exact hstep

end

/-! ## Histories -/

namespace CountTable

/-- Tables that coders count into: from an empty table, by blocks that are encoded or decoded, by
sums of such tables and by starting again. With a table comes what has been added to it since it
was empty, and the number of corrupt blocks among that. -/
inductive Reached : CountTable → List CountTable → Nat → Prop where
  | empty : Reached .empty [] 0
  | encode {ts : List CountTable} {n : Nat} {e e' : CoefEncoder} {p : BlockParams} {ctx : Nat}
      {levels : Array Int} {bound : Nat} {coded : EncodedCoefs} (before : Reached e.counts ts n)
      (block : e.encodeBlock p ctx levels bound = .ok (coded, e')) :
      Reached e'.counts (ts ++ [e.added p ctx levels bound]) n
  | decode {ρ : Type} [BoolReader ρ] {ts : List CountTable} {n : Nat} {d d' : CoefDecoder}
      {p : BlockParams} {ctx : Nat} {r r' : ρ} {coefs : CoefBlock} (before : Reached d.counts ts n)
      (block : d.decodeBlock p ctx r = .ok (coefs, d', r')) :
      Reached d'.counts (ts ++ [d.added p ctx r]) (n + d.corruptBlocks coefs)
  | merge {t u : CountTable} {ts us : List CountTable} {m n : Nat} (left : Reached t ts m)
      (right : Reached u us n) : Reached (t.merge u) (ts ++ us) (m + n)
  | clear {t : CountTable} {ts : List CountTable} {n : Nat} (before : Reached t ts n) :
      Reached .empty [] 0

variable {t : CountTable} {ts : List CountTable} {n : Nat}

theorem sum_append (ts us : List CountTable) : sum (ts ++ us) = (sum ts).merge (sum us) := by
  show (ts ++ us).foldl merge empty = _
  rw [List.foldl_append]
  exact foldl_merge (sum ts) us

theorem sum_singleton (t : CountTable) : sum [t] = t := empty_merge t

/-- A table holds what has been added to it. -/
theorem Reached.eq_sum (h : Reached t ts n) : t = sum ts := by
  induction h with
  | empty => rfl
  | encode before block ih =>
    rw [(added_of_encodeBlock block).1, ih, sum_append, sum_singleton]
  | decode before block ih =>
    rw [(added_of_decodeBlock block).1, ih, sum_append, sum_singleton]
  | merge left right ihl ihr => rw [ihl, ihr, sum_append]
  | clear => rfl

/-- Every step of a history keeps the counters in step. -/
theorem Reached.balanced (h : Reached t ts n) (s : Slot) : Balanced ts s n := by
  induction h with
  | empty => exact balanced_nil s
  | encode before block ih => exact ih.append ((added_of_encodeBlock block).2 s)
  | decode before block ih => exact ih.append ((added_of_decodeBlock block).2 s)
  | merge left right ihl ihr => exact ihl.append ihr
  | clear => exact balanced_nil s

/-- In every table that coders have counted into, no slot has more ends of a block than questions
for one, nor more questions than tokens and corrupt blocks together, unless a counter has passed
its limit. -/
theorem Reached.endOfBlock_le_checks_le (h : Reached t ts n) (s : Slot)
    (hfits : ∀ f ∈ Tally.counters, counted ts s f < 2 ^ 32) :
    let x := t.get s
    x.endOfBlock ≤ x.checks ∧ x.checks.toNat ≤
      x.zero.toNat + x.one.toNat + x.twoOrMore.toNat + x.endOfBlock.toNat + n := by
  have hstep : Tally.InStep (fun f => (f (t.get s)).toNat) n := by
    apply (h.balanced s).congr
    intro f hf
    have hsum : (f ((sum ts).get s)).toNat = counted ts s f % 2 ^ 32 := toNat_counter_sum hf ts s
    rw [h.eq_sum, hsum, Nat.mod_eq_of_lt (hfits f hf)]
  exact ⟨UInt32.le_iff_toNat_le.mpr hstep.ended_le, hstep.checks_le⟩

/-- Twice a reader ends behind the answer that a block goes on. Both questions are left without a
token, in the sum of the tables as well. -/
theorem Reached.endOfBlock_le_checks_le_corrupt :
    let p : BlockParams := ⟨⟨.s4, .luma, .inter⟩, ⟨.adst, .dct⟩, .ofFrame {} .eight⟩
    let d : CoefDecoder := ⟨.standard, false, .empty⟩
    let r : Script := { rest := [true] }
    let ts : List CountTable := [d.added p 1 r] ++ [d.added p 1 r]
    let s : Slot := ⟨p.kind, 0, 1⟩
    ∃ t, Reached t ts 2 ∧ (∀ f ∈ Tally.counters, counted ts s f < 2 ^ 32) ∧
      t.get s = { checks := 2 } ∧
      (t.get s).endOfBlock ≤ (t.get s).checks ∧ (t.get s).checks.toNat ≤ (t.get s).zero.toNat +
        (t.get s).one.toNat + (t.get s).twoOrMore.toNat + (t.get s).endOfBlock.toNat + 2 := by
  intro p d r ts s
  have hcorrupt : d.corruptBlocks (.ofRun p (readBlock d.probs p ⟨1, by decide⟩ r)) = 1 := by
    decide +kernel
  have hone := Reached.decode .empty (decodeBlock_ok d p (show 1 ≤ 2 by decide) r)
  rw [hcorrupt] at hone
  have htwo : Reached _ ts 2 := hone.merge hone
  have hfits : ∀ f ∈ Tally.counters, counted ts s f < 2 ^ 32 := by
    simp only [Tally.counters, List.forall_mem_cons]
    decide +kernel
  have hget : (sum ts).get s = { checks := 2 } := by decide +kernel
  rw [htwo.eq_sum] at htwo
  exact ⟨sum ts, htwo, hfits, hget, htwo.endOfBlock_le_checks_le s hfits⟩

end CountTable

end ResidualCodec
