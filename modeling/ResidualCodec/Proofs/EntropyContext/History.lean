/-
  ResidualCodec.Proofs.EntropyContext.History

  The flags of a plane after any history of operations. A flag is decided by
  the latest operation over it since the last reset; operations that reach past
  an edge, or lie beyond it, are clipped to it, and no flag is looked for where
  there is none.
-/

import Mathlib.Data.List.Induction
import ResidualCodec.Proofs.Tile.Guarded

namespace ResidualCodec

/-! ## Edges and spans -/

/-- One of the two edges of a plane. -/
inductive Edge where
  | above | left
  deriving DecidableEq

namespace Edge

def all : List Edge := [.above, .left]

/-- Number of units along the edge of a plane. -/
def extent (cols rows : Nat) : Edge → Nat
  | above => cols
  | left => rows

theorem countP_all (p : Edge → Bool) : all.countP p = (p above).toNat + (p left).toNat := by
  simp only [all, List.countP_cons, List.countP_nil]
  cases p above <;> cases p left <;> rfl

end Edge

def EntropyContext.flags (c : EntropyContext) : Edge → EdgeFlags
  | .above => c.above
  | .left => c.left

/-- Units along an edge: the first of them, and their number. -/
structure Span where
  start : Nat
  count : Nat
  deriving DecidableEq

namespace Span

def Contains (s : Span) (x : Nat) : Prop := s.start ≤ x ∧ x < s.start + s.count

/-- Whether the end of the span is a number of 64 bits, as positions are. -/
def Fits (s : Span) : Prop := s.start + s.count < 2 ^ 64

/-- What a transform block covers of an edge. -/
def ofBlock (col row : Nat) (s : TransformSize) : Edge → Span
  | .above => ⟨col, s.units⟩
  | .left => ⟨row, s.units⟩

instance (s : Span) (x : Nat) : Decidable (s.Contains x) := inferInstanceAs (Decidable (_ ∧ _))

instance (s : Span) : Decidable s.Fits := inferInstanceAs (Decidable (_ < _))

end Span

/-! ## Operations -/

/-- An operation on the flags of a plane. -/
inductive ContextOp where
  -- Record whether a transform block had coefficients.
  | update (col row : Nat) (size : TransformSize) (nonzero : Bool)
  -- Clear the flags over a rectangle.
  | clear (col row width height : Nat)
  | reset
  deriving DecidableEq

namespace ContextOp

def apply (c : EntropyContext) : ContextOp → EntropyContext
  | .update col row s nonzero => c.update col row s nonzero
  | .clear col row width height => c.clear col row width height
  | .reset => c.reset

/-- What the operation covers of an edge; a reset has no span. -/
def span : ContextOp → Edge → Span
  | .update col row s _, e => .ofBlock col row s e
  | .clear col _ width _, .above => ⟨col, width⟩
  | .clear _ row _ height, .left => ⟨row, height⟩
  | .reset, _ => ⟨0, 0⟩

/-- The flag that the operation leaves on what it covers. -/
def flag : ContextOp → Bool
  | .update _ _ _ nonzero => nonzero
  | _ => false

/-- Whether the spans of the operation end at numbers of 64 bits. -/
def Fits (op : ContextOp) : Prop := (op.span .above).Fits ∧ (op.span .left).Fits

instance (op : ContextOp) : Decidable op.Fits := inferInstanceAs (Decidable (_ ∧ _))

end ContextOp

/-! ## Histories -/

/-- The flags after a history of operations, the latest of them last. -/
def EntropyContext.run (c : EntropyContext) (history : List ContextOp) : EntropyContext :=
  history.foldl ContextOp.apply c

/-- The operations since the last reset, latest first. -/
def sinceReset (history : List ContextOp) : List ContextOp :=
  history.reverse.takeWhile (· ≠ .reset)

/-- The latest operation over a unit of an edge since the last reset. -/
def latestOver? (history : List ContextOp) (e : Edge) (x : Nat) : Option ContextOp :=
  (sinceReset history).find? fun op => (op.span e).Contains x

/-- Whether the latest operation over a unit is an update by a block with coefficients. -/
def Flagged (history : List ContextOp) (e : Edge) (x : Nat) : Prop :=
  ∃ col row s, latestOver? history e x = some (.update col row s true)

theorem flagged_iff (history : List ContextOp) (e : Edge) (x : Nat) :
    Flagged history e x ↔ (latestOver? history e x).any ContextOp.flag = true := by
  simp only [Flagged]
  cases latestOver? history e x with
  | none => simp
  | some op => cases op <;> simp [ContextOp.flag]

instance (history : List ContextOp) (e : Edge) (x : Nat) : Decidable (Flagged history e x) :=
  decidable_of_iff _ (flagged_iff history e x).symm

/-- Number of edges with a flag over a block, among the units that the plane has. -/
def flaggedEdges (cols rows : Nat) (history : List ContextOp) (col row : Nat) (s : TransformSize) :
    Nat :=
  Edge.all.countP fun e => decide <|
    ∃ x < e.extent cols rows, (Span.ofBlock col row s e).Contains x ∧ Flagged history e x

/-! ## Guarded operations -/

namespace Guarded

/-- The end of a span must be a number of 64 bits. -/
def checkSpan (s : Span) : Except Fault Unit :=
  if s.Fits then .ok () else .error .indexOutOfBounds

def applyOp (c : EntropyContext) (op : ContextOp) : Except Fault EntropyContext := do
  checkSpan (op.span .above)
  checkSpan (op.span .left)
  match op with
  | .update col row s nonzero => mark c col row s.units s.units nonzero
  | .clear col row width height => mark c col row width height false
  | .reset => return c.reset

def initialAt (c : EntropyContext) (col row : Nat) (s : TransformSize) : Except Fault Nat := do
  checkSpan (.ofBlock col row s .above)
  checkSpan (.ofBlock col row s .left)
  initial c col row s

theorem applyOp_eq (c : EntropyContext) {op : ContextOp} (h : op.Fits) :
    applyOp c op = .ok (op.apply c) := by
  have habove : checkSpan (op.span .above) = .ok () := if_pos h.1
  have hleft : checkSpan (op.span .left) = .ok () := if_pos h.2
  simp only [applyOp]
  rw [habove, hleft]
  dsimp only [bind, Except.bind]
  cases op with
  | update col row s nonzero => exact mark_eq c col row s.units s.units nonzero
  | clear col row width height => exact mark_eq c col row width height false
  | reset => rfl

theorem initialAt_eq (c : EntropyContext) {col row : Nat} {s : TransformSize}
    (hcol : Span.Fits ⟨col, s.units⟩) (hrow : Span.Fits ⟨row, s.units⟩) :
    initialAt c col row s = .ok (c.initial col row s).val := by
  have habove : checkSpan (.ofBlock col row s .above) = .ok () := if_pos hcol
  have hleft : checkSpan (.ofBlock col row s .left) = .ok () := if_pos hrow
  simp only [initialAt]
  rw [habove, hleft]
  exact initial_eq c col row s

/-- Operations whose spans fit do not fail, whatever the plane. -/
theorem foldlM_applyOp_eq (c : EntropyContext) {history : List ContextOp}
    (h : ∀ op ∈ history, op.Fits) : history.foldlM applyOp c = .ok (c.run history) := by
  induction history generalizing c with
  | nil => rfl
  | cons op rest ih =>
    obtain ⟨hop, hrest⟩ := List.forall_mem_cons.mp h
    rw [List.foldlM_cons, applyOp_eq c hop]
    exact ih (op.apply c) hrest

end Guarded

/-! ## The latest operation -/

section

variable (history : List ContextOp) (e : Edge) (x : Nat)

theorem latestOver?_reset : latestOver? (history ++ [.reset]) e x = none := by
  simp only [latestOver?, sinceReset]
  rw [List.reverse_append]
  rfl

theorem latestOver?_append {op : ContextOp} (hop : op ≠ .reset) :
    latestOver? (history ++ [op]) e x =
      if (op.span e).Contains x then some op else latestOver? history e x := by
  simp only [latestOver?, sinceReset]
  rw [List.reverse_append, List.reverse_singleton, List.singleton_append, List.takeWhile_cons,
    if_pos (decide_eq_true hop), List.find?_cons]
  by_cases h : (op.span e).Contains x
  · rw [decide_eq_true h, if_pos h]
  · rw [decide_eq_false h, if_neg h]

theorem not_flagged_reset : ¬ Flagged (history ++ [.reset]) e x := by
  rw [flagged_iff, latestOver?_reset]
  exact Bool.false_ne_true

/-- An operation decides the flags that it covers, and no others. -/
theorem flagged_append_iff {op : ContextOp} (hop : op ≠ .reset) : Flagged (history ++ [op]) e x ↔
    if (op.span e).Contains x then op.flag = true else Flagged history e x := by
  rw [flagged_iff, latestOver?_append history e x hop]
  split
  case isTrue => exact Iff.rfl
  case isFalse => exact (flagged_iff history e x).symm

end

/-! ## Flags -/

/-- Flags past the end of the edge are not set. -/
theorem EdgeFlags.anySet_iff (f : EdgeFlags) (start count : Nat) :
    f.anySet start count = true ↔ ∃ x, Span.Contains ⟨start, count⟩ x ∧ f[x]? = some true := by
  simp only [anySet]
  rw [Array.any_eq_true']
  constructor
  · rintro ⟨flag, hmem, hset⟩
    obtain ⟨k, hk, rfl⟩ := Array.mem_extract_iff_getElem.mp hmem
    have hlast : start + k < start + count := by omega
    refine ⟨start + k, ⟨Nat.le_add_right start k, hlast⟩, ?_⟩
    exact (Array.getElem?_eq_getElem (by omega)).trans (congrArg some hset)
  · rintro ⟨x, ⟨hfirst, hlast⟩, hflag⟩
    obtain ⟨hx, hset⟩ := Array.getElem?_eq_some_iff.mp hflag
    dsimp only at hfirst hlast
    refine ⟨true, Array.mem_extract_iff_getElem.mpr ⟨x - start, by omega, ?_⟩, rfl⟩
    simp only [Nat.add_sub_of_le hfirst, hset]

section

variable (c : EntropyContext) (e : Edge) (x : Nat)

/-- An operation leaves its flag on the units that it covers, as far as they are there. -/
theorem getElem?_flags_apply {op : ContextOp} (hop : op ≠ .reset) :
    ((op.apply c).flags e)[x]? = (c.flags e)[x]?.map fun old =>
      if (op.span e).Contains x then op.flag else old := by
  cases op with
  | update col row s nonzero =>
    cases e with
    | above => exact EdgeFlags.getElem?_fill c.above col s.units nonzero x
    | left => exact EdgeFlags.getElem?_fill c.left row s.units nonzero x
  | clear col row width height =>
    cases e with
    | above => exact EdgeFlags.getElem?_fill c.above col width false x
    | left => exact EdgeFlags.getElem?_fill c.left row height false x
  | reset => exact absurd rfl hop

theorem flags_reset : c.reset.flags e = Array.replicate (c.flags e).size false := by
  cases e <;> rfl

end

/-- Whether the flags are those that a history leaves on edges of some extent. -/
def EntropyContext.Shows (c : EntropyContext) (cols rows : Nat) (history : List ContextOp) : Prop :=
  ∀ (e : Edge) (x : Nat), (c.flags e)[x]? =
    if x < e.extent cols rows then some (decide (Flagged history e x)) else none

namespace EntropyContext.Shows

variable {c : EntropyContext} {cols rows : Nat} {history : List ContextOp}

theorem create (cols rows : Nat) : (EntropyContext.create cols rows).Shows cols rows [] := by
  intro e x
  have hflags : (EntropyContext.create cols rows).flags e =
      Array.replicate (e.extent cols rows) false := by
    cases e <;> rfl
  rw [hflags, Array.getElem?_replicate]
  rfl

theorem size_flags (h : c.Shows cols rows history) (e : Edge) :
    (c.flags e).size = e.extent cols rows := by
  apply Nat.le_antisymm
  · have hnone := h e (e.extent cols rows)
    rw [if_neg (Nat.lt_irrefl _)] at hnone
    exact Array.getElem?_eq_none_iff.mp hnone
  · have hnone := h e (c.flags e).size
    rw [Array.getElem?_eq_none (Nat.le_refl _)] at hnone
    split at hnone
    case isTrue => cases hnone
    case isFalse hle => exact Nat.le_of_not_lt hle

theorem apply (h : c.Shows cols rows history) (op : ContextOp) :
    (op.apply c).Shows cols rows (history ++ [op]) := by
  intro e x
  by_cases hop : op = .reset
  · subst hop
    show (c.reset.flags e)[x]? = _
    rw [flags_reset, Array.getElem?_replicate, h.size_flags e,
      decide_eq_false (not_flagged_reset history e x)]
  · rw [getElem?_flags_apply c e x hop, h e x]
    by_cases hx : x < e.extent cols rows
    · have hflagged := flagged_append_iff history e x hop
      rw [if_pos hx, if_pos hx, Option.map_some]
      by_cases hover : (op.span e).Contains x
      · rw [if_pos hover] at hflagged
        simp only [if_pos hover, hflagged, Bool.decide_eq_true]
      · rw [if_neg hover] at hflagged
        simp only [if_neg hover, hflagged]
    · rw [if_neg hx, if_neg hx, Option.map_none]

theorem run (cols rows : Nat) (history : List ContextOp) :
    ((EntropyContext.create cols rows).run history).Shows cols rows history := by
  -- From the end: the last operation is the latest.
  induction history using List.reverseRecOn with
  | nil => exact create cols rows
  | append_singleton history op ih =>
    rw [EntropyContext.run, List.foldl_append]
    exact ih.apply op

/-- A span has a set flag if one of its units does, among those that are there. -/
theorem anySet_eq (h : c.Shows cols rows history) (e : Edge) (s : Span) :
    (c.flags e).anySet s.start s.count =
      decide (∃ x < e.extent cols rows, s.Contains x ∧ Flagged history e x) := by
  rw [Bool.eq_iff_iff, EdgeFlags.anySet_iff, decide_eq_true_iff]
  refine exists_congr fun x => ?_
  rw [h e x, and_left_comm]
  refine and_congr_right fun _ => ?_
  by_cases hx : x < e.extent cols rows
  · simp [hx]
  · simp [hx]

theorem initial (h : c.Shows cols rows history) (col row : Nat) (s : TransformSize) :
    (c.initial col row s).val = flaggedEdges cols rows history col row s := by
  rw [flaggedEdges, Edge.countP_all, ← h.anySet_eq, ← h.anySet_eq]
  rfl

end EntropyContext.Shows

/-! ## Last writer -/

/-- What is known of a plane after a history: its flags are those of the latest operations, and
contexts and further operations are clipped to its edges without a fault. -/
structure LastWriterWins (cols rows : Nat) (history : List ContextOp) (c : EntropyContext) :
    Prop where
  size_eq : ∀ e, (c.flags e).size = e.extent cols rows
  flag_iff : ∀ e, ∀ x < e.extent cols rows, (c.flags e)[x]? = some true ↔ Flagged history e x
  initial : ∀ col row s, Span.Fits ⟨col, s.units⟩ → Span.Fits ⟨row, s.units⟩ →
    Guarded.initialAt c col row s = .ok (c.initial col row s).val ∧
      (c.initial col row s).val = flaggedEdges cols rows history col row s
  clipped : ∀ op, op.Fits → op ≠ .reset → Guarded.applyOp c op = .ok (op.apply c) ∧
    ∀ e x, ¬ (x < e.extent cols rows ∧ (op.span e).Contains x) →
      ((op.apply c).flags e)[x]? = (c.flags e)[x]?

/-- After any history of operations whose spans fit, over any number of columns and rows, the
latest operation over a flag has decided it. -/
theorem lastWriterWins_run (cols rows : Nat) {history : List ContextOp}
    (hfits : ∀ op ∈ history, op.Fits) :
    ∃ c, history.foldlM Guarded.applyOp (.create cols rows) = .ok c ∧
      (EntropyContext.create cols rows).run history = c ∧ LastWriterWins cols rows history c := by
  have hshows := EntropyContext.Shows.run cols rows history
  refine ⟨_, Guarded.foldlM_applyOp_eq _ hfits, rfl, ?_⟩
  constructor
  case size_eq => exact hshows.size_flags
  case flag_iff =>
    intro e x hx
    rw [hshows e x, if_pos hx, Option.some_inj, decide_eq_true_iff]
  case initial =>
    intro col row s hcol hrow
    exact ⟨Guarded.initialAt_eq _ hcol hrow, hshows.initial col row s⟩
  case clipped =>
    intro op hop hreset
    refine ⟨Guarded.applyOp_eq _ hop, ?_⟩
    intro e x hx
    rw [getElem?_flags_apply _ e x hreset]
    -- A covered unit that is not there has no flag before or after.
    by_cases hover : (op.span e).Contains x
    · rw [hshows e x, if_neg fun hlt => hx ⟨hlt, hover⟩, Option.map_none]
    · simp only [if_neg hover, Option.map_id']

/-- A block over the corner of the plane, of which one column is cleared from beyond the last row;
what came before the reset does not show, nor does a block outside. -/
theorem lastWriterWins_run_overhang :
    let history : List ContextOp :=
      [.update 0 0 .s8 true, .reset, .update 4 1 .s32 true, .clear 5 9 1 2, .update 70 70 .s4 true]
    (∀ op ∈ history, op.Fits) ∧
      ∃ c, history.foldlM Guarded.applyOp (.create 6 3) = .ok c ∧ LastWriterWins 6 3 history c ∧
        Flagged history .above 4 ∧ ¬ Flagged history .above 5 ∧ ¬ Flagged history .above 0 ∧
        Guarded.initialAt c 5 2 .s16 = .ok 1 := by
  intro history
  have hfits : ∀ op ∈ history, op.Fits := by decide
  obtain ⟨c, hrun, -, hlast⟩ := lastWriterWins_run 6 3 hfits
  obtain ⟨hguarded, hinitial⟩ := hlast.initial 5 2 .s16 (by decide) (by decide)
  have hedges : flaggedEdges 6 3 history 5 2 .s16 = 1 := by decide
  refine ⟨hfits, c, hrun, hlast, by decide, by decide, by decide, ?_⟩
  rw [hguarded, hinitial, hedges]

end ResidualCodec
