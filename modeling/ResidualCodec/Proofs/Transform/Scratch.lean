/-
  ResidualCodec.Proofs.Transform.Scratch

  The inverse transform as loops over buffers. A column is gathered, transformed
  and spread over a block; columns of zeros are passed over. The buffers keep
  what they held from one column to the next and from one block to another, and
  none of that ever reaches an output.
-/

import ResidualCodec.Proofs.Transform.Plain

namespace ResidualCodec

/-! ## Buffers -/

/-- Write the values of a function at the places below `n`, the place `i` standing at `p i`. -/
def fill (n : Nat) (p : Nat → Nat) (f : Nat → Int) (buffer : Array Int) : Array Int :=
  assign buffer ((List.range n).map fun i => (p i, f i))

/-- The `n` values of a buffer from a place on. -/
def slice (buffer : Array Int) (start n : Nat) : List Int :=
  (List.range n).map fun i => buffer.getD (start + i) 0

section

variable {n : Nat} {p : Nat → Nat} {f : Nat → Int} {buffer : Array Int}

theorem size_fill : (fill n p f buffer).size = buffer.size := size_assign _ _

theorem getElem?_fill_of_ne {j : Nat} (h : ∀ i < n, p i ≠ j) :
    (fill n p f buffer)[j]? = buffer[j]? := by
  apply getElem?_assign_of_not_mem
  rw [List.map_map]
  intro hj
  obtain ⟨i, hi, rfl⟩ := List.mem_map.mp hj
  exact h i (List.mem_range.mp hi) rfl

theorem getD_fill_of_ne {j : Nat} (h : ∀ i < n, p i ≠ j) :
    (fill n p f buffer).getD j 0 = buffer.getD j 0 := by
  rw [Array.getD_eq_getD_getElem?, Array.getD_eq_getD_getElem?, getElem?_fill_of_ne h]

/-- At different places nothing is overwritten again. -/
theorem getD_fill (hp : ∀ i < n, ∀ j < n, p i = p j → i = j) {i : Nat} (hi : i < n)
    (hroom : p i < buffer.size) : (fill n p f buffer).getD (p i) 0 = f i := by
  have hplaces : (((List.range n).map fun i => (p i, f i)).map Prod.fst).Nodup := by
    rw [List.map_map]
    apply List.Nodup.map_on
    · intro i hi j hj heq
      exact hp i (List.mem_range.mp hi) j (List.mem_range.mp hj) heq
    · exact List.nodup_range
  have hmem : (p i, f i) ∈ (List.range n).map fun i => (p i, f i) :=
    List.mem_map_of_mem (List.mem_range.mpr hi)
  rw [Array.getD_eq_getD_getElem?, fill, getElem?_assign_of_mem buffer hplaces hmem hroom]
  rfl

/-- What has been written over the front of a buffer is all there is at the front. -/
theorem slice_fill (hroom : n ≤ buffer.size) :
    slice (fill n id f buffer) 0 n = (List.range n).map f := by
  apply List.map_congr_left
  intro i hi
  have hlt := List.mem_range.mp hi
  rw [Nat.zero_add]
  exact getD_fill (fun _ _ _ _ heq => heq) hlt (Nat.lt_of_lt_of_le hlt hroom)

end

/-- What holds at the start of a loop, and of every step's outcome if it held before, holds at the
end of the loop. -/
theorem foldl_range {σ : Type} {P : Nat → σ → Prop} {step : σ → Nat → σ} {n : Nat} {b : σ}
    (start : P 0 b) (next : ∀ k < n, ∀ b, P k b → P (k + 1) (step b k)) :
    P n ((List.range n).foldl step b) := by
  induction n with
  | zero => exact start
  | succ n ih =>
    rw [List.range_succ, List.foldl_append]
    exact next n (Nat.lt_succ_self n) _ (ih fun k hk => next k (Nat.lt_succ_of_lt hk))

/-! ## Loops -/

/-- Buffers of the column pass. -/
structure Scratch where
  -- A column before its kernel.
  column : Array Int
  -- A column or a row behind its kernel.
  transformed : Array Int
  -- The block of the columns behind their kernels.
  block : Array Int

namespace InPlace

section

variable (s : TransformSize) (t : TransformType) (d : BitDepth) (input : Array Int)

/-- Gather a column, and spread what its kernel makes of it over the block. A column of zeros is
left out, since the block holds zeros where nothing has been put. -/
def columnStep (b : Scratch) (x : Nat) : Scratch :=
  let n := s.points
  let column := fill n id
    (fun y => (ValueRange.ofDepth d).wrap (input.getD (y * n + x) 0)) b.column
  if (slice column 0 n).all (· == 0) then { b with column := column }
  else
    let values := (Kernel.inverse s t.vertical).run (.ofDepth d) (slice column 0 n)
    let transformed := fill n id (fun y => values.getD y 0) b.transformed
    let block := fill n (fun y => y * n + x) (fun y => transformed.getD y 0) b.block
    ⟨column, transformed, block⟩

/-- Transform a row of the block, and write its samples to the output. -/
def rowStep (block : Array Int) (b : Array Int × Array Int) (y : Nat) : Array Int × Array Int :=
  let n := s.points
  let values := (Kernel.inverse s t.horizontal).run (.ofDepth d) (slice block (y * n) n)
  let transformed := fill n id (fun x => values.getD x 0) b.1
  (transformed, fill n (fun x => y * n + x)
    (fun x => (ValueRange.ofDepth d).wrap (roundShift (transformed.getD x 0) s.inverseShift)) b.2)

/-- The inverse transform with buffers for its columns and its rows. Only the block is cleared
before. -/
def inverseTransform (column transformed : Array Int) (output : Array Int) (eob : Nat) :
    Except Fault (Array Int) := do
  checkBlock s t input output
  if eob = 0 then return fill s.coeffs id (fun _ => 0) output
  let columns := (List.range s.points).foldl (columnStep s t d input)
    ⟨column, transformed, Array.replicate 1024 0⟩
  let rows := (List.range s.points).foldl (rowStep s t d columns.block)
    (columns.transformed, output)
  return rows.2

end

/-! ## Columns -/

section

variable {s : TransformSize} {t : TransformType} {d : BitDepth} {input : Array Int}

/-- Buffers after some columns: the block has these columns behind their kernels, and zeros where
the others are to be. -/
structure ColumnsDone (s : TransformSize) (t : TransformType) (d : BitDepth) (input : Array Int)
    (done : Nat) (b : Scratch) : Prop where
  column : s.points ≤ b.column.size
  transformed : s.points ≤ b.transformed.size
  block : s.coeffs ≤ b.block.size
  entry : ∀ y < s.points, ∀ x < s.points, b.block.getD (y * s.points + x) 0 =
    if x < done then (plainColumn s t d input x).getD y 0 else 0

theorem ColumnsDone.step {k : Nat} (hk : k < s.points) {b : Scratch}
    (h : ColumnsDone s t d input k b) :
    ColumnsDone s t d input (k + 1) (columnStep s t d input b k) := by
  have hslice := slice_fill (f := fun y => (ValueRange.ofDepth d).wrap
    (input.getD (y * s.points + k) 0)) h.column
  simp only [columnStep]
  rw [hslice]
  split
  case isTrue hzero =>
    -- The column is missing from the block; behind its kernel it is made of zeros, too.
    have hblank : Blank (plainColumn s t d input k) := by
      refine Blank.run_inverse ?_ t.vertical (.ofDepth d)
      exact fun x hx => eq_of_beq (List.all_eq_true.mp hzero x hx)
    constructor
    case column => exact h.column.trans_eq size_fill.symm
    case transformed => exact h.transformed
    case block => exact h.block
    case entry =>
      intro y hy x hx
      rw [h.entry y hy x hx]
      rcases Nat.lt_trichotomy x k with hlt | rfl | hgt
      · rw [if_pos hlt, if_pos (by omega)]
      · rw [if_neg (Nat.lt_irrefl x), if_pos (Nat.lt_succ_self x), hblank.getD]
      · rw [if_neg (by omega), if_neg (by omega)]
  case isFalse =>
    constructor
    case column => exact h.column.trans_eq size_fill.symm
    case transformed => exact h.transformed.trans_eq size_fill.symm
    case block => exact h.block.trans_eq size_fill.symm
    case entry =>
      intro y hy x hx
      dsimp only
      by_cases hxk : x = k
      · -- The column of this step: written in full, whatever its buffer held before.
        subst hxk
        have hplace : y * s.points + x < b.block.size :=
          (ScanKind.raster_lt (p := (y, x)) hy hx).trans_le h.block
        have hinj : ∀ i < s.points, ∀ j < s.points,
            i * s.points + x = j * s.points + x → i = j := fun i _ j _ heq =>
          congrArg Prod.fst (ScanKind.raster_inj (p := (i, x)) (q := (j, x)) hx hx heq)
        rw [if_pos (Nat.lt_succ_self x), getD_fill hinj hy hplace]
        exact getD_fill (p := id) (fun _ _ _ _ heq => heq) hy (hy.trans_le h.transformed)
      · have hother : ∀ i < s.points, i * s.points + k ≠ y * s.points + x := fun i _ heq =>
          hxk (congrArg Prod.snd (ScanKind.raster_inj (p := (i, k)) (q := (y, x)) hk hx heq)).symm
        rw [getD_fill_of_ne hother, h.entry y hy x hx]
        exact if_congr (by omega) rfl rfl

theorem columnsDone_foldl {b : Scratch} (hcolumn : s.points ≤ b.column.size)
    (htransformed : s.points ≤ b.transformed.size) (hblock : b.block = Array.replicate 1024 0) :
    ColumnsDone s t d input s.points
      ((List.range s.points).foldl (columnStep s t d input) b) := by
  apply foldl_range
  case start =>
    have hroom := s.coeffs_le_1024
    refine ⟨hcolumn, htransformed, ?_, ?_⟩
    · rwa [hblock, Array.size_replicate]
    · intro y hy x hx
      have hplace := (ScanKind.raster_lt (p := (y, x)) hy hx).trans_le hroom
      rw [hblock, if_neg (Nat.not_lt_zero x), Array.getD_eq_getD_getElem?,
        Array.getElem?_replicate, if_pos hplace]
      rfl
  case next => exact fun k hk b hb => hb.step hk

/-- The rows of the block are what the row kernel is to be put on. -/
theorem ColumnsDone.slice_eq {b : Scratch} (h : ColumnsDone s t d input s.points b) {y : Nat}
    (hy : y < s.points) : slice b.block (y * s.points) s.points =
      (List.range s.points).map fun x => (plainColumn s t d input x).getD y 0 := by
  apply List.map_congr_left
  intro x hx
  have hlt := List.mem_range.mp hx
  rw [h.entry y hy x hlt, if_pos hlt]

/-! ## Rows -/

/-- Buffers after some rows: the samples of these are in the output. -/
structure RowsDone (s : TransformSize) (t : TransformType) (d : BitDepth)
    (input output : Array Int) (done : Nat) (b : Array Int × Array Int) : Prop where
  transformed : s.points ≤ b.1.size
  size : b.2.size = output.size
  sample : ∀ y < s.points, ∀ x < s.points, y < done →
    b.2.getD (y * s.points + x) 0 = plainSample s t d input y x
  kept : ∀ j, s.coeffs ≤ j → b.2[j]? = output[j]?

theorem RowsDone.step {output : Array Int} (hroom : s.coeffs ≤ output.size) {columns : Scratch}
    (hcolumns : ColumnsDone s t d input s.points columns) {k : Nat} (hk : k < s.points)
    {b : Array Int × Array Int} (h : RowsDone s t d input output k b) :
    RowsDone s t d input output (k + 1) (rowStep s t d columns.block b k) := by
  have hrow := hcolumns.slice_eq hk
  simp only [rowStep]
  rw [hrow]
  constructor
  case transformed => exact h.transformed.trans_eq size_fill.symm
  case size => exact size_fill.trans h.size
  case sample =>
    intro y hy x hx hyk
    dsimp only
    by_cases hlast : y = k
    · subst hlast
      have hplace : y * s.points + x < b.2.size := by
        rw [h.size]
        exact (ScanKind.raster_lt (p := (y, x)) hy hx).trans_le hroom
      have hinj : ∀ i < s.points, ∀ j < s.points,
          y * s.points + i = y * s.points + j → i = j := fun i _ j _ heq =>
        Nat.add_left_cancel heq
      have hvalue := getD_fill (p := id) (f := fun x => (plainRow s t d input y).getD x 0)
        (fun _ _ _ _ heq => heq) hx (hx.trans_le h.transformed)
      have hle := natAbs_getD_plainRow_le s t d input y x
      rw [getD_fill hinj hx hplace]
      refine (congrArg (fun v => (ValueRange.ofDepth d).wrap (roundShift v s.inverseShift))
        hvalue).trans ?_
      exact (natAbs_roundShift_inverse_le s d hle).2
    · have hother : ∀ i < s.points, k * s.points + i ≠ y * s.points + x := fun i hi heq =>
        hlast (congrArg Prod.fst (ScanKind.raster_inj (p := (k, i)) (q := (y, x)) hi hx heq)).symm
      rw [getD_fill_of_ne hother]
      exact h.sample y hy x hx (by omega)
  case kept =>
    intro j hj
    have hother : ∀ i < s.points, k * s.points + i ≠ j := fun i hi =>
      ((ScanKind.raster_lt (p := (k, i)) hk hi).trans_le hj).ne
    exact (getElem?_fill_of_ne hother).trans (h.kept j hj)

theorem rowsDone_foldl {output : Array Int} (hroom : s.coeffs ≤ output.size) {columns : Scratch}
    (hcolumns : ColumnsDone s t d input s.points columns) {transformed : Array Int}
    (htransformed : s.points ≤ transformed.size) :
    RowsDone s t d input output s.points
      ((List.range s.points).foldl (rowStep s t d columns.block) (transformed, output)) := by
  apply foldl_range
  case start =>
    refine ⟨htransformed, rfl, ?_, fun j _ => rfl⟩
    exact fun y _ x _ hy => absurd hy (Nat.not_lt_zero y)
  case next => exact fun k hk b hb => hb.step hroom hcolumns hk

/-! ## Outputs -/

/-- Whatever the buffers held before, as long as a column fits into them, the loops give the outputs
of the plain transform. -/
theorem exists_plainlyInverted (h : s.Admits t) {output column transformed : Array Int}
    (hin : s.coeffs ≤ input.size) (hout : s.coeffs ≤ output.size) {eob : Nat}
    (hempty : eob = 0 → ∀ j < s.coeffs, input.getD j 0 = 0)
    (hcolumn : s.points ≤ column.size) (htransformed : s.points ≤ transformed.size) :
    ∃ out, inverseTransform s t d input column transformed output eob = .ok out ∧
      PlainlyInverted s t d input output out := by
  simp only [inverseTransform]
  rw [checkBlock_eq_ok h hin hout]
  dsimp only [bind, Except.bind]
  by_cases heob : eob = 0
  · rw [if_pos heob]
    refine ⟨_, rfl, ?_⟩
    apply plainlyInverted_of_sample
    case size => exact size_fill
    case sample =>
      intro y hy x hx
      have hplace := ScanKind.raster_lt (p := (y, x)) hy hx
      rw [plainSample_of_zero (hempty heob)]
      exact getD_fill (p := id) (fun _ _ _ _ heq => heq) hplace (hplace.trans_le hout)
    case kept => exact fun j hj => getElem?_fill_of_ne fun i hi => (hi.trans_le hj).ne
  · rw [if_neg heob]
    refine ⟨_, rfl, ?_⟩
    have hcolumns : ColumnsDone s t d input s.points ((List.range s.points).foldl
        (columnStep s t d input) ⟨column, transformed, Array.replicate 1024 0⟩) :=
      columnsDone_foldl hcolumn htransformed rfl
    have hrows := rowsDone_foldl hout hcolumns hcolumns.transformed
    apply plainlyInverted_of_sample
    case size => exact hrows.size
    case sample => exact fun y hy x hx => hrows.sample y hy x hx hy
    case kept => exact hrows.kept

end

end InPlace

/-- The shortcuts of the inverse transform do not show in its outputs, nor do its buffers: for any
coefficients, any end of block and any buffers that a column fits into, the outputs are those of the
plain transform. -/
theorem inverseTransform_plain {s : TransformSize} {t : TransformType} (hadmits : s.Admits t)
    (d : BitDepth) {input output : Array Int} (hin : s.coeffs ≤ input.size)
    (hout : s.coeffs ≤ output.size) {eob : Nat}
    (hempty : eob = 0 → ∀ j < s.coeffs, input.getD j 0 = 0) :
    ∃ out, inverseTransform s t input output eob d = .ok out ∧
      PlainlyInverted s t d input output out ∧
      ∀ column transformed : Array Int, s.points ≤ column.size → s.points ≤ transformed.size →
        InPlace.inverseTransform s t d input column transformed output eob = .ok out := by
  obtain ⟨out, heq, hplain⟩ := exists_plainlyInverted hadmits hin hout hempty d
  refine ⟨out, heq, hplain, ?_⟩
  intro column transformed hcolumn htransformed
  obtain ⟨out', heq', hplain'⟩ := InPlace.exists_plainlyInverted (d := d) hadmits hin hout hempty
    hcolumn htransformed
  rw [heq', hplain'.unique hplain]

/-- Coefficients far outside the range of eight bits. The first column is not zero before it is
wrapped, and passed over behind that. -/
theorem inverseTransform_plain_wrapped :
    let t : TransformType := ⟨.adst, .dct⟩
    let input : Array Int := #[65536, 70000, 1, 0, -65536, 2147483647, -2, 0,
      0, -2147483648, 3, 0, 131072, 32768, -4, 0]
    let output : Array Int := Array.replicate 18 7
    TransformSize.s4.Admits t ∧ 16 ≤ input.size ∧ 16 ≤ output.size ∧
      plainColumn .s4 t .eight input 0 = [0, 0, 0, 0] ∧
      ∃ out, inverseTransform .s4 t input output 13 .eight = .ok out ∧
        PlainlyInverted .s4 t .eight input output out ∧ out[17]? = some 7 := by
  intro t input output
  have hadmits : TransformSize.s4.Admits t := by decide
  have hin : 16 ≤ input.size := by decide
  have hout : 16 ≤ output.size := by decide
  have hempty : 13 = 0 → ∀ j < 16, input.getD j 0 = 0 := fun hnone => absurd hnone (by decide)
  obtain ⟨out, heq, hplain, -⟩ := inverseTransform_plain hadmits .eight hin hout hempty
  have hkept : out[17]? = output[17]? := hplain.kept 17 (by decide)
  exact ⟨hadmits, hin, hout, by decide +kernel, out, heq, hplain, hkept⟩

end ResidualCodec
