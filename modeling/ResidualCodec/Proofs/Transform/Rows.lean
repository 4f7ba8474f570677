/-
  ResidualCodec.Proofs.Transform.Rows

  Square blocks, entry by entry: what cutting a raster into rows, transposing
  and flattening do to the entry at a row and a column. Cutting and flattening
  undo each other, and so does transposing twice.
-/

import Mathlib.Data.List.GetD
import ResidualCodec.Proofs.Scan.Order
import ResidualCodec.Transform.Block

namespace ResidualCodec.Rows

/-- As many rows as columns. -/
structure Square (n : Nat) (m : Rows) : Prop where
  rows : m.length = n
  cols : ∀ row ∈ m, row.length = n

/-- The entry at a row and a column. -/
def entry (m : Rows) (y x : Nat) : Int := (m.getD y []).getD x 0

variable {n : Nat} {m k : Rows}

/-! ## Entries -/

theorem getD_map_range {α : Type} (f : Nat → α) (d : α) {i : Nat} (hi : i < n) :
    ((List.range n).map f).getD i d = f i := by
  rw [List.getD_eq_getElem?_getD, List.getElem?_map, List.getElem?_range hi]
  rfl

theorem entry_eq_getElem {y x : Nat} (hy : y < m.length) (hx : x < m[y].length) :
    m.entry y x = m[y][x] := by
  simp only [entry]
  rw [List.getD_eq_getElem _ _ hy, List.getD_eq_getElem _ _ hx]

/-- Square blocks are told apart by their entries. -/
theorem Square.ext (hm : Square n m) (hk : Square n k)
    (h : ∀ y < n, ∀ x < n, m.entry y x = k.entry y x) : m = k := by
  apply List.ext_getElem
  · rw [hm.rows, hk.rows]
  · intro y hym hyk
    have hmcols : m[y].length = n := hm.cols _ (List.getElem_mem hym)
    have hkcols : k[y].length = n := hk.cols _ (List.getElem_mem hyk)
    apply List.ext_getElem
    · rw [hmcols, hkcols]
    · intro x hxm hxk
      have hentry := h y (hm.rows ▸ hym) x (hmcols ▸ hxm)
      rwa [entry_eq_getElem hym hxm, entry_eq_getElem hyk hxk] at hentry

/-! ## Rasters -/

theorem square_ofRaster (n : Nat) (xs : Array Int) : Square n (ofRaster n xs) := by
  simp only [ofRaster]
  refine ⟨?_, ?_⟩
  · rw [List.length_map, List.length_range]
  · intro row hrow
    obtain ⟨y, -, rfl⟩ := List.mem_map.mp hrow
    rw [List.length_map, List.length_range]

theorem entry_ofRaster (xs : Array Int) {y x : Nat} (hy : y < n) (hx : x < n) :
    (ofRaster n xs).entry y x = xs.getD (y * n + x) 0 := by
  simp only [entry, ofRaster]
  rw [getD_map_range _ _ hy, getD_map_range _ _ hx]

/-- Rows of equal length, one after the other. -/
theorem length_flatten_of_cols (h : ∀ row ∈ m, row.length = n) :
    m.flatten.length = m.length * n := by
  induction m with
  | nil => exact (Nat.zero_mul n).symm
  | cons row rest ih =>
    obtain ⟨hrow, hrest⟩ := List.forall_mem_cons.mp h
    rw [List.flatten_cons, List.length_append, hrow, ih hrest, List.length_cons, Nat.succ_mul,
      Nat.add_comm]

/-- Of rows of equal length, each starts as many places in as the rows before it take. -/
theorem getD_flatten_of_cols (h : ∀ row ∈ m, row.length = n) {y x : Nat} (hx : x < n) :
    m.flatten.getD (y * n + x) 0 = m.entry y x := by
  induction m generalizing y with
  | nil => rfl
  | cons row rest ih =>
    obtain ⟨hrow, hrest⟩ := List.forall_mem_cons.mp h
    cases y with
    | zero =>
      rw [List.flatten_cons, Nat.zero_mul, Nat.zero_add, List.getD_append _ _ _ _ (by omega)]
      rfl
    | succ y =>
      have hskip : (y + 1) * n + x - row.length = y * n + x := by
        rw [hrow, Nat.succ_mul]
        omega
      have hpast : row.length ≤ (y + 1) * n + x := by
        rw [hrow, Nat.succ_mul]
        omega
      rw [List.flatten_cons, List.getD_append_right _ _ _ _ hpast, hskip, ih hrest]
      rfl

theorem Square.length_flatten (h : Square n m) : m.flatten.length = n * n := by
  rw [length_flatten_of_cols h.cols, h.rows]

/-- Cutting the raster of a block gives the block. -/
theorem Square.ofRaster_flatten (h : Square n m) : ofRaster n m.flatten.toArray = m := by
  apply (square_ofRaster n _).ext h
  intro y hy x hx
  rw [entry_ofRaster _ hy hx, ← getD_flatten_of_cols h.cols hx, Array.getD_eq_getD_getElem?,
    List.getElem?_toArray, List.getD_eq_getElem?_getD]

/-- The raster of a block that was cut from a longer one is the front of that. -/
theorem flatten_ofRaster {xs : Array Int} (hsize : n * n ≤ xs.size) :
    (ofRaster n xs).flatten = xs.toList.take (n * n) := by
  have hlength := (square_ofRaster n xs).length_flatten
  apply List.ext_getElem
  · rw [hlength, List.length_take, Array.length_toList, Nat.min_eq_left hsize]
  · intro j hj hj'
    rw [hlength] at hj
    have hn : 0 < n := by
      rcases Nat.eq_zero_or_pos n with rfl | hn
      · exact absurd hj (Nat.not_lt_zero j)
      · exact hn
    have hsplit : j / n * n + j % n = j := by
      rw [Nat.mul_comm]
      exact Nat.div_add_mod j n
    have hentry := getD_flatten_of_cols (square_ofRaster n xs).cols (y := j / n)
      (Nat.mod_lt j hn)
    rw [entry_ofRaster xs (Nat.div_lt_of_lt_mul hj) (Nat.mod_lt j hn), hsplit,
      List.getD_eq_getElem _ _ (by rwa [hlength]), Array.getD_eq_getD_getElem?,
      Array.getElem?_eq_getElem (by omega), Option.getD_some] at hentry
    rw [hentry, List.getElem_take, Array.getElem_toList]

/-- A buffer is filled by a block of its size. -/
theorem writeTo_eq {buffer : Array Int} (h : m.flatten.length = buffer.size) :
    m.writeTo buffer = m.flatten.toArray := by
  simp only [writeTo]
  rw [h, ← Array.length_toList, List.drop_length, List.append_nil]

/-- What is put over the front of a buffer is found there. -/
theorem Square.getD_writeTo (h : Square n m) (buffer : Array Int) {y x : Nat} (hy : y < n)
    (hx : x < n) : (m.writeTo buffer).getD (y * n + x) 0 = m.entry y x := by
  have hlt : y * n + x < m.flatten.length := by
    rw [h.length_flatten]
    exact ScanKind.raster_lt (p := (y, x)) hy hx
  rw [← getD_flatten_of_cols h.cols hx, Array.getD_eq_getD_getElem?, List.getD_eq_getElem?_getD]
  simp only [writeTo]
  rw [List.getElem?_toArray, List.getElem?_append_left hlt]

theorem Square.ofRaster_writeTo (h : Square n m) (buffer : Array Int) :
    ofRaster n (m.writeTo buffer) = m := by
  apply (square_ofRaster n _).ext h
  intro y hy x hx
  rw [entry_ofRaster _ hy hx, h.getD_writeTo buffer hy hx]

theorem Square.le_size_writeTo (h : Square n m) (buffer : Array Int) :
    n * n ≤ (m.writeTo buffer).size := by
  simp only [writeTo]
  rw [List.size_toArray, List.length_append, h.length_flatten]
  exact Nat.le_add_right _ _

theorem Square.size_writeTo (h : Square n m) {buffer : Array Int} (hroom : n * n ≤ buffer.size) :
    (m.writeTo buffer).size = buffer.size := by
  simp only [writeTo]
  rw [List.size_toArray, List.length_append, List.length_drop, h.length_flatten,
    Array.length_toList, Nat.add_sub_cancel' hroom]

/-- What is behind the block in a buffer stays there. -/
theorem Square.getElem?_writeTo_of_le (h : Square n m) (buffer : Array Int) {j : Nat}
    (hj : n * n ≤ j) : (m.writeTo buffer)[j]? = buffer[j]? := by
  have hlength := h.length_flatten
  simp only [writeTo]
  rw [List.getElem?_toArray, List.getElem?_append_right (by rwa [hlength]), List.getElem?_drop,
    Nat.add_sub_cancel' (by rwa [hlength]), Array.getElem?_toList]

/-! ## Transposing -/

theorem square_transpose (h : m.length = n) : Square n (m.transpose n) := by
  simp only [transpose]
  refine ⟨?_, ?_⟩
  · rw [List.length_map, List.length_range]
  · intro row hrow
    obtain ⟨x, -, rfl⟩ := List.mem_map.mp hrow
    rw [List.length_map, h]

theorem entry_transpose {y x : Nat} (hy : y < n) (hx : x < m.length) :
    (m.transpose n).entry y x = m.entry x y := by
  simp only [entry, transpose]
  rw [getD_map_range _ _ hy, List.getD_eq_getElem?_getD, List.getElem?_map,
    List.getElem?_eq_getElem hx, List.getD_eq_getElem _ _ hx]
  rfl

/-- Transposing twice changes nothing. -/
theorem Square.transpose_transpose (h : Square n m) : (m.transpose n).transpose n = m := by
  have htwice : Square n (m.transpose n) := square_transpose h.rows
  apply (square_transpose htwice.rows).ext h
  intro y hy x hx
  rw [entry_transpose hy (by rwa [htwice.rows]), entry_transpose hx (by rwa [h.rows])]

/-! ## Passes -/

/-- Kernels that keep the number of values keep the shape of a block. -/
theorem Square.pass (h : Square n m) {kernel : List Int → List Int}
    (hkernel : ∀ row, row.length = n → (kernel row).length = n) : Square n (m.pass kernel) := by
  simp only [Rows.pass]
  refine ⟨?_, ?_⟩
  · rw [List.length_map, h.rows]
  · intro row hrow
    obtain ⟨row', hrow', rfl⟩ := List.mem_map.mp hrow
    exact hkernel row' (h.cols row' hrow')

theorem Square.each (h : Square n m) (f : Int → Int) : Square n (m.each f) := by
  refine h.pass ?_
  intro row hrow
  rw [List.length_map, hrow]

theorem each_each (m : Rows) (f g : Int → Int) : (m.each f).each g = m.each fun x => g (f x) := by
  simp only [each]
  rw [List.map_map]
  exact List.map_congr_left fun row _ => List.map_map

/-- A pass is undone by a pass with a kernel that undoes the other on every row. -/
theorem pass_pass {kernel inverse : List Int → List Int}
    (hinverse : ∀ row ∈ m, inverse (kernel row) = row) : (m.pass kernel).pass inverse = m := by
  simp only [Rows.pass]
  rw [List.map_map, List.map_congr_left (g := id)]
  · exact List.map_id m
  · exact hinverse

theorem each_each_eq {f g : Int → Int} (h : ∀ row ∈ m, ∀ x ∈ row, g (f x) = x) :
    (m.each f).each g = m := by
  apply pass_pass
  intro row hrow
  rw [List.map_map, List.map_congr_left (g := id)]
  · exact List.map_id row
  · exact h row hrow

/-! ## Bounds -/

/-- Whether no entry is larger than a bound. -/
def Bounded (b : Nat) (m : Rows) : Prop := ∀ row ∈ m, ∀ x ∈ row, x.natAbs ≤ b

theorem bounded_ofRaster {b : Nat} {xs : Array Int}
    (h : ∀ j < n * n, (xs.getD j 0).natAbs ≤ b) : (ofRaster n xs).Bounded b := by
  simp only [ofRaster]
  intro row hrow v hv
  obtain ⟨y, hy, rfl⟩ := List.mem_map.mp hrow
  obtain ⟨x, hx, rfl⟩ := List.mem_map.mp hv
  apply h
  exact ScanKind.raster_lt (p := (y, x)) (List.mem_range.mp hy) (List.mem_range.mp hx)

theorem Bounded.transpose {b : Nat} (h : m.Bounded b) : (m.transpose n).Bounded b := by
  simp only [Rows.transpose]
  intro row hrow v hv
  obtain ⟨x, -, rfl⟩ := List.mem_map.mp hrow
  obtain ⟨row, hrow, rfl⟩ := List.mem_map.mp hv
  rw [List.getD_eq_getElem?_getD]
  cases hx : row[x]? with
  | none => exact Nat.zero_le b
  | some w => exact h row hrow w (List.mem_of_getElem? hx)

/-- A kernel that bounds each row bounds the block. -/
theorem Bounded.pass {b c : Nat} (h : m.Bounded b) {kernel : List Int → List Int}
    (hkernel : ∀ row ∈ m, (∀ x ∈ row, x.natAbs ≤ b) → ∀ x ∈ kernel row, x.natAbs ≤ c) :
    (m.pass kernel).Bounded c := by
  intro row hrow
  obtain ⟨row', hrow', rfl⟩ := List.mem_map.mp hrow
  exact hkernel row' hrow' (h row' hrow')

theorem Bounded.each {b c : Nat} (h : m.Bounded b) {f : Int → Int}
    (hf : ∀ x, x.natAbs ≤ b → (f x).natAbs ≤ c) : (m.each f).Bounded c := by
  refine h.pass ?_
  intro row _ hrow x hx
  obtain ⟨y, hy, rfl⟩ := List.mem_map.mp hx
  exact hf y (hrow y hy)

end ResidualCodec.Rows

namespace ResidualCodec

/-! ## Functions that keep zero -/

theorem getD_map_of_zero {α β : Type} [Zero α] [Zero β] {g : α → β} (hg : g 0 = 0) (xs : List α)
    (k : Nat) : (xs.map g).getD k 0 = g (xs.getD k 0) := by
  conv_lhs => rw [← hg]
  exact List.getD_map xs 0 g

/-! ## Functions that always give something -/

theorem mapM_eq_pure_map {α β : Type} {m : Type → Type} [Monad m] [LawfulMonad m] {f : α → m β}
    {g : α → β} {as : List α} (h : ∀ a ∈ as, f a = pure (g a)) :
    as.mapM f = pure (as.map g) := by
  induction as with
  | nil => rw [List.mapM_nil, List.map_nil]
  | cons a rest ih =>
    obtain ⟨ha, hrest⟩ := List.forall_mem_cons.mp h
    rw [List.mapM_cons, ha, pure_bind, ih hrest, pure_bind, List.map_cons]

/-! ## Buffers -/

/-- Every place at the front of a buffer is that of a sample. -/
theorem TransformSize.exists_raster (s : TransformSize) {j : Nat} (hj : j < s.coeffs) :
    ∃ y < s.points, ∃ x < s.points, y * s.points + x = j :=
  ⟨j / s.points, Nat.div_lt_of_lt_mul hj, j % s.points, Nat.mod_lt j s.points_pos,
    Nat.div_add_mod' j s.points⟩

/-- Buffers with room for a block pass the check of its transforms. -/
theorem checkBlock_eq_ok {s : TransformSize} {t : TransformType} (h : s.Admits t)
    {input output : Array Int} (hin : s.coeffs ≤ input.size) (hout : s.coeffs ≤ output.size) :
    checkBlock s t input output = .ok () := by
  simp only [checkBlock]
  rw [if_neg (by omega), if_neg (not_not_intro h)]

end ResidualCodec
