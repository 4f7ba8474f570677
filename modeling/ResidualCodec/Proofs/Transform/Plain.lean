/-
  ResidualCodec.Proofs.Transform.Plain

  The inverse transform without its shortcuts: the column kernel for every
  column and the row kernel for every row, entry by entry. Columns of zeros and
  blocks without coefficients may be passed over because every inverse kernel
  gives zeros for zeros; and no output is wrapped, since what a kernel gives has
  been wrapped already and the last shift makes it smaller.
-/

import ResidualCodec.Proofs.Transform.Guarded
import ResidualCodec.Proofs.Transform.Zero

namespace ResidualCodec

/-! ## Inverse kernels -/

/-- What holds of the networks, of an unfolding of a network onto what it holds of, and of what it
holds of with outputs cut to 32 bits, holds of every inverse kernel. -/
theorem inverse_induction {P : (ValueRange → List Int → List Int) → Prop}
    (network : ∀ n : Network, n ≠ [] → P n.run)
    (unfolding : ∀ (half : ValueRange → List Int → List Int) (odd : Network), P half → odd ≠ [] →
      P fun r xs => unfold r (half r (evens xs)) (odd.run r (odds xs)))
    (words : ∀ kernel : ValueRange → List Int → List Int, P kernel →
      P fun r xs => (kernel r xs).map truncate32)
    (s : TransformSize) (b : Basis) : P (Kernel.inverse s b).network := by
  have hfour : P inverseDct4 :=
    unfolding _ dctOdd2 (network dctPair (List.cons_ne_nil _ _)) (List.cons_ne_nil _ _)
  have height : P inverseDct8 := unfolding _ inverseDctOdd4 hfour (List.cons_ne_nil _ _)
  have hsixteen : P inverseDct16 :=
    unfolding _ inverseDctOdd8 (words _ height) (List.cons_ne_nil _ _)
  have hthirtytwo : P inverseDct32 :=
    unfolding _ dctOdd16 (words _ hsixteen) (List.cons_ne_nil _ _)
  rcases s with _ | _ | _ | _ <;> rcases b with _ | _
  · exact hfour
  · exact network inverseAdst4 (List.cons_ne_nil _ _)
  · exact height
  · exact network adst8 (List.cons_ne_nil _ _)
  · exact hsixteen
  · exact network adst16 (List.cons_ne_nil _ _)
  · exact hthirtytwo
  · exact hthirtytwo

theorem mem_zipWith {α β γ : Type} {f : α → β → γ} {as : List α} {bs : List β} {c : γ}
    (h : c ∈ List.zipWith f as bs) : ∃ a ∈ as, ∃ b ∈ bs, c = f a b := by
  rw [← List.map_uncurry_zip_eq_zipWith] at h
  obtain ⟨⟨a, b⟩, hmem, rfl⟩ := List.mem_map.mp h
  obtain ⟨ha, hb⟩ := List.of_mem_zip hmem
  exact ⟨a, ha, b, hb, rfl⟩

/-- Every entry of an unfolding is a wrapped sum or a wrapped difference. -/
theorem mem_unfold {r : ValueRange} {es os : List Int} {y : Int} (h : y ∈ unfold r es os) :
    ∃ e ∈ es, ∃ o ∈ os, y = r.wrap (e + o) ∨ y = r.wrap (e - o) := by
  rcases List.mem_append.mp h with hsum | hdifference
  · obtain ⟨e, he, o, ho, rfl⟩ := mem_zipWith hsum
    exact ⟨e, he, o, ho, .inl rfl⟩
  · obtain ⟨e, he, o, ho, rfl⟩ := mem_zipWith (List.mem_reverse.mp hdifference)
    exact ⟨e, he, o, ho, .inr rfl⟩

/-! ## Zeros -/

/-- Whether all values are zero. -/
def Blank (xs : List Int) : Prop := ∀ x ∈ xs, x = 0

namespace Blank

variable {xs : List Int}

theorem getD (h : Blank xs) (i : Nat) : xs.getD i 0 = 0 := by
  rw [List.getD_eq_getElem?_getD]
  cases hx : xs[i]? with
  | none => rfl
  | some x => exact h x (List.mem_of_getElem? hx)

theorem eq_replicate (h : Blank xs) {n : Nat} (hlength : xs.length = n) :
    xs = List.replicate n 0 := List.eq_replicate_iff.mpr ⟨hlength, h⟩

theorem evens (h : Blank xs) : Blank (evens xs) := by
  induction xs using ResidualCodec.evens.induct with
  | case1 a b rest ih =>
    obtain ⟨ha, htail⟩ := List.forall_mem_cons.mp h
    obtain ⟨-, hrest⟩ := List.forall_mem_cons.mp htail
    exact List.forall_mem_cons.mpr ⟨ha, ih hrest⟩
  | case2 xs hshort =>
    rwa [ResidualCodec.evens]
    exact hshort

theorem odds (h : Blank xs) : Blank (odds xs) := by
  induction xs using ResidualCodec.odds.induct with
  | case1 a b rest ih =>
    obtain ⟨-, htail⟩ := List.forall_mem_cons.mp h
    obtain ⟨hb, hrest⟩ := List.forall_mem_cons.mp htail
    exact List.forall_mem_cons.mpr ⟨hb, ih hrest⟩
  | case2 xs hshort =>
    rw [ResidualCodec.odds]
    · exact List.forall_mem_nil _
    · exact hshort

theorem eval (h : Blank xs) (ts : WeightedSum) : ts.eval xs = 0 := by
  induction ts with
  | nil => rfl
  | cons t ts ih =>
    obtain ⟨w, i⟩ := t
    simp only [WeightedSum.eval]
    rw [h.getD, ih, Int.mul_zero, Int.zero_add]

theorem wrap_zero (r : ValueRange) : r.wrap 0 = 0 := by
  obtain ⟨_ | w⟩ := r
  · rfl
  · exact Int.zero_bmod

theorem gate (h : Blank xs) (r : ValueRange) (g : Gate) : g.eval r xs = 0 := by
  rcases g with ts | ts
  · simp only [Gate.eval]
    rw [h.eval, wrap_zero]
  · simp only [Gate.eval]
    rw [h.eval, roundShift_zero, wrap_zero]

/-- Zeros go through a network as zeros, stage by stage. -/
theorem run (h : Blank xs) (n : Network) (r : ValueRange) : Blank (n.run r xs) := by
  induction n generalizing xs with
  | nil => exact h
  | cons s n ih =>
    rw [Network.run_cons]
    apply ih
    intro y hy
    obtain ⟨g, -, rfl⟩ := List.mem_map.mp hy
    exact h.gate r g

theorem unfold {es os : List Int} (hes : Blank es) (hos : Blank os) (r : ValueRange) :
    Blank (unfold r es os) := by
  intro y hy
  obtain ⟨e, he, o, ho, rfl | rfl⟩ := mem_unfold hy
  · rw [hes e he, hos o ho, Int.add_zero, wrap_zero]
  · rw [hes e he, hos o ho, Int.sub_zero, wrap_zero]

theorem words (h : Blank xs) : Blank (xs.map truncate32) := by
  intro y hy
  obtain ⟨x, hx, rfl⟩ := List.mem_map.mp hy
  rw [h x hx]
  rfl

theorem inverse (h : Blank xs) (s : TransformSize) (b : Basis) (r : ValueRange) :
    Blank ((Kernel.inverse s b).network r xs) := by
  refine inverse_induction (P := fun f => ∀ xs, Blank xs → Blank (f r xs)) ?_ ?_ ?_ s b xs h
  · intro n _ xs hxs
    exact hxs.run n r
  · intro half odd hhalf _ xs hxs
    exact (hhalf _ hxs.evens).unfold (hxs.odds.run odd r) r
  · intro kernel hkernel xs hxs
    exact (hkernel xs hxs).words

end Blank

theorem run_inverse_blank {s : TransformSize} {xs : List Int} (h : Blank xs)
    (hlength : xs.length = s.points) (b : Basis) (r : ValueRange) :
    (Kernel.inverse s b).run r xs = xs := by
  have hout := (Guarded.safe_inverseKernel s b).length r xs hlength
  have htake : Blank (xs.take (Kernel.inverse s b).points) :=
    fun x hx => h x (List.mem_of_mem_take hx)
  have hblank : Blank ((Kernel.inverse s b).run r xs) := (htake.inverse s b r).words
  rw [hblank.eq_replicate hout, h.eq_replicate hlength]

/-- To pass over rows of zeros is not to leave anything out. -/
theorem passNonzero_inverse {s : TransformSize} {m : Rows} (h : m.Square s.points) (b : Basis)
    (r : ValueRange) :
    m.passNonzero ((Kernel.inverse s b).run r) = m.pass ((Kernel.inverse s b).run r) := by
  apply List.map_congr_left
  intro row hrow
  split
  case isTrue hzero =>
    have hblank : Blank row := fun x hx => eq_of_beq (List.all_eq_true.mp hzero x hx)
    exact (run_inverse_blank hblank (h.cols row hrow) b r).symm
  case isFalse => rfl

theorem Blank.run_inverse {s : TransformSize} {f : Nat → Int}
    (h : Blank ((List.range s.points).map f)) (b : Basis) (r : ValueRange) :
    Blank ((Kernel.inverse s b).run r ((List.range s.points).map f)) := by
  rw [run_inverse_blank h (by rw [List.length_map, List.length_range])]
  exact h

/-! ## Magnitudes -/

theorem natAbs_wrapTo_succ_le (w : Nat) (x : Int) : (wrapTo (w + 1) x).natAbs ≤ 2 ^ w := by
  have hpos : 0 < 2 ^ w := Nat.two_pow_pos w
  simp only [wrapTo, Nat.one_shiftLeft, Nat.pow_succ]
  have hlow := Int.le_bmod (x := x) (m := 2 ^ w * 2) (by omega)
  have hhigh := Int.bmod_lt (x := x) (m := 2 ^ w * 2) (by omega)
  omega

/-- Whether all values have the magnitude of coefficients at a bit depth. -/
def InRange (d : BitDepth) (xs : List Int) : Prop := ∀ x ∈ xs, x.natAbs ≤ 2 ^ (d.bits + 7)

theorem natAbs_wrap_ofDepth_le (d : BitDepth) (x : Int) :
    ((ValueRange.ofDepth d).wrap x).natAbs ≤ 2 ^ (d.bits + 7) := natAbs_wrapTo_succ_le _ x

/-- The last stage of a network wraps what it gives. -/
theorem inRange_run {n : Network} (hn : n ≠ []) (d : BitDepth) (xs : List Int) :
    InRange d (n.run (.ofDepth d) xs) := by
  induction n generalizing xs with
  | nil => exact absurd rfl hn
  | cons s n ih =>
    rw [Network.run_cons]
    rcases n with _ | ⟨s', n⟩
    · intro y hy
      obtain ⟨g, -, rfl⟩ := List.mem_map.mp hy
      rcases g with ts | ts <;> exact natAbs_wrap_ofDepth_le d _
    · exact ih (List.cons_ne_nil s' n) _

theorem InRange.words {d : BitDepth} {xs : List Int} (h : InRange d xs) :
    InRange d (xs.map truncate32) := by
  have hmax : 2 ^ (d.bits + 7) ≤ max32 := by cases d <;> decide
  rwa [map_truncate32_of_le fun x hx => (h x hx).trans hmax]

/-- No output of an inverse kernel leaves the range, nor is it cut to 32 bits. -/
theorem inRange_inverse (s : TransformSize) (b : Basis) (d : BitDepth) (xs : List Int) :
    InRange d ((Kernel.inverse s b).network (.ofDepth d) xs) := by
  refine inverse_induction (P := fun f => ∀ xs, InRange d (f (.ofDepth d) xs)) ?_ ?_ ?_ s b xs
  · intro n hn xs
    exact inRange_run hn d xs
  · -- An unfolding wraps its sums itself, whatever they are made of.
    intro half odd _ _ xs y hy
    obtain ⟨e, -, o, -, rfl | rfl⟩ := mem_unfold hy
    · exact natAbs_wrap_ofDepth_le d _
    · exact natAbs_wrap_ofDepth_le d _
  · intro kernel hkernel xs
    exact (hkernel xs).words

theorem natAbs_run_inverse_le (s : TransformSize) (b : Basis) (d : BitDepth) {xs : List Int} :
    ∀ y ∈ (Kernel.inverse s b).run (.ofDepth d) xs, y.natAbs ≤ 2 ^ (d.bits + 7) :=
  (inRange_inverse s b d _).words

/-- A shift divides a power of two exactly. -/
theorem shiftBound_two_pow (k bits : Nat) : shiftBound (2 ^ (k + bits)) bits = 2 ^ k := by
  have hpos : 0 < 2 ^ bits := Nat.two_pow_pos bits
  rw [shiftBound, Nat.pow_add, Nat.mul_comm, Nat.add_comm, Nat.add_mul_div_left _ _ hpos,
    Nat.div_eq_of_lt (Nat.div_lt_self hpos Nat.one_lt_two), Nat.zero_add]

theorem natAbs_roundShift_inverse_le (s : TransformSize) (d : BitDepth) {x : Int}
    (hx : x.natAbs ≤ 2 ^ (d.bits + 7)) :
    (roundShift x s.inverseShift).natAbs ≤ 2 ^ (d.coeffBits - 1 - s.inverseShift) ∧
      (ValueRange.ofDepth d).wrap (roundShift x s.inverseShift) = roundShift x s.inverseShift := by
  -- The range is as wide as the coefficients are, and every size shifts by a bit at least.
  have hshift : s.inverseShift ≠ 0 := by cases s <;> exact Nat.succ_ne_zero _
  have hwidth : d.bits + 7 = d.coeffBits - 1 - s.inverseShift + s.inverseShift := by
    cases s <;> cases d <;> rfl
  have hle : (roundShift x s.inverseShift).natAbs ≤ shiftBound (2 ^ (d.bits + 7)) s.inverseShift :=
    natAbs_roundShift_le hx
  rw [hwidth, shiftBound_two_pow] at hle
  refine ⟨hle, ?_⟩
  have hlt : 2 ^ (d.coeffBits - 1 - s.inverseShift) < 2 ^ (d.bits + 7) := by
    apply Nat.pow_lt_pow_right Nat.one_lt_two
    omega
  apply wrapTo_succ_of_lt
  · omega
  · omega

/-! ## Tables -/

namespace Rows

variable {n : Nat}

/-- The block of the values of a function. -/
def table (n : Nat) (f : Nat → Nat → Int) : Rows :=
  (List.range n).map fun y => (List.range n).map fun x => f y x

theorem ofRaster_eq_table (n : Nat) (xs : Array Int) :
    ofRaster n xs = table n fun y x => xs.getD (y * n + x) 0 := rfl

theorem each_table (f : Nat → Nat → Int) (g : Int → Int) :
    (table n f).each g = table n fun y x => g (f y x) := by
  simp only [each, table]
  rw [List.map_map]
  exact List.map_congr_left fun y _ => List.map_map

theorem pass_table (f : Nat → Nat → Int) (kernel : List Int → List Int) :
    (table n f).pass kernel = (List.range n).map fun y => kernel ((List.range n).map (f y)) :=
  List.map_map

theorem transpose_map_range (f : Nat → List Int) :
    transpose n ((List.range n).map f) = table n fun x y => (f y).getD x 0 := by
  simp only [transpose, List.map_map]
  rfl

theorem transpose_table (f : Nat → Nat → Int) :
    (table n f).transpose n = table n fun x y => f y x := by
  conv_lhs => rw [table]
  rw [transpose_map_range]
  refine List.map_congr_left fun x hx => List.map_congr_left fun y _ => ?_
  exact getD_map_range (f y) 0 (List.mem_range.mp hx)

end Rows

/-! ## The plain transform -/

section

variable (s : TransformSize) (t : TransformType) (d : BitDepth) (input : Array Int)

/-- A column of the coefficients, wrapped to the range and put through its kernel. -/
def plainColumn (x : Nat) : List Int :=
  (Kernel.inverse s t.vertical).run (.ofDepth d) <| (List.range s.points).map fun y =>
    (ValueRange.ofDepth d).wrap (input.getD (y * s.points + x) 0)

/-- A row across the columns, put through its kernel. -/
def plainRow (y : Nat) : List Int :=
  (Kernel.inverse s t.horizontal).run (.ofDepth d) <| (List.range s.points).map fun x =>
    (plainColumn s t d input x).getD y 0

/-- A sample of the inverse transform. -/
def plainSample (y x : Nat) : Int := roundShift ((plainRow s t d input y).getD x 0) s.inverseShift

theorem length_plainRow (y : Nat) : (plainRow s t d input y).length = s.points := by
  apply (Guarded.safe_inverseKernel s t.horizontal).length
  rw [List.length_map, List.length_range]

theorem natAbs_getD_plainRow_le (y x : Nat) :
    ((plainRow s t d input y).getD x 0).natAbs ≤ 2 ^ (d.bits + 7) := by
  rw [List.getD_eq_getElem?_getD]
  cases hx : (plainRow s t d input y)[x]? with
  | none => exact Nat.zero_le _
  | some v => exact natAbs_run_inverse_le s t.horizontal d v (List.mem_of_getElem? hx)

theorem natAbs_plainSample_le (y x : Nat) :
    (plainSample s t d input y x).natAbs ≤ 2 ^ (d.coeffBits - 1 - s.inverseShift) :=
  (natAbs_roundShift_inverse_le s d (natAbs_getD_plainRow_le s t d input y x)).1

/-- With no shortcut taken, the passes are those of the plain transform. -/
theorem inverseRows_ofRaster :
    inverseRows s t d (.ofRaster s.points input) =
      (List.range s.points).map fun y => (plainRow s t d input y).map fun x =>
        (ValueRange.ofDepth d).wrap (roundShift x s.inverseShift) := by
  -- Turned on its side, the wrapped block has the columns for its rows; their kernels are put on
  -- these, and what is turned back again is half of the plain transform.
  have hsquare := (Rows.square_ofRaster s.points input).each (ValueRange.ofDepth d).wrap
  have hcolumns : (Rows.each (.ofRaster s.points input) (ValueRange.ofDepth d).wrap).transpose
      s.points = .table s.points fun x y =>
        (ValueRange.ofDepth d).wrap (input.getD (y * s.points + x) 0) := by
    rw [Rows.ofRaster_eq_table, Rows.each_table, Rows.transpose_table]
  have hhalf : Rows.transpose s.points
      (Rows.pass (.table s.points fun x y =>
        (ValueRange.ofDepth d).wrap (input.getD (y * s.points + x) 0))
        ((Kernel.inverse s t.vertical).run (.ofDepth d))) =
      .table s.points fun y x => (plainColumn s t d input x).getD y 0 := by
    rw [Rows.pass_table, Rows.transpose_map_range]
    rfl
  simp only [inverseRows]
  rw [passNonzero_inverse (Rows.square_transpose hsquare.rows), hcolumns, hhalf, Rows.pass_table,
    Rows.each, List.map_map]
  rfl

end

/-- Without coefficients there is nothing to transform. -/
theorem plainSample_of_zero {s : TransformSize} {input : Array Int}
    (h : ∀ j < s.coeffs, input.getD j 0 = 0) (t : TransformType) (d : BitDepth) (y x : Nat) :
    plainSample s t d input y x = 0 := by
  have hcolumn : ∀ x < s.points, Blank (plainColumn s t d input x) := by
    intro x hx
    refine Blank.run_inverse ?_ t.vertical (.ofDepth d)
    intro v hv
    obtain ⟨y, hy, rfl⟩ := List.mem_map.mp hv
    rw [h _ (ScanKind.raster_lt (p := (y, x)) (List.mem_range.mp hy) hx), Blank.wrap_zero]
  have hrow : Blank (plainRow s t d input y) := by
    refine Blank.run_inverse ?_ t.horizontal (.ofDepth d)
    intro v hv
    obtain ⟨x, hx, rfl⟩ := List.mem_map.mp hv
    exact (hcolumn x (List.mem_range.mp hx)).getD y
  rw [plainSample, hrow.getD, roundShift_zero]

/-! ## Outputs -/

/-- What the inverse transform makes of the coefficients of a block: the samples of the plain
transform, over the front of a buffer that is otherwise left as it was. -/
structure PlainlyInverted (s : TransformSize) (t : TransformType) (d : BitDepth)
    (input output out : Array Int) : Prop where
  size : out.size = output.size
  sample : ∀ y < s.points, ∀ x < s.points,
    out.getD (y * s.points + x) 0 = plainSample s t d input y x
  bounded : ∀ j < s.coeffs, (out.getD j 0).natAbs ≤ 2 ^ (d.coeffBits - 1 - s.inverseShift)
  kept : ∀ j, s.coeffs ≤ j → out[j]? = output[j]?

section

variable {s : TransformSize} {t : TransformType} {d : BitDepth} {input output : Array Int}

theorem plainlyInverted_of_sample {out : Array Int} (size : out.size = output.size)
    (sample : ∀ y < s.points, ∀ x < s.points,
      out.getD (y * s.points + x) 0 = plainSample s t d input y x)
    (kept : ∀ j, s.coeffs ≤ j → out[j]? = output[j]?) :
    PlainlyInverted s t d input output out := by
  refine ⟨size, sample, ?_, kept⟩
  intro j hj
  obtain ⟨y, hy, x, hx, rfl⟩ := s.exists_raster hj
  rw [sample y hy x hx]
  exact natAbs_plainSample_le s t d input y x

/-- There is one such output. -/
theorem PlainlyInverted.unique {out out' : Array Int} (h : PlainlyInverted s t d input output out)
    (h' : PlainlyInverted s t d input output out') : out = out' := by
  have hsize : out.size = out'.size := h.size.trans h'.size.symm
  apply Array.ext_getElem?
  intro j
  -- Inside of the block the samples decide, past it the buffer that was written to.
  rcases Nat.lt_or_ge j s.coeffs with hj | hj
  · obtain ⟨y, hy, x, hx, rfl⟩ := s.exists_raster hj
    have hvalue := (h.sample y hy x hx).trans (h'.sample y hy x hx).symm
    rcases Nat.lt_or_ge (y * s.points + x) out.size with hlt | hge
    · rw [Array.getD_eq_getD_getElem?, Array.getD_eq_getD_getElem?,
        Array.getElem?_eq_getElem hlt, Array.getElem?_eq_getElem (hsize ▸ hlt)] at hvalue
      rw [Array.getElem?_eq_getElem hlt, Array.getElem?_eq_getElem (hsize ▸ hlt)]
      exact congrArg some hvalue
    · rw [Array.getElem?_eq_none hge, Array.getElem?_eq_none (hsize ▸ hge)]
  · rw [h.kept j hj, h'.kept j hj]

theorem plainlyInverted_writeTo (s : TransformSize) (t : TransformType) (d : BitDepth)
    (input : Array Int) (hroom : s.coeffs ≤ output.size) :
    PlainlyInverted s t d input output
      ((inverseRows s t d (.ofRaster s.points input)).writeTo output) := by
  have hsquare := (Guarded.inverseRows_eq (Rows.square_ofRaster s.points input) t d).2
  apply plainlyInverted_of_sample
  case size => exact hsquare.size_writeTo hroom
  case sample =>
    intro y hy x hx
    have hrow : x < (plainRow s t d input y).length := by rwa [length_plainRow]
    have hle := natAbs_getD_plainRow_le s t d input y x
    rw [hsquare.getD_writeTo output hy hx, inverseRows_ofRaster, Rows.entry,
      Rows.getD_map_range _ _ hy, List.getD_eq_getElem _ _ (by rwa [List.length_map]),
      List.getElem_map, ← List.getD_eq_getElem _ 0 hrow]
    exact (natAbs_roundShift_inverse_le s d hle).2
  case kept =>
    intro j hj
    exact hsquare.getElem?_writeTo_of_le output hj

end

/-- Where a block without coefficients is all zeros, the shortcuts make no difference. -/
theorem exists_plainlyInverted {s : TransformSize} {t : TransformType} (h : s.Admits t)
    {input output : Array Int} (hin : s.coeffs ≤ input.size) (hout : s.coeffs ≤ output.size)
    {eob : Nat} (hempty : eob = 0 → ∀ j < s.coeffs, input.getD j 0 = 0) (d : BitDepth) :
    ∃ out, inverseTransform s t input output eob d = .ok out ∧
      PlainlyInverted s t d input output out := by
  simp only [inverseTransform]
  rw [checkBlock_eq_ok h hin hout]
  dsimp only [bind, Except.bind]
  by_cases heob : eob = 0
  · have hzero := Rows.square_zero s.points
    rw [if_pos heob, (Rows.square_ofRaster s.points input).each_eq_zero]
    refine ⟨_, rfl, ?_⟩
    apply plainlyInverted_of_sample
    case size => exact hzero.size_writeTo hout
    case sample =>
      intro y hy x hx
      rw [hzero.getD_writeTo output hy hx, Rows.entry_zero hy hx,
        plainSample_of_zero (hempty heob)]
    case kept => exact fun j hj => hzero.getElem?_writeTo_of_le output hj
  · rw [if_neg heob]
    exact ⟨_, rfl, plainlyInverted_writeTo s t d input hout⟩

end ResidualCodec
