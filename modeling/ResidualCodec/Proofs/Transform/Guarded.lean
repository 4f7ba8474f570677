/-
  ResidualCodec.Proofs.Transform.Guarded

  The inverse transforms with every access guarded: gates look at values of the
  stage before, kernels at all their points, and passes at rows, columns and
  buffers. No guard ever fails on a block with all its coefficients.
-/

import ResidualCodec.Proofs.Coefficient.Guarded
import ResidualCodec.Proofs.Tile.Sound
import ResidualCodec.Proofs.Transform.Hadamard

namespace ResidualCodec

/-! ## Wiring -/

/-- Indexes of the values that a gate looks at. -/
def Gate.indexes : Gate → List Nat
  | .sum ts => ts.map Prod.snd
  | .turn ts => ts.map Prod.snd

/-- Whether every gate looks at values that are there, from a number of inputs up to a number of
outputs. -/
def Network.wired : Network → (inputs outputs : Nat) → Bool
  | [], inputs, outputs => inputs == outputs
  | s :: n, inputs, outputs =>
    (s.all fun g => g.indexes.all (· < inputs)) && Network.wired n s.length outputs

namespace Guarded

/-! ## Kernels -/

def sum (xs : List Int) : WeightedSum → Except Fault Int
  | [] => .ok 0
  | (w, i) :: ts => do
    let x ← entry xs[i]?
    return w * x + (← sum xs ts)

def gate (r : ValueRange) (xs : List Int) : Gate → Except Fault Int
  | .sum ts => do return r.wrap (← sum xs ts)
  | .turn ts => do return r.wrap (roundShift (← sum xs ts) cosineBits)

def network (n : Network) (r : ValueRange) (xs : List Int) : Except Fault (List Int) :=
  n.foldlM (fun ys s => s.mapM (gate r ys)) xs

/-- Inverse cosine transform of twice the points of another one. The two halves must be of equal
length. -/
def double (half : ValueRange → List Int → Except Fault (List Int)) (odd : Network)
    (r : ValueRange) (xs : List Int) : Except Fault (List Int) := do
  let es ← half r (evens xs)
  let os ← network odd r (odds xs)
  if es.length = os.length then return unfold r es os else throw .indexOutOfBounds

/-- Kernel whose outputs are cut to 32 bits. -/
def words (kernel : ValueRange → List Int → Except Fault (List Int)) (r : ValueRange)
    (xs : List Int) : Except Fault (List Int) := do
  return (← kernel r xs).map truncate32

def inverseDct4 := double (network dctPair) dctOdd2

def inverseDct8 := double inverseDct4 inverseDctOdd4

def inverseDct16 := double (words inverseDct8) inverseDctOdd8

def inverseDct32 := double (words inverseDct16) dctOdd16

def inverseNetwork (s : TransformSize) (b : Basis) :
    ValueRange → List Int → Except Fault (List Int) :=
  match s, b with
  | .s4, .dct => inverseDct4
  | .s8, .dct => inverseDct8
  | .s16, .dct => inverseDct16
  | .s32, _ => inverseDct32
  | .s4, .adst => network inverseAdst4
  | .s8, .adst => network adst8
  | .s16, .adst => network adst16

/-- Inverse kernel of a basis, over values that must be as many as the points. -/
def inverseKernel (s : TransformSize) (b : Basis) (r : ValueRange) (xs : List Int) :
    Except Fault (List Int) := do
  if xs.length ≠ s.points then throw .indexOutOfBounds
  words (inverseNetwork s b) r xs

/-- One inverse pass over coefficients, which must be four. -/
def lift (row : List Int) : Except Fault (List Int) :=
  if row.length = 4 then .ok (liftInverse row) else .error .indexOutOfBounds

/-! ## Blocks -/

def ofRaster (n : Nat) (xs : Array Int) : Except Fault Rows :=
  (List.range n).mapM fun y => (List.range n).mapM fun x => entry xs[y * n + x]?

def transpose (n : Nat) (m : Rows) : Except Fault Rows :=
  (List.range n).mapM fun x => m.mapM fun row => entry row[x]?

/-- Put the rows over the front of a buffer, which must have room for them. -/
def writeTo (m : Rows) (buffer : Array Int) : Except Fault (Array Int) :=
  if m.flatten.length ≤ buffer.size then .ok (m.writeTo buffer) else .error .indexOutOfBounds

def inverseRows (s : TransformSize) (t : TransformType) (d : BitDepth) (m : Rows) :
    Except Fault Rows := do
  let r := ValueRange.ofDepth d
  let columns ← transpose s.points (m.each r.wrap)
  let half ← columns.mapM fun row =>
    if row.all (· == 0) then .ok row else inverseKernel s t.vertical r row
  let full ← (← transpose s.points half).mapM (inverseKernel s t.horizontal r)
  return Rows.each full fun x => r.wrap (roundShift x s.inverseShift)

def inverseHadamardRows (m : Rows) : Except Fault Rows := do
  let half ← (m.each (· / unitStep)).mapM lift
  transpose 4 (← (← transpose 4 half).mapM lift)

/-- Residual samples of decoded coefficients. -/
def reconstruct (c : CoefBlock) (p : BlockParams) : Except Fault (Array Int) := do
  let output := zeroBlock p.size
  if p.dequant.lossless then
    checkLossless p
    if c.coeffs.size < 16 ∨ output.size < 16 then throw .shortHadamardCoefficients
    let rows ← ofRaster 4 c.coeffs
    if c.eob = 0 then writeTo (rows.each fun _ => 0) output
    else writeTo (← inverseHadamardRows rows) output
  else
    checkBlock p.size p.type c.coeffs output
    let rows ← ofRaster p.size.points c.coeffs
    if c.eob = 0 then writeTo (rows.each fun _ => 0) output
    else writeTo (← inverseRows p.size p.type p.depth rows) output

/-! ## Networks -/

theorem mapM_eq_map {α β : Type} {f : α → Except Fault β} {g : α → β} {as : List α}
    (h : ∀ a ∈ as, f a = .ok (g a)) : as.mapM f = .ok (as.map g) := mapM_eq_pure_map h

section

variable {xs : List Int} (r : ValueRange)

theorem sum_eq {ts : WeightedSum} (h : ∀ i ∈ ts.map Prod.snd, i < xs.length) :
    sum xs ts = .ok (ts.eval xs) := by
  induction ts with
  | nil => rfl
  | cons t ts ih =>
    obtain ⟨w, i⟩ := t
    obtain ⟨hi, hrest⟩ := List.forall_mem_cons.mp h
    have hx : xs[i]? = some (xs.getD i 0) := by
      rw [List.getD_eq_getElem _ _ hi, List.getElem?_eq_getElem hi]
    simp only [sum, WeightedSum.eval]
    rw [entry_of_eq_some hx, ih hrest]
    rfl

theorem gate_eq {g : Gate} (h : ∀ i ∈ g.indexes, i < xs.length) :
    gate r xs g = .ok (g.eval r xs) := by
  cases g with
  | sum ts =>
    simp only [gate]
    rw [sum_eq h]
    rfl
  | turn ts =>
    simp only [gate]
    rw [sum_eq h]
    rfl

theorem stage_eq {s : Stage} (h : (s.all fun g => g.indexes.all (· < xs.length)) = true) :
    s.mapM (gate r xs) = .ok (s.run r xs) := by
  apply mapM_eq_map
  intro g hg
  apply gate_eq
  intro i hi
  exact of_decide_eq_true (List.all_eq_true.mp (List.all_eq_true.mp h g hg) i hi)

end

/-- A guarded kernel over a number of points that gives what the kernel gives, point by point. -/
structure Safe (n : Nat) (guarded : ValueRange → List Int → Except Fault (List Int))
    (kernel : ValueRange → List Int → List Int) : Prop where
  eq : ∀ r xs, xs.length = n → guarded r xs = .ok (kernel r xs)
  length : ∀ r xs, xs.length = n → (kernel r xs).length = n

/-- What a stage looks at is there, since the stage before has as many gates. -/
theorem network_eq {n : Network} {outputs : Nat} (r : ValueRange) {xs : List Int}
    (h : n.wired xs.length outputs = true) :
    network n r xs = .ok (n.run r xs) ∧ (n.run r xs).length = outputs := by
  induction n generalizing xs with
  | nil => exact ⟨rfl, eq_of_beq h⟩
  | cons s n ih =>
    unfold Network.wired at h
    rw [Bool.and_eq_true] at h
    obtain ⟨hstage, hrest⟩ := h
    rw [← List.length_map (Gate.eval r xs)] at hrest
    obtain ⟨heq, hlength⟩ := ih hrest
    refine ⟨?_, hlength⟩
    simp only [network]
    rw [List.foldlM_cons, stage_eq r hstage, Network.run_cons]
    exact heq

theorem safe_network {n : Network} {points : Nat} (h : n.wired points points = true) :
    Safe points (network n) n.run where
  eq r xs hxs := by
    rw [← hxs] at h
    exact (network_eq r h).1
  length r xs hxs := by
    have hwired : n.wired xs.length points = true := by rwa [hxs]
    exact (network_eq r hwired).2

/-! ## Cosine transforms -/

theorem length_evens_odds {n : Nat} {xs : List Int} (h : xs.length = 2 * n) :
    (evens xs).length = n ∧ (odds xs).length = n := by
  induction n generalizing xs with
  | zero =>
    rw [List.eq_nil_of_length_eq_zero h]
    exact ⟨rfl, rfl⟩
  | succ n ih =>
    match xs, h with
    | [], h => cases h
    | [_], h =>
      rw [List.length_singleton] at h
      omega
    | a :: b :: rest, h =>
      have hrest : rest.length = 2 * n := by
        simp only [List.length_cons] at h
        omega
      obtain ⟨hevens, hodds⟩ := ih hrest
      exact ⟨congrArg Nat.succ hevens, congrArg Nat.succ hodds⟩

theorem length_unfold (r : ValueRange) {es os : List Int} (h : es.length = os.length) :
    (unfold r es os).length = 2 * es.length := by
  simp only [unfold]
  rw [List.length_append, List.length_reverse, List.length_zipWith, List.length_zipWith, h,
    Nat.min_self, Nat.two_mul]

theorem Safe.double {n : Nat} {guarded : ValueRange → List Int → Except Fault (List Int)}
    {kernel : ValueRange → List Int → List Int} (h : Safe n guarded kernel) {odd : Network}
    (hodd : odd.wired n n = true) :
    Safe (2 * n) (double guarded odd)
      fun r xs => unfold r (kernel r (evens xs)) (odd.run r (odds xs)) where
  eq r xs hxs := by
    obtain ⟨hevens, hodds⟩ := length_evens_odds hxs
    simp only [Guarded.double]
    rw [h.eq r _ hevens, (safe_network hodd).eq r _ hodds]
    dsimp only [bind, Except.bind]
    rw [if_pos ((h.length r _ hevens).trans ((safe_network hodd).length r _ hodds).symm)]
    rfl
  length r xs hxs := by
    obtain ⟨hevens, hodds⟩ := length_evens_odds hxs
    have hleft := h.length r _ hevens
    rw [length_unfold r (hleft.trans ((safe_network hodd).length r _ hodds).symm), hleft]

theorem Safe.words {n : Nat} {guarded : ValueRange → List Int → Except Fault (List Int)}
    {kernel : ValueRange → List Int → List Int} (h : Safe n guarded kernel) :
    Safe n (words guarded) fun r xs => (kernel r xs).map truncate32 where
  eq r xs hxs := by
    simp only [Guarded.words]
    rw [h.eq r xs hxs]
    rfl
  length r xs hxs := by rw [List.length_map, h.length r xs hxs]

theorem safe_dctPair : Safe 2 (network dctPair) dctPair.run :=
  safe_network (by decide)

theorem safe_inverseDct4 : Safe 4 inverseDct4 ResidualCodec.inverseDct4 :=
  safe_dctPair.double (by decide)

theorem safe_inverseDct8 : Safe 8 inverseDct8 ResidualCodec.inverseDct8 :=
  safe_inverseDct4.double (by decide)

theorem safe_inverseDct16 : Safe 16 inverseDct16 ResidualCodec.inverseDct16 :=
  safe_inverseDct8.words.double (by decide)

theorem safe_inverseDct32 : Safe 32 inverseDct32 ResidualCodec.inverseDct32 :=
  safe_inverseDct16.words.double (by decide)

theorem safe_inverseNetwork (s : TransformSize) (b : Basis) :
    Safe s.points (inverseNetwork s b) (Kernel.inverse s b).network := by
  cases s with
  | s4 =>
    cases b with
    | dct => exact safe_inverseDct4
    | adst => exact safe_network (by decide)
  | s8 =>
    cases b with
    | dct => exact safe_inverseDct8
    | adst => exact safe_network (by decide)
  | s16 =>
    cases b with
    | dct => exact safe_inverseDct16
    | adst => exact safe_network (by decide)
  | s32 =>
    cases b with
    | dct => exact safe_inverseDct32
    | adst => exact safe_inverseDct32

theorem safe_inverseKernel (s : TransformSize) (b : Basis) :
    Safe s.points (inverseKernel s b) (Kernel.inverse s b).run := by
  have hpoints : (Kernel.inverse s b).points = s.points := by cases s <;> cases b <;> rfl
  have hsafe := (safe_inverseNetwork s b).words
  refine ⟨?_, ?_⟩
  · intro r xs hxs
    simp only [inverseKernel, Kernel.run]
    rw [if_neg (not_not_intro hxs), hpoints, List.take_of_length_le hxs.le]
    exact hsafe.eq r xs hxs
  · intro r xs hxs
    simp only [Kernel.run]
    rw [hpoints, List.take_of_length_le hxs.le]
    exact hsafe.length r xs hxs

/-! ## Passes -/

section

variable {n : Nat} {m : Rows}

theorem ofRaster_eq {xs : Array Int} (hsize : n * n ≤ xs.size) :
    ofRaster n xs = .ok (Rows.ofRaster n xs) := by
  apply mapM_eq_map
  intro y hy
  apply mapM_eq_map
  intro x hx
  rw [List.mem_range] at hy hx
  have hlt : y * n + x < xs.size := (ScanKind.raster_lt (p := (y, x)) hy hx).trans_le hsize
  apply entry_of_eq_some
  rw [Array.getD_eq_getD_getElem?, Array.getElem?_eq_getElem hlt]
  rfl

theorem transpose_eq (h : m.Square n) : transpose n m = .ok (m.transpose n) := by
  apply mapM_eq_map
  intro x hx
  apply mapM_eq_map
  intro row hrow
  have hlt : x < row.length := by
    rw [h.cols row hrow]
    exact List.mem_range.mp hx
  apply entry_of_eq_some
  rw [List.getD_eq_getElem _ _ hlt, List.getElem?_eq_getElem hlt]

theorem writeTo_eq_of_square (h : m.Square n) {buffer : Array Int} (hsize : n * n ≤ buffer.size) :
    writeTo m buffer = .ok (m.writeTo buffer) := by
  apply if_pos
  rwa [h.length_flatten]

theorem mapM_lift_eq (h : m.Square 4) : m.mapM lift = .ok (m.pass liftInverse) := by
  apply mapM_eq_map
  intro row hrow
  exact if_pos (h.cols row hrow)

theorem inverseHadamardRows_eq (h : m.Square 4) :
    inverseHadamardRows m = .ok (ResidualCodec.inverseHadamardRows m) ∧
      (ResidualCodec.inverseHadamardRows m).Square 4 := by
  have hscaled : (m.each (· / unitStep)).Square 4 := h.each _
  have hhalf := hscaled.pass fun _ => length_liftInverse
  have hcolumns : (((m.each (· / unitStep)).pass liftInverse).transpose 4).Square 4 :=
    Rows.square_transpose hhalf.rows
  have hfull := hcolumns.pass fun _ => length_liftInverse
  refine ⟨?_, Rows.square_transpose hfull.rows⟩
  simp only [inverseHadamardRows]
  rw [mapM_lift_eq hscaled]
  dsimp only [bind, Except.bind]
  rw [transpose_eq hhalf]
  dsimp only
  rw [mapM_lift_eq hcolumns]
  exact transpose_eq hfull

variable {s : TransformSize}

/-- Columns pass through a kernel of their length, or stay as they are. -/
theorem inverseRows_eq (h : m.Square s.points) (t : TransformType) (d : BitDepth) :
    inverseRows s t d m = .ok (ResidualCodec.inverseRows s t d m) ∧
      (ResidualCodec.inverseRows s t d m).Square s.points := by
  have hvertical := safe_inverseKernel s t.vertical
  have hhorizontal := safe_inverseKernel s t.horizontal
  have hwrapped : (m.each (ValueRange.ofDepth d).wrap).Square s.points := h.each _
  have hcolumns : ((m.each (ValueRange.ofDepth d).wrap).transpose s.points).Square s.points :=
    Rows.square_transpose hwrapped.rows
  have hhalf : (((m.each (ValueRange.ofDepth d).wrap).transpose s.points).passNonzero
      ((Kernel.inverse s t.vertical).run (.ofDepth d))).Square s.points := by
    apply hcolumns.pass
    intro row hrow
    split
    case isTrue => exact hrow
    case isFalse => exact hvertical.length _ row hrow
  have hrows := Rows.square_transpose hhalf.rows
  have hfull := hrows.pass (hhorizontal.length (.ofDepth d))
  refine ⟨?_, hfull.each _⟩
  have hvert : ((m.each (ValueRange.ofDepth d).wrap).transpose s.points).mapM (fun row =>
      if row.all (· == 0) then .ok row else inverseKernel s t.vertical (.ofDepth d) row) =
      .ok (((m.each (ValueRange.ofDepth d).wrap).transpose s.points).passNonzero
        ((Kernel.inverse s t.vertical).run (.ofDepth d))) := by
    apply mapM_eq_map
    intro row hrow
    split
    case isTrue => rfl
    case isFalse => exact hvertical.eq _ row (hcolumns.cols row hrow)
  simp only [inverseRows]
  rw [transpose_eq hwrapped]
  dsimp only [bind, Except.bind]
  rw [hvert]
  dsimp only
  rw [transpose_eq hhalf]
  dsimp only
  rw [mapM_eq_map fun row hrow => hhorizontal.eq (.ofDepth d) row (hrows.cols row hrow)]
  rfl

end

/-! ## Blocks -/

/-- No guard fails on a block with all its coefficients. -/
theorem reconstruct_eq {c : CoefBlock} {p : BlockParams} (hsize : c.coeffs.size = p.size.coeffs) :
    reconstruct c p = c.reconstruct p := by
  have hroom : (zeroBlock p.size).size = p.size.coeffs := size_zeroBlock p.size
  simp only [reconstruct, CoefBlock.reconstruct]
  split
  case isTrue =>
    by_cases hs : p.size = .s4
    · have hcoeffs : c.coeffs.size = 16 := by rw [hsize, hs]; rfl
      have hbuffer : (zeroBlock p.size).size = 16 := by rw [hroom, hs]; rfl
      have hsquare := Rows.square_ofRaster 4 c.coeffs
      obtain ⟨hrows, hinverse⟩ := inverseHadamardRows_eq hsquare
      simp only [checkLossless, inverseHadamard]
      rw [if_pos hs]
      dsimp only [bind, Except.bind]
      rw [if_neg (by omega), if_neg (by omega), ofRaster_eq (by omega)]
      dsimp only
      split
      case isTrue => exact writeTo_eq_of_square (hsquare.each _) (by omega)
      case isFalse =>
        rw [hrows]
        exact writeTo_eq_of_square hinverse (by omega)
    · simp only [checkLossless]
      rw [if_neg hs]
      rfl
  case isFalse =>
    have hsquare := Rows.square_ofRaster p.size.points c.coeffs
    obtain ⟨hrows, hinverse⟩ := inverseRows_eq hsquare p.type p.depth
    simp only [inverseTransform]
    cases checkBlock p.size p.type c.coeffs (zeroBlock p.size) with
    | error => rfl
    | ok =>
      dsimp only [bind, Except.bind]
      rw [ofRaster_eq hsize.ge]
      dsimp only
      split
      case isTrue => exact writeTo_eq_of_square (hsquare.each _) hroom.ge
      case isFalse =>
        rw [hrows]
        exact writeTo_eq_of_square hinverse hroom.ge

end Guarded

end ResidualCodec
