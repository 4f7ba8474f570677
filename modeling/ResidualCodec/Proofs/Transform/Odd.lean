/-
  ResidualCodec.Proofs.Transform.Odd

  Forward transforms do not prefer a sign: to change the signs of all samples is
  to change the signs of all coefficients. Sums and foldings are linear, and
  every rounding takes ties away from zero, so that it rounds a number and its
  opposite alike. Only a cut to 32 bits would prefer a sign, and small samples
  are never cut.
-/

import ResidualCodec.Proofs.Transform.Magnitude
import ResidualCodec.Proofs.Transform.Resemblance

namespace ResidualCodec

/-! ## Values -/

theorem roundShift_neg (x : Int) (bits : Nat) : roundShift (-x) bits = -roundShift x bits := by
  rcases Int.lt_trichotomy x 0 with hneg | rfl | hpos
  · simp only [roundShift]
    rw [if_pos (by omega : 0 ≤ -x), if_neg (by omega : ¬ 0 ≤ x)]
    split
    case isTrue => rfl
    case isFalse => exact (Int.neg_neg _).symm
  · rw [Int.neg_zero, roundShift_zero, Int.neg_zero]
  · simp only [roundShift]
    rw [if_neg (by omega : ¬ 0 ≤ -x), if_pos hpos.le, Int.neg_neg]
    split
    case isTrue => rfl
    case isFalse => rfl

theorem truncate32_neg {x : Int} (h : x.natAbs ≤ max32) : truncate32 (-x) = -truncate32 x := by
  rw [truncate32_of_le h, truncate32_of_le (by rwa [Int.natAbs_neg])]

/-! ## Lists -/

/-- The values with their signs changed. -/
def negateAll (xs : List Int) : List Int := xs.map fun x => -x

theorem getD_negateAll (xs : List Int) (i : Nat) : (negateAll xs).getD i 0 = -xs.getD i 0 :=
  getD_map_of_zero Int.neg_zero xs i

theorem length_negateAll (xs : List Int) : (negateAll xs).length = xs.length := List.length_map _

theorem natAbs_of_mem_negateAll {xs : List Int} {bound : Nat} (h : ∀ x ∈ xs, x.natAbs ≤ bound) :
    ∀ x ∈ negateAll xs, x.natAbs ≤ bound := by
  intro y hy
  obtain ⟨x, hx, rfl⟩ := List.mem_map.mp hy
  rw [Int.natAbs_neg]
  exact h x hx

theorem mass_negateAll (n : Nat) (xs : List Int) : mass n (negateAll xs) = mass n xs :=
  Finset.sum_congr rfl fun k _ => by rw [getD_negateAll, abs_neg]

/-- A folding that changes its sign with the samples, and is not cut. -/
theorem foldWith_negateAll {join : Int → Int → Int} (hjoin : ∀ x y, join (-x) (-y) = -join x y)
    {n : Nat} {xs : List Int} (hxs : xs.length = 2 * n)
    (hsmall : ∀ j < n, (join (xs.getD j 0) (xs.getD (2 * n - 1 - j) 0)).natAbs ≤ max32) :
    foldWith join n (negateAll xs) = negateAll (foldWith join n xs) := by
  have hlength : (foldWith join n (negateAll xs)).length = n :=
    length_foldWith join ((length_negateAll xs).trans hxs)
  have hnegated : (negateAll (foldWith join n xs)).length = n :=
    (length_negateAll _).trans (length_foldWith join hxs)
  apply List.ext_getElem (hlength.trans hnegated.symm)
  intro j hj hj'
  have hlt : j < n := by rwa [hlength] at hj
  rw [← List.getD_eq_getElem _ 0 hj, ← List.getD_eq_getElem _ 0 hj', getD_negateAll,
    getD_foldWith join ((length_negateAll xs).trans hxs) hlt, getD_foldWith join hxs hlt,
    getD_negateAll, getD_negateAll, hjoin, truncate32_neg (hsmall j hlt)]

section

variable {n : Nat} {xs : List Int} (hxs : xs.length = 2 * n) (hmass : mass (2 * n) xs ≤ massLimit)

include hxs hmass

theorem foldSums_negateAll : foldSums n (negateAll xs) = negateAll (foldSums n xs) :=
  foldWith_negateAll (fun _ _ => Int.neg_add.symm) hxs fun _ hj => (natAbs_fold_le hmass hj).1

theorem foldDifferences_negateAll :
    foldDifferences n (negateAll xs) = negateAll (foldDifferences n xs) :=
  foldWith_negateAll (fun x y => by omega) hxs fun _ hj => (natAbs_fold_le hmass hj).2

end

theorem interleave_negateAll (xs ys : List Int) :
    interleave (negateAll xs) (negateAll ys) = negateAll (interleave xs ys) := by
  induction xs, ys using interleave.induct with
  | case1 x xs y ys ih => exact congrArg (fun zs => -x :: -y :: zs) ih
  | case2 xs =>
    rcases xs with _ | ⟨x, xs⟩
    · rfl
    · rfl
  | case3 ys hys =>
    rcases ys with _ | ⟨y, ys⟩
    · rfl
    · rfl

/-! ## Kernels -/

/-- Whether outputs change their signs with the inputs, and no more than that, as long as the inputs
do not exceed the limit together. -/
def IsOdd (n : Nat) (f : List Int → List Int) : Prop :=
  ∀ xs, xs.length = n → mass n xs ≤ massLimit → f (negateAll xs) = negateAll (f xs)

theorem WeightedSum.eval_negateAll (ts : WeightedSum) (xs : List Int) :
    ts.eval (negateAll xs) = -ts.eval xs := by
  induction ts with
  | nil => rfl
  | cons t ts ih =>
    obtain ⟨w, i⟩ := t
    simp only [eval]
    rw [getD_negateAll, ih, Int.mul_neg, Int.neg_add]

theorem Gate.eval_negateAll (g : Gate) (xs : List Int) :
    g.eval .unbounded (negateAll xs) = -g.eval .unbounded xs := by
  rcases g with ts | ts
  · exact ts.eval_negateAll xs
  · show roundShift (ts.eval (negateAll xs)) cosineBits = -roundShift (ts.eval xs) cosineBits
    rw [ts.eval_negateAll, roundShift_neg]

/-- Stage by stage, the signs of all values are changed. -/
theorem run_negateAll (net : Network) (xs : List Int) :
    net.run .unbounded (negateAll xs) = negateAll (net.run .unbounded xs) := by
  induction net generalizing xs with
  | nil => rfl
  | cons s net ih =>
    have hstage : s.run .unbounded (negateAll xs) = negateAll (s.run .unbounded xs) := by
      simp only [Stage.run, negateAll]
      rw [List.map_map]
      exact List.map_congr_left fun g _ => g.eval_negateAll xs
    rw [Network.run_cons, Network.run_cons, hstage, ih]

theorem isOdd_run (net : Network) (n : Nat) : IsOdd n (net.run .unbounded) :=
  fun xs _ _ => run_negateAll net xs

/-- A transform of twice the points: sums to the even frequencies, differences to the odd ones. -/
theorem IsOdd.folded {n : Nat} {half : List Int → List Int} (h : IsOdd n half) (odd : Network) :
    IsOdd (2 * n) fun xs =>
      interleave (half (foldSums n xs)) (odd.run .unbounded (foldDifferences n xs)) := by
  intro xs hxs hmass
  have hsums := (mass_fold_le hxs hmass).1.trans hmass
  dsimp only
  rw [foldSums_negateAll hxs hmass, foldDifferences_negateAll hxs hmass,
    h (foldSums n xs) (length_foldWith _ hxs) hsums, run_negateAll odd, interleave_negateAll]

/-- Outputs that are near to those of a matrix are not cut, with either sign. -/
theorem IsOdd.words {n : Nat} {f : List Int → List Int} (h : IsOdd n f) {error : ℚ}
    (hnear : NearOnSmall n (flip (cosineWeight n)) networkDeviation error f) (herror : error ≤ 64) :
    IsOdd n fun xs => (f xs).map truncate32 := by
  intro xs hxs hmass
  have hweight : ∀ j k, |flip (cosineWeight n) j k| ≤ 2 ^ cosineBits :=
    fun j k => abs_cosineWeight_le n k j
  have hnegated : mass n (negateAll xs) ≤ massLimit := by rwa [mass_negateAll]
  dsimp only
  rw [hnear.map_truncate32 herror hweight hxs hmass,
    hnear.map_truncate32 herror hweight ((length_negateAll xs).trans hxs) hnegated, h xs hxs hmass]

theorem isOdd_forward (s : TransformSize) (b : Basis) :
    IsOdd s.points ((Kernel.forward s b).network .unbounded) := by
  -- Each transform of cosines is folded onto that of half its points.
  have hfour : IsOdd 4 forwardDct4 := (isOdd_run dctPair 2).folded dctOdd2
  have height : IsOdd 8 forwardDct8 :=
    (hfour.words (nearOn_forwardDct4.mono networkDeviation_nonneg le_rfl) (by norm_num)).folded
      forwardDctOdd4
  have hsixteen : IsOdd 16 forwardDct16 :=
    (height.words nearOn_forwardDct8 (by norm_num)).folded forwardDctOdd8
  have hthirtytwo : IsOdd 32 (forwardDct32 .unbounded) :=
    (hsixteen.words nearOn_forwardDct16 (by norm_num)).folded dctOdd16
  rcases s with _ | _ | _ | _ <;> rcases b with _ | _
  · exact hfour
  · exact isOdd_run forwardAdst4 4
  · exact height
  · exact isOdd_run adst8 8
  · exact hsixteen
  · exact isOdd_run adst16 16
  · exact hthirtytwo
  · exact hthirtytwo

/-! ## Blocks -/

/-- The block with all its signs changed. -/
def Rows.negate (m : Rows) : Rows := m.each fun x => -x

namespace Rows

variable {n : Nat} {m : Rows}

theorem Square.negate (h : m.Square n) : m.negate.Square n := h.each _

theorem transpose_negate : m.negate.transpose n = (m.transpose n).negate := by
  simp only [transpose, Rows.negate, each]
  rw [List.map_map]
  refine List.map_congr_left fun x _ => ?_
  rw [Function.comp_apply, List.map_map, List.map_map]
  exact List.map_congr_left fun row _ => getD_negateAll row x

theorem shift_negate (bits : Nat) :
    (m.negate.each fun x => roundShift x bits) = (m.each fun x => roundShift x bits).negate := by
  rw [Rows.negate, Rows.negate, each_each, each_each]
  refine congrArg m.each ?_
  funext x
  exact roundShift_neg x bits

/-- Scaling changes no sign, as long as it stays inside of 32 bits. -/
theorem Bounded.scale_negate {b k : Nat} (h : m.Bounded b) (hmax : b * k ≤ max32) :
    (m.negate.each fun x => truncate32 (x * k)) = (m.each fun x => truncate32 (x * k)).negate := by
  rw [Rows.negate, Rows.negate, each_each, each_each]
  refine List.map_congr_left fun row hrow => List.map_congr_left fun x hx => ?_
  have hle : (x * k).natAbs ≤ max32 := by
    rw [Int.natAbs_mul, Int.natAbs_natCast]
    exact (Nat.mul_le_mul_right k (h row hrow x hx)).trans hmax
  rw [Int.neg_mul, truncate32_neg hle]

end Rows

section

variable {s : TransformSize} {m : Rows}

theorem pass_forward_negate (b : Basis) (h : m.Square s.points) {bound : Nat}
    (hm : m.Bounded bound) (hlimit : s.points * bound ≤ massLimit) :
    m.negate.pass ((Kernel.forward s b).run .unbounded) =
      (m.pass ((Kernel.forward s b).run .unbounded)).negate := by
  simp only [Rows.pass, Rows.negate, Rows.each]
  rw [List.map_map, List.map_map]
  refine List.map_congr_left fun row hrow => ?_
  -- Neither row is large enough to be wrapped, so that both kernels are their networks.
  have hlength := h.cols row hrow
  have hrun := (run_forward (b := b) hlength (hm row hrow) hlimit).1
  have hnegated := (run_forward (b := b) ((length_negateAll row).trans hlength)
    (natAbs_of_mem_negateAll (hm row hrow)) hlimit).1
  show (Kernel.forward s b).run .unbounded (negateAll row) =
    negateAll ((Kernel.forward s b).run .unbounded row)
  rw [hrun, hnegated, isOdd_forward s b row hlength
    (mass_le_massLimit hlength (hm row hrow) hlimit)]

variable (h : m.Square s.points) {bound : Nat} (hfits : FitsForward s bound) (hm : m.Bounded bound)

include h hfits hm

/-- Every pass and every shift of the forward transform changes the signs of a block that had its
signs changed, and does nothing else to it. -/
theorem forwardRows_negate (t : TransformType) :
    forwardRows s t m.negate = (forwardRows s t m).negate := by
  obtain ⟨hcolumns, hscaled⟩ := bounded_forwardColumns h hfits hm
  obtain ⟨hmiddle, hshifted⟩ := bounded_forwardMiddle h hfits hm t
  have hcolumnsNegate : forwardColumns s m.negate = (forwardColumns s m).negate := by
    rw [forwardColumns, hm.scale_negate hfits.input, Rows.transpose_negate]
    rfl
  have hmiddleNegate : forwardMiddle s t m.negate = (forwardMiddle s t m).negate := by
    rw [forwardMiddle, hcolumnsNegate,
      pass_forward_negate t.vertical hcolumns hscaled hfits.columns, Rows.shift_negate,
      Rows.transpose_negate]
    rfl
  rw [forwardRows_eq, hmiddleNegate,
    pass_forward_negate t.horizontal hmiddle hshifted hfits.rows, Rows.shift_negate]
  rfl

end

/-! ## Buffers -/

/-- The buffer with all its signs changed. -/
def negated (xs : Array Int) : Array Int := xs.map fun x => -x

theorem size_negated (xs : Array Int) : (negated xs).size = xs.size := Array.size_map

theorem getD_negated (xs : Array Int) (j : Nat) : (negated xs).getD j 0 = -xs.getD j 0 := by
  rw [Array.getD_eq_getD_getElem?, Array.getD_eq_getD_getElem?, negated, Array.getElem?_map]
  cases xs[j]? with
  | none => rfl
  | some x => rfl

theorem Rows.ofRaster_negated (n : Nat) (xs : Array Int) :
    ofRaster n (negated xs) = (ofRaster n xs).negate := by
  simp only [ofRaster, Rows.negate, each]
  rw [List.map_map]
  refine List.map_congr_left fun y _ => ?_
  rw [Function.comp_apply, List.map_map]
  exact List.map_congr_left fun x _ => getD_negated xs _

theorem Rows.Square.getD_writeTo_negate {n : Nat} {m : Rows} (h : m.Square n)
    (buffer other : Array Int) {y x : Nat} (hy : y < n) (hx : x < n) :
    (m.negate.writeTo other).getD (y * n + x) 0 = -(m.writeTo buffer).getD (y * n + x) 0 := by
  rw [h.negate.getD_writeTo other hy hx, h.getD_writeTo buffer hy hx]
  exact Rows.entry_each Int.neg_zero y x

theorem forwardTransform_eq {s : TransformSize} {t : TransformType} (h : s.Admits t)
    {input output : Array Int} (hin : s.coeffs ≤ input.size) (hout : s.coeffs ≤ output.size) :
    forwardTransform s t input output =
      .ok ((forwardRows s t (.ofRaster s.points input)).writeTo output) := by
  simp only [forwardTransform]
  rw [checkBlock_eq_ok h hin hout]
  rfl

/-- The coefficients of a residual and those of the opposite one: they are opposite, too, and no
larger than the bound of the size. -/
structure OppositeCoeffs (s : TransformSize) (bound : Nat) (coeffs coeffs' : Array Int) :
    Prop where
  opposite : ∀ j < s.coeffs, coeffs'.getD j 0 = -coeffs.getD j 0
  bounded : ∀ j < s.coeffs, (coeffs.getD j 0).natAbs ≤ forwardBound s bound

/-- As long as nothing leaves 32 bits, opposite samples have opposite coefficients. -/
theorem exists_oppositeCoeffs {s : TransformSize} {t : TransformType} (hadmits : s.Admits t)
    {residual output output' : Array Int} (hsize : s.coeffs ≤ residual.size)
    (hroom : s.coeffs ≤ output.size) (hroom' : s.coeffs ≤ output'.size) {bound : Nat}
    (hfits : FitsForward s bound)
    (hresidual : ∀ j < s.coeffs, (residual.getD j 0).natAbs ≤ bound) :
    ∃ coeffs coeffs', forwardTransform s t residual output = .ok coeffs ∧
      forwardTransform s t (negated residual) output' = .ok coeffs' ∧
      OppositeCoeffs s bound coeffs coeffs' := by
  have hsamples := Rows.square_ofRaster s.points residual
  have hbounded : (Rows.ofRaster s.points residual).Bounded bound :=
    Rows.bounded_ofRaster hresidual
  obtain ⟨hsquare, hcoeffs⟩ := bounded_forwardRows hsamples hfits hbounded t
  have hout := forwardTransform_eq hadmits hsize hroom
  have hout' := forwardTransform_eq hadmits (hsize.trans_eq (size_negated residual).symm) hroom'
  rw [Rows.ofRaster_negated, forwardRows_negate hsamples hfits hbounded] at hout'
  refine ⟨_, _, hout, hout', ?_⟩
  -- Whatever stood in the two outputs, the entries of the block have been written over it.
  constructor
  case opposite =>
    intro j hj
    obtain ⟨y, hy, x, hx, rfl⟩ := s.exists_raster hj
    exact hsquare.getD_writeTo_negate output output' hy hx
  case bounded =>
    intro j hj
    obtain ⟨y, hy, x, hx, rfl⟩ := s.exists_raster hj
    rw [hsquare.getD_writeTo output hy hx]
    exact hcoeffs.natAbs_entry y x

/-- Samples of 16 bits and of either sign, the smallest number and its opposite among them, go
through the forward transforms without being cut. -/
theorem fitsForward_two_pow (s : TransformSize) : FitsForward s (2 ^ 15) := by
  cases s <;> exact ⟨by decide, by decide, by decide⟩

end ResidualCodec
