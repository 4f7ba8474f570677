/-
  ResidualCodec.Proofs.Transform.Cosine

  The fast cosine transforms compute the cosine matrix. In a matrix of twice the
  size the even frequencies are those of the matrix itself, mirrored, and the
  odd ones change their sign in the mirror; unfolding and folding join the two
  halves accordingly, as long as the samples are small enough to be folded in 32
  bits. What remains are the networks of the odd halves, which are compared with
  their matrices by their estimates.
-/

import ResidualCodec.Proofs.Quant.Lossless
import ResidualCodec.Proofs.Transform.Angle
import ResidualCodec.Proofs.Transform.Estimate
import ResidualCodec.Proofs.Transform.Guarded

namespace ResidualCodec

open Finset (range)

/-! ## Matrices of twice the size -/

/-- A matrix of `2 * n` rows is made of two matrices of `n` rows: the one in its even columns is
repeated in the mirrored rows, and the one in its odd columns is repeated with its sign changed. -/
structure Splits (n : Nat) (weight evens odds : Nat → Nat → Int) : Prop where
  even : ∀ j < n, ∀ k, weight j (2 * k) = evens j k
  evenMirror : ∀ j < n, ∀ k, weight (2 * n - 1 - j) (2 * k) = evens j k
  odd : ∀ j < n, ∀ k, weight j (2 * k + 1) = odds j k
  oddMirror : ∀ j < n, ∀ k, weight (2 * n - 1 - j) (2 * k + 1) = -odds j k

theorem sum_range_two_mul (n : Nat) (f : Nat → Int) :
    ∑ k ∈ range (2 * n), f k = ∑ k ∈ range n, f (2 * k) + ∑ k ∈ range n, f (2 * k + 1) := by
  induction n with
  | zero => rfl
  | succ n ih =>
    rw [show 2 * (n + 1) = 2 * n + 1 + 1 from rfl, Finset.sum_range_succ, Finset.sum_range_succ, ih,
      Finset.sum_range_succ, Finset.sum_range_succ]
    ring

theorem sum_range_mirror (n : Nat) (f : Nat → Int) :
    ∑ j ∈ range (2 * n), f j = ∑ j ∈ range n, (f j + f (2 * n - 1 - j)) := by
  have hreflect := Finset.sum_range_reflect (fun j => f (n + j)) n
  rw [Nat.two_mul, Finset.sum_range_add, Finset.sum_add_distrib, ← hreflect]
  congr 1
  refine Finset.sum_congr rfl fun j hj => ?_
  have hlt := Finset.mem_range.mp hj
  congr 1
  omega

/-! ### Unfolding -/

theorem getD_evens (xs : List Int) (k : Nat) : (evens xs).getD k 0 = xs.getD (2 * k) 0 := by
  induction k generalizing xs with
  | zero =>
    match xs with
    | [] => rfl
    | [_] => rfl
    | _ :: _ :: _ => rfl
  | succ k ih =>
    match xs with
    | [] => rfl
    | [_] => rfl
    | _ :: _ :: rest => exact ih rest

theorem getD_odds (xs : List Int) (k : Nat) : (odds xs).getD k 0 = xs.getD (2 * k + 1) 0 := by
  induction k generalizing xs with
  | zero =>
    match xs with
    | [] => rfl
    | [_] => rfl
    | _ :: _ :: _ => rfl
  | succ k ih =>
    match xs with
    | [] => rfl
    | [_] => rfl
    | _ :: _ :: rest => exact ih rest

theorem mass_evens_add_odds (n : Nat) (xs : List Int) :
    mass n (evens xs) + mass n (odds xs) = mass (2 * n) xs := by
  simp only [mass, getD_evens, getD_odds]
  rw [sum_range_two_mul]

theorem getD_zipWith {g : Int → Int → Int} {as bs : List Int} {k : Nat} (ha : k < as.length)
    (hb : k < bs.length) : (List.zipWith g as bs).getD k 0 = g (as.getD k 0) (bs.getD k 0) := by
  rw [List.getD_eq_getElem _ _ (by rw [List.length_zipWith]; omega), List.getElem_zipWith,
    List.getD_eq_getElem _ _ ha, List.getD_eq_getElem _ _ hb]

theorem getD_reverse {xs : List Int} {k : Nat} (hk : k < xs.length) :
    xs.reverse.getD k 0 = xs.getD (xs.length - 1 - k) 0 := by
  rw [List.getD_eq_getElem?_getD, List.getElem?_reverse hk, List.getD_eq_getElem?_getD]

section

variable {n : Nat} {weight evenWeight oddWeight : Nat → Nat → Int} {deviation error : ℚ}
  {xs es os : List Int}

theorem getD_unfold (he : es.length = n) (ho : os.length = n) {j : Nat} (hj : j < n) :
    (unfold .unbounded es os).getD j 0 = es.getD j 0 + os.getD j 0 := by
  simp only [unfold]
  rw [List.getD_append _ _ _ _ (by rw [List.length_zipWith]; omega),
    getD_zipWith (by omega) (by omega)]
  rfl

theorem getD_unfold_mirror (he : es.length = n) (ho : os.length = n) {j : Nat} (hj : j < n) :
    (unfold .unbounded es os).getD (2 * n - 1 - j) 0 = es.getD j 0 - os.getD j 0 := by
  have hlength : ∀ g : Int → Int → Int, (List.zipWith g es os).length = n := by
    intro g
    rw [List.length_zipWith]
    omega
  simp only [unfold]
  rw [List.getD_append_right _ _ _ _ (by rw [hlength]; omega), hlength,
    getD_reverse (by rw [hlength]; omega), hlength,
    show n - 1 - (2 * n - 1 - j - n) = j by omega, getD_zipWith (by omega) (by omega)]
  rfl

/-- A row of the whole matrix is a row of both halves, joined by a sum or a difference. -/
theorem rowSum_of_splits (hs : Splits n weight evenWeight oddWeight) (xs : List Int) {j : Nat}
    (hj : j < n) :
    rowSum (2 * n) weight xs j = rowSum n evenWeight (evens xs) j + rowSum n oddWeight (odds xs) j ∧
      rowSum (2 * n) weight xs (2 * n - 1 - j) =
        rowSum n evenWeight (evens xs) j - rowSum n oddWeight (odds xs) j := by
  simp only [rowSum, getD_evens, getD_odds]
  rw [sum_range_two_mul, sum_range_two_mul]
  simp only [hs.even j hj, hs.odd j hj, hs.evenMirror j hj, hs.oddMirror j hj, neg_mul]
  rw [Finset.sum_neg_distrib, sub_eq_add_neg]
  exact ⟨trivial, rfl⟩

/-- An inverse transform of twice the points, from one of the points and a network for the odd
frequencies. -/
theorem near_unfold {errorOdd : ℚ} (hs : Splits n weight evenWeight oddWeight)
    (he : Near n evenWeight deviation error (evens xs) es)
    (ho : Near n oddWeight deviation errorOdd (odds xs) os) :
    Near (2 * n) weight deviation (error + errorOdd) xs (unfold .unbounded es os) := by
  refine ⟨(Guarded.length_unfold _ (he.length.trans ho.length.symm)).trans
    (congrArg (2 * ·) he.length), ?_⟩
  rw [← mass_evens_add_odds]
  -- A row and the mirrored one are joined from the same rows of the halves; the errors add up.
  have hrows : ∀ j < n,
      |((unfold .unbounded es os).getD j 0 : ℚ) - rowSum (2 * n) weight xs j / 2 ^ cosineBits| ≤
        deviation * (mass n (evens xs) + mass n (odds xs) : Int) + (error + errorOdd) ∧
      |((unfold .unbounded es os).getD (2 * n - 1 - j) 0 : ℚ) -
          rowSum (2 * n) weight xs (2 * n - 1 - j) / 2 ^ cosineBits| ≤
        deviation * (mass n (evens xs) + mass n (odds xs) : Int) + (error + errorOdd) := by
    intro j hj
    obtain ⟨hsum, hdiff⟩ := rowSum_of_splits hs xs hj
    obtain ⟨hlow, hhigh⟩ := abs_le.mp (he.near j hj)
    obtain ⟨hlowOdd, hhighOdd⟩ := abs_le.mp (ho.near j hj)
    rw [getD_unfold he.length ho.length hj, getD_unfold_mirror he.length ho.length hj, hsum, hdiff,
      abs_le, abs_le]
    push_cast
    rw [add_div, sub_div]
    refine ⟨⟨?_, ?_⟩, ?_, ?_⟩ <;> linarith
  intro i hi
  by_cases hfirst : i < n
  · exact (hrows i hfirst).1
  · have hmirror := (hrows (2 * n - 1 - i) (by omega)).2
    rwa [show 2 * n - 1 - (2 * n - 1 - i) = i by omega] at hmirror

/-! ### Folding -/

theorem length_foldWith (join : Int → Int → Int) (hxs : xs.length = 2 * n) :
    (foldWith join n xs).length = n := by
  rw [foldWith, List.length_take, List.length_zipWith, List.length_reverse]
  omega

theorem getD_foldWith (join : Int → Int → Int) (hxs : xs.length = 2 * n) {j : Nat} (hj : j < n) :
    (foldWith join n xs).getD j 0 =
      truncate32 (join (xs.getD j 0) (xs.getD (2 * n - 1 - j) 0)) := by
  rw [foldWith, getD_take hj, getD_zipWith (by omega) (by rw [List.length_reverse]; omega),
    getD_reverse (by omega), hxs]

/-- A pair of mirrored entries is part of what the entries are together. -/
theorem abs_add_abs_mirror_le (xs : List Int) {j : Nat} (hj : j < n) :
    |xs.getD j 0| + |xs.getD (2 * n - 1 - j) 0| ≤ mass (2 * n) xs := by
  rw [mass, sum_range_mirror]
  exact Finset.single_le_sum
    (f := fun j => |xs.getD j 0| + |xs.getD (2 * n - 1 - j) 0|)
    (fun _ _ => add_nonneg (abs_nonneg _) (abs_nonneg _)) (Finset.mem_range.mpr hj)

section

variable (hxs : xs.length = 2 * n) (hmass : mass (2 * n) xs ≤ massLimit)

include hmass

/-- Small samples are folded without being cut. -/
theorem natAbs_fold_le {j : Nat} (hj : j < n) :
    (xs.getD j 0 + xs.getD (2 * n - 1 - j) 0).natAbs ≤ max32 ∧
      (xs.getD j 0 - xs.getD (2 * n - 1 - j) 0).natAbs ≤ max32 := by
  have hpair := abs_add_abs_mirror_le xs hj
  have hlimit : massLimit ≤ max32 := by decide
  rw [Int.abs_eq_natAbs, Int.abs_eq_natAbs] at hpair
  omega

include hxs

theorem getD_foldSums {j : Nat} (hj : j < n) :
    (foldSums n xs).getD j 0 = xs.getD j 0 + xs.getD (2 * n - 1 - j) 0 :=
  (getD_foldWith (· + ·) hxs hj).trans (truncate32_of_le (natAbs_fold_le hmass hj).1)

theorem getD_foldDifferences {j : Nat} (hj : j < n) :
    (foldDifferences n xs).getD j 0 = xs.getD j 0 - xs.getD (2 * n - 1 - j) 0 :=
  (getD_foldWith (· - ·) hxs hj).trans (truncate32_of_le (natAbs_fold_le hmass hj).2)

/-- Folding does not add to the magnitudes. -/
theorem mass_fold_le :
    mass n (foldSums n xs) ≤ mass (2 * n) xs ∧ mass n (foldDifferences n xs) ≤ mass (2 * n) xs := by
  have hsplit : mass (2 * n) xs =
      ∑ j ∈ range n, (|xs.getD j 0| + |xs.getD (2 * n - 1 - j) 0|) := sum_range_mirror n _
  rw [hsplit]
  constructor
  · refine Finset.sum_le_sum fun j hj => ?_
    rw [getD_foldSums hxs hmass (Finset.mem_range.mp hj)]
    exact abs_add_le _ _
  · refine Finset.sum_le_sum fun j hj => ?_
    rw [getD_foldDifferences hxs hmass (Finset.mem_range.mp hj)]
    exact abs_sub _ _

/-- A column of the whole matrix looks at the folded samples alone. -/
theorem rowSum_flip_of_splits (hs : Splits n weight evenWeight oddWeight) (k : Nat) :
    rowSum (2 * n) (flip weight) xs (2 * k) = rowSum n (flip evenWeight) (foldSums n xs) k ∧
      rowSum (2 * n) (flip weight) xs (2 * k + 1) =
        rowSum n (flip oddWeight) (foldDifferences n xs) k := by
  simp only [rowSum, flip]
  rw [sum_range_mirror, sum_range_mirror]
  constructor
  · refine Finset.sum_congr rfl fun j hj => ?_
    have hlt := Finset.mem_range.mp hj
    rw [hs.even j hlt, hs.evenMirror j hlt, getD_foldSums hxs hmass hlt]
    ring
  · refine Finset.sum_congr rfl fun j hj => ?_
    have hlt := Finset.mem_range.mp hj
    rw [hs.odd j hlt, hs.oddMirror j hlt, getD_foldDifferences hxs hmass hlt]
    ring

end

theorem getD_interleave (h : es.length = os.length) (k : Nat) :
    (interleave es os).getD (2 * k) 0 = es.getD k 0 ∧
      (interleave es os).getD (2 * k + 1) 0 = os.getD k 0 := by
  induction es generalizing os k with
  | nil =>
    rw [List.eq_nil_of_length_eq_zero h.symm]
    exact ⟨rfl, rfl⟩
  | cons e es ih =>
    match os, h with
    | o :: os, h =>
      cases k with
      | zero => exact ⟨rfl, rfl⟩
      | succ k => exact ih (Nat.succ.inj h) k

theorem length_interleave (h : es.length = os.length) :
    (interleave es os).length = 2 * es.length := by
  induction es generalizing os with
  | nil =>
    rw [List.eq_nil_of_length_eq_zero h.symm]
    rfl
  | cons e es ih =>
    match os, h with
    | o :: os, h =>
      rw [interleave, List.length_cons, List.length_cons, List.length_cons, ih (Nat.succ.inj h)]
      omega

/-- A forward transform of twice the points, from one of the points and a network for the odd
frequencies. -/
theorem near_interleave (hs : Splits n weight evenWeight oddWeight) (hdeviation : 0 ≤ deviation)
    (hxs : xs.length = 2 * n) (hmass : mass (2 * n) xs ≤ massLimit)
    (he : Near n (flip evenWeight) deviation error (foldSums n xs) es)
    (ho : Near n (flip oddWeight) deviation error (foldDifferences n xs) os) :
    Near (2 * n) (flip weight) deviation error xs (interleave es os) := by
  have hlength := he.length.trans ho.length.symm
  obtain ⟨hsums, hdiffs⟩ := mass_fold_le hxs hmass
  refine ⟨(length_interleave hlength).trans (congrArg (2 * ·) he.length), ?_⟩
  have hrows : ∀ k < n,
      |((interleave es os).getD (2 * k) 0 : ℚ) -
          rowSum (2 * n) (flip weight) xs (2 * k) / 2 ^ cosineBits| ≤
        deviation * mass (2 * n) xs + error ∧
      |((interleave es os).getD (2 * k + 1) 0 : ℚ) -
          rowSum (2 * n) (flip weight) xs (2 * k + 1) / 2 ^ cosineBits| ≤
        deviation * mass (2 * n) xs + error := by
    intro k hk
    obtain ⟨heven, hodd⟩ := getD_interleave hlength k
    obtain ⟨hsum, hdiff⟩ := rowSum_flip_of_splits hxs hmass hs k
    rw [heven, hodd, hsum, hdiff]
    constructor
    · refine (he.near k hk).trans ?_
      gcongr
    · refine (ho.near k hk).trans ?_
      gcongr
  intro i hi
  obtain ⟨k, hk | hk⟩ := Nat.even_or_odd' i
  · rw [hk]
    exact (hrows k (by omega)).1
  · rw [hk]
    exact (hrows k (by omega)).2

end

/-! ## The cosine matrix -/

/-- Entry of the cosine matrix of `n` points at a sample and a frequency. -/
def cosineWeight (n j k : Nat) : Int :=
  if k = 0 then cosineAt 16 else cosineAt ((2 * j + 1) * k * (32 / n) : Nat)

/-- Entry of the cosine matrix of `2 * n` points at a sample and at the odd frequency
`2 * k + 1`. -/
def oddCosineWeight (n j k : Nat) : Int := cosineAt ((2 * j + 1) * (2 * k + 1) * (16 / n) : Nat)

theorem flip_oddCosineWeight (n : Nat) : flip (oddCosineWeight n) = oddCosineWeight n := by
  funext j k
  simp only [flip, oddCosineWeight]
  rw [Nat.mul_comm (2 * k + 1)]

/-- The cosine matrix splits into that of half the size and the odd frequencies. -/
theorem splits_cosineWeight {n c : Nat} (hn : n * c = 16) :
    Splits n (cosineWeight (2 * n)) (cosineWeight n) (oddCosineWeight n) := by
  have hpos : 0 < n := Nat.pos_of_ne_zero (by rintro rfl; omega)
  have hhalf : 16 / n = c := Nat.div_eq_of_eq_mul_right hpos hn.symm
  have hfull : 32 / n = 2 * c := Nat.div_eq_of_eq_mul_right hpos (by rw [Nat.mul_left_comm, hn])
  have hdouble : 32 / (2 * n) = c :=
    Nat.div_eq_of_eq_mul_right (by omega) (by rw [Nat.mul_assoc, hn])
  have hturn : (n : Int) * c = 16 := by exact_mod_cast hn
  have hmirror : ∀ j < n, ((2 * (2 * n - 1 - j) + 1 : Nat) : Int) = 4 * n - (2 * j + 1 : Nat) := by
    intro j hj
    omega
  refine ⟨?_, ?_, ?_, ?_⟩
  · intro j _ k
    simp only [cosineWeight]
    rw [hdouble, hfull]
    by_cases hk : k = 0
    · rw [if_pos (by omega), if_pos hk]
    · rw [if_neg (by omega), if_neg hk]
      congr 2
      ring
  · intro j hj k
    simp only [cosineWeight]
    rw [hdouble, hfull]
    by_cases hk : k = 0
    · rw [if_pos (by omega), if_pos hk]
    · rw [if_neg (by omega), if_neg hk, ← cosineAt_sub k]
      congr 1
      push_cast [hmirror j hj]
      linear_combination -(8 * k : Int) * hturn
  · intro j _ k
    simp only [cosineWeight, oddCosineWeight]
    rw [hdouble, hhalf, if_neg (by omega)]
  · intro j hj k
    simp only [cosineWeight, oddCosineWeight]
    rw [hdouble, hhalf, if_neg (by omega), ← cosineAt_mirror k]
    congr 1
    push_cast [hmirror j hj]
    linear_combination (4 * (2 * k + 1) : Int) * hturn

/-! ## Networks -/

/-- The networks that the cosine transforms are made of. One stage has the weights of its matrix,
and rounds once; several stages multiply their weights, and come near to the matrix. -/
def cosineComparisons : List Comparison :=
  [⟨2, cosineWeight 2, 0, 1 / 2, dctPair⟩,
   ⟨2, flip (cosineWeight 2), 0, 1 / 2, dctPair⟩,
   ⟨2, oddCosineWeight 2, 0, 1 / 2, dctOdd2⟩,
   ⟨4, oddCosineWeight 4, networkDeviation, 2, inverseDctOdd4⟩,
   ⟨4, oddCosineWeight 4, networkDeviation, 2, forwardDctOdd4⟩,
   ⟨8, oddCosineWeight 8, networkDeviation, 6, inverseDctOdd8⟩,
   ⟨8, oddCosineWeight 8, networkDeviation, 6, forwardDctOdd8⟩,
   ⟨16, oddCosineWeight 16, networkDeviation, 16, dctOdd16⟩]

theorem cosineComparisons_fit : ∀ c ∈ cosineComparisons, c.fits = true := by
  decide +kernel

theorem nearOn_dctPair :
    NearOn 2 (cosineWeight 2) 0 (1 / 2) (dctPair.run .unbounded) :=
  nearOn_of_fits cosineComparisons_fit 0 rfl

theorem nearOn_flip_dctPair :
    NearOn 2 (flip (cosineWeight 2)) 0 (1 / 2) (dctPair.run .unbounded) :=
  nearOn_of_fits cosineComparisons_fit 1 rfl

theorem nearOn_dctOdd2 :
    NearOn 2 (oddCosineWeight 2) 0 (1 / 2) (dctOdd2.run .unbounded) :=
  nearOn_of_fits cosineComparisons_fit 2 rfl

theorem nearOn_inverseDctOdd4 :
    NearOn 4 (oddCosineWeight 4) networkDeviation 2 (inverseDctOdd4.run .unbounded) :=
  nearOn_of_fits cosineComparisons_fit 3 rfl

theorem nearOn_forwardDctOdd4 :
    NearOn 4 (oddCosineWeight 4) networkDeviation 2 (forwardDctOdd4.run .unbounded) :=
  nearOn_of_fits cosineComparisons_fit 4 rfl

theorem nearOn_inverseDctOdd8 :
    NearOn 8 (oddCosineWeight 8) networkDeviation 6 (inverseDctOdd8.run .unbounded) :=
  nearOn_of_fits cosineComparisons_fit 5 rfl

theorem nearOn_forwardDctOdd8 :
    NearOn 8 (oddCosineWeight 8) networkDeviation 6 (forwardDctOdd8.run .unbounded) :=
  nearOn_of_fits cosineComparisons_fit 6 rfl

theorem nearOn_dctOdd16 :
    NearOn 16 (oddCosineWeight 16) networkDeviation 16 (dctOdd16.run .unbounded) :=
  nearOn_of_fits cosineComparisons_fit 7 rfl

/-! ## Transforms -/

section

variable {n c : Nat} (hn : n * c = 16) {deviation error errorOdd : ℚ}
  {kernel odd : List Int → List Int}

include hn

theorem NearOn.inverse (h : NearOn n (cosineWeight n) deviation error kernel)
    (hodd : NearOn n (oddCosineWeight n) deviation errorOdd odd) :
    NearOn (2 * n) (cosineWeight (2 * n)) deviation (error + errorOdd)
      fun xs => unfold .unbounded (kernel (evens xs)) (odd (odds xs)) := by
  intro xs hxs
  obtain ⟨hevens, hodds⟩ := Guarded.length_evens_odds hxs
  exact near_unfold (splits_cosineWeight hn) (h _ hevens) (hodd _ hodds)

theorem NearOnSmall.inverse (h : NearOnSmall n (cosineWeight n) deviation error kernel)
    (hodd : NearOn n (oddCosineWeight n) deviation errorOdd odd) :
    NearOnSmall (2 * n) (cosineWeight (2 * n)) deviation (error + errorOdd)
      fun xs => unfold .unbounded (kernel (evens xs)) (odd (odds xs)) := by
  intro xs hxs hmass
  obtain ⟨hevens, hodds⟩ := Guarded.length_evens_odds hxs
  have hsplit := mass_evens_add_odds n xs
  have hpos := mass_nonneg n (odds xs)
  exact near_unfold (splits_cosineWeight hn) (h _ hevens (by omega)) (hodd _ hodds)

theorem NearOnSmall.forward (hdeviation : 0 ≤ deviation) (herror : error ≤ errorOdd)
    (h : NearOnSmall n (flip (cosineWeight n)) deviation error kernel)
    (hodd : NearOn n (oddCosineWeight n) deviation errorOdd odd) :
    NearOnSmall (2 * n) (flip (cosineWeight (2 * n))) deviation errorOdd
      fun xs => interleave (kernel (foldSums n xs)) (odd (foldDifferences n xs)) := by
  intro xs hxs hmass
  have hsums := (mass_fold_le hxs hmass).1.trans hmass
  have he := (h (foldSums n xs) (length_foldWith _ hxs) hsums).mono le_rfl herror
  have ho := hodd (foldDifferences n xs) (length_foldWith _ hxs)
  rw [← flip_oddCosineWeight] at ho
  exact near_interleave (splits_cosineWeight hn) hdeviation hxs hmass he ho

end

theorem abs_cosineWeight_le (n j k : Nat) : |cosineWeight n j k| ≤ 2 ^ cosineBits := by
  unfold cosineWeight
  split
  case isTrue => exact abs_cosineAt_le _
  case isFalse => exact abs_cosineAt_le _

theorem nearOn_inverseDct4 :
    NearOn 4 (cosineWeight 4) 0 (1 / 2 + 1 / 2) (inverseDct4 .unbounded) :=
  nearOn_dctPair.inverse (c := 8) rfl nearOn_dctOdd2

theorem nearOn_inverseDct8 :
    NearOn 8 (cosineWeight 8) networkDeviation (2 + 2) (inverseDct8 .unbounded) :=
  (nearOn_inverseDct4.mono networkDeviation_nonneg (by norm_num)).inverse (c := 4) rfl
    nearOn_inverseDctOdd4

/-- From here on the outputs of the half are cut. -/
theorem nearOn_inverseDct16 :
    NearOnSmall 16 (cosineWeight 16) networkDeviation (2 + 2 + 6) (inverseDct16 .unbounded) :=
  (nearOn_inverseDct8.small.words (by norm_num) (abs_cosineWeight_le 8)).inverse (c := 2) rfl
    nearOn_inverseDctOdd8

theorem nearOn_inverseDct32 :
    NearOnSmall 32 (cosineWeight 32) networkDeviation (2 + 2 + 6 + 16) (inverseDct32 .unbounded) :=
  (nearOn_inverseDct16.words (by norm_num) (abs_cosineWeight_le 16)).inverse (c := 1) rfl
    nearOn_dctOdd16

theorem nearOn_forwardDct4 :
    NearOnSmall 4 (flip (cosineWeight 4)) 0 (1 / 2) forwardDct4 :=
  nearOn_flip_dctPair.small.forward (c := 8) rfl le_rfl le_rfl nearOn_dctOdd2

theorem nearOn_forwardDct8 :
    NearOnSmall 8 (flip (cosineWeight 8)) networkDeviation 2 forwardDct8 :=
  ((nearOn_forwardDct4.mono networkDeviation_nonneg le_rfl).words (by norm_num)
    fun j k => abs_cosineWeight_le 4 k j).forward (c := 4) rfl networkDeviation_nonneg
      (by norm_num) nearOn_forwardDctOdd4

theorem nearOn_forwardDct16 :
    NearOnSmall 16 (flip (cosineWeight 16)) networkDeviation 6 forwardDct16 :=
  (nearOn_forwardDct8.words (by norm_num) fun j k => abs_cosineWeight_le 8 k j).forward (c := 2)
    rfl networkDeviation_nonneg (by norm_num) nearOn_forwardDctOdd8

theorem nearOn_forwardDct32 :
    NearOnSmall 32 (flip (cosineWeight 32)) networkDeviation 16 (forwardDct32 .unbounded) :=
  (nearOn_forwardDct16.words (by norm_num) fun j k => abs_cosineWeight_le 16 k j).forward (c := 1)
    rfl networkDeviation_nonneg (by norm_num) nearOn_dctOdd16

theorem nearOn_inverseDct (s : TransformSize) : ∃ error ≤ 64,
    NearOnSmall s.points (cosineWeight s.points) networkDeviation error
      ((Kernel.inverseDct s).network .unbounded) := by
  cases s with
  | s4 => exact ⟨_, by norm_num, (nearOn_inverseDct4.mono networkDeviation_nonneg le_rfl).small⟩
  | s8 => exact ⟨_, by norm_num, nearOn_inverseDct8.small⟩
  | s16 => exact ⟨_, by norm_num, nearOn_inverseDct16⟩
  | s32 => exact ⟨_, by norm_num, nearOn_inverseDct32⟩

theorem nearOn_forwardDct (s : TransformSize) : ∃ error ≤ 16,
    NearOnSmall s.points (flip (cosineWeight s.points)) networkDeviation error
      ((Kernel.forwardDct s).network .unbounded) := by
  cases s with
  | s4 => exact ⟨_, by norm_num, nearOn_forwardDct4.mono networkDeviation_nonneg le_rfl⟩
  | s8 => exact ⟨_, by norm_num, nearOn_forwardDct8⟩
  | s16 => exact ⟨_, by norm_num, nearOn_forwardDct16⟩
  | s32 => exact ⟨_, by norm_num, nearOn_forwardDct32⟩

/-- The fast cosine transforms of all sizes, inverse and forward, are near to the cosine matrix and
to its transpose: on inputs of 20 bits every output is off by 64 at most, and by a 1024th of the
magnitudes of the inputs. -/
theorem dct_near_cosineWeight (s : TransformSize) {xs : List Int} (hlength : s.points ≤ xs.length)
    (hxs : ∀ k < s.points, |xs.getD k 0| ≤ 2 ^ 19) :
    (∃ ys, (Kernel.inverseDct s).apply .unbounded xs = .ok ys ∧
      Near s.points (cosineWeight s.points) (1 / 2 ^ 10) 64 xs ys) ∧
    ∃ ys, (Kernel.forwardDct s).apply .unbounded xs = .ok ys ∧
      Near s.points (flip (cosineWeight s.points)) (1 / 2 ^ 10) 64 xs ys := by
  have hpoints : s.points ≤ 32 := by cases s <;> decide
  have hweight := abs_cosineWeight_le s.points
  constructor
  · obtain ⟨error, herror, hnear⟩ := nearOn_inverseDct s
    obtain ⟨ys, happly, hys⟩ := hnear.apply (by cases s <;> rfl) hpoints herror hweight hlength hxs
    exact ⟨ys, happly, hys.mono networkDeviation_le herror⟩
  · obtain ⟨error, herror, hnear⟩ := nearOn_forwardDct s
    have herror' : error ≤ 64 := herror.trans (by norm_num)
    obtain ⟨ys, happly, hys⟩ := hnear.apply (by cases s <;> rfl) hpoints herror'
      (fun j k => hweight k j) hlength hxs
    exact ⟨ys, happly, hys.mono networkDeviation_le herror'⟩

/-- Eight samples, the largest of them at the limit. -/
theorem dct_near_cosineWeight_eight :
    let xs : List Int := [524288, -3, 0, 77, -524288, 12, 0, 1]
    TransformSize.s8.points ≤ xs.length ∧
      (∀ k < TransformSize.s8.points, |xs.getD k 0| ≤ 2 ^ 19) ∧
      (∃ ys, (Kernel.inverseDct .s8).apply .unbounded xs = .ok ys ∧
        Near 8 (cosineWeight 8) (1 / 2 ^ 10) 64 xs ys) ∧
      ∃ ys, (Kernel.forwardDct .s8).apply .unbounded xs = .ok ys ∧
        Near 8 (flip (cosineWeight 8)) (1 / 2 ^ 10) 64 xs ys :=
  ⟨by decide, by decide, dct_near_cosineWeight .s8 (by decide) (by decide)⟩

end ResidualCodec
