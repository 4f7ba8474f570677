/-
  ResidualCodec.Proofs.Transform.Estimate

  What a network computes, up to rounding. An estimate of a value is a linear
  form of the inputs, with a bound for the distance of the value from it. Gates
  turn estimates of what they look at into estimates of their outputs, so that a
  network is compared with a matrix by one evaluation, on estimates of its
  inputs, and the comparison holds of all inputs. Where sums and outputs are cut
  to 32 bits on the way, it holds of the inputs that leave room for them.
-/

import Mathlib.Algebra.BigOperators.Field
import Mathlib.Algebra.BigOperators.Ring.Finset
import Mathlib.Algebra.Order.BigOperators.Group.Finset
import Mathlib.Algebra.Order.Field.Basic
import Mathlib.Data.List.Forall2
import Mathlib.Data.List.GetD
import Mathlib.Tactic.GCongr
import Mathlib.Tactic.NormNum
import Mathlib.Tactic.Linarith
import Mathlib.Tactic.Positivity
import Mathlib.Tactic.Ring
import ResidualCodec.Proofs.Transform.Rounding
import ResidualCodec.Transform.Network

namespace ResidualCodec

open Finset (range)

/-! ## Linear forms -/

/-- Linear forms with weights near to each other are near to each other. -/
theorem abs_sum_mul_sub_le {K : Type} [Field K] [LinearOrder K] [IsStrictOrderedRing K] {n : Nat}
    {a b : Nat → K} {deviation : K} (h : ∀ k < n, |a k - b k| ≤ deviation) (x : Nat → K) :
    |∑ k ∈ range n, a k * x k - ∑ k ∈ range n, b k * x k| ≤
      deviation * ∑ k ∈ range n, |x k| := by
  rw [← Finset.sum_sub_distrib, Finset.mul_sum]
  refine (Finset.abs_sum_le_sum_abs _ _).trans (Finset.sum_le_sum fun k hk => ?_)
  rw [← sub_mul, abs_mul]
  exact mul_le_mul_of_nonneg_right (h k (Finset.mem_range.mp hk)) (abs_nonneg _)

/-! ## Estimates -/

/-- A linear form of the inputs, by its weights, and a bound for the distance from it. -/
structure Estimate where
  weights : List ℚ
  error : ℚ

namespace Estimate

/-- Value of the linear form. -/
def form (e : Estimate) (xs : List Int) : ℚ :=
  ∑ k ∈ range xs.length, e.weights.getD k 0 * xs.getD k 0

/-- The estimate holds of a value that is computed from these inputs. -/
def Holds (xs : List Int) (e : Estimate) (y : Int) : Prop := |(y : ℚ) - e.form xs| ≤ e.error

/-- The value is an input. -/
def input (k : Nat) : Estimate := ⟨List.replicate k 0 ++ [1], 0⟩

def zero : Estimate := ⟨[], 0⟩

/-- Sums of weights; the shorter list goes on with zeros. -/
def addWeights : List ℚ → List ℚ → List ℚ
  | [], bs => bs
  | as, [] => as
  | a :: as, b :: bs => (a + b) :: addWeights as bs

def add (e f : Estimate) : Estimate := ⟨addWeights e.weights f.weights, e.error + f.error⟩

def scale (w : Int) (e : Estimate) : Estimate :=
  ⟨e.weights.map ((w : ℚ) * ·), |(w : ℚ)| * e.error⟩

/-- Shifted by the fractional bits of a cosine and rounded. -/
def rounded (e : Estimate) : Estimate :=
  ⟨e.weights.map (· / 2 ^ cosineBits), e.error / 2 ^ cosineBits + 1 / 2⟩

variable {xs : List Int} {e f : Estimate} {y z : Int}

theorem holds_input {k : Nat} (hk : k < xs.length) : (input k).Holds xs (xs.getD k 0) := by
  have hweight : ∀ i, (input k).weights.getD i 0 = if i = k then 1 else 0 := by
    intro i
    simp only [input]
    rw [List.getD_eq_getElem?_getD, List.getElem?_append, List.length_replicate,
      List.getElem?_replicate]
    rcases Nat.lt_trichotomy i k with h | rfl | h
    · rw [if_pos h, if_pos h, if_neg (by omega)]
      rfl
    · rw [if_neg (Nat.lt_irrefl _), Nat.sub_self, if_pos rfl]
      rfl
    · rw [if_neg (by omega), if_neg (by omega), List.getElem?_eq_none (by simp; omega)]
      rfl
  have hform : (input k).form xs = xs.getD k 0 := by
    simp only [form, hweight, ite_mul, one_mul, zero_mul]
    rw [Finset.sum_ite_eq', if_pos (Finset.mem_range.mpr hk)]
  rw [Holds, hform, sub_self, abs_zero]
  exact le_refl 0

theorem holds_zero : zero.Holds xs 0 := by
  have hform : zero.form xs = 0 := Finset.sum_eq_zero fun k _ => zero_mul _
  rw [Holds, hform, Int.cast_zero, sub_self, abs_zero]
  exact le_refl 0

theorem getD_addWeights (as bs : List ℚ) (k : Nat) :
    (addWeights as bs).getD k 0 = as.getD k 0 + bs.getD k 0 := by
  induction as generalizing bs k with
  | nil =>
    rw [List.getD_nil, zero_add]
    rfl
  | cons a as ih =>
    cases bs with
    | nil =>
      rw [List.getD_nil, add_zero]
      rfl
    | cons b bs =>
      cases k with
      | zero => rfl
      | succ k => exact ih bs k

theorem Holds.add (he : e.Holds xs y) (hf : f.Holds xs z) : (e.add f).Holds xs (y + z) := by
  have hform : (e.add f).form xs = e.form xs + f.form xs := by
    simp only [form, Estimate.add, getD_addWeights, add_mul]
    exact Finset.sum_add_distrib
  calc |((y + z : Int) : ℚ) - (e.add f).form xs|
      = |(y - e.form xs) + (z - f.form xs)| := by
        rw [hform, Int.cast_add]
        congr 1
        ring
    _ ≤ |y - e.form xs| + |z - f.form xs| := abs_add_le _ _
    _ ≤ e.error + f.error := add_le_add he hf

theorem Holds.scale (he : e.Holds xs y) (w : Int) : (e.scale w).Holds xs (w * y) := by
  have hform : (e.scale w).form xs = w * e.form xs := by
    simp only [form, Estimate.scale, getD_map_of_zero (mul_zero (w : ℚ)), mul_assoc]
    rw [Finset.mul_sum]
  calc |((w * y : Int) : ℚ) - (e.scale w).form xs|
      = |(w : ℚ)| * |y - e.form xs| := by rw [hform, Int.cast_mul, ← mul_sub, abs_mul]
    _ ≤ |(w : ℚ)| * e.error := mul_le_mul_of_nonneg_left he (abs_nonneg _)

theorem Holds.rounded (he : e.Holds xs y) :
    e.rounded.Holds xs (roundShift y cosineBits) := by
  have hpos : (0 : ℚ) < 2 ^ cosineBits := by positivity
  have hform : e.rounded.form xs = e.form xs / 2 ^ cosineBits := by
    have hweight := getD_map_of_zero (g := (· / (2 : ℚ) ^ cosineBits)) (zero_div _)
    simp only [form, Estimate.rounded, hweight, div_mul_eq_mul_div]
    rw [Finset.sum_div]
  calc |(roundShift y cosineBits : ℚ) - e.rounded.form xs|
      ≤ |(roundShift y cosineBits : ℚ) - y / 2 ^ cosineBits| +
          |y / 2 ^ cosineBits - e.rounded.form xs| := abs_sub_le _ _ _
    _ = |(roundShift y cosineBits : ℚ) - y / 2 ^ cosineBits| +
          |y - e.form xs| / 2 ^ cosineBits := by
        rw [hform, ← sub_div, abs_div, abs_of_pos hpos]
    _ ≤ e.error / 2 ^ cosineBits + 1 / 2 := by
        rw [add_comm]
        exact add_le_add (div_le_div_of_nonneg_right he hpos.le) (abs_roundShift_sub_le y _)

/-! ## Networks -/

def ofSum (es : List Estimate) : WeightedSum → Estimate
  | [] => zero
  | (w, i) :: ts => ((es.getD i zero).scale w).add (ofSum es ts)

def ofGate (es : List Estimate) : Gate → Estimate
  | .sum ts => ofSum es ts
  | .turn ts => (ofSum es ts).rounded

/-- Estimates of the outputs, from estimates of the values that the network starts with. -/
def ofNetwork (n : Network) (es : List Estimate) : List Estimate :=
  n.foldl (fun es s => s.map (ofGate es)) es

section

variable {es : List Estimate} {ys : List Int}

theorem holds_getD (h : List.Forall₂ (Holds xs) es ys) (i : Nat) :
    (es.getD i zero).Holds xs (ys.getD i 0) := by
  induction h generalizing i with
  | nil => exact holds_zero
  | cons head _ ih =>
    cases i with
    | zero => exact head
    | succ i => exact ih i

theorem holds_ofSum (h : List.Forall₂ (Holds xs) es ys) (ts : WeightedSum) :
    (ofSum es ts).Holds xs (ts.eval ys) := by
  induction ts with
  | nil => exact holds_zero
  | cons t ts ih => exact ((holds_getD h t.2).scale t.1).add ih

theorem holds_ofGate (h : List.Forall₂ (Holds xs) es ys) (g : Gate) :
    (ofGate es g).Holds xs (g.eval .unbounded ys) := by
  cases g with
  | sum ts => exact holds_ofSum h ts
  | turn ts => exact (holds_ofSum h ts).rounded

/-- Estimates are carried through a network, stage by stage. -/
theorem holds_ofNetwork (n : Network) (h : List.Forall₂ (Holds xs) es ys) :
    List.Forall₂ (Holds xs) (ofNetwork n es) (n.run .unbounded ys) := by
  induction n generalizing es ys with
  | nil => exact h
  | cons s n ih =>
    apply ih
    show List.Forall₂ (Holds xs) (s.map (ofGate es)) (s.map (Gate.eval .unbounded ys))
    rw [List.forall₂_map_left_iff, List.forall₂_map_right_iff, List.forall₂_same]
    intro g _
    exact holds_ofGate h g

end

def inputs (n : Nat) : List Estimate := (List.range n).map input

theorem holds_inputs (xs : List Int) : List.Forall₂ (Holds xs) (inputs xs.length) xs := by
  rw [List.forall₂_iff_get]
  refine ⟨by rw [inputs, List.length_map, List.length_range], ?_⟩
  intro i _ hi
  have hinput := holds_input hi
  rw [List.getD_eq_getElem _ _ hi] at hinput
  simpa only [inputs, List.get_eq_getElem, List.getElem_map, List.getElem_range] using hinput

end Estimate

/-! ## Matrices -/

/-- Row `j` of a matrix with 14-bit entries, applied to the inputs. -/
def rowSum (n : Nat) (weight : Nat → Nat → Int) (xs : List Int) (j : Nat) : Int :=
  ∑ k ∈ range n, weight j k * xs.getD k 0

/-- Sum of the magnitudes of the inputs. -/
def mass (n : Nat) (xs : List Int) : Int := ∑ k ∈ range n, |xs.getD k 0|

theorem rowSum_div {K : Type} [Field K] (n : Nat) (weight : Nat → Nat → Int) (xs : List Int)
    (j : Nat) : (rowSum n weight xs j : K) / 2 ^ cosineBits =
      ∑ k ∈ range n, (weight j k : K) / 2 ^ cosineBits * (xs.getD k 0 : K) := by
  rw [rowSum]
  push_cast
  rw [Finset.sum_div]
  exact Finset.sum_congr rfl fun k _ => (div_mul_eq_mul_div _ _ _).symm

theorem cast_mass {K : Type} [Field K] [LinearOrder K] [IsStrictOrderedRing K] (n : Nat)
    (xs : List Int) : (mass n xs : K) = ∑ k ∈ range n, |(xs.getD k 0 : K)| := by
  rw [mass]
  push_cast
  rfl

theorem getD_take {n k : Nat} (hk : k < n) (xs : List Int) :
    (xs.take n).getD k 0 = xs.getD k 0 := by
  rw [List.getD_eq_getElem?_getD, List.getElem?_take_of_lt hk, List.getD_eq_getElem?_getD]

theorem mass_take (n : Nat) (xs : List Int) : mass n (xs.take n) = mass n xs :=
  Finset.sum_congr rfl fun k hk => by rw [getD_take (Finset.mem_range.mp hk)]

theorem mass_nonneg (n : Nat) (xs : List Int) : 0 ≤ mass n xs :=
  Finset.sum_nonneg fun _ _ => abs_nonneg _

/-- A matrix with entries of one at most makes no output larger than all inputs together. -/
theorem abs_rowSum_le {n : Nat} {weight : Nat → Nat → Int}
    (hweight : ∀ j k, |weight j k| ≤ 2 ^ cosineBits) (xs : List Int) (j : Nat) :
    |rowSum n weight xs j| ≤ 2 ^ cosineBits * mass n xs := by
  rw [mass, Finset.mul_sum]
  refine (Finset.abs_sum_le_sum_abs _ _).trans (Finset.sum_le_sum fun k _ => ?_)
  rw [abs_mul]
  exact mul_le_mul_of_nonneg_right (hweight j k) (abs_nonneg _)

theorem natAbs_getD_of_mem {n : Nat} {xs : List Int} (hlength : xs.length = n) {bound : Nat}
    (hxs : ∀ x ∈ xs, x.natAbs ≤ bound) : ∀ k < n, (xs.getD k 0).natAbs ≤ bound := by
  intro k hk
  rw [List.getD_eq_getElem _ _ (hlength ▸ hk)]
  exact hxs _ (List.getElem_mem _)

section

variable {n : Nat} {xs : List Int} {bound : Nat} (hxs : ∀ k < n, (xs.getD k 0).natAbs ≤ bound)

include hxs

theorem mass_le : mass n xs ≤ n * bound := by
  have hsum : mass n xs ≤ ∑ _k ∈ range n, (bound : Int) := by
    refine Finset.sum_le_sum fun k hk => ?_
    rw [Int.abs_eq_natAbs]
    exact_mod_cast hxs k (Finset.mem_range.mp hk)
  rwa [Finset.sum_const, Finset.card_range, nsmul_eq_mul] at hsum

/-- What a row makes of bounded inputs is bounded by the magnitudes of its entries. -/
theorem abs_rowSum_le_mul {weight : Nat → Nat → Int} {j : Nat} {gain : Int}
    (hgain : ∑ k ∈ range n, |weight j k| ≤ gain) : |rowSum n weight xs j| ≤ gain * bound := by
  calc |rowSum n weight xs j|
      ≤ ∑ k ∈ range n, |weight j k * xs.getD k 0| := Finset.abs_sum_le_sum_abs _ _
    _ ≤ ∑ k ∈ range n, |weight j k| * bound := by
        refine Finset.sum_le_sum fun k hk => ?_
        rw [abs_mul, Int.abs_eq_natAbs (xs.getD k 0)]
        have hle := hxs k (Finset.mem_range.mp hk)
        gcongr
    _ = (∑ k ∈ range n, |weight j k|) * bound := (Finset.sum_mul _ _ _).symm
    _ ≤ gain * bound := Int.mul_le_mul_of_nonneg_right hgain (Int.natCast_nonneg bound)

end

/-- The outputs are those of a matrix with 14-bit entries, up to `deviation` for each unit of the
inputs, and to `error` on top of that. -/
structure Near (n : Nat) (weight : Nat → Nat → Int) (deviation error : ℚ) (xs ys : List Int) :
    Prop where
  length : ys.length = n
  near : ∀ j < n, |(ys.getD j 0 : ℚ) - rowSum n weight xs j / 2 ^ cosineBits| ≤
    deviation * mass n xs + error

/-- Whether estimates over `n` inputs keep within the bounds of a matrix. -/
def Estimate.fit (n : Nat) (weight : Nat → Nat → Int) (deviation error : ℚ) (es : List Estimate) :
    Bool :=
  es.length == n && (List.range n).all fun j =>
    let e := es.getD j zero
    decide (e.error ≤ error) && (List.range n).all fun k =>
      decide (|e.weights.getD k 0 - weight j k / 2 ^ cosineBits| ≤ deviation)

namespace Near

variable {n : Nat} {weight : Nat → Nat → Int} {deviation error : ℚ} {xs ys : List Int}

theorem of_fit {es : List Estimate} (hxs : xs.length = n)
    (hes : List.Forall₂ (Estimate.Holds xs) es ys)
    (hfit : Estimate.fit n weight deviation error es = true) :
    Near n weight deviation error xs ys := by
  rw [Estimate.fit, Bool.and_eq_true, beq_iff_eq, List.all_eq_true] at hfit
  obtain ⟨hlength, hfit⟩ := hfit
  refine ⟨hes.length_eq.symm.trans hlength, ?_⟩
  intro j hj
  have hrow := hfit j (List.mem_range.mpr hj)
  rw [Bool.and_eq_true, decide_eq_true_iff, List.all_eq_true] at hrow
  obtain ⟨herror, hweights⟩ := hrow
  have hholds := Estimate.holds_getD hes j
  generalize es.getD j .zero = e at *
  have hmatrix : |e.form xs - rowSum n weight xs j / 2 ^ cosineBits| ≤ deviation * mass n xs := by
    have hle := abs_sum_mul_sub_le
      (fun k hk => of_decide_eq_true (hweights k (List.mem_range.mpr hk)))
      (fun k => (xs.getD k 0 : ℚ))
    rw [rowSum_div, cast_mass, Estimate.form, hxs]
    exact hle
  calc |(ys.getD j 0 : ℚ) - rowSum n weight xs j / 2 ^ cosineBits|
      ≤ |(ys.getD j 0 : ℚ) - e.form xs| + |e.form xs - rowSum n weight xs j / 2 ^ cosineBits| :=
        abs_sub_le _ _ _
    _ ≤ deviation * mass n xs + error := by
        rw [add_comm]
        exact add_le_add hmatrix (hholds.trans herror)

theorem mono {deviation' error' : ℚ} (h : Near n weight deviation error xs ys)
    (hdeviation : deviation ≤ deviation') (herror : error ≤ error') :
    Near n weight deviation' error' xs ys := by
  have hmass : (0 : ℚ) ≤ mass n xs := by exact_mod_cast mass_nonneg n xs
  exact ⟨h.length, fun j hj => (h.near j hj).trans (by gcongr)⟩

theorem abs_getD_le (h : Near n weight deviation error xs ys)
    (hweight : ∀ j k, |weight j k| ≤ 2 ^ cosineBits) {j : Nat} (hj : j < n) :
    |(ys.getD j 0 : ℚ)| ≤ (1 + deviation) * mass n xs + error := by
  have hpos : (0 : ℚ) < 2 ^ cosineBits := by positivity
  have hrow : |(rowSum n weight xs j : ℚ) / 2 ^ cosineBits| ≤ mass n xs := by
    rw [abs_div, abs_of_pos hpos, div_le_iff₀' hpos]
    exact_mod_cast abs_rowSum_le hweight xs j
  have hnear := h.near j hj
  rw [abs_le] at *
  constructor <;> linarith

/-- Outputs of bounded inputs are bounded by the largest row of the matrix. -/
theorem abs_getD_le_of_gain (h : Near n weight deviation error xs ys) (hdeviation : 0 ≤ deviation)
    {gain : Int} {j : Nat} (hj : j < n) (hgain : ∑ k ∈ range n, |weight j k| ≤ gain) {bound : Nat}
    (hxs : ∀ k < n, (xs.getD k 0).natAbs ≤ bound) :
    |(ys.getD j 0 : ℚ)| ≤ gain * bound / 2 ^ cosineBits + deviation * (n * bound) + error := by
  have hpos : (0 : ℚ) < 2 ^ cosineBits := by positivity
  have hrow : |(rowSum n weight xs j : ℚ) / 2 ^ cosineBits| ≤ gain * bound / 2 ^ cosineBits := by
    rw [abs_div, abs_of_pos hpos, div_le_div_iff_of_pos_right hpos]
    exact_mod_cast abs_rowSum_le_mul hxs hgain
  have hmass : deviation * mass n xs ≤ deviation * (n * bound) := by
    refine mul_le_mul_of_nonneg_left ?_ hdeviation
    exact_mod_cast mass_le hxs
  have hnear := h.near j hj
  rw [abs_le] at *
  constructor
  · linarith
  · linarith

/-- Inputs behind the points do not matter. -/
theorem of_take (h : Near n weight deviation error (xs.take n) ys) :
    Near n weight deviation error xs ys := by
  have hrow : rowSum n weight (xs.take n) = rowSum n weight xs := by
    funext j
    exact Finset.sum_congr rfl fun k hk => by rw [getD_take (Finset.mem_range.mp hk)]
  refine ⟨h.length, fun j hj => ?_⟩
  rw [← hrow, ← mass_take]
  exact h.near j hj

end Near

/-! ## Kernels -/

/-- A kernel is near to a matrix on all inputs of as many points. -/
def NearOn (n : Nat) (weight : Nat → Nat → Int) (deviation error : ℚ)
    (kernel : List Int → List Int) : Prop :=
  ∀ xs, xs.length = n → Near n weight deviation error xs (kernel xs)

theorem NearOn.mono {n : Nat} {weight : Nat → Nat → Int} {deviation deviation' error error' : ℚ}
    {kernel : List Int → List Int} (h : NearOn n weight deviation error kernel)
    (hdeviation : deviation ≤ deviation') (herror : error ≤ error') :
    NearOn n weight deviation' error' kernel :=
  fun xs hxs => (h xs hxs).mono hdeviation herror

/-- Sum of the magnitudes of inputs up to which no sum and no output of a kernel leaves 32 bits. -/
def massLimit : Nat := 2 ^ 30

/-- A kernel is near to a matrix on inputs that do not exceed the limit together. -/
def NearOnSmall (n : Nat) (weight : Nat → Nat → Int) (deviation error : ℚ)
    (kernel : List Int → List Int) : Prop :=
  ∀ xs, xs.length = n → mass n xs ≤ massLimit → Near n weight deviation error xs (kernel xs)

theorem NearOn.small {n : Nat} {weight : Nat → Nat → Int} {deviation error : ℚ}
    {kernel : List Int → List Int} (h : NearOn n weight deviation error kernel) :
    NearOnSmall n weight deviation error kernel :=
  fun xs hxs _ => h xs hxs

theorem NearOnSmall.mono {n : Nat} {weight : Nat → Nat → Int}
    {deviation deviation' error error' : ℚ} {kernel : List Int → List Int}
    (h : NearOnSmall n weight deviation error kernel) (hdeviation : deviation ≤ deviation')
    (herror : error ≤ error') : NearOnSmall n weight deviation' error' kernel :=
  fun xs hxs hmass => (h xs hxs hmass).mono hdeviation herror

/-- A network next to a matrix, and how near to it it is. -/
structure Comparison where
  points : Nat
  weight : Nat → Nat → Int
  deviation : ℚ
  error : ℚ
  network : Network

def Comparison.fits (c : Comparison) : Bool :=
  Estimate.fit c.points c.weight c.deviation c.error
    (Estimate.ofNetwork c.network (Estimate.inputs c.points))

/-- A network is near to a matrix if its estimates fit. -/
theorem nearOn_run {n : Nat} {weight : Nat → Nat → Int} {deviation error : ℚ} {net : Network}
    (hfit : Estimate.fit n weight deviation error
      (Estimate.ofNetwork net (Estimate.inputs n)) = true) :
    NearOn n weight deviation error (net.run .unbounded) := by
  rintro xs rfl
  exact .of_fit rfl (Estimate.holds_ofNetwork net (Estimate.holds_inputs xs)) hfit

/-- Several networks are near to their matrices if all comparisons fit. -/
theorem nearOn_of_fits {cs : List Comparison} (h : ∀ c ∈ cs, c.fits = true) (i : Nat)
    {c : Comparison} (hc : cs[i]? = some c) :
    NearOn c.points c.weight c.deviation c.error (c.network.run .unbounded) :=
  nearOn_run (h c (List.mem_of_getElem? hc))

/-- What the entries of a matrix are off by after several stages: two units of the 14 bits. -/
def networkDeviation : ℚ := 2 / 2 ^ 14

theorem networkDeviation_nonneg : 0 ≤ networkDeviation := by
  rw [networkDeviation]
  norm_num

theorem networkDeviation_le : networkDeviation ≤ 1 / 2 ^ 10 := by
  rw [networkDeviation]
  norm_num

namespace NearOnSmall

variable {n : Nat} {weight : Nat → Nat → Int} {error : ℚ} {kernel : List Int → List Int}

section

variable (h : NearOnSmall n weight networkDeviation error kernel) (herror : error ≤ 64)
  (hweight : ∀ i j, |weight i j| ≤ 2 ^ cosineBits)

include h herror hweight

/-- No output is more than all inputs together and what the kernel is off by, and there is room for
that in 32 bits. -/
theorem map_truncate32 {xs : List Int} (hlength : xs.length = n) (hmass : mass n xs ≤ massLimit) :
    (kernel xs).map truncate32 = kernel xs := by
  have hnear := h xs hlength hmass
  have hlimit : (mass n xs : ℚ) ≤ 2 ^ 30 := by exact_mod_cast hmass
  apply map_truncate32_of_le
  intro y hy
  obtain ⟨j, hj, rfl⟩ := List.getElem_of_mem hy
  have hle := hnear.abs_getD_le hweight (hnear.length ▸ hj)
  rw [List.getD_eq_getElem _ _ hj] at hle
  have hmax : |((kernel xs)[j] : ℚ)| ≤ max32 := by
    refine hle.trans ?_
    rw [networkDeviation, max32]
    norm_num
    linarith
  rw [← Int.ofNat_le, Int.natCast_natAbs]
  exact_mod_cast hmax

theorem words : NearOnSmall n weight networkDeviation error fun xs =>
    (kernel xs).map truncate32 := by
  intro xs hlength hmass
  dsimp only
  rw [h.map_truncate32 herror hweight hlength hmass]
  exact h xs hlength hmass

end

/-- On inputs of 20 bits no output of a kernel is cut. -/
theorem apply {k : Kernel} (h : NearOnSmall n weight networkDeviation error (k.network .unbounded))
    (hn : k.points = n) (hpoints : n ≤ 32) (herror : error ≤ 64)
    (hweight : ∀ i j, |weight i j| ≤ 2 ^ cosineBits) {xs : List Int} (hlength : n ≤ xs.length)
    (hxs : ∀ i < n, |xs.getD i 0| ≤ 2 ^ 19) :
    ∃ ys, k.apply .unbounded xs = .ok ys ∧ Near n weight networkDeviation error xs ys := by
  subst hn
  have hmass : mass k.points xs ≤ massLimit := by
    have hbound : ∀ i < k.points, (xs.getD i 0).natAbs ≤ 2 ^ 19 := by
      intro i hi
      have hle := hxs i hi
      rw [Int.abs_eq_natAbs] at hle
      omega
    have hle := mass_le hbound
    have hlimit : massLimit = 2 ^ 30 := rfl
    omega
  rw [← mass_take] at hmass
  exact ⟨_, if_pos hlength,
    (h.words herror hweight _ (List.length_take_of_le hlength) hmass).of_take⟩

end NearOnSmall

end ResidualCodec
