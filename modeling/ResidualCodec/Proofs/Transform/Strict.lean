/-
  ResidualCodec.Proofs.Transform.Strict

  The inverse transform with every value checked against its range. It gives
  nothing where a value would have to be wrapped; what it gives, the inverse
  transform gives too.
-/

import ResidualCodec.Proofs.Transform.Rounding
import ResidualCodec.Transform.Block

namespace ResidualCodec

/-! ## Values -/

namespace ValueRange

/-- The value, if the range holds it as it is. -/
def keep? (r : ValueRange) (x : Int) : Option Int := if r.contains x then some x else none

theorem keep?_of_lt {w : Nat} {x : Int} (h : x.natAbs < 2 ^ w) :
    (⟨some (w + 1)⟩ : ValueRange).keep? x = some x := by
  apply if_pos
  simp only [contains, Nat.add_sub_cancel, Nat.one_shiftLeft, decide_eq_true_eq]
  omega

theorem eq_of_keep? {r : ValueRange} {x y : Int} (h : r.keep? x = some y) :
    r.contains x = true ∧ y = x := by
  simp only [keep?] at h
  split at h
  case isTrue hx => exact ⟨hx, (Option.some.inj h).symm⟩
  case isFalse => cases h

/-- A value that the range holds is not changed by wrapping. -/
theorem wrap_of_contains {r : ValueRange} (hr : r.width ≠ some 0) {x : Int}
    (h : r.contains x = true) : r.wrap x = x := by
  obtain ⟨width⟩ := r
  match width, hr with
  | none, _ => rfl
  | some (w + 1), _ =>
    simp only [contains, Nat.add_sub_cancel, Nat.one_shiftLeft, decide_eq_true_eq] at h
    exact wrapTo_succ_of_lt h.1 h.2

end ValueRange

/-! ## Checked functions -/

/-- What the checked function gives, the plain one gives too. -/
def Refines {α β : Type} (checked : α → Option β) (plain : α → β) : Prop :=
  ∀ a b, checked a = some b → plain a = b

section

variable {α β γ : Type} {f : α → Option β} {g : α → β} {f' : β → Option γ} {g' : β → γ}

theorem Refines.bind (h : Refines f g) (h' : Refines f' g') :
    Refines (fun a => f a >>= f') fun a => g' (g a) := by
  intro a c hc
  obtain ⟨b, hb, hc⟩ := Option.bind_eq_some_iff.mp hc
  exact (congrArg g' (h a b hb)).trans (h' b c hc)

theorem Refines.map (h : Refines f g) (k : β → γ) :
    Refines (fun a => (f a).map k) fun a => k (g a) := by
  intro a c hc
  obtain ⟨b, hb, rfl⟩ := Option.map_eq_some_iff.mp hc
  exact congrArg k (h a b hb)

theorem Refines.comp (h : Refines f g) (k : γ → α) : Refines (fun c => f (k c)) fun c => g (k c) :=
  fun c => h (k c)

theorem Refines.mapM (h : Refines f g) : Refines (List.mapM f) (List.map g) := by
  intro as
  induction as with
  | nil =>
    intro bs hbs
    exact Option.some.inj hbs
  | cons a rest ih =>
    intro bs hbs
    rw [List.mapM_cons] at hbs
    obtain ⟨b, hb, hbs⟩ := Option.bind_eq_some_iff.mp hbs
    obtain ⟨cs, hcs, hbs⟩ := Option.bind_eq_some_iff.mp hbs
    rw [List.map_cons, h a b hb, ih cs hcs]
    exact Option.some.inj hbs

/-- Values that all are given are given together. -/
theorem mapM_eq_some_map {as : List α} (h : ∀ a ∈ as, f a = some (g a)) :
    as.mapM f = some (as.map g) := mapM_eq_pure_map h

/-- Values that all stay as they are. -/
theorem mapM_eq_some_self {h : α → Option α} {as : List α} (hs : ∀ a ∈ as, h a = some a) :
    as.mapM h = some as :=
  (mapM_eq_some_map (g := id) hs).trans (congrArg some (List.map_id as))

end

theorem refines_keep? {r : ValueRange} (hr : r.width ≠ some 0) : Refines r.keep? r.wrap := by
  intro x y h
  obtain ⟨hx, rfl⟩ := ValueRange.eq_of_keep? h
  exact ValueRange.wrap_of_contains hr hx

namespace Strict

/-! ## Kernels -/

def gate (r : ValueRange) (xs : List Int) : Gate → Option Int
  | .sum ts => r.keep? (ts.eval xs)
  | .turn ts => r.keep? (roundShift (ts.eval xs) cosineBits)

def stage (r : ValueRange) (s : Stage) (xs : List Int) : Option (List Int) := s.mapM (gate r xs)

def network (r : ValueRange) (n : Network) (xs : List Int) : Option (List Int) :=
  n.foldlM (fun ys s => stage r s ys) xs

def unfold (r : ValueRange) (es os : List Int) : Option (List Int) := do
  let sums ← (List.zipWith (· + ·) es os).mapM r.keep?
  let differences ← (List.zipWith (· - ·) es os).mapM r.keep?
  return sums ++ differences.reverse

/-- Inverse cosine transform of twice the points of another one. -/
def double (half : ValueRange → List Int → Option (List Int)) (odd : Network) (r : ValueRange)
    (xs : List Int) : Option (List Int) := do
  unfold r (← half r (evens xs)) (← network r odd (odds xs))

/-- Kernel whose outputs are cut to 32 bits, which is not a matter of the range. -/
def words (kernel : ValueRange → List Int → Option (List Int)) (r : ValueRange) (xs : List Int) :
    Option (List Int) :=
  (kernel r xs).map (·.map truncate32)

def inverseDct4 := double (fun r => network r dctPair) dctOdd2

def inverseDct8 := double inverseDct4 inverseDctOdd4

def inverseDct16 := double (words inverseDct8) inverseDctOdd8

def inverseDct32 := double (words inverseDct16) dctOdd16

def inverseNetwork (s : TransformSize) (b : Basis) (r : ValueRange) (xs : List Int) :
    Option (List Int) :=
  match s, b with
  | .s4, .dct => inverseDct4 r xs
  | .s8, .dct => inverseDct8 r xs
  | .s16, .dct => inverseDct16 r xs
  | .s32, _ => inverseDct32 r xs
  | .s4, .adst => network r inverseAdst4 xs
  | .s8, .adst => network r adst8 xs
  | .s16, .adst => network r adst16 xs

/-- Inverse kernel of a basis. -/
def inverseKernel (s : TransformSize) (b : Basis) (r : ValueRange) (xs : List Int) :
    Option (List Int) :=
  words (inverseNetwork s b) r (xs.take s.points)

/-! ## Blocks -/

/-- A block, if the range holds all its values. -/
def keepEach (r : ValueRange) (m : Rows) : Option Rows := m.mapM (·.mapM r.keep?)

/-- A row of zeros stays as it is, and nothing of it is checked. -/
def nonzero (kernel : List Int → Option (List Int)) (row : List Int) : Option (List Int) :=
  if row.all (· == 0) then some row else kernel row

def inverseRows (s : TransformSize) (t : TransformType) (d : BitDepth) (m : Rows) :
    Option Rows := do
  let r := ValueRange.ofDepth d
  let coeffs ← keepEach r m
  let half ← (coeffs.transpose s.points).mapM (nonzero (inverseKernel s t.vertical r))
  let full ← (Rows.transpose s.points half).mapM (inverseKernel s t.horizontal r)
  keepEach r (Rows.each full fun x => roundShift x s.inverseShift)

/-- Residual samples of dequantized coefficients, if no value on the way had to be wrapped. -/
def inverseTransform (s : TransformSize) (t : TransformType) (input output : Array Int)
    (eob : Nat) (d : BitDepth) : Except Fault (Option (Array Int)) := do
  checkBlock s t input output
  let rows := Rows.ofRaster s.points input
  if eob = 0 then return some ((rows.each fun _ => 0).writeTo output)
  return (inverseRows s t d rows).map (·.writeTo output)

/-! ## Refinement -/

section

variable {r : ValueRange} (hr : r.width ≠ some 0)

include hr

theorem refines_gate (xs : List Int) : Refines (gate r xs) (Gate.eval r xs) := by
  intro g
  cases g with
  | sum ts => exact refines_keep? hr _
  | turn ts => exact refines_keep? hr _

theorem refines_network (n : Network) : Refines (network r n) (n.run r) := by
  induction n with
  | nil =>
    intro xs ys h
    exact Option.some.inj h
  | cons s n ih =>
    have hstage : Refines (stage r s) (s.run r) := fun xs => (refines_gate hr xs).mapM s
    exact hstage.bind ih

theorem refines_unfold (es os : List Int) {ys : List Int} (h : unfold r es os = some ys) :
    ResidualCodec.unfold r es os = ys := by
  obtain ⟨sums, hsums, h⟩ := Option.bind_eq_some_iff.mp h
  obtain ⟨differences, hdifferences, h⟩ := Option.bind_eq_some_iff.mp h
  have hkeep := (refines_keep? hr).mapM
  rw [← Option.some.inj h, ← hkeep _ _ hsums, ← hkeep _ _ hdifferences, List.map_zipWith,
    List.map_zipWith]
  rfl

theorem refines_double {half : ValueRange → List Int → Option (List Int)}
    (plain : ValueRange → List Int → List Int) (h : Refines (half r) (plain r)) (odd : Network) :
    Refines (double half odd r)
      fun xs => ResidualCodec.unfold r (plain r (evens xs)) (odd.run r (odds xs)) := by
  intro xs ys hys
  obtain ⟨es, hes, hys⟩ := Option.bind_eq_some_iff.mp hys
  obtain ⟨os, hos, hys⟩ := Option.bind_eq_some_iff.mp hys
  dsimp only
  rw [h _ es hes, refines_network hr odd _ os hos]
  exact refines_unfold hr es os hys

omit hr in
theorem refines_words {kernel : ValueRange → List Int → Option (List Int)}
    {plain : List Int → List Int} (h : Refines (kernel r) plain) :
    Refines (words kernel r) fun xs => (plain xs).map truncate32 := h.map (List.map truncate32)

theorem refines_inverseDct4 : Refines (inverseDct4 r) (ResidualCodec.inverseDct4 r) :=
  refines_double hr dctPair.run (refines_network hr dctPair) dctOdd2

theorem refines_inverseDct8 : Refines (inverseDct8 r) (ResidualCodec.inverseDct8 r) :=
  refines_double hr ResidualCodec.inverseDct4 (refines_inverseDct4 hr) inverseDctOdd4

theorem refines_inverseDct16 : Refines (inverseDct16 r) (ResidualCodec.inverseDct16 r) :=
  refines_double hr (fun r xs => (ResidualCodec.inverseDct8 r xs).map truncate32)
    (refines_words (refines_inverseDct8 hr)) inverseDctOdd8

theorem refines_inverseDct32 : Refines (inverseDct32 r) (ResidualCodec.inverseDct32 r) :=
  refines_double hr (fun r xs => (ResidualCodec.inverseDct16 r xs).map truncate32)
    (refines_words (refines_inverseDct16 hr)) dctOdd16

theorem refines_inverseNetwork (s : TransformSize) (b : Basis) :
    Refines (inverseNetwork s b r) ((Kernel.inverse s b).network r) := by
  cases s with
  | s4 =>
    cases b with
    | dct => exact refines_inverseDct4 hr
    | adst => exact refines_network hr ResidualCodec.inverseAdst4
  | s8 =>
    cases b with
    | dct => exact refines_inverseDct8 hr
    | adst => exact refines_network hr ResidualCodec.adst8
  | s16 =>
    cases b with
    | dct => exact refines_inverseDct16 hr
    | adst => exact refines_network hr ResidualCodec.adst16
  | s32 =>
    cases b with
    | dct => exact refines_inverseDct32 hr
    | adst => exact refines_inverseDct32 hr

theorem refines_inverseKernel (s : TransformSize) (b : Basis) :
    Refines (inverseKernel s b r) ((Kernel.inverse s b).run r) := by
  have hpoints : (Kernel.inverse s b).points = s.points := by cases s <;> cases b <;> rfl
  have h := (refines_words (refines_inverseNetwork hr s b)).comp (List.take s.points)
  intro xs ys hys
  simp only [Kernel.run]
  rw [hpoints]
  exact h xs ys hys

theorem refines_keepEach : Refines (keepEach r) (Rows.each · r.wrap) := (refines_keep? hr).mapM.mapM

omit hr in
theorem refines_nonzero {checked : List Int → Option (List Int)} {plain : List Int → List Int}
    (h : Refines checked plain) :
    Refines (nonzero checked) fun row => if row.all (· == 0) then row else plain row := by
  intro row ys hys
  simp only [nonzero] at hys
  dsimp only
  split at hys
  case isTrue hzero =>
    rw [if_pos hzero]
    exact Option.some.inj hys
  case isFalse hnonzero =>
    rw [if_neg hnonzero]
    exact h row ys hys

end

theorem width_ofDepth (d : BitDepth) : (ValueRange.ofDepth d).width ≠ some 0 := by
  cases d <;> decide

theorem refines_inverseRows (s : TransformSize) (t : TransformType) (d : BitDepth) :
    Refines (inverseRows s t d) (ResidualCodec.inverseRows s t d) := by
  have hr := width_ofDepth d
  have hcolumns := ((refines_nonzero (refines_inverseKernel hr s t.vertical)).mapM).comp
    (Rows.transpose s.points)
  have hrows := ((refines_inverseKernel hr s t.horizontal).mapM).comp (Rows.transpose s.points)
  have hround := (refines_keepEach hr).comp (Rows.each · fun x => roundShift x s.inverseShift)
  intro m k hk
  have h := (refines_keepEach hr).bind (hcolumns.bind (hrows.bind hround)) m k hk
  dsimp only at h
  rw [Rows.each_each] at h
  exact h

/-- Where no value had to be wrapped, the inverse transform gives the same. -/
theorem inverseTransform_of_strict {s : TransformSize} {t : TransformType}
    {input output : Array Int} {eob : Nat} {d : BitDepth} {out : Array Int}
    (h : inverseTransform s t input output eob d = .ok (some out)) :
    ResidualCodec.inverseTransform s t input output eob d = .ok out := by
  simp only [inverseTransform, ResidualCodec.inverseTransform] at h ⊢
  cases hcheck : checkBlock s t input output with
  | error f =>
    rw [hcheck] at h
    cases h
  | ok =>
    rw [hcheck] at h
    dsimp only [bind, Except.bind] at h ⊢
    split at h
    case isTrue heob =>
      rw [if_pos heob]
      cases h
      rfl
    case isFalse heob =>
      obtain ⟨m, hm, rfl⟩ := Option.map_eq_some_iff.mp (Except.ok.inj h)
      rw [if_neg heob, refines_inverseRows s t d _ m hm]
      rfl

end Strict

end ResidualCodec
