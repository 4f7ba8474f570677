/-
  ResidualCodec.Proofs.Transform.Lifting

  The lossless transform is a bijection between samples and multiples of the
  unit step: it is undone by the inverse, and it undoes the inverse. On samples
  and on coefficients of at most 2 ^ 26, no sum on either way leaves 32 bits.
-/

import ResidualCodec.Proofs.Transform.Hadamard
import ResidualCodec.Proofs.Transform.Strict

namespace ResidualCodec

/-- Signed numbers of 32 bits. -/
def ValueRange.word : ValueRange := ⟨some 32⟩

theorem ValueRange.keep?_word {x : Int} (h : x.natAbs ≤ max32) : word.keep? x = some x :=
  keep?_of_lt (Nat.lt_succ_of_le h)

/-! ## Passes -/

/-- The row with its last two values in the other order. -/
def swapLast : List Int → List Int
  | [a, b, c, d] => [a, b, d, c]
  | other => other

section

variable {row : List Int} (h : row.length = 4)

include h

theorem length_swapLast : (swapLast row).length = 4 := by
  match row, h with
  | [_, _, _, _], _ => rfl

theorem swapLast_swapLast : swapLast (swapLast row) = row := by
  match row, h with
  | [_, _, _, _], _ => rfl

theorem mem_swapLast {x : Int} : x ∈ swapLast row ↔ x ∈ row := by
  match row, h with
  | [a, b, c, d], _ =>
    show x ∈ [a, b] ++ [d, c] ↔ x ∈ [a, b] ++ [c, d]
    rw [List.mem_append, List.mem_append, List.mem_pair, List.mem_pair, List.mem_pair]
    exact or_congr_right or_comm

/-- Both passes are the same lifting, over values in another order. -/
theorem liftInverse_eq_swapLast : liftInverse row = swapLast (liftForward (swapLast row)) := by
  match row, h with
  | [_, _, _, _], _ => rfl

/-- The forward pass takes back the inverse pass, as the inverse pass takes back the forward one. -/
theorem liftForward_liftInverse (hrow : ∀ x ∈ row, x.natAbs ≤ max32) :
    liftForward (liftInverse row) = row := by
  have hswap := length_swapLast h
  have hback := liftInverse_liftForward hswap fun x hx => hrow x ((mem_swapLast h).mp hx)
  rw [liftInverse_eq_swapLast (length_liftForward hswap)] at hback
  have hlength : (swapLast (liftForward (swapLast row))).length = 4 :=
    length_swapLast (length_liftForward hswap)
  rw [liftInverse_eq_swapLast h, ← swapLast_swapLast (length_liftForward hlength), hback,
    swapLast_swapLast h]

theorem natAbs_liftInverse {bound : Nat} (hbound : 4 * bound ≤ max32)
    (hrow : ∀ x ∈ row, x.natAbs ≤ bound) : ∀ x ∈ liftInverse row, x.natAbs ≤ 2 * bound := by
  have hswap := length_swapLast h
  intro x hx
  rw [liftInverse_eq_swapLast h, mem_swapLast (length_liftForward hswap)] at hx
  exact natAbs_liftForward hswap hbound (fun y hy => hrow y ((mem_swapLast h).mp hy)) x hx

end

namespace Strict

open ValueRange (word keep?_word)

/-- One forward pass over four samples, if no sum leaves 32 bits. -/
def liftForward : List Int → Option (List Int)
  | [a, b, c, d] => do
    let a₁ ← word.keep? (a + b)
    let d₁ ← word.keep? (d - c)
    let e := halfDown (← word.keep? (a₁ - d₁))
    let b₁ ← word.keep? (e - b)
    let c₁ ← word.keep? (e - c)
    let a₂ ← word.keep? (a₁ - c₁)
    let d₂ ← word.keep? (d₁ + b₁)
    return [a₂, c₁, d₂, b₁]
  | other => some other

/-- One inverse pass over four coefficients, if no sum leaves 32 bits. -/
def liftInverse : List Int → Option (List Int)
  | [a, c, d, b] => do
    let a₁ ← word.keep? (a + c)
    let d₁ ← word.keep? (d - b)
    let e := halfDown (← word.keep? (a₁ - d₁))
    let b₁ ← word.keep? (e - b)
    let c₁ ← word.keep? (e - c)
    let a₂ ← word.keep? (a₁ - b₁)
    let d₂ ← word.keep? (d₁ + c₁)
    return [a₂, b₁, c₁, d₂]
  | other => some other

section

variable {row : List Int} (h : row.length = 4) {bound : Nat} (hbound : 4 * bound ≤ max32)
  (hrow : ∀ x ∈ row, x.natAbs ≤ bound)

include h hbound hrow

/-- The largest sum of a pass is four times as large as its inputs. -/
theorem liftForward_eq : liftForward row = some (ResidualCodec.liftForward row) := by
  match row, h with
  | [a, b, c, d], _ =>
    have ha := hrow a (by simp)
    have hb := hrow b (by simp)
    have hc := hrow c (by simp)
    have hd := hrow d (by simp)
    rw [liftForward_of_le hbound hrow]
    simp only [liftForward, halfDown]
    rw [keep?_word (by omega), keep?_word (by omega)]
    dsimp only [bind, Option.bind]
    rw [keep?_word (by omega)]
    dsimp only
    rw [keep?_word (by omega), keep?_word (by omega)]
    dsimp only
    rw [keep?_word (by omega), keep?_word (by omega)]
    rfl

theorem liftInverse_eq : liftInverse row = some (ResidualCodec.liftInverse row) := by
  match row, h with
  | [a, c, d, b], h =>
    have ha := hrow a (by simp)
    have hb := hrow b (by simp)
    have hc := hrow c (by simp)
    have hd := hrow d (by simp)
    have hswap : ∀ x ∈ [a, c, b, d], x.natAbs ≤ bound :=
      fun x hx => hrow x ((mem_swapLast h).mp hx)
    rw [liftInverse_eq_swapLast h, swapLast, liftForward_of_le hbound hswap]
    simp only [liftInverse, swapLast, halfDown]
    rw [keep?_word (by omega), keep?_word (by omega)]
    dsimp only [bind, Option.bind]
    rw [keep?_word (by omega)]
    dsimp only
    rw [keep?_word (by omega), keep?_word (by omega)]
    dsimp only
    rw [keep?_word (by omega), keep?_word (by omega)]
    rfl

end

/-! ## Blocks -/

def forwardHadamardRows (m : Rows) : Option Rows := do
  let half ← (m.transpose 4).mapM liftForward
  let lifted ← (Rows.transpose 4 half).mapM liftForward
  keepEach word (Rows.each lifted (· * unitStep))

def inverseHadamardRows (m : Rows) : Option Rows := do
  let half ← (m.each (· / unitStep)).mapM liftInverse
  let full ← (Rows.transpose 4 half).mapM liftInverse
  return Rows.transpose 4 full

/-- Coefficients of 16 samples, if no sum or product leaves 32 bits. -/
def forwardHadamard (input output : Array Int) : Except Fault (Option (Array Int)) :=
  if input.size < 16 ∨ output.size < 16 then .error .shortHadamardSamples
  else .ok ((forwardHadamardRows (Rows.ofRaster 4 input)).map (·.writeTo output))

/-- Samples of 16 coefficients, if no sum leaves 32 bits. -/
def inverseHadamard (input output : Array Int) (eob : Nat) : Except Fault (Option (Array Int)) :=
  if input.size < 16 ∨ output.size < 16 then .error .shortHadamardCoefficients
  else
    let rows := Rows.ofRaster 4 input
    if eob = 0 then .ok (some ((rows.each fun _ => 0).writeTo output))
    else .ok ((inverseHadamardRows rows).map (·.writeTo output))

section

variable {m : Rows} {bound : Nat} (hm : m.Bounded bound)

include hm

theorem keepEach_word (hbound : bound ≤ max32) : keepEach word m = some m := by
  apply mapM_eq_some_self
  intro row hrow
  apply mapM_eq_some_self
  intro x hx
  exact keep?_word ((hm row hrow x hx).trans hbound)

variable (h : m.Square 4)

include h

theorem mapM_liftForward (hbound : 4 * bound ≤ max32) :
    m.mapM liftForward = some (m.pass ResidualCodec.liftForward) :=
  mapM_eq_some_map fun row hrow => liftForward_eq (h.cols row hrow) hbound (hm row hrow)

theorem mapM_liftInverse (hbound : 4 * bound ≤ max32) :
    m.mapM liftInverse = some (m.pass ResidualCodec.liftInverse) :=
  mapM_eq_some_map fun row hrow => liftInverse_eq (h.cols row hrow) hbound (hm row hrow)

theorem forwardHadamardRows_eq (hbound : 16 * bound ≤ max32) :
    forwardHadamardRows m = some (ResidualCodec.forwardHadamardRows m) := by
  have hcolumns : (m.transpose 4).Square 4 := Rows.square_transpose h.rows
  have hhalf := bounded_half h hm (by omega)
  have hfull : ((liftedRows m).each (· * unitStep)).Bounded (16 * bound) := by
    refine (bounded_liftedRows h hm (by omega)).each ?_
    intro x hx
    simp only [unitStep]
    omega
  rw [forwardHadamardRows, mapM_liftForward hm.transpose hcolumns (by omega), Option.bind_eq_bind,
    Option.bind_some, mapM_liftForward hhalf (square_half h) (by omega), Option.bind_some,
    ResidualCodec.forwardHadamardRows_eq h hm hbound]
  exact keepEach_word hfull hbound

end

/-- The second pass adds what the first one gives, so both are bounded. -/
theorem inverseHadamardRows_eq {m : Rows} (h : m.Square 4) {bound half : Nat}
    (hm : (m.each (· / unitStep)).Bounded bound) (hbound : 4 * bound ≤ max32)
    (hhalf : ((m.each (· / unitStep)).pass ResidualCodec.liftInverse).Bounded half)
    (hhalfBound : 4 * half ≤ max32) :
    inverseHadamardRows m = some (ResidualCodec.inverseHadamardRows m) := by
  have hunits : (m.each (· / unitStep)).Square 4 := h.each _
  have hpassed : ((m.each (· / unitStep)).pass ResidualCodec.liftInverse).Square 4 :=
    hunits.pass fun _ => length_liftInverse
  rw [inverseHadamardRows, mapM_liftInverse hm hunits hbound, Option.bind_eq_bind,
    Option.bind_some, mapM_liftInverse hhalf.transpose (Rows.square_transpose hpassed.rows)
      hhalfBound]
  rfl

end Strict

/-! ## Undoing the inverse -/

section

variable {m : Rows} (h : m.Square 4)

theorem each_unitStep (hunits : ∀ row ∈ m, ∀ x ∈ row, unitStep ∣ x) :
    (m.each (· / unitStep)).each (· * unitStep) = m :=
  Rows.each_each_eq fun row hrow x hx => Int.ediv_mul_cancel (hunits row hrow x hx)

include h

theorem square_inverseHadamardRows : (inverseHadamardRows m).Square 4 := by
  have hhalf : ((m.each (· / unitStep)).pass liftInverse).Square 4 :=
    (h.each _).pass fun _ => length_liftInverse
  have hcolumns : ((Rows.transpose 4 ((m.each (· / unitStep)).pass liftInverse)).pass
      liftInverse).Square 4 :=
    (Rows.square_transpose hhalf.rows).pass fun _ => length_liftInverse
  exact Rows.square_transpose hcolumns.rows

end

/-! ## Blocks -/

theorem bounded_unscaled {m : Rows} {bound : Nat} (hm : m.Bounded (4 * bound)) :
    (m.each (· / unitStep)).Bounded bound := by
  refine hm.each ?_
  intro x hx
  simp only [unitStep]
  omega

section

variable {m : Rows} (h : m.Square 4) {bound : Nat}

include h

theorem pass_liftInverse_liftForward (hm : m.Bounded bound) (hbound : bound ≤ max32) :
    (m.pass liftInverse).pass liftForward = m := by
  apply Rows.pass_pass
  intro row hrow
  exact liftForward_liftInverse (h.cols row hrow) fun x hx => (hm row hrow x hx).trans hbound

theorem bounded_halfBack (hm : m.Bounded bound) (hbound : 4 * bound ≤ max32) :
    (m.pass liftInverse).Bounded (2 * bound) := by
  apply hm.pass
  intro row hrow
  exact natAbs_liftInverse (h.cols row hrow) hbound

variable (hm : m.Bounded (4 * bound)) (hbound : 16 * (4 * bound) ≤ max32)

include hm hbound

/-- Two passes, each of which doubles magnitudes at most. -/
theorem bounded_inverseHadamardRows : (inverseHadamardRows m).Bounded (4 * bound) := by
  have hscaled : (m.each (· / unitStep)).Square 4 := h.each _
  have hhalf := bounded_halfBack hscaled (bounded_unscaled hm) (by omega)
  have hcolumns : (Rows.transpose 4 ((m.each (· / unitStep)).pass liftInverse)).Square 4 :=
    Rows.square_transpose (hscaled.pass fun _ => length_liftInverse).rows
  have hfull := (bounded_halfBack hcolumns hhalf.transpose (by omega)).transpose (n := 4)
  rwa [← Nat.mul_assoc] at hfull

/-- The forward transform undoes the columns, then the rows, then the scale. -/
theorem forwardHadamardRows_inverseHadamardRows (hunits : ∀ row ∈ m, ∀ x ∈ row, unitStep ∣ x) :
    forwardHadamardRows (inverseHadamardRows m) = m := by
  have hscaled : (m.each (· / unitStep)).Square 4 := h.each _
  have hunit : (m.each (· / unitStep)).Bounded bound := bounded_unscaled hm
  have hhalf : ((m.each (· / unitStep)).pass liftInverse).Square 4 :=
    hscaled.pass fun _ => length_liftInverse
  have hcolumns : (Rows.transpose 4 ((m.each (· / unitStep)).pass liftInverse)).Square 4 :=
    Rows.square_transpose hhalf.rows
  have hfull : ((Rows.transpose 4 ((m.each (· / unitStep)).pass liftInverse)).pass
      liftInverse).Square 4 :=
    hcolumns.pass fun _ => length_liftInverse
  have hhalfBound := (bounded_halfBack hscaled hunit (by omega)).transpose (n := 4)
  have hlifted : liftedRows (inverseHadamardRows m) = m.each (· / unitStep) := by
    simp only [liftedRows, inverseHadamardRows]
    rw [hfull.transpose_transpose, pass_liftInverse_liftForward hcolumns hhalfBound (by omega),
      hhalf.transpose_transpose, pass_liftInverse_liftForward hscaled hunit (by omega)]
  rw [forwardHadamardRows_eq (square_inverseHadamardRows h)
    (bounded_inverseHadamardRows h hm hbound) hbound, hlifted, each_unitStep hunits]

end

section

variable {input output : Array Int} {eob : Nat}

theorem inverseHadamard_eq (hsize : input.size = 16) (hroom : output.size = 16) (heob : 0 < eob) :
    inverseHadamard input output eob =
      .ok (inverseHadamardRows (.ofRaster 4 input)).flatten.toArray := by
  have hsquare := square_inverseHadamardRows (Rows.square_ofRaster 4 input)
  simp only [inverseHadamard]
  rw [if_neg (by omega), if_neg (by omega),
    Rows.writeTo_eq (hsquare.length_flatten.trans hroom.symm)]

theorem Strict.forwardHadamard_eq (hsize : input.size = 16) (hroom : output.size = 16)
    {m : Rows} (hm : m.Square 4) (h : forwardHadamardRows (.ofRaster 4 input) = some m) :
    forwardHadamard input output = .ok (some m.flatten.toArray) := by
  simp only [forwardHadamard]
  rw [if_neg (by omega), h, Option.map_some,
    Rows.writeTo_eq (hm.length_flatten.trans hroom.symm)]

theorem Strict.inverseHadamard_eq (hsize : input.size = 16) (hroom : output.size = 16)
    (heob : 0 < eob) {m : Rows} (hm : m.Square 4)
    (h : inverseHadamardRows (.ofRaster 4 input) = some m) :
    inverseHadamard input output eob = .ok (some m.flatten.toArray) := by
  simp only [inverseHadamard]
  rw [if_neg (by omega), if_neg (by omega), h, Option.map_some,
    Rows.writeTo_eq (hm.length_flatten.trans hroom.symm)]

end

section

variable {block first second : Array Int} {eob : Nat}

/-- Both ways between samples and multiples of the unit step are exact: each takes back the other,
and up to 2 ^ 26 no sum on the way leaves 32 bits. -/
theorem hadamard_bijective (hsize : block.size = 16) (hlimit : ∀ x ∈ block, x.natAbs ≤ 2 ^ 26)
    (hfirst : first.size = 16) (hsecond : second.size = 16) (heob : 0 < eob) :
    (∃ coeffs,
      Strict.forwardHadamard block first = .ok (some coeffs) ∧
      forwardHadamard block first = .ok coeffs ∧
      Strict.inverseHadamard coeffs second eob = .ok (some block) ∧
      inverseHadamard coeffs second eob = .ok block) ∧
    ((∀ x ∈ block, unitStep ∣ x) → ∃ samples,
      Strict.inverseHadamard block first eob = .ok (some samples) ∧
      inverseHadamard block first eob = .ok samples ∧
      Strict.forwardHadamard samples second = .ok (some block) ∧
      forwardHadamard samples second = .ok block) := by
  have hsquare : (Rows.ofRaster 4 block).Square 4 := Rows.square_ofRaster 4 block
  have hflat : (Rows.ofRaster 4 block).flatten.toArray = block := by
    rw [Rows.flatten_ofRaster hsize.ge, List.take_of_length_le (by rw [Array.length_toList, hsize])]
  have hbounded : (Rows.ofRaster 4 block).Bounded (2 ^ 26) := by
    apply Rows.bounded_ofRaster
    intro j hj
    rw [Array.getD_eq_getD_getElem?, Array.getElem?_eq_getElem (by omega)]
    exact hlimit _ (Array.getElem_mem _)
  refine ⟨?_, ?_⟩
  · have hcoeffs := square_forwardHadamardRows hsquare
    have hback := inverseHadamardRows_forwardHadamardRows hsquare hbounded (by decide)
    have hforward := Strict.forwardHadamardRows_eq hbounded hsquare (by decide)
    have hinverse : Strict.inverseHadamardRows (forwardHadamardRows (.ofRaster 4 block)) =
        some (.ofRaster 4 block) := by
      have hscaled := bounded_liftedRows hsquare hbounded (by decide)
      have hhalf := bounded_half hsquare hbounded (by decide)
      rw [← pass_liftedRows hsquare hbounded (by decide)] at hhalf
      rw [← unscale_forwardHadamardRows hsquare hbounded (by decide)] at hscaled hhalf
      rw [Strict.inverseHadamardRows_eq hcoeffs hscaled (by decide) hhalf (by decide), hback]
    have hlength : (forwardHadamardRows (.ofRaster 4 block)).flatten.toArray.size = 16 :=
      hcoeffs.length_flatten
    refine ⟨(forwardHadamardRows (.ofRaster 4 block)).flatten.toArray, ?_, ?_, ?_, ?_⟩
    · exact Strict.forwardHadamard_eq hsize hfirst hcoeffs hforward
    · exact forwardHadamard_ok hsize.ge hfirst
    · rw [Strict.inverseHadamard_eq hlength hsecond heob hsquare, hflat]
      rw [hcoeffs.ofRaster_flatten, hinverse]
    · rw [inverseHadamard_eq hlength hsecond heob, hcoeffs.ofRaster_flatten, hback, hflat]
  · intro hunits
    have hmultiples : ∀ row ∈ Rows.ofRaster 4 block, ∀ x ∈ row, unitStep ∣ x := by
      intro row hrow x hx
      apply hunits
      rw [← hflat, List.mem_toArray]
      exact List.mem_flatten_of_mem hrow hx
    have hsamples := square_inverseHadamardRows hsquare
    have hquadruple : (Rows.ofRaster 4 block).Bounded (4 * 2 ^ 24) := hbounded
    have hback :=
      forwardHadamardRows_inverseHadamardRows hsquare hquadruple (by decide) hmultiples
    have hscaled : ((Rows.ofRaster 4 block).each (· / unitStep)).Bounded (2 ^ 24) :=
      bounded_unscaled hquadruple
    have hlimits : (inverseHadamardRows (.ofRaster 4 block)).Bounded (4 * 2 ^ 24) :=
      bounded_inverseHadamardRows hsquare hquadruple (by decide)
    have hinverse := Strict.inverseHadamardRows_eq hsquare hscaled (by decide)
      (bounded_halfBack (hsquare.each _) hscaled (by decide)) (by decide)
    have hforward := Strict.forwardHadamardRows_eq hlimits hsamples (by decide)
    have hlength : (inverseHadamardRows (.ofRaster 4 block)).flatten.toArray.size = 16 :=
      hsamples.length_flatten
    refine ⟨(inverseHadamardRows (.ofRaster 4 block)).flatten.toArray, ?_, ?_, ?_, ?_⟩
    · exact Strict.inverseHadamard_eq hsize hfirst heob hsamples hinverse
    · exact inverseHadamard_eq hsize hfirst heob
    · rw [Strict.forwardHadamard_eq hlength hsecond hsquare, hflat]
      rw [hsamples.ofRaster_flatten, hforward, hback]
    · rw [forwardHadamard_ok hlength.ge hsecond, hsamples.ofRaster_flatten, hback, hflat]

/-- Samples of the largest magnitude and both signs, as many as make the largest sums. -/
theorem hadamard_bijective_limit :
    let block : Array Int :=
      #[2 ^ 26, 2 ^ 26, -2 ^ 26, -2 ^ 26, 2 ^ 26, 2 ^ 26, -2 ^ 26, -2 ^ 26,
        -2 ^ 26, -2 ^ 26, 2 ^ 26, 2 ^ 26, -4, 4, 0, -2 ^ 26]
    let room : Array Int := zeroBlock .s4
    (∃ coeffs,
      Strict.forwardHadamard block room = .ok (some coeffs) ∧
      forwardHadamard block room = .ok coeffs ∧
      Strict.inverseHadamard coeffs room 1 = .ok (some block) ∧
      inverseHadamard coeffs room 1 = .ok block) ∧
    ∃ samples,
      Strict.inverseHadamard block room 1 = .ok (some samples) ∧
      inverseHadamard block room 1 = .ok samples ∧
      Strict.forwardHadamard samples room = .ok (some block) ∧
      forwardHadamard samples room = .ok block := by
  intro block room
  have hlimit : ∀ x ∈ block, x.natAbs ≤ 2 ^ 26 := by decide
  have hroom : room.size = 16 := by decide
  have hunits : ∀ x ∈ block, unitStep ∣ x := by decide
  have hsize : block.size = 16 := by decide
  have h := hadamard_bijective hsize hlimit hroom hroom Nat.one_pos
  exact ⟨h.1, h.2 hunits⟩

end

end ResidualCodec
