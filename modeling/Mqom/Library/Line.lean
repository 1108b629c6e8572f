import Mathlib.Algebra.CharP.Two
import Mathlib.Data.Matrix.Mul
import Mathlib.LinearAlgebra.Matrix.DotProduct
import Mathlib.Tactic.LinearCombination

/-!
# Lines and quadratic forms in characteristic two

A weighted sum of items from which one item is missing still gives a point of a line that does not
depend on which item it was, when the missing item's weight multiplies the sum of the others. A
quadratic form on a line is a polynomial of degree two in the parameter, and three points with
one value leave no quadratic coefficient.
-/

namespace Mqom.Library

open Matrix

/-! ## Punctured sums -/

section Punctured

variable {K V : Type} [CommRing K] [CharP K 2] [AddCommGroup V]

/-- Puncture a sequence at `h`. The weighted sum that remains, corrected by the sum that remains
times the missing weight, is the weighted sum of the whole sequence with the sum of the whole
sequence as slope. -/
theorem punctured_sum (weight : Nat → K) (read : V →+ K) {item punctured : Nat → V} {n h : Nat}
    (hh : h < n) (hzero : punctured h = 0) (hothers : ∀ j < n, j ≠ h → punctured j = item j)
    (offset : V) :
    ∑ j ∈ Finset.range n, weight j * read (punctured j) +
        weight h * read (∑ j ∈ Finset.range n, punctured j + offset) =
      ∑ j ∈ Finset.range n, weight j * read (item j) +
        weight h * read (∑ j ∈ Finset.range n, item j + offset) := by
  have hmem : h ∈ Finset.range n := Finset.mem_range.mpr hh
  have hrest : ∀ j ∈ (Finset.range n).erase h, punctured j = item j := fun j hj =>
    hothers j (Finset.mem_range.mp (Finset.mem_of_mem_erase hj)) (Finset.ne_of_mem_erase hj)
  -- both sums differ from those of the whole sequence by the missing item
  have hsum : ∑ j ∈ Finset.range n, item j = item h + ∑ j ∈ Finset.range n, punctured j := by
    rw [← Finset.add_sum_erase _ item hmem, ← Finset.add_sum_erase _ punctured hmem, hzero,
      zero_add, Finset.sum_congr rfl hrest]
  have hweighted : ∑ j ∈ Finset.range n, weight j * read (item j) =
      weight h * read (item h) + ∑ j ∈ Finset.range n, weight j * read (punctured j) := by
    rw [← Finset.add_sum_erase _ (fun j => weight j * read (item j)) hmem,
      ← Finset.add_sum_erase _ (fun j => weight j * read (punctured j)) hmem, hzero, map_zero,
      mul_zero, zero_add]
    congr 1
    exact Finset.sum_congr rfl (fun j hj => by rw [hrest j hj])
  rw [hsum, hweighted]
  simp only [map_add]
  linear_combination (-1 : K) * CharTwo.add_self_eq_zero (weight h * read (item h))

end Punctured

/-! ## Quadratic forms -/

section Quadratic

variable {K N : Type} [CommRing K] [Fintype N]

/-- The value `x A x + b x` of a quadratic form. -/
def quadraticValue (A : Matrix N N K) (b x : N → K) : K :=
  (A *ᵥ x) ⬝ᵥ x + b ⬝ᵥ x

/-- The form made homogeneous with a parameter `w`, and its value `y` subtracted. -/
def homogeneousValue (A : Matrix N N K) (b : N → K) (w : K) (x : N → K) (y : K) : K :=
  (A *ᵥ x + w • b) ⬝ᵥ x + w ^ 2 * y

/-- The part of the homogeneous form on a line that the slope does not enter. -/
def constantTerm (A : Matrix N N K) (base : N → K) : K :=
  (A *ᵥ base) ⬝ᵥ base

/-- The coefficient of the parameter in the homogeneous form on a line. -/
def linearTerm (A : Matrix N N K) (b base slope : N → K) : K :=
  (A *ᵥ base) ⬝ᵥ slope + (A *ᵥ slope + b) ⬝ᵥ base

/-- On a line the homogeneous form is a polynomial of degree two in the parameter. Its leading
coefficient is the value of the form at the slope, less `y`. -/
theorem homogeneous_value_line (A : Matrix N N K) (b base slope : N → K) (w y : K) :
    homogeneousValue A b w (base + w • slope) y =
      constantTerm A base + w * linearTerm A b base slope +
        w ^ 2 * (quadraticValue A b slope + y) := by
  unfold homogeneousValue constantTerm linearTerm quadraticValue
  simp only [mulVec_add, mulVec_smul, add_dotProduct, dotProduct_add, smul_dotProduct,
    dotProduct_smul, smul_eq_mul]
  ring

/-- The coefficient of the parameter when the line starts at two units, one of which is its
slope. -/
theorem linear_term_single [CharP K 2] [DecidableEq N] (A : Matrix N N K) (b : N → K) (w : K)
    (i j : N) :
    linearTerm A b (w • (Pi.single i 1 + Pi.single j 1)) (Pi.single i 1) =
      w * (A i j + A j i + b i + b j) := by
  rw [linearTerm, mulVec_smul, mulVec_add]
  simp only [mulVec_single_one, dotProduct_smul, dotProduct_add, dotProduct_single_one,
    Pi.smul_apply, Pi.add_apply, col_apply, smul_eq_mul]
  linear_combination CharTwo.add_self_eq_zero (w * A i i)

end Quadratic

/-! ## Batched forms -/

section Batched

variable {K N J : Type} [CommRing K] [Fintype N] [Fintype J]
variable (weight : J → K) (A : J → Matrix N N K) (b : J → N → K)

/-- The constant terms of several forms on a line, added up with weights. -/
def batchedConstant (base : N → K) : K :=
  ∑ j, weight j * constantTerm (A j) base

/-- The linear terms of several forms on a line, added up with weights. -/
def batchedLinear (base slope : N → K) : K :=
  ∑ j, weight j * linearTerm (A j) (b j) base slope

/-- The values of several forms less some values, added up with weights. -/
def batchedError (slope : N → K) (y : J → K) : K :=
  ∑ j, weight j * (quadraticValue (A j) (b j) slope + y j)

/-- The homogeneous forms on a line, added up with weights. -/
theorem batched_homogeneous_line (base slope : N → K) (w : K) (y : J → K) :
    ∑ j, weight j * homogeneousValue (A j) (b j) w (base + w • slope) (y j) =
      batchedConstant weight A base + w * batchedLinear weight A b base slope +
        w ^ 2 * batchedError weight A b slope y := by
  simp only [batchedConstant, batchedLinear, batchedError, homogeneous_value_line, Finset.mul_sum,
    ← Finset.sum_add_distrib]
  exact Finset.sum_congr rfl (fun j _ => by ring)

/-- A prover masks the constant terms with `maskZero` and the linear terms with `maskOne`. What a
verifier computes from the masked linear terms at a point of the line is the masked constant terms
and the error times the square of the parameter. -/
theorem masked_response [CharP K 2] {base slope x : N → K} {w maskZero maskOne u : K}
    (hx : ∀ i, x i = base i + w * slope i) (hu : u = maskZero + w * maskOne) (y : J → K) :
    u + ∑ j, weight j * homogeneousValue (A j) (b j) w x (y j) +
        w * (maskOne + batchedLinear weight A b base slope) =
      maskZero + batchedConstant weight A base + w ^ 2 * batchedError weight A b slope y := by
  have hline : x = base + w • slope := funext hx
  rw [hline, batched_homogeneous_line, hu]
  linear_combination w * CharTwo.add_self_eq_zero maskOne +
    w * CharTwo.add_self_eq_zero (batchedLinear weight A b base slope)

/-- Two lines through one point, along whose slopes the forms have the same values, have the same
constant and linear terms together at that point. -/
theorem batched_terms_eq {base slope base' slope' : N → K} {w : K}
    (hpoint : ∀ i, base i + w * slope i = base' i + w * slope' i)
    (hvalues : ∀ j, quadraticValue (A j) (b j) slope = quadraticValue (A j) (b j) slope') :
    batchedConstant weight A base + w * batchedLinear weight A b base slope =
      batchedConstant weight A base' + w * batchedLinear weight A b base' slope' := by
  have hline := batched_homogeneous_line weight A b base slope w 0
  have hline' := batched_homogeneous_line weight A b base' slope' w 0
  have hsame : base + w • slope = base' + w • slope' := funext hpoint
  have herror : batchedError weight A b slope 0 = batchedError weight A b slope' 0 :=
    Finset.sum_congr rfl (fun j _ => by rw [hvalues j])
  rw [hsame, hline', ← herror] at hline
  exact (add_right_cancel hline).symm

end Batched

/-! ## Three points -/

/-- A polynomial of degree two that has one value at three points has no leading coefficient. -/
theorem leading_eq_zero_of_three {K : Type} [CommRing K] [IsDomain K] {c₀ c₁ c₂ value w₁ w₂ w₃ : K}
    (h₁ : c₀ + w₁ * c₁ + w₁ ^ 2 * c₂ = value) (h₂ : c₀ + w₂ * c₁ + w₂ ^ 2 * c₂ = value)
    (h₃ : c₀ + w₃ * c₁ + w₃ ^ 2 * c₂ = value) (h₁₂ : w₁ ≠ w₂) (h₁₃ : w₁ ≠ w₃) (h₂₃ : w₂ ≠ w₃) :
    c₂ = 0 := by
  have hchord : c₁ + (w₁ + w₂) * c₂ = 0 := by
    apply mul_left_cancel₀ (sub_ne_zero.mpr h₁₂)
    linear_combination h₁ - h₂
  have hchord' : c₁ + (w₁ + w₃) * c₂ = 0 := by
    apply mul_left_cancel₀ (sub_ne_zero.mpr h₁₃)
    linear_combination h₁ - h₃
  apply mul_left_cancel₀ (sub_ne_zero.mpr h₂₃)
  linear_combination hchord - hchord'

/-- Special soundness. A line is opened at three points, and the masked response to the batched
forms is the same each time. Then the slope leaves no error. -/
theorem batched_error_eq_zero_of_three {K N J : Type} [CommRing K] [IsDomain K] [Fintype N]
    [Fintype J] (weight : J → K) (A : J → Matrix N N K) (b : J → N → K) {base slope : N → K}
    {maskZero maskOne zero one : K} {y : J → K} {w u : Fin 3 → K} {x : Fin 3 → N → K}
    (hw : Function.Injective w) (hx : ∀ k i, x k i = base i + w k * slope i)
    (hu : ∀ k, u k = maskZero + w k * maskOne)
    (hresponse : ∀ k, u k + ∑ j, weight j * homogeneousValue (A j) (b j) (w k) (x k) (y j) +
      w k * one = zero) :
    batchedError weight A b slope y = 0 := by
  have hline : ∀ k, (maskZero + batchedConstant weight A base) +
      w k * (maskOne + batchedLinear weight A b base slope + one) +
      w k ^ 2 * batchedError weight A b slope y = zero := by
    intro k
    have hopened : x k = base + w k • slope := funext (hx k)
    have hvalue := hresponse k
    rw [hopened, batched_homogeneous_line, hu k] at hvalue
    linear_combination hvalue
  exact leading_eq_zero_of_three (hline 0) (hline 1) (hline 2) (hw.ne (by omega))
    (hw.ne (by omega)) (hw.ne (by omega))

end Mqom.Library
