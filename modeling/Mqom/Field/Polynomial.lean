import Mqom.Library.GrayCode
import Mqom.Field.Gf256x2
import Mathlib.Algebra.Polynomial.Div
import Mathlib.Tactic.ComputeDegree

/-!
# Field elements as polynomials

The bits of an element of GF(256) are the coefficients of a polynomial over GF(2), and its
coordinates in GF(256^2) are those of a polynomial over GF(256). The multiplications of the source
are products of these polynomials, reduced modulo the two polynomials of the fields.
-/

namespace Mqom

open Library Polynomial

/-! ## GF(256) over GF(2) -/

namespace Gf256

/-- The polynomial `x^8 + x^4 + x^3 + x + 1`. -/
noncomputable def modulus : (ZMod 2)[X] :=
  X ^ 8 + X ^ 4 + X ^ 3 + X + 1

/-- The modulus has degree eight. -/
theorem modulus_degree : modulus.degree = 8 := by
  unfold modulus
  compute_degree!

/-- The modulus is monic. -/
theorem modulus_monic : modulus.Monic := by
  unfold modulus
  monicity!

/-- The polynomial whose coefficients are the bits of an element. -/
noncomputable def polynomial (a : Gf256) : (ZMod 2)[X] :=
  ∑ k : Fin 8, C (bit a.value.toNat k) * X ^ k.val

/-- The polynomial of an element is reduced. -/
theorem polynomial_degree_lt (a : Gf256) : a.polynomial.degree < modulus.degree := by
  rw [modulus_degree]
  exact degree_sum_fin_lt _

/-- The polynomial of a sum. -/
theorem polynomial_add (a b : Gf256) :
    (a + b).polynomial = a.polynomial + b.polynomial := by
  simp only [polynomial, value_add, UInt8.toNat_xor, bit_xor, C_add, add_mul,
    Finset.sum_add_distrib]

/-- The polynomial of zero. -/
theorem polynomial_zero : (0 : Gf256).polynomial = 0 := by
  simp [polynomial]

/-- The coefficients are the bits. -/
theorem polynomial_coeff (a : Gf256) (k : Fin 8) :
    a.polynomial.coeff k = bit a.value.toNat k := by
  simp [polynomial, coeff_X_pow, Fin.val_inj]

/-- An element is determined by its polynomial. -/
theorem polynomial_injective : Function.Injective polynomial := by
  intro a b h
  rw [eq_sum_basis a, eq_sum_basis b]
  refine Finset.sum_congr rfl (fun k _ => ?_)
  have hbit : bit a.value.toNat k = bit b.value.toNat k := by
    rw [← polynomial_coeff, ← polynomial_coeff, h]
  have hsame : a.value.toNat.testBit k = b.value.toNat.testBit k := by
    unfold bit at hbit
    cases ha : a.value.toNat.testBit k <;> cases hb : b.value.toNat.testBit k <;>
      simp [ha, hb] at hbit ⊢
  rw [hsame]

/-- The basis elements are the powers of the variable. -/
theorem polynomial_basis (k : Fin 8) : (basis k).polynomial = X ^ k.val := by
  have hbits : ∀ k l : Fin 8, bit (basis k).value.toNat l = if l = k then 1 else 0 := by
    decide +kernel
  simp only [polynomial, hbits]
  rw [Finset.sum_eq_single k (fun l _ hl => by simp [hl]) (fun hk => absurd (Finset.mem_univ k) hk)]
  simp

/-- The element that doubling adds when the highest bit falls out. -/
theorem polynomial_carry : (⟨0x1b⟩ : Gf256).polynomial = X ^ 4 + X ^ 3 + X + 1 := by
  have hbits : ∀ l : Fin 8, bit (0x1b : UInt8).toNat l =
      if l.val = 0 ∨ l.val = 1 ∨ l.val = 3 ∨ l.val = 4 then 1 else 0 := by
    decide
  simp only [polynomial, hbits, Fin.sum_univ_eight]
  simp
  ring

/-- Doubling is multiplication by the variable, up to a multiple of the modulus. -/
theorem modulus_dvd_double (a : Gf256) :
    modulus ∣ X * a.polynomial - (⟨double a.value⟩ : Gf256).polynomial := by
  refine basis_induction
    (p := fun a => modulus ∣ X * a.polynomial - (⟨double a.value⟩ : Gf256).polynomial)
    ?_ (fun a b ha hb => ?_) (fun k => ?_) a
  · rw [show (⟨double (0 : Gf256).value⟩ : Gf256) = 0 from rfl, polynomial_zero, mul_zero, sub_zero]
    exact dvd_zero _
  · have hdouble : (⟨double (a + b).value⟩ : Gf256) = ⟨double a.value⟩ + ⟨double b.value⟩ :=
      Gf256.ext (double_xor a.value b.value)
    rw [hdouble, polynomial_add, polynomial_add, mul_add, add_sub_add_comm]
    exact dvd_add ha hb
  · cases k using Fin.lastCases with
    | last =>
        have hcarry : (⟨double (basis (Fin.last 7)).value⟩ : Gf256) = ⟨0x1b⟩ := by decide
        have hneg : X * X ^ 7 - (X ^ 4 + X ^ 3 + X + 1) = modulus := by
          rw [CharTwo.sub_eq_add, modulus]
          ring
        rw [hcarry, polynomial_carry, polynomial_basis, Fin.val_last, hneg]
    | cast k =>
        rw [← basis_succ, polynomial_basis, polynomial_basis, Fin.val_succ, Fin.val_castSucc,
          ← pow_succ', sub_self]
        exact dvd_zero _

/-- A product with a basis element, by induction on its exponent. -/
theorem modulus_dvd_basis_mul (k : Nat) (hk : k < 8) (b : Gf256) :
    modulus ∣ X ^ k * b.polynomial - (basis ⟨k, hk⟩ * b).polynomial := by
  induction k with
  | zero =>
      rw [show basis ⟨0, hk⟩ = 1 from rfl, one_mul, pow_zero, one_mul, sub_self]
      exact dvd_zero _
  | succ k ih =>
      have hsucc : basis ⟨k + 1, hk⟩ = ⟨double (basis ⟨k, by omega⟩).value⟩ :=
        basis_succ ⟨k, by omega⟩
      have hstep := (ih (by omega)).mul_left X
      have hdouble := modulus_dvd_double (basis ⟨k, by omega⟩ * b)
      rw [hsucc, double_mul]
      have hsum := dvd_add hstep hdouble
      rwa [mul_sub, sub_add_sub_cancel, ← mul_assoc, ← pow_succ'] at hsum

/-- The product is the product of the polynomials, up to a multiple of the modulus. -/
theorem modulus_dvd_mul (a b : Gf256) :
    modulus ∣ a.polynomial * b.polynomial - (a * b).polynomial := by
  refine basis_induction (p := fun a => modulus ∣ a.polynomial * b.polynomial - (a * b).polynomial)
    ?_ (fun a a' ha ha' => ?_) (fun k => ?_) a
  · rw [zero_mul, polynomial_zero, zero_mul, sub_zero]
    exact dvd_zero _
  · rw [add_mul, polynomial_add, polynomial_add, add_mul, add_sub_add_comm]
    exact dvd_add ha ha'
  · rw [polynomial_basis]
    exact modulus_dvd_basis_mul k k.isLt b

/-- The multiplication of the source is polynomial multiplication modulo the modulus. -/
theorem polynomial_mul (a b : Gf256) :
    (a * b).polynomial = (a.polynomial * b.polynomial) %ₘ modulus := by
  have hreduce := modByMonic_eq_of_dvd_sub modulus_monic (modulus_dvd_mul a b)
  rw [hreduce, (modByMonic_eq_self_iff modulus_monic).mpr (polynomial_degree_lt _)]

end Gf256

/-! ## GF(256^2) over GF(256) -/

namespace Gf256x2

/-- The polynomial `X^2 + X + 32`. -/
noncomputable def modulus : Gf256[X] :=
  X ^ 2 + X + C (.new 32)

/-- The modulus has degree two. -/
theorem modulus_degree : modulus.degree = 2 := by
  unfold modulus
  compute_degree!

/-- The modulus is monic. -/
theorem modulus_monic : modulus.Monic := by
  unfold modulus
  monicity!

/-- The polynomial `c0 + c1 * X`. -/
noncomputable def polynomial (a : Gf256x2) : Gf256[X] :=
  C a.c0 + C a.c1 * X

/-- The polynomial of an element is reduced. -/
theorem polynomial_degree_lt (a : Gf256x2) : a.polynomial.degree < modulus.degree := by
  rw [modulus_degree, polynomial, add_comm]
  exact lt_of_le_of_lt degree_linear_le (by decide)

/-- The multiplication of the source is polynomial multiplication modulo the modulus. -/
theorem polynomial_mul (a b : Gf256x2) :
    (a * b).polynomial = (a.polynomial * b.polynomial) %ₘ modulus := by
  -- the quotient is the product of the leading coefficients
  have hproduct : (a * b).polynomial + modulus * C (a.c1 * b.c1) =
      a.polynomial * b.polynomial := by
    have htwo : (2 : Gf256[X]) = 0 := CharTwo.two_eq_zero
    simp only [polynomial, modulus, c0_mul, c1_mul, C_add, C_mul]
    linear_combination (C a.c1 * C b.c1 * X + C a.c1 * C b.c1 * C (.new 32)) * htwo
  exact (div_modByMonic_unique _ _ modulus_monic
    ⟨hproduct, polynomial_degree_lt _⟩).2.symm

/-- `Gf256x2` is a field whose product is that of polynomials modulo `X^2 + X + 32` over
`GF(2)[x] / (x^8 + x^4 + x^3 + x + 1)`, and `Gf16` acts on it as a subfield. -/
theorem extension_field_laws (a b c : Gf256x2) (s t : Gf16) :
    (a * b = b * a ∧ a * b * c = a * (b * c) ∧ a * (b + c) = a * b + a * c ∧
      (a + b) * c = a * c + b * c ∧ 1 * a = a ∧ a * 1 = a ∧ (a ≠ 0 → a * a.invert = 1)) ∧
    ((a * b).polynomial = (a.polynomial * b.polynomial) %ₘ (X ^ 2 + X + C (.new 32)) ∧
      (∀ p q : Gf256, (p * q).polynomial =
        (p.polynomial * q.polynomial) %ₘ (X ^ 8 + X ^ 4 + X ^ 3 + X + 1)) ∧
      (∀ p q : Gf256, (p + q).polynomial = p.polynomial + q.polynomial) ∧
      Function.Injective Gf256.polynomial) ∧
    ((s + t) * a = s * a + t * a ∧ (s * t) * a = s * (t * a) ∧ s * (a * b) = (s * a) * b ∧
      (s * a = t * a → a ≠ 0 → s = t)) := by
  refine ⟨⟨mul_comm a b, mul_assoc a b c, mul_add a b c, add_mul a b c, one_mul a, mul_one a,
    mul_invert_cancel a⟩, ⟨polynomial_mul a b, Gf256.polynomial_mul, Gf256.polynomial_add,
    Gf256.polynomial_injective⟩, ?_, ?_, ?_, ?_⟩
  · rw [Gf16.scalar_mul, Gf16.scalar_mul, Gf16.scalar_mul, map_add, add_mul]
  · rw [Gf16.scalar_mul, Gf16.scalar_mul, Gf16.scalar_mul, map_mul, mul_assoc]
  · rw [Gf16.scalar_mul, Gf16.scalar_mul, mul_assoc]
  · intro h ha
    rw [Gf16.scalar_mul, Gf16.scalar_mul] at h
    exact Gf16.to_ext_injective (mul_right_cancel₀ ha h)

end Gf256x2

end Mqom
