import Mqom.Field.Gf256
import Mathlib.Algebra.Algebra.ZMod
import Mathlib.FieldTheory.Finite.Basic
import Mathlib.Tactic.LinearCombination

/-!
# GF(256^2) is a field, and GF(16) a subfield

The multiplication of `Gf256x2` is the product modulo `X^2 + X + 32`. That polynomial has no root
in GF(256), so the norm of a nonzero element is nonzero and products of nonzero elements are
nonzero. `Gf16.toExt` is the embedding through which a `Gf16` scales a `Gf256x2`.
-/

namespace Mqom

/-! ## The ring -/

namespace Gf256x2

/-- The first coefficient of zero. -/
@[simp] theorem c0_zero : (0 : Gf256x2).c0 = 0 := rfl

/-- The second coefficient of zero. -/
@[simp] theorem c1_zero : (0 : Gf256x2).c1 = 0 := rfl

/-- The first coefficient of one. -/
@[simp] theorem c0_one : (1 : Gf256x2).c0 = 1 := rfl

/-- The second coefficient of one. -/
@[simp] theorem c1_one : (1 : Gf256x2).c1 = 0 := rfl

/-- First coefficients are added. -/
@[simp] theorem c0_add (a b : Gf256x2) : (a + b).c0 = a.c0 + b.c0 := rfl

/-- Second coefficients are added. -/
@[simp] theorem c1_add (a b : Gf256x2) : (a + b).c1 = a.c1 + b.c1 := rfl

/-- The first coefficient of a product, in which `X^2` is replaced by `X + 32`. -/
@[simp] theorem c0_mul (a b : Gf256x2) :
    (a * b).c0 = a.c0 * b.c0 + .new 32 * (a.c1 * b.c1) := by
  show a.c0 * b.c0 + a.c1 * b.c1 * .new 32 = _
  ring

/-- The shared product `c0 * c0` cancels in the upper coordinate. -/
@[simp] theorem c1_mul (a b : Gf256x2) :
    (a * b).c1 = a.c0 * b.c1 + a.c1 * b.c0 + a.c1 * b.c1 := by
  show a.c0 * b.c0 + (a.c0 + a.c1) * (b.c0 + b.c1) = _
  linear_combination CharTwo.add_self_eq_zero (a.c0 * b.c0)

instance : Neg Gf256x2 := ⟨id⟩

/-- The characteristic is two. -/
protected theorem add_self (a : Gf256x2) : a + a = 0 := by
  ext1 <;> exact CharTwo.add_self_eq_zero _

instance : CommRing Gf256x2 where
  add_assoc a b c := by ext1 <;> exact add_assoc _ _ _
  zero_add a := by ext1 <;> exact zero_add _
  add_zero a := by ext1 <;> exact add_zero _
  add_comm a b := by ext1 <;> exact add_comm _ _
  neg_add_cancel := Gf256x2.add_self
  sub_eq_add_neg _ _ := rfl
  mul_assoc a b c := by ext1 <;> simp <;> ring
  mul_comm a b := by ext1 <;> simp <;> ring
  one_mul a := by ext1 <;> simp
  mul_one a := by ext1 <;> simp
  left_distrib a b c := by ext1 <;> simp <;> ring
  right_distrib a b c := by ext1 <;> simp <;> ring
  zero_mul a := by ext1 <;> simp
  mul_zero a := by ext1 <;> simp
  nsmul := nsmulRec
  zsmul := zsmulRec

instance : Nontrivial Gf256x2 := ⟨0, 1, by decide⟩

instance : CharP Gf256x2 2 :=
  CharTwo.of_one_ne_zero_of_two_eq_zero one_ne_zero (by decide)

instance : Algebra (ZMod 2) Gf256x2 := ZMod.algebra Gf256x2 2

/-! ## Products of nonzero elements -/

/-- The modulus is irreducible. -/
theorem quadratic_has_no_root (t : Gf256) : t * t + t + .new 32 ≠ 0 := by
  induction t using Gf256.byte_induction with
  | byte i =>
      revert i
      decide +kernel

/-- The norm to GF(256). -/
def norm (a : Gf256x2) : Gf256 :=
  a.c0 * a.c0 + a.c0 * a.c1 + .new 32 * (a.c1 * a.c1)

/-- The conjugate over GF(256). -/
def conjugate (a : Gf256x2) : Gf256x2 :=
  ⟨a.c0 + a.c1, a.c1⟩

/-- An element times its conjugate is its norm. -/
theorem conjugate_mul_self (a : Gf256x2) : a.conjugate * a = ⟨a.norm, 0⟩ := by
  ext1
  · simp only [c0_mul, conjugate, norm]
    ring
  · simp only [c1_mul, conjugate]
    linear_combination CharTwo.add_self_eq_zero (a.c0 * a.c1) +
      CharTwo.add_self_eq_zero (a.c1 * a.c1)

/-- Only zero has norm zero. -/
theorem norm_ne_zero {a : Gf256x2} (h : a ≠ 0) : a.norm ≠ 0 := by
  intro hnorm
  by_cases hc1 : a.c1 = 0
  · have hc0 : a.c0 = 0 := by simpa [norm, hc1] using hnorm
    exact h (Gf256x2.ext hc0 hc1)
  · apply quadratic_has_no_root (a.c0 / a.c1)
    field_simp
    unfold norm at hnorm
    linear_combination hnorm

instance : NoZeroDivisors Gf256x2 where
  eq_zero_or_eq_zero_of_mul_eq_zero := by
    intro a b hab
    by_cases ha : a = 0
    · exact Or.inl ha
    right
    have hscaled : (⟨a.norm, 0⟩ : Gf256x2) * b = 0 := by
      rw [← conjugate_mul_self, mul_assoc, hab, mul_zero]
    have hnorm := norm_ne_zero ha
    have hc0 := congrArg Gf256x2.c0 hscaled
    have hc1 := congrArg Gf256x2.c1 hscaled
    simp [hnorm] at hc0 hc1
    exact Gf256x2.ext hc0 hc1

instance : IsDomain Gf256x2 := NoZeroDivisors.to_isDomain _

/-! ## Inverses -/

/-- A pair of coordinates for each element. -/
def equivProd : Gf256x2 ≃ Gf256 × Gf256 where
  toFun a := (a.c0, a.c1)
  invFun p := ⟨p.1, p.2⟩
  left_inv _ := rfl
  right_inv _ := rfl

instance : Fintype Gf256x2 := Fintype.ofEquiv _ equivProd.symm

/-- There are 65536 elements. -/
theorem card_eq : Fintype.card Gf256x2 = 65536 := by
  rw [Fintype.card_congr equivProd, Fintype.card_prod, Gf256.card_eq]

/-- The order of the multiplicative group divides 65535. -/
theorem pow_card_sub_one_eq_one (a : Gf256x2) (h : a ≠ 0) : a ^ 65535 = 1 := by
  let _ : Field Gf256x2 := Fintype.fieldOfDomain Gf256x2
  have hpow := FiniteField.pow_card_sub_one_eq_one a h
  rwa [card_eq] at hpow

/-- The square-and-multiply chain computes the 65534th power. -/
theorem invert_eq_pow (a : Gf256x2) : a.invert = a ^ 65534 := by
  have hchain := Gf256.iterate_square_mul a 14
  show square ((fun product => product * product * a)^[14] a) = a ^ 65534
  rw [hchain, square, ← pow_add]
  norm_num

/-- `invert` returns the inverse of every element but zero. -/
theorem mul_invert_cancel (a : Gf256x2) (h : a ≠ 0) : a * a.invert = 1 := by
  rw [invert_eq_pow, ← pow_succ']
  exact pow_card_sub_one_eq_one a h

/-- `square` is the second power. -/
theorem square_eq (a : Gf256x2) : a.square = a ^ 2 := (sq a).symm

end Gf256x2

/-! ## The subfield GF(16) -/

namespace Gf16

/-- A property of the sixteen values is one of every element. -/
theorem nibble_induction {p : Gf16 → Prop}
    (nibble : ∀ i : Fin 16, p ⟨UInt8.ofNat i, by revert i; decide⟩) (a : Gf16) : p a := by
  have hlt : a.value.toNat < 16 := UInt8.lt_iff_toNat_lt.mp a.value_lt
  have h := nibble ⟨a.value.toNat, hlt⟩
  simpa using h

/-- The nibble of a sum. -/
@[simp] theorem value_add (a b : Gf16) : (a + b).value = a.value ^^^ b.value := rfl

/-- The embedding keeps sums. -/
theorem embed_add (a b : Gf16) : (a + b).embed = a.embed + b.embed := by
  induction a using nibble_induction with
  | nibble i =>
      induction b using nibble_induction with
      | nibble j =>
          revert i j
          decide +kernel

/-- The embedding keeps products. -/
theorem embed_mul (a b : Gf16) : (a * b).embed = a.embed * b.embed := by
  induction a using nibble_induction with
  | nibble i =>
      induction b using nibble_induction with
      | nibble j =>
          revert i j
          decide +kernel

/-- The embedding is injective. -/
theorem embed_injective : Function.Injective embed := by
  intro a b
  induction a using nibble_induction with
  | nibble i =>
      induction b using nibble_induction with
      | nibble j =>
          revert i j
          decide +kernel

/-- The embedding keeps zero. -/
theorem embed_zero : (0 : Gf16).embed = 0 := rfl

/-- The embedding keeps one. -/
theorem embed_one : (1 : Gf16).embed = 1 := rfl

instance : Neg Gf16 := ⟨id⟩

/-- The characteristic is two. -/
protected theorem add_self (a : Gf16) : a + a = 0 :=
  embed_injective (by rw [embed_add, embed_zero, Gf256.add_self])

instance : CommRing Gf16 where
  add_assoc a b c := embed_injective (by simp only [embed_add, add_assoc])
  zero_add a := embed_injective (by rw [embed_add, embed_zero, zero_add])
  add_zero a := embed_injective (by rw [embed_add, embed_zero, add_zero])
  add_comm a b := embed_injective (by rw [embed_add, embed_add, add_comm])
  neg_add_cancel := Gf16.add_self
  sub_eq_add_neg _ _ := rfl
  mul_assoc a b c := embed_injective (by simp only [embed_mul, mul_assoc])
  mul_comm a b := embed_injective (by rw [embed_mul, embed_mul, mul_comm])
  one_mul a := embed_injective (by rw [embed_mul, embed_one, one_mul])
  mul_one a := embed_injective (by rw [embed_mul, embed_one, mul_one])
  left_distrib a b c := embed_injective (by simp only [embed_mul, embed_add, mul_add])
  right_distrib a b c := embed_injective (by simp only [embed_mul, embed_add, add_mul])
  zero_mul a := embed_injective (by rw [embed_mul, embed_zero, zero_mul])
  mul_zero a := embed_injective (by rw [embed_mul, embed_zero, mul_zero])
  nsmul := nsmulRec
  zsmul := zsmulRec

instance : Module (ZMod 2) Gf16 :=
  AddCommGroup.zmodModule (fun a => by rw [two_nsmul]; exact Gf16.add_self a)

/-- The embedding of GF(16) in GF(256^2). -/
def toExt : Gf16 →+* Gf256x2 where
  toFun a := ⟨a.embed, 0⟩
  map_zero' := rfl
  map_one' := rfl
  map_add' a b := by
    ext1
    · exact embed_add a b
    · exact (add_zero 0).symm
  map_mul' a b := by
    ext1 <;> simp [embed_mul]

/-- The first coefficient of an element of `Gf16`. -/
@[simp] theorem c0_to_ext (a : Gf16) : (toExt a).c0 = a.embed := rfl

/-- The second coefficient is zero. -/
@[simp] theorem c1_to_ext (a : Gf16) : (toExt a).c1 = 0 := rfl

/-- No two elements of `Gf16` have one image. -/
theorem to_ext_injective : Function.Injective toExt :=
  fun _ _ h => embed_injective (congrArg Gf256x2.c0 h)

/-- Scaling is multiplication by the embedded scalar. -/
@[simp] theorem scalar_mul (scalar : Gf16) (a : Gf256x2) : scalar * a = toExt scalar * a := by
  show (⟨scalar.embed * a.c0, scalar.embed * a.c1⟩ : Gf256x2) = toExt scalar * a
  ext1 <;> simp

/-- The action of `Gf16` is the product with the image. -/
@[simp] theorem mul_scalar (a : Gf256x2) (scalar : Gf16) : a * scalar = a * toExt scalar := by
  rw [mul_comm a (toExt scalar)]
  exact scalar_mul scalar a

end Gf16

end Mqom
