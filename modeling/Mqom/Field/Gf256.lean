import Mqom.Model.Field
import Mathlib.Algebra.BigOperators.Fin
import Mathlib.Algebra.CharP.Lemmas
import Mathlib.Algebra.CharP.Two
import Mathlib.Algebra.Field.Defs
import Mathlib.Data.Fintype.Card
import Mathlib.Tactic.Ring

/-!
# GF(256) is a field

The multiplication loop is additive in either argument and commutes with `double`, the product by
`x`. Commutativity and associativity are therefore facts about the eight basis elements. A nonzero
element has an inverse because its 255th power is idempotent and only `0` and `1` are.
-/

namespace Mqom.Gf256

/-! ## The rounds of the multiplication -/

/-- The product of a byte by `x`. -/
def double (a : UInt8) : UInt8 :=
  (a <<< 1) ^^^ ((0x1b : UInt8) &&& ((0 : UInt8) - (a >>> 7)))

/-- The mask that a round selects with the lowest bit of `b`. -/
def mask (b : UInt8) : UInt8 :=
  (0 : UInt8) - (b &&& 1)

/-- One round of the loop doubles, shifts, and adds under a mask. -/
theorem mul_round_eq (a b product : UInt8) :
    mulRound (a, b, product) = (double a, b >>> 1, product ^^^ (a &&& mask b)) := rfl

/-- The last bit of a byte is zero or one. -/
theorem and_one_cases (b : UInt8) : b &&& 1 = 0 ∨ b &&& 1 = 1 := by
  have h : (b &&& 1).toNat = b.toNat % 2 := by
    rw [UInt8.toNat_and]
    exact Nat.and_one_is_mod b.toNat
  rcases Nat.mod_two_eq_zero_or_one b.toNat with hbit | hbit
  · exact Or.inl (UInt8.toNat_inj.mp (by rw [h, hbit]; rfl))
  · exact Or.inr (UInt8.toNat_inj.mp (by rw [h, hbit]; rfl))

/-- So is its first bit. -/
theorem shift_seven_cases (a : UInt8) : a >>> 7 = 0 ∨ a >>> 7 = 1 := by
  have h : (a >>> 7).toNat = a.toNat / 128 := by
    rw [UInt8.toNat_shiftRight]
    exact Nat.shiftRight_eq_div_pow a.toNat 7
  have hlt : a.toNat / 128 < 2 := by
    have := a.toNat_lt
    omega
  rcases Nat.lt_succ_iff_lt_or_eq.mp hlt with hbit | hbit
  · exact Or.inl (UInt8.toNat_inj.mp (by rw [h]; simpa using hbit))
  · exact Or.inr (UInt8.toNat_inj.mp (by rw [h, hbit]; rfl))

/-- A mask distributes over a sum. -/
theorem xor_and_distrib (a b c : UInt8) : (a ^^^ b) &&& c = (a &&& c) ^^^ (b &&& c) := by
  apply UInt8.toNat_inj.mp
  simp [Nat.and_xor_distrib_right]

/-- A sum of masks distributes over a byte. -/
theorem and_xor_distrib (a b c : UInt8) : a &&& (b ^^^ c) = (a &&& b) ^^^ (a &&& c) := by
  apply UInt8.toNat_inj.mp
  simp [Nat.and_xor_distrib_left]

/-- A mask is empty or full. -/
theorem mask_cases (b : UInt8) : mask b = 0 ∨ mask b = 255 := by
  unfold mask
  rcases and_one_cases b with h | h <;> rw [h]
  · exact Or.inl rfl
  · exact Or.inr rfl

/-- The mask of a sum is the sum of the masks. -/
theorem mask_xor (b c : UInt8) : mask (b ^^^ c) = mask b ^^^ mask c := by
  unfold mask
  rw [xor_and_distrib]
  rcases and_one_cases b with hb | hb <;> rcases and_one_cases c with hc | hc <;>
    rw [hb, hc] <;> rfl

/-- Doubling is additive. -/
theorem double_xor (a b : UInt8) : double (a ^^^ b) = double a ^^^ double b := by
  have hhigh : (0x1b : UInt8) &&& ((0 : UInt8) - ((a ^^^ b) >>> 7)) =
      ((0x1b : UInt8) &&& ((0 : UInt8) - (a >>> 7))) ^^^
        ((0x1b : UInt8) &&& ((0 : UInt8) - (b >>> 7))) := by
    rw [UInt8.shiftRight_xor]
    rcases shift_seven_cases a with ha | ha <;> rcases shift_seven_cases b with hb | hb <;>
      rw [ha, hb] <;> rfl
  unfold double
  rw [hhigh, UInt8.shiftLeft_xor]
  ac_rfl

/-- Doubling commutes with a mask. -/
theorem double_and_mask (a b : UInt8) : double (a &&& mask b) = double a &&& mask b := by
  rcases mask_cases b with h | h <;> rw [h]
  · simp [double]
  · rw [show (255 : UInt8) = -1 from rfl, UInt8.and_neg_one, UInt8.and_neg_one]

/-- The product byte after some rounds is additive in the first factor. -/
theorem rounds_xor_left (n : Nat) (a a' b p p' : UInt8) :
    (mulRound^[n] (a ^^^ a', b, p ^^^ p')).2.2 =
      (mulRound^[n] (a, b, p)).2.2 ^^^ (mulRound^[n] (a', b, p')).2.2 := by
  induction n generalizing a a' b p p' with
  | zero => rfl
  | succ n ih =>
      simp only [Function.iterate_succ_apply, mul_round_eq]
      rw [← ih, double_xor, xor_and_distrib]
      congr 4
      ac_rfl

/-- The product byte after some rounds is additive in the second factor. -/
theorem rounds_xor_right (n : Nat) (a b b' p p' : UInt8) :
    (mulRound^[n] (a, b ^^^ b', p ^^^ p')).2.2 =
      (mulRound^[n] (a, b, p)).2.2 ^^^ (mulRound^[n] (a, b', p')).2.2 := by
  induction n generalizing a b b' p p' with
  | zero => rfl
  | succ n ih =>
      simp only [Function.iterate_succ_apply, mul_round_eq]
      rw [← ih, mask_xor, and_xor_distrib, UInt8.shiftRight_xor]
      congr 4
      ac_rfl

/-- Doubling the first factor and the product doubles the product byte. -/
theorem rounds_double (n : Nat) (a b p : UInt8) :
    (mulRound^[n] (double a, b, double p)).2.2 = double (mulRound^[n] (a, b, p)).2.2 := by
  induction n generalizing a b p with
  | zero => rfl
  | succ n ih =>
      simp only [Function.iterate_succ_apply, mul_round_eq]
      rw [← ih, double_xor, double_and_mask]

/-! ## The additive group -/

/-- The byte of a sum. -/
@[simp] theorem value_add (a b : Gf256) : (a + b).value = a.value ^^^ b.value := rfl

/-- The byte of zero. -/
@[simp] theorem value_zero : (0 : Gf256).value = 0 := rfl

instance : Neg Gf256 := ⟨id⟩

/-- The characteristic is two. -/
protected theorem add_self (a : Gf256) : a + a = 0 := by
  ext1
  simp

instance : AddCommGroup Gf256 where
  add_assoc a b c := by ext1; simp [UInt8.xor_assoc]
  zero_add a := by ext1; simp
  add_zero a := by ext1; simp
  neg_add_cancel a := Gf256.add_self a
  add_comm a b := by ext1; simp [UInt8.xor_comm]
  sub_eq_add_neg a b := rfl
  nsmul := nsmulRec
  zsmul := zsmulRec

/-- An element for each value of a byte. -/
def equivFin : Gf256 ≃ Fin 256 where
  toFun a := a.value.toFin
  invFun i := ⟨UInt8.ofFin i⟩
  left_inv a := by simp
  right_inv i := by simp

instance : Fintype Gf256 := Fintype.ofEquiv (Fin 256) equivFin.symm

/-- There are 256 elements. -/
theorem card_eq : Fintype.card Gf256 = 256 :=
  (Fintype.card_congr equivFin).trans (Fintype.card_fin 256)

/-- A property of every byte value is one of every element. -/
theorem byte_induction {p : Gf256 → Prop} (byte : ∀ i : Fin 256, p ⟨UInt8.ofFin i⟩) (a : Gf256) :
    p a := by
  simpa using byte a.value.toFin

/-- The power `x^k` of the polynomial basis. -/
def basis (k : Fin 8) : Gf256 :=
  ⟨1 <<< UInt8.ofNat k⟩

/-- An element is the sum of the basis elements at its bits. -/
theorem eq_sum_basis (a : Gf256) :
    a = ∑ k : Fin 8, if a.value.toNat.testBit k then basis k else 0 := by
  induction a using byte_induction with
  | byte i =>
      revert i
      decide +kernel

/-- A property that holds of the basis and is kept by addition holds of every element. -/
theorem basis_induction {p : Gf256 → Prop} (zero : p 0) (add : ∀ a b, p a → p b → p (a + b))
    (ofBasis : ∀ k, p (basis k)) (a : Gf256) : p a := by
  rw [eq_sum_basis a]
  refine Finset.sum_induction _ p add zero (fun k _ => ?_)
  split
  · exact ofBasis k
  · exact zero

/-! ## The ring -/

/-- The product is additive on the left. -/
protected theorem add_mul (a b c : Gf256) : (a + b) * c = a * c + b * c := by
  ext1
  exact rounds_xor_left 8 a.value b.value c.value 0 0

/-- The product is additive on the right. -/
protected theorem mul_add (a b c : Gf256) : a * (b + c) = a * b + a * c := by
  ext1
  exact rounds_xor_right 8 a.value b.value c.value 0 0

/-- Zero times an element is zero. -/
protected theorem zero_mul (a : Gf256) : 0 * a = 0 := by
  have h := Gf256.add_mul 0 0 a
  rw [add_zero] at h
  exact left_eq_add.mp h

/-- An element times zero is zero. -/
protected theorem mul_zero (a : Gf256) : a * 0 = 0 := by
  have h := Gf256.mul_add a 0 0
  rw [add_zero] at h
  exact left_eq_add.mp h

/-- The product is commutative, since it is on the basis. -/
protected theorem mul_comm (a b : Gf256) : a * b = b * a := by
  refine basis_induction (p := fun a => a * b = b * a) ?_ (fun a a' ha ha' => ?_) (fun k => ?_) a
  · rw [Gf256.zero_mul, Gf256.mul_zero]
  · rw [Gf256.add_mul, Gf256.mul_add, ha, ha']
  refine basis_induction (p := fun b => basis k * b = b * basis k) ?_ (fun b b' hb hb' => ?_)
    (fun l => ?_) b
  · rw [Gf256.zero_mul, Gf256.mul_zero]
  · rw [Gf256.add_mul, Gf256.mul_add, hb, hb']
  · revert k l
    decide +kernel

/-- Doubling a factor doubles the product. -/
theorem double_mul (a b : Gf256) : ⟨double a.value⟩ * b = (⟨double (a * b).value⟩ : Gf256) := by
  ext1
  exact rounds_double 8 a.value b.value 0

/-- One is neutral. -/
protected theorem one_mul (a : Gf256) : 1 * a = a := by
  refine basis_induction (p := fun a => 1 * a = a) ?_ (fun a b ha hb => ?_) (fun k => ?_) a
  · exact Gf256.mul_zero 1
  · rw [Gf256.mul_add, ha, hb]
  · revert k
    decide +kernel

/-- Doubling goes from one element of the basis to the next. -/
theorem basis_succ : ∀ k : Fin 7, basis k.succ = ⟨double (basis k.castSucc).value⟩ := by
  decide +kernel

/-- A product with a basis element associates, by induction on its exponent. -/
theorem basis_mul_assoc (k : Nat) (hk : k < 8) (a b : Gf256) :
    basis ⟨k, hk⟩ * a * b = basis ⟨k, hk⟩ * (a * b) := by
  induction k with
  | zero =>
      rw [show basis ⟨0, hk⟩ = 1 from rfl, Gf256.one_mul, Gf256.one_mul]
  | succ k ih =>
      have hsucc : basis ⟨k + 1, hk⟩ = ⟨double (basis ⟨k, by omega⟩).value⟩ :=
        basis_succ ⟨k, by omega⟩
      rw [hsucc, double_mul, double_mul, double_mul, ih (by omega)]

/-- The product is associative, since it is on the basis. -/
protected theorem mul_assoc (a b c : Gf256) : a * b * c = a * (b * c) := by
  refine basis_induction (p := fun a => a * b * c = a * (b * c)) ?_ (fun a a' ha ha' => ?_)
    (fun k => basis_mul_assoc k k.isLt b c) a
  · simp only [Gf256.zero_mul]
  · simp only [Gf256.add_mul, ha, ha']

instance : CommRing Gf256 where
  mul_assoc := Gf256.mul_assoc
  mul_comm := Gf256.mul_comm
  one_mul := Gf256.one_mul
  mul_one a := by rw [Gf256.mul_comm, Gf256.one_mul]
  left_distrib := Gf256.mul_add
  right_distrib := Gf256.add_mul
  zero_mul := Gf256.zero_mul
  mul_zero := Gf256.mul_zero
  neg_add_cancel := Gf256.add_self
  sub_eq_add_neg _ _ := rfl
  zsmul := zsmulRec

instance : Nontrivial Gf256 := ⟨0, 1, by decide⟩

instance : CharP Gf256 2 :=
  CharTwo.of_one_ne_zero_of_two_eq_zero one_ne_zero (by decide)

/-! ## Inverses -/

/-- Only zero and one are their own squares. -/
theorem eq_zero_or_one_of_idempotent (a : Gf256) : a * a = a → a = 0 ∨ a = 1 := by
  induction a using byte_induction with
  | byte i =>
      revert i
      decide +kernel

/-- Squarings are a power. -/
theorem iterate_square (a : Gf256) (n : Nat) : square^[n] a = a ^ 2 ^ n := by
  induction n with
  | zero => simp
  | succ n ih => rw [Function.iterate_succ_apply', ih, square, ← pow_add, pow_succ, mul_two]

/-- Eight squarings fix the basis. -/
theorem square_basis : ∀ k : Fin 8, square^[8] (basis k) = basis k := by
  decide +kernel

/-- Raising to the power 256 fixes the basis, and is additive. -/
theorem pow_card_eq (a : Gf256) : a ^ 256 = a := by
  refine basis_induction (p := fun a => a ^ 256 = a) (by simp) (fun a b ha hb => ?_)
    (fun k => ?_) a
  · have h : (a + b) ^ 2 ^ 8 = a ^ 2 ^ 8 + b ^ 2 ^ 8 := add_pow_char_pow a b 2 8
    simpa [ha, hb] using h
  · exact (iterate_square (basis k) 8).symm.trans (square_basis k)

/-- The order of the multiplicative group divides 255. -/
theorem pow_card_sub_one_eq_one (a : Gf256) (h : a ≠ 0) : a ^ 255 = 1 := by
  have hmul : a ^ 255 * a = a := by rw [← pow_succ, pow_card_eq]
  have hidempotent : a ^ 255 * a ^ 255 = a ^ 255 := by
    calc a ^ 255 * a ^ 255 = a ^ 254 * (a ^ 255 * a) := by ring
      _ = a ^ 255 := by rw [hmul, ← pow_succ]
  rcases eq_zero_or_one_of_idempotent _ hidempotent with hzero | hone
  · exact absurd (by rw [← hmul, hzero, zero_mul]) h
  · exact hone

/-- Each square-and-multiply step doubles the exponent and adds one. -/
theorem iterate_square_mul {M : Type} [Monoid M] (a : M) (n : Nat) :
    (fun product => product * product * a)^[n] a = a ^ (2 ^ (n + 1) - 1) := by
  induction n with
  | zero => simp
  | succ n ih =>
      rw [Function.iterate_succ_apply', ih, ← pow_add, ← pow_succ]
      congr 1
      have hpos := Nat.one_le_two_pow (n := n + 1)
      rw [pow_succ 2 (n + 1)]
      omega

/-- The square-and-multiply chain computes the 254th power. -/
theorem invert_eq_pow (a : Gf256) : a.invert = a ^ 254 := by
  have hchain := iterate_square_mul a 6
  show square ((fun product => product * product * a)^[6] a) = a ^ 254
  rw [hchain, square, ← pow_add]
  norm_num

instance : Inv Gf256 := ⟨invert⟩

instance : Field Gf256 where
  mul_inv_cancel a h := by
    rw [show a⁻¹ = a ^ 254 from invert_eq_pow a, ← pow_succ']
    exact pow_card_sub_one_eq_one a h
  inv_zero := by
    rw [show (0 : Gf256)⁻¹ = 0 ^ 254 from invert_eq_pow 0, zero_pow (by decide)]
  nnqsmul := _
  nnqsmul_def := fun _ _ => rfl
  qsmul := _
  qsmul_def := fun _ _ => rfl

end Mqom.Gf256
