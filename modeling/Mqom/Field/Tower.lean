import Mqom.Field.Gf256x2

/-!
# The tower of fields

`Gf16`, `Gf256` and `Gf256x2` are one tower. The basis of `Gf16::embed` is the powers of a root of
`x^4 + x + 1`, the three inversions agree, and the elements that four squarings or eight squarings
fix are those of the subfields and no others.
-/

namespace Mqom

namespace Gf256

/-- The image of the generator of `Gf16`. -/
def root : Gf256 := (Gf16.new 2).embed

/-- Only the images of `Gf16` are fixed by four squarings. -/
theorem embedded_of_fixed {p : Gf256} (h : square^[4] p = p) : ∃ s : Gf16, s.embed = p := by
  have hsearch : ∀ i : Fin 256, square^[4] ⟨UInt8.ofFin i⟩ = ⟨UInt8.ofFin i⟩ →
      ∃ j : Fin 16, (Gf16.new (UInt8.ofNat j)).embed = ⟨UInt8.ofFin i⟩ := by decide +kernel
  induction p using byte_induction with
  | byte i =>
      obtain ⟨j, hj⟩ := hsearch i h
      exact ⟨_, hj⟩

end Gf256

namespace Gf16

/-- The basis of `embed` is the powers of the root. -/
theorem embed_eq_sum (a : Gf16) :
    a.embed =
      ∑ k : Fin 4, if (a.value >>> UInt8.ofNat k) &&& 1 = 1 then Gf256.root ^ k.val else 0 := by
  induction a using nibble_induction with
  | nibble i =>
      revert i
      decide +kernel

/-- Four squarings fix the images of `Gf16`. -/
theorem embed_square_iterate (a : Gf16) : Gf256.square^[4] a.embed = a.embed := by
  induction a using nibble_induction with
  | nibble i =>
      revert i
      decide +kernel

/-- The embedding keeps inverses. -/
theorem embed_invert (a : Gf16) : a.invert.embed = a.embed.invert := by
  induction a using nibble_induction with
  | nibble i =>
      revert i
      decide +kernel

/-- `invert` returns the inverse of every element but zero. -/
theorem mul_invert_cancel (a : Gf16) (h : a ≠ 0) : a * a.invert = 1 := by
  induction a using nibble_induction with
  | nibble i =>
      revert i
      decide +kernel

end Gf16

namespace Gf256x2

/-- Squaring is additive. -/
theorem square_add (a b : Gf256x2) : (a + b).square = a.square + b.square := by
  rw [square_eq, square_eq, square_eq, CharTwo.add_sq]

/-- Squaring is multiplicative. -/
theorem square_mul (a b : Gf256x2) : (a * b).square = a.square * b.square := by
  rw [square_eq, square_eq, square_eq, mul_pow]

/-- So are any number of squarings. -/
theorem iterate_square_add (n : Nat) (a b : Gf256x2) :
    square^[n] (a + b) = square^[n] a + square^[n] b := by
  induction n generalizing a b with
  | zero => rfl
  | succ n ih => rw [Function.iterate_succ_apply, square_add, ih]; rfl

/-- They are multiplicative too. -/
theorem iterate_square_mul (n : Nat) (a b : Gf256x2) :
    square^[n] (a * b) = square^[n] a * square^[n] b := by
  induction n generalizing a b with
  | zero => rfl
  | succ n ih => rw [Function.iterate_succ_apply, square_mul, ih]; rfl

/-- On `Gf256` they are the squarings of `Gf256`. -/
theorem iterate_square_base (n : Nat) (p : Gf256) :
    square^[n] (⟨p, 0⟩ : Gf256x2) = ⟨Gf256.square^[n] p, 0⟩ := by
  induction n generalizing p with
  | zero => rfl
  | succ n ih =>
      have hsquare : (⟨p, 0⟩ : Gf256x2).square = ⟨p.square, 0⟩ := by
        ext1 <;> simp [square, Gf256.square]
      rw [Function.iterate_succ_apply, hsquare, ih]
      rfl

/-- Eight squarings conjugate. -/
theorem iterate_square_eight (c : Gf256x2) : square^[8] c = c.conjugate := by
  have hbase : ∀ p : Gf256, square^[8] (⟨p, 0⟩ : Gf256x2) = ⟨p, 0⟩ := fun p => by
    rw [iterate_square_base, Gf256.iterate_square]
    exact congrArg (fun q => (⟨q, 0⟩ : Gf256x2)) p.pow_card_eq
  have hroot : square^[8] (⟨0, 1⟩ : Gf256x2) = ⟨1, 1⟩ := by decide +kernel
  have hsplit : c = ⟨c.c0, 0⟩ + ⟨c.c1, 0⟩ * ⟨0, 1⟩ := by
    ext1 <;> simp
  calc square^[8] c = square^[8] (⟨c.c0, 0⟩ + ⟨c.c1, 0⟩ * ⟨0, 1⟩) := congrArg _ hsplit
    _ = ⟨c.c0, 0⟩ + ⟨c.c1, 0⟩ * ⟨1, 1⟩ := by
        rw [iterate_square_add, iterate_square_mul, hbase, hbase, hroot]
    _ = c.conjugate := by ext1 <;> simp [conjugate]

/-- The elements that eight squarings fix are those of `Gf256`. -/
theorem fixed_by_eight_iff (c : Gf256x2) : square^[8] c = c ↔ c.c1 = 0 := by
  rw [iterate_square_eight]
  constructor
  · intro h
    exact left_eq_add.mp (congrArg Gf256x2.c0 h).symm
  · intro h
    ext1
    · exact (congrArg (c.c0 + ·) h).trans (add_zero _)
    · rfl

/-- The elements that four squarings fix are the images of `Gf16`. -/
theorem fixed_by_four_iff (c : Gf256x2) : square^[4] c = c ↔ ∃ s : Gf16, s * (1 : Gf256x2) = c := by
  constructor
  · intro h
    have height : square^[8] c = c := by
      rw [show (8 : Nat) = 4 + 4 from rfl, Function.iterate_add_apply, h, h]
    have hhigh := (fixed_by_eight_iff c).mp height
    have hbase : c = ⟨c.c0, 0⟩ := Gf256x2.ext rfl hhigh
    rw [hbase, iterate_square_base] at h
    obtain ⟨s, hs⟩ := Gf256.embedded_of_fixed (congrArg Gf256x2.c0 h)
    refine ⟨s, ?_⟩
    rw [Gf16.scalar_mul, mul_one, hbase, ← hs]
    rfl
  · rintro ⟨s, rfl⟩
    rw [Gf16.scalar_mul, mul_one]
    have hsquare := iterate_square_base 4 s.embed
    rw [s.embed_square_iterate] at hsquare
    exact hsquare

/-- On `Gf256` the inversion is that of `Gf256`. -/
theorem invert_base (p : Gf256) : (⟨p, 0⟩ : Gf256x2).invert = ⟨p.invert, 0⟩ := by
  by_cases h : p = 0
  · rw [h]
    decide +kernel
  · have hne : (⟨p, 0⟩ : Gf256x2) ≠ 0 := fun hzero => h (congrArg Gf256x2.c0 hzero)
    have hone : p * p.invert = 1 := mul_inv_cancel₀ h
    have hproduct : (⟨p, 0⟩ : Gf256x2) * ⟨p.invert, 0⟩ = 1 := by
      ext1
      · simpa using hone
      · simp
    exact mul_left_cancel₀ hne ((mul_invert_cancel _ hne).trans hproduct.symm)

/-- `Gf256` embeds additively. -/
theorem base_add (p q : Gf256) : (⟨p + q, 0⟩ : Gf256x2) = ⟨p, 0⟩ + ⟨q, 0⟩ := by
  ext1 <;> simp

/-- `Gf256` embeds multiplicatively. -/
theorem base_mul (p q : Gf256) : (⟨p * q, 0⟩ : Gf256x2) = ⟨p, 0⟩ * ⟨q, 0⟩ := by
  ext1 <;> simp

/-- The three fields are one tower. `Gf16::embed` maps the generator to a root of `x^4 + x + 1` and
its powers to the powers of the root, both embeddings keep sums, products and inverses, an inversion
inverts every element but zero, of which it makes zero, and in `Gf256x2` four squarings fix the
images of `Gf16` and eight squarings the elements of `Gf256`, and no others. -/
theorem field_tower (s t : Gf16) (p q : Gf256) (c : Gf256x2) :
    Gf256.root ^ 4 + Gf256.root + 1 = 0 ∧
    s.embed =
      ∑ k : Fin 4, (if (s.value >>> UInt8.ofNat k) &&& 1 = 1 then Gf256.root ^ k.val else 0) ∧
    (s + t).embed = s.embed + t.embed ∧ (s * t).embed = s.embed * t.embed ∧
    s.invert.embed = s.embed.invert ∧
    (⟨p + q, 0⟩ : Gf256x2) = ⟨p, 0⟩ + ⟨q, 0⟩ ∧ (⟨p * q, 0⟩ : Gf256x2) = ⟨p, 0⟩ * ⟨q, 0⟩ ∧
    (⟨p, 0⟩ : Gf256x2).invert = ⟨p.invert, 0⟩ ∧
    (s ≠ 0 → s * s.invert = 1) ∧ (p ≠ 0 → p * p.invert = 1) ∧ (c ≠ 0 → c * c.invert = 1) ∧
    (0 : Gf16).invert = 0 ∧ (0 : Gf256).invert = 0 ∧ (0 : Gf256x2).invert = 0 ∧
    (square^[4] c = c ↔ ∃ s : Gf16, s * (1 : Gf256x2) = c) ∧
    (square^[8] c = c ↔ ∃ p : Gf256, ⟨p, 0⟩ = c) := by
  refine ⟨by decide +kernel, s.embed_eq_sum, s.embed_add t, s.embed_mul t, s.embed_invert,
    base_add p q, base_mul p q, invert_base p, s.mul_invert_cancel, mul_inv_cancel₀,
    mul_invert_cancel c, by decide +kernel, by decide +kernel, by decide +kernel,
    fixed_by_four_iff c, ?_⟩
  rw [fixed_by_eight_iff]
  constructor
  · intro h
    exact ⟨c.c0, Gf256x2.ext rfl h.symm⟩
  · rintro ⟨p, rfl⟩
    rfl

end Gf256x2

end Mqom
