import Mqom.Field.Packing
import Mqom.Library.Line
import Mqom.Library.Sums
import Mqom.Prg.Stream

/-!
# Packed equations as quadratic forms

A packed equation is a quadratic form over GF(256^2) with a lower-triangular matrix. Its two
multiplication routines are the product by that matrix, and `evaluate_base` is the value of the
form. `equationOf` is the equation that `expand_equation` reads from its stream.
-/

namespace Mqom

open Rust Params Library Matrix

/-! ## Rows of a triangle -/

/-- The next triangular number. -/
theorem triangular_succ (n : Nat) : (n + 1) * (n + 1 + 1) / 2 = n * (n + 1) / 2 + (n + 1) := by
  rw [show (n + 1) * (n + 1 + 1) = n * (n + 1) + (n + 1) * 2 by ring,
    Nat.add_mul_div_right _ _ (by omega)]

/-- Triangular numbers increase. -/
theorem triangular_mono {m n : Nat} (h : m ≤ n) : m * (m + 1) / 2 ≤ n * (n + 1) / 2 :=
  Nat.div_le_div_right (Nat.mul_le_mul h (Nat.succ_le_succ h))

/-- Every position of a triangle lies in one of its rows. -/
theorem triangular_position {n k : Nat} (h : k < n * (n + 1) / 2) :
    ∃ i < n, ∃ j ≤ i, i * (i + 1) / 2 + j = k := by
  induction n with
  | zero => omega
  | succ n ih =>
      rcases Nat.lt_or_ge k (n * (n + 1) / 2) with hlt | hge
      · obtain ⟨i, hi, hrow⟩ := ih hlt
        exact ⟨i, Nat.lt_succ_of_lt hi, hrow⟩
      · rw [triangular_succ] at h
        exact ⟨n, Nat.lt_succ_self n, k - n * (n + 1) / 2, by omega, by omega⟩

/-- The rows of a triangle do not overlap. -/
theorem triangular_unique {i i' j j' : Nat} (hj : j ≤ i) (hj' : j' ≤ i')
    (h : i * (i + 1) / 2 + j = i' * (i' + 1) / 2 + j') : i = i' ∧ j = j' := by
  rcases Nat.lt_trichotomy i i' with hlt | rfl | hgt
  · have hrow := triangular_mono (Nat.succ_le_of_lt hlt)
    rw [triangular_succ] at hrow
    omega
  · omega
  · have hrow := triangular_mono (Nat.succ_le_of_lt hgt)
    rw [triangular_succ] at hrow
    omega

/-- An entry on or below the diagonal is in the packed list. -/
theorem triangular_lt {i j n : Nat} (hi : i < n) (hj : j ≤ i) :
    i * (i + 1) / 2 + j < n * (n + 1) / 2 := by
  have hrow := triangular_mono (Nat.succ_le_of_lt hi)
  rw [triangular_succ] at hrow
  omega

/-! ## The two multiplication routines -/

namespace PackedEquation

/-- The lower-triangular matrix whose rows are stored one after the other. -/
def matrix (equation : PackedEquation) : Matrix (Fin 56) (Fin 56) Gf256x2 := fun row col =>
  if col.val ≤ row.val then
    (equation.quadratic[row.val * (row.val + 1) / 2 + col.val]?).getD 0
  else 0

/-- An entry on or below the diagonal is the packed one. -/
theorem matrix_apply (equation : PackedEquation) {row col : Fin 56} (h : col.val ≤ row.val) :
    equation.matrix row col =
      (equation.quadratic[row.val * (row.val + 1) / 2 + col.val]?).getD 0 := if_pos h

/-- An entry above the diagonal is zero. -/
theorem matrix_apply_of_lt (equation : PackedEquation) {row col : Fin 56}
    (h : row.val < col.val) : equation.matrix row col = 0 := if_neg (Nat.not_le_of_lt h)

/-- A row of the product with the matrix stops at the diagonal. -/
theorem matrix_mul_vec (equation : PackedEquation) (x : Fin 56 → Gf256x2) (i : Fin 56) :
    (equation.matrix *ᵥ x) i = ∑ j ∈ Finset.Iic i, equation.matrix i j * x j := by
  rw [mulVec, dotProduct]
  refine (Finset.sum_subset (Finset.subset_univ _) (fun j _ hj => ?_)).symm
  have hlt : i < j := by simpa using hj
  rw [matrix_apply_of_lt equation hlt, zero_mul]

/-- The linear coefficients. -/
def vector (equation : PackedEquation) : Fin 56 → Gf256x2 := fun i => equation.linear[i]

/-- One row of the loop adds up the products of the row's coefficients. -/
theorem row_sum (equation : PackedEquation) {α : Type} {product : Gf256x2 → α → Gf256x2}
    (read : α → Gf256x2) (hproduct : ∀ c a, product c a = c * read a) (vector : Vector α 56)
    (row : Fin 56) :
    (((equation.quadratic.toList.drop (row.val * (row.val + 1) / 2)).take (row + 1)).zip
        (vector.toList.take (row + 1))).foldl (fun sum pair => sum + product pair.1 pair.2) 0 =
      (equation.matrix *ᵥ fun j => read vector[j]) row := by
  have hbound : row.val * (row.val + 1) / 2 + (row.val + 1) ≤ 1596 := by
    rw [← triangular_succ]
    exact triangular_mono (m := row + 1) (n := 56) (by omega)
  -- the products of the row, entry by entry
  have hproducts : (((equation.quadratic.toList.drop (row.val * (row.val + 1) / 2)).take
      (row + 1)).zip (vector.toList.take (row + 1))).map (fun pair => product pair.1 pair.2) =
        ((List.finRange 56).take (row + 1)).map
          (fun j => equation.matrix row j * read vector[j]) := by
    apply List.ext_getElem
    · simp
      omega
    · intro j hj _
      simp only [List.length_map, List.length_zip, List.length_take, List.length_drop,
        Vector.length_toList] at hj
      have hle : j ≤ row.val := by omega
      have hlt : row.val * (row.val + 1) / 2 + j < 1596 := by omega
      simp only [List.getElem_map, List.getElem_zip, List.getElem_take, List.getElem_drop,
        List.getElem_finRange, Vector.getElem_toList, hproduct]
      rw [matrix_apply equation hle]
      simp [hlt]
  -- the entries after the diagonal are zero
  have hzero : (((List.finRange 56).drop (row + 1)).map
      (fun j => equation.matrix row j * read vector[j])).sum = 0 := by
    apply List.sum_eq_zero
    intro value hvalue
    obtain ⟨j, hj, rfl⟩ := List.mem_map.mp hvalue
    obtain ⟨k, hk, rfl⟩ := List.mem_iff_getElem.mp hj
    rw [matrix_apply_of_lt equation (by simp; omega), zero_mul]
  rw [foldl_add_eq_sum, zero_add, hproducts, mulVec, dotProduct, Fin.sum_univ_def,
    ← List.take_append_drop (row + 1) (List.finRange 56), List.map_append, List.sum_append, hzero,
    add_zero, List.take_append_drop]

/-- Both routines are the product by the matrix. -/
theorem multiply_rows_eq (equation : PackedEquation) {α : Type}
    {product : Gf256x2 → α → Gf256x2} (read : α → Gf256x2)
    (hproduct : ∀ c a, product c a = c * read a) (vector : Vector α 56) :
    equation.multiplyRows product vector =
      Run.ret (Vector.ofFn (equation.matrix *ᵥ fun j => read vector[j])) [] := by
  have hsum := row_sum equation read hproduct vector
  generalize (equation.matrix *ᵥ fun j => read vector[j]) = rows at hsum ⊢
  rw [multiplyRows, ← computed_up_to_zero (Vector.replicate 56 0) rows,
    Run.foldlM_fin_range
      (fun i => (computedUpTo (Vector.replicate 56 0) rows i, i * (i + 1) / 2)) (fun _ => [])]
  · rw [Run.flatMap_nil, Run.ret_bind, computed_up_to_all]
    dsimp only
    rw [Run.check_of (by decide)]
    rfl
  · intro i
    have hbound : i.val * (i + 1) / 2 + (i + 1) ≤ 1596 := by
      rw [← triangular_succ]
      exact triangular_mono (m := i + 1) (n := 56) (by omega)
    have hlength : i.val * (i + 1) / 2 + i + 1 - i * (i + 1) / 2 = i + 1 := by omega
    dsimp only
    rw [slice_vector _ (by omega) (by omega), Run.ret_bind, slice_vector _ (by omega) (by omega),
      Run.ret_bind]
    simp only [Run.after_nil, Run.pure_eq_ret, Nat.sub_zero, List.drop_zero]
    rw [getElem_computed_up_to, getElem_fin, Vector.getElem_replicate, triangular_succ, hlength,
      hsum, computed_up_to_succ]

/-! ## Values -/

/-- The packed product is the product with the matrix. -/
theorem multiply_extension_eq (equation : PackedEquation) (x : Vector Gf256x2 56) :
    equation.multiplyExtension x =
      Run.ret (Vector.ofFn (equation.matrix *ᵥ fun j => x[j])) [] :=
  multiply_rows_eq equation id (fun _ _ => rfl) x

/-- So is the product with a vector over the small field. -/
theorem multiply_base_eq (equation : PackedEquation) (x : Vector Gf16 56) :
    equation.multiplyBase x =
      Run.ret (Vector.ofFn (equation.matrix *ᵥ fun j => Gf16.toExt x[j])) [] :=
  multiply_rows_eq equation Gf16.toExt (fun c a => by rw [Gf16.scalar_mul, mul_comm]) x

/-- The value of the equation at a vector over GF(16). -/
def valueAt (equation : PackedEquation) (x : Vector Gf16 56) : Gf256x2 :=
  quadraticValue equation.matrix equation.vector fun j => Gf16.toExt x[j]

/-- `evaluate_base` computes the value of the quadratic form. -/
theorem evaluate_base_eq (equation : PackedEquation) (x : Vector Gf16 56) :
    equation.evaluateBase x = Run.ret (equation.valueAt x) [] := by
  rw [evaluateBase, multiply_base_eq, Run.ret_bind, Run.after_nil, Run.pure_eq_ret]
  simp only [Gf16.scalar_mul, add_assoc]
  rw [foldl_fin_range_eq_sum, zero_add, valueAt, quadraticValue, dotProduct, dotProduct,
    ← Finset.sum_add_distrib]
  congr 1
  refine Finset.sum_congr rfl (fun i _ => ?_)
  simp [vector, mul_comm]

end PackedEquation

/-! ## Expansion -/

/-- The strings that the seed of an equation is hashed from. -/
def equationParts (masterSeed : Bytes 32) (equationIndex : Nat) : List (List UInt8) :=
  [[0x01], masterSeed.toList, (u16ToLeBytes (UInt16.ofNat equationIndex)).toList]

/-- The stream that an equation is read from. -/
def equationStream (P : Primitives) (masterSeed : Bytes 32) (equationIndex : Nat) : Bytes 3304 :=
  stream P 0 0 (P.shake128 (equationParts masterSeed equationIndex).flatten 16) 3304

/-- The equation of a master seed with some index. -/
def equationOf (P : Primitives) (masterSeed : Bytes 32) (equationIndex : Nat) : PackedEquation where
  quadratic := Vector.ofFn fun k =>
    extensionAt (equationStream P masterSeed equationIndex) k (by omega)
  linear := Vector.ofFn fun i =>
    extensionAt (equationStream P masterSeed equationIndex) (1596 + i) (by omega)

/-- Reading the chunks of an encoded vector, as `expand_equation` does, reads its elements. -/
theorem chunks_eq {m n : Nat} (bytes : Bytes m) (hm : m = n * 2) :
    ((chunksExact 2 bytes.toList).mapM fun chunk => do
      let first ← index chunk 0
      let second ← index chunk 1
      pure (Gf256x2.fromBytes (Bytes.pair first second))) =
      (Run.ret (parsed n bytes hm.ge).toList [] : Exec (List Gf256x2)) := by
  have hmap : (chunksExact 2 bytes.toList).map
      (fun chunk => Gf256x2.fromBytes (Bytes.pair (chunk.getD 0 0) (chunk.getD 1 0))) =
        (parsed n bytes (by omega)).toList := by
    apply List.ext_getElem
    · simp [chunksExact, hm]
    · intro k _ hk
      have hlt : k < n := by simpa using hk
      have hfirst : k * 2 < bytes.toList.length := by simp; omega
      have hsecond : k * 2 + 1 < bytes.toList.length := by simp; omega
      simp [chunksExact, extensionAt, List.getElem?_eq_getElem hfirst,
        List.getElem?_eq_getElem hsecond, Bytes.getElem_eq_toList, Nat.mul_comm 2 k]
  rw [Run.mapM_eq_ret _
    (fun chunk => Gf256x2.fromBytes (Bytes.pair (chunk.getD 0 0) (chunk.getD 1 0))) (fun _ => []),
    hmap, Run.flatMap_nil]
  intro chunk hchunk
  obtain ⟨k, hk, rfl⟩ := List.mem_map.mp hchunk
  simp only [Bytes.length_toList, List.mem_range] at hk
  have hlength : ((bytes.toList.drop (k * 2)).take 2).length = 2 := by simp; omega
  rw [index_of_lt (by omega), Run.ret_bind, index_of_lt (by omega), Run.ret_bind]
  simp [List.getD_eq_getElem?_getD, hlength]

/-- The equation that `expand_equation` splits a list of elements into. -/
theorem split_elements (elements : Vector Gf256x2 1652)
    (h : (elements.toList.take 1596).toArray.size = 1596) :
    PackedEquation.mk ⟨(elements.toList.take 1596).toArray, h⟩
        (Vector.ofFn fun i => (elements.toList.drop 1596).getD i 0) =
      ⟨Vector.ofFn fun k => elements[k], Vector.ofFn fun i => elements[1596 + i.val]⟩ := by
  refine PackedEquation.ext (Vector.ext fun k hk => ?_) (Vector.ext fun k hk => ?_)
  · simp
  · simp

/-- `expand_equation` succeeds for the indices of equations. -/
theorem expand_equation_eq (P : Primitives) (masterSeed : Bytes 32) {equationIndex : Nat}
    (h : equationIndex < 14) :
    expandEquation P masterSeed equationIndex =
      Run.ret (equationOf P masterSeed equationIndex)
        [.shake128 .equationSeed (equationParts masterSeed equationIndex)] := by
  have hcount : Mq.triangularElementCount = 1596 := by decide
  have hlength : ∀ elements : Vector Gf256x2 1652, (elements.toList.take 1596).length = 1596 ∧
      (elements.toList.drop 1596).drop 56 = [] := fun elements => by simp
  rw [expandEquation, Run.require_of (by simpa using h), Run.ret_bind,
    u16_try_from_of_lt (by omega), Run.of_option_some, Run.ret_bind]
  dsimp only
  rw [shake128_eq, Run.ret_bind, prg_fill_eq P 0 0 _ _ (by omega), Run.ret_bind]
  dsimp only
  rw [Run.require_of rfl, Run.ret_bind, chunks_eq (n := 1652) _ rfl, Run.ret_bind]
  simp only [hcount]
  rw [dif_pos (hlength _)]
  refine congrArg (fun equation => Run.ret equation _) ((split_elements _ _).trans ?_)
  refine PackedEquation.ext (Vector.ext fun k hk => ?_) (Vector.ext fun k hk => ?_)
  · simp only [Vector.getElem_ofFn, Fin.getElem_fin, getElem_parsed, equationOf]
    rfl
  · simp only [Vector.getElem_ofFn, getElem_parsed, equationOf]
    rfl

/-! ## What an expanded equation means -/

/-- The little-endian byte pair at a position of an equation's stream. -/
def streamElement (bytes : Bytes 3304) (k : Nat) : Gf256x2 :=
  if h : 2 * k + 1 < 3304 then extensionAt bytes k h else 0

section Meaning

variable (P : Primitives) (masterSeed : Bytes 32) (equationIndex : Nat)

/-- An element of the stream is two bytes of it. -/
theorem stream_element_eq (bytes : Bytes 3304) {k : Nat} (h : 2 * k + 1 < 3304) :
    streamElement bytes k = extensionAt bytes k h := dif_pos h

/-- The matrix of an expanded equation holds the first elements of its stream. -/
theorem equation_of_matrix {i j : Fin 56} (h : j ≤ i) :
    (equationOf P masterSeed equationIndex).matrix i j =
      streamElement (equationStream P masterSeed equationIndex)
        (i.val * (i.val + 1) / 2 + j.val) := by
  have hbound : i.val * (i.val + 1) / 2 + j.val < 1596 := triangular_lt i.isLt h
  rw [PackedEquation.matrix_apply _ h, stream_element_eq _ (by omega)]
  simp [equationOf, hbound]

/-- The linear part comes after the 1596 entries of the matrix. -/
theorem equation_of_vector (i : Fin 56) :
    (equationOf P masterSeed equationIndex).vector i =
      streamElement (equationStream P masterSeed equationIndex) (1596 + i.val) := by
  rw [stream_element_eq _ (by omega)]
  simp [equationOf, PackedEquation.vector]

/-- `expand_equation` refuses the other indices. -/
theorem expand_equation_of_not_lt (h : ¬ equationIndex < 14) :
    expandEquation P masterSeed equationIndex = Run.halt (.none .equationIndex) := by
  have hcount : ¬ equationIndex < Mq.equationCount := h
  rw [expandEquation, Run.require_of_not hcount, Run.halt_bind]

/-- The value of an expanded equation, over the elements of its stream. -/
theorem equation_of_value (v : Vector Gf16 56) :
    (equationOf P masterSeed equationIndex).valueAt v =
      (∑ i : Fin 56, ∑ j ∈ Finset.Iic i,
        streamElement (equationStream P masterSeed equationIndex)
          (i.val * (i.val + 1) / 2 + j.val) * v[i] * v[j]) +
      ∑ i : Fin 56,
        streamElement (equationStream P masterSeed equationIndex) (1596 + i.val) * v[i] := by
  rw [PackedEquation.valueAt, quadraticValue, dotProduct, dotProduct]
  congr 1
  · refine Finset.sum_congr rfl (fun i _ => ?_)
    rw [PackedEquation.matrix_mul_vec, Finset.sum_mul]
    refine Finset.sum_congr rfl (fun j hj => ?_)
    rw [equation_of_matrix P masterSeed equationIndex (Finset.mem_Iic.mp hj), Gf16.mul_scalar,
      Gf16.mul_scalar]
    ring
  · refine Finset.sum_congr rfl (fun i _ => ?_)
    rw [equation_of_vector, Gf16.mul_scalar]

/-- `expand_equation` succeeds for the fourteen indices. The equation it reads from the stream is
the quadratic form with these coefficients, each used once, and both multiplications are the
product by its lower-triangular matrix. -/
theorem expanded_equation_meaning :
    ((∃ equation, (expandEquation P masterSeed equationIndex).outcome = .ok equation) ↔
      equationIndex < 14) ∧
    (¬ equationIndex < 14 → ∃ branch,
      (expandEquation P masterSeed equationIndex).outcome = .error (.none branch)) ∧
    (∀ equation, (expandEquation P masterSeed equationIndex).outcome = .ok equation →
      ∃ bytes : Bytes 3304,
        (prgFill P 0 0 (P.shake128 ([0x01] ++ masterSeed.toList ++
            (u16ToLeBytes (UInt16.ofNat equationIndex)).toList) 16) (0 : Bytes 3304)).outcome =
          .ok (true, bytes) ∧
        (∀ v : Vector Gf16 56, (equation.evaluateBase v).outcome = .ok (
          (∑ i : Fin 56, ∑ j ∈ Finset.Iic i,
            streamElement bytes (i.val * (i.val + 1) / 2 + j.val) * v[i] * v[j]) +
          ∑ i : Fin 56, streamElement bytes (1596 + i.val) * v[i])) ∧
        (∀ v : Vector Gf16 56, (equation.multiplyBase v).outcome =
          (equation.multiplyExtension (v.map Gf16.toExt)).outcome) ∧
        ∀ x : Vector Gf256x2 56, (equation.multiplyExtension x).outcome =
          .ok (Vector.ofFn fun i : Fin 56 => ∑ j ∈ Finset.Iic i,
            streamElement bytes (i.val * (i.val + 1) / 2 + j.val) * x[j])) ∧
    (∀ k < 1596, ∃! position : Fin 56 × Fin 56, position.2 ≤ position.1 ∧
      position.1.val * (position.1.val + 1) / 2 + position.2.val = k) ∧
    ∀ k, 1596 ≤ k → k < 1652 → ∃! i : Fin 56, 1596 + i.val = k := by
  refine ⟨?_, ?_, ?_, ?_, ?_⟩
  · constructor
    · rintro ⟨equation, hequation⟩
      by_contra hindex
      rw [expand_equation_of_not_lt P masterSeed equationIndex hindex] at hequation
      exact nomatch hequation
    · intro hindex
      rw [expand_equation_eq P masterSeed hindex]
      exact ⟨_, rfl⟩
  · intro hindex
    rw [expand_equation_of_not_lt P masterSeed equationIndex hindex]
    exact ⟨_, rfl⟩
  · intro equation hequation
    by_cases hindex : equationIndex < 14
    · rw [expand_equation_eq P masterSeed hindex, Run.ret_outcome] at hequation
      obtain rfl := Except.ok.inj hequation
      refine ⟨equationStream P masterSeed equationIndex, ?_, ?_, ?_, ?_⟩
      · -- the elements are read from the stream of the equation seed
        rw [prg_fill_eq P 0 0 _ _ (by omega)]
        simp [equationStream, equationParts]
      · intro v
        rw [PackedEquation.evaluate_base_eq, equation_of_value]
        rfl
      · intro v
        rw [PackedEquation.multiply_base_eq, PackedEquation.multiply_extension_eq]
        simp
      · intro x
        rw [PackedEquation.multiply_extension_eq, Run.ret_outcome]
        refine congrArg Except.ok (vector_ext fun i => ?_)
        rw [getElem_fin, Vector.getElem_ofFn, getElem_fin, Vector.getElem_ofFn,
          PackedEquation.matrix_mul_vec]
        refine Finset.sum_congr rfl (fun j hj => ?_)
        rw [equation_of_matrix P masterSeed equationIndex (Finset.mem_Iic.mp hj)]
    · rw [expand_equation_of_not_lt P masterSeed equationIndex hindex] at hequation
      exact nomatch hequation
  · intro k hk
    -- the rows below the diagonal follow each other without gaps
    obtain ⟨i, hi, j, hj, hposition⟩ := triangular_position (n := 56) hk
    refine ⟨(⟨i, hi⟩, ⟨j, by omega⟩), ⟨hj, hposition⟩, ?_⟩
    rintro ⟨i', j'⟩ ⟨hj', hposition'⟩
    obtain ⟨hrow, hcol⟩ := triangular_unique hj' hj (hposition'.trans hposition.symm)
    exact Prod.ext (Fin.ext hrow) (Fin.ext hcol)
  · intro k hlo hhi
    refine ⟨⟨k - 1596, by omega⟩, by dsimp only; omega, ?_⟩
    intro i hi
    apply Fin.ext
    dsimp only
    omega

end Meaning

end Mqom
