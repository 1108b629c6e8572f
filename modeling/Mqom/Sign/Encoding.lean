import Mqom.Field.Packing
import Mqom.Model.Sign

/-!
# The encoding of the responses

The elements of `alpha_zero` and `alpha_one` are encoded one after the other, two bytes each.
Reading the bytes of an execution gives its elements back, and the loop of `sign` that writes the
elements writes this encoding.
-/

namespace Mqom

open Rust Params

/-! ## Lists of parts of one length -/

section Parts

variable {α : Type} {size : Nat}

/-- The length of equally long parts. -/
theorem length_flatten_parts {parts : List (List α)} (h : ∀ part ∈ parts, part.length = size) :
    parts.flatten.length = parts.length * size := by
  induction parts with
  | nil => simp
  | cons part rest ih =>
      rw [List.flatten_cons, List.length_append, h part List.mem_cons_self,
        ih fun other hother => h other (List.mem_cons_of_mem part hother), List.length_cons]
      ring

/-- A part can be cut out of the concatenation. -/
theorem take_drop_flatten {parts : List (List α)} (h : ∀ part ∈ parts, part.length = size)
    {k : Nat} (hk : k < parts.length) :
    (parts.flatten.drop (k * size)).take size = parts[k] := by
  induction parts generalizing k with
  | nil => exact absurd hk (Nat.not_lt_zero k)
  | cons part rest ih =>
      have hpart : part.length = size := h part List.mem_cons_self
      cases k with
      | zero =>
          rw [Nat.zero_mul, List.drop_zero, List.flatten_cons, ← hpart]
          exact List.take_left
      | succ k =>
          have hlt : k < rest.length := Nat.lt_of_succ_lt_succ hk
          rw [List.flatten_cons, Nat.succ_mul, Nat.add_comm, ← List.drop_drop, ← hpart,
            List.drop_left, hpart]
          exact ih (fun other hother => h other (List.mem_cons_of_mem part hother)) hlt

end Parts

/-! ## Encoded elements -/

/-- The encodings of the elements of a vector. -/
def elementParts {n : Nat} (elements : Vector Gf256x2 n) : List (List UInt8) :=
  elements.toList.map fun element => element.toBytes.toList

/-- An element is written in two bytes. -/
theorem element_parts_length {n : Nat} (elements : Vector Gf256x2 n) :
    ∀ part ∈ elementParts elements, part.length = 2 := by
  intro part hpart
  obtain ⟨element, _, rfl⟩ := List.mem_map.mp hpart
  exact Bytes.length_toList _

/-- So `n` elements are written in `2 n` bytes. -/
theorem element_parts_flatten {n : Nat} (elements : Vector Gf256x2 n) :
    (elementParts elements).flatten.length = n * 2 := by
  rw [length_flatten_parts (element_parts_length elements), elementParts, List.length_map,
    Vector.length_toList]

/-- An `Alpha` is encoded execution by execution. -/
theorem alpha_parts_flatten (alpha : Alpha) :
    (alphaParts alpha).flatten =
      (alpha.toList.map fun execution => (elementParts execution).flatten).flatten := by
  rw [alphaParts, List.flatMap, List.flatten_flatten, List.map_map]
  rfl

/-- The responses of an execution are written in 16 bytes. -/
theorem execution_parts_length (alpha : Alpha) :
    ∀ part ∈ alpha.toList.map (fun execution => (elementParts execution).flatten),
      part.length = 16 := by
  intro part hpart
  obtain ⟨execution, _, rfl⟩ := List.mem_map.mp hpart
  exact element_parts_flatten execution

/-- The encoding of an `Alpha`. -/
def encodedAlpha (alpha : Alpha) : Bytes 192 where
  toList := (alphaParts alpha).flatten
  length_toList := by
    rw [alpha_parts_flatten, length_flatten_parts (execution_parts_length alpha), List.length_map,
      Vector.length_toList]

/-- The elements that `verify_inner` parses. -/
def decodedAlpha (bytes : Bytes 192) : Alpha :=
  Vector.ofFn fun e =>
    parsed 8 (bytes.extract (16 * e) 16 (execution_part_le e)) execution_elements_le

/-- The element at an index is read from its two bytes. -/
theorem extension_at_extract {m : Nat} (bytes : Bytes m) {i : Nat} (h : 2 * i + 1 < m) :
    extensionAt bytes i h = Gf256x2.fromBytes (bytes.extract (2 * i) 2 (by omega)) := by
  refine congrArg Gf256x2.fromBytes (Bytes.ext_getElem fun k hk => ?_)
  rcases (show k = 0 ∨ k = 1 by omega) with rfl | rfl
  · rw [Bytes.getElem_extract]
    rfl
  · rw [Bytes.getElem_extract]
    rfl

/-- Parsing an encoded `Alpha` gives it back. -/
theorem decoded_encoded_alpha (alpha : Alpha) : decodedAlpha (encodedAlpha alpha) = alpha := by
  refine vector_ext fun e => vector_ext fun k => ?_
  have hexecution : ((encodedAlpha alpha).extract (16 * e) 16 (by omega)).toList =
      (elementParts alpha[e]).flatten := by
    have hcut := take_drop_flatten (execution_parts_length alpha) (k := e) (by simp)
    rw [← alpha_parts_flatten, List.getElem_map, Vector.getElem_toList, Nat.mul_comm] at hcut
    exact hcut
  have helement : (((encodedAlpha alpha).extract (16 * e) 16 (by omega)).extract (2 * k) 2
      (by omega)) = (alpha[e][k]).toBytes := by
    apply Bytes.ext
    have hcut := take_drop_flatten (element_parts_length alpha[e]) (k := k) (by simp [elementParts])
    rw [Bytes.toList_extract, hexecution, Nat.mul_comm, hcut]
    simp [elementParts]
  rw [decodedAlpha, getElem_fin, getElem_fin, Vector.getElem_ofFn, getElem_parsed,
    extension_at_extract, helement]
  exact Gf256x2.from_bytes_to_bytes _

/-- Different responses have different encodings. -/
theorem encoded_alpha_injective : Function.Injective encodedAlpha := fun alpha other h => by
  rw [← decoded_encoded_alpha alpha, h, decoded_encoded_alpha]

/-! ## The encoding loop of the signer -/

/-- A loop that writes parts one after the other. -/
theorem write_parts_eq {n : Nat} (parts : List (List UInt8)) (target : Bytes n) {offset : Nat}
    (h : offset + parts.flatten.length ≤ n) :
    parts.foldlM (fun (state : Bytes n × Nat) encoded => do
      let (target, offset) := state
      let target ← copyFromSlice target offset (offset + encoded.length) encoded
      pure (target, offset + encoded.length)) (target, offset) =
      (Run.ret (target.write offset parts.flatten, offset + parts.flatten.length) [] :
        Exec (Bytes n × Nat)) := by
  induction parts generalizing target offset with
  | nil =>
      rw [List.flatten_nil, Bytes.write_nil]
      rfl
  | cons part rest ih =>
      rw [List.flatten_cons, List.length_append] at h
      rw [List.foldlM_cons]
      dsimp only
      rw [copy_from_slice_of_le _ (by omega) (by omega) (by omega), Run.ret_bind, Run.after_nil,
        Run.pure_eq_ret, Run.ret_bind, Run.after_nil, ih _ (by omega), Bytes.write_write,
        List.flatten_cons, List.length_append, Nat.add_assoc]

/-- The linear responses are written after the commitments. -/
theorem write_alpha_one_eq (signature : Bytes 2916) (alphaOne : Alpha) :
    writeAlphaOne signature alphaOne =
      Run.ret (signature.write 80 (encodedAlpha alphaOne).toList, 272) [] := by
  have hlength : (alphaParts alphaOne).flatten.length = 192 := (encodedAlpha alphaOne).length_toList
  have hfits : 80 + (alphaParts alphaOne).flatten.length ≤ 2916 := by omega
  have hwritten := write_parts_eq (alphaParts alphaOne) signature hfits
  rw [hlength] at hwritten
  exact hwritten

end Mqom
