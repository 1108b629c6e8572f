import Mqom.Library.GrayCode
import Mqom.Field.Gf256x2
import Mqom.Model.Blc

/-!
# Encodings of field elements

What the packed encodings of `field.rs` hold at each position, and that reading a position is
additive in the bytes. `packed` and `unpacked` are the results of `pack_gf16` and `unpack_gf16` on
buffers of matching lengths, and `point n` is the element whose encoding is the little-endian `n`.
-/

namespace Mqom

open Rust Library

variable {m n : Nat}

/-! ## Nibbles -/

/-- Taking the low nibble is additive. -/
theorem Gf16.new_xor (a b : UInt8) : Gf16.new (a ^^^ b) = Gf16.new a + Gf16.new b := by
  ext1
  simp only [Gf16.new, Gf16.value_add, Gf256.xor_and_distrib]

/-- The low nibble of zero. -/
theorem Gf16.new_zero : Gf16.new 0 = 0 := rfl

/-- The element at a position of packed bytes, the low nibble of a byte first. -/
def nibble (bytes : Bytes m) (i : Nat) (h : i / 2 < m) : Gf16 :=
  Gf16.new (bytes[i / 2] >>> UInt8.ofNat (4 * (i &&& 1)))

/-- Reading a position of packed bytes is additive. -/
def nibbleHom (i : Nat) (h : i / 2 < m) : Bytes m →+ Gf16 where
  toFun bytes := nibble bytes i h
  map_zero' := by simp [nibble, Gf16.new_zero]
  map_add' a b := by
    simp only [nibble, Bytes.getElem_add, UInt8.shiftRight_xor, Gf16.new_xor]

/-- The homomorphism reads a nibble. -/
@[simp] theorem nibble_hom_apply (i : Nat) (h : i / 2 < m) (bytes : Bytes m) :
    nibbleHom i h bytes = nibble bytes i h := rfl

/-- The elements that packed bytes hold. -/
def unpacked (n : Nat) (bytes : Bytes m) (h : (n + 1) / 2 ≤ m) : Vector Gf16 n :=
  Vector.ofFn fun i => nibble bytes i (by omega)

/-- An element of an unpacked vector is a nibble. -/
@[simp] theorem getElem_unpacked (bytes : Bytes m) (h : (n + 1) / 2 ≤ m) (i : Nat) (hi : i < n) :
    (unpacked n bytes h)[i] = nibble bytes i (by omega) := by
  simp [unpacked]

/-- `unpack_gf16` reads every position of bytes of the matching length. -/
theorem unpack_gf16_eq (bytes : Bytes m) (output : Vector Gf16 n) (hm : m = (n + 1) / 2)
    (hn : n + 1 < 2 ^ 64) :
    (unpackGf16 bytes.toList output : Exec (Bool × Vector Gf16 n)) =
      Run.ret (true, unpacked n bytes (by omega)) [] := by
  subst hm
  simp (disch := omega) only [unpackGf16, checked_add_of_lt, Option.map_some,
    Bytes.length_toList, ne_eq, not_true_eq_false, if_false, index_toList, Run.ret_bind,
    Run.pure_eq_ret, Run.after_nil, Run.of_fn_m_ret]
  rfl

/-! ## Packing -/

/-- The value of the element at a position, or zero beyond the end. -/
def nibbleAt (elements : Vector Gf16 n) (i : Nat) : UInt8 :=
  if h : i < n then elements[i].value else 0

/-- The packed bytes of the first elements. -/
def packedUpTo (m : Nat) (elements : Vector Gf16 n) (count : Nat) : Bytes m :=
  Bytes.ofFn fun k =>
    (if 2 * k.val < count then nibbleAt elements (2 * k) else 0) |||
      (if 2 * k.val + 1 < count then nibbleAt elements (2 * k + 1) <<< 4 else 0)

/-- The packed bytes of a vector. -/
def packed (m : Nat) (elements : Vector Gf16 n) : Bytes m :=
  packedUpTo m elements n

/-- Packing one more element changes its nibble. -/
theorem packed_up_to_succ (elements : Vector Gf16 n) (i : Nat) (hi : i < n) (h : i / 2 < m) :
    (packedUpTo m elements i).set (i / 2) ((packedUpTo m elements i)[i / 2] |||
      elements[i].value <<< UInt8.ofNat (4 * (i &&& 1))) = packedUpTo m elements (i + 1) := by
  apply Bytes.ext_getElem
  intro k hk
  simp only [packedUpTo, Bytes.getElem_set, Bytes.getElem_ofFn, Nat.and_one_is_mod]
  by_cases hhere : i / 2 = k
  · subst hhere
    rw [if_pos rfl]
    rcases Nat.mod_two_eq_zero_or_one i with heven | hodd
    · have hi2 : 2 * (i / 2) = i := by omega
      simp [hi2, heven, nibbleAt, hi]
    · have hi2 : 2 * (i / 2) + 1 = i := by omega
      have hlt : 2 * (i / 2) < i := by omega
      have hlt' : 2 * (i / 2) < i + 1 := by omega
      simp [hi2, hodd, nibbleAt, hi, hlt, hlt']
  · have hlow : 2 * k < i + 1 ↔ 2 * k < i := by omega
    have hhigh : 2 * k + 1 < i + 1 ↔ 2 * k + 1 < i := by omega
    simp [hhere, hlow, hhigh]

/-- `pack_gf16` fills a buffer of the matching length. -/
theorem pack_gf16_eq (elements : Vector Gf16 n) (output : Bytes m) (hm : m = (n + 1) / 2)
    (hn : n + 1 < 2 ^ 64) :
    (packGf16 elements output : Exec (Bool × Bytes m)) =
      Run.ret (true, packed m elements) [] := by
  have hstart : (0 : Bytes m) = packedUpTo m elements 0 :=
    Bytes.ext_getElem (fun k hk => by simp [packedUpTo])
  subst hm
  simp only [packGf16, checked_add_of_lt hn, Option.map_some, ne_eq, not_true_eq_false, if_false]
  rw [hstart, Run.foldlM_fin_range (packedUpTo _ elements) (fun _ => [])]
  · simp [packed]
  · intro i
    rw [modify_byte_of_lt _ (by omega), getElem_fin]
    exact congrArg (fun output => Run.ret output [])
      (packed_up_to_succ elements i i.isLt (by omega))

/-- A byte holds both of its nibbles. -/
theorem nibble_of_byte (low high : Gf16) :
    Gf16.new ((low.value ||| high.value <<< 4) >>> 0) = low ∧
      Gf16.new ((low.value ||| high.value <<< 4) >>> 4) = high := by
  induction low using Gf16.nibble_induction with
  | nibble i =>
      induction high using Gf16.nibble_induction with
      | nibble j =>
          revert i j
          decide +kernel

/-- Unpacking gives back what was packed. -/
theorem nibble_packed (elements : Vector Gf16 n) (i : Nat) (hi : i < n) (h : i / 2 < m) :
    nibble (packed m elements) i h = elements[i] := by
  have hat : ∀ k, ∃ element : Gf16, (if k < n then nibbleAt elements k else 0) = element.value ∧
      (i = k → element = elements[i]) := by
    intro k
    by_cases hk : k < n
    · exact ⟨elements[k], by simp [nibbleAt, hk], fun hik => by simp [hik]⟩
    · exact ⟨0, by simp [hk]; rfl, fun hik => absurd (hik ▸ hi) hk⟩
  obtain ⟨low, hlow, hlow'⟩ := hat (2 * (i / 2))
  obtain ⟨high, hhigh, hhigh'⟩ := hat (2 * (i / 2) + 1)
  have hbyte : (packed m elements)[i / 2] = low.value ||| high.value <<< 4 := by
    simp only [packed, packedUpTo, Bytes.getElem_ofFn]
    rw [← hlow, ← hhigh]
    congr 1
    split <;> rfl
  rw [nibble, hbyte, Nat.and_one_is_mod]
  rcases Nat.mod_two_eq_zero_or_one i with heven | hodd
  · rw [heven, ← hlow' (by omega)]
    exact (nibble_of_byte low high).1
  · rw [hodd, ← hhigh' (by omega)]
    exact (nibble_of_byte low high).2

/-- The bytes with the high nibble of the last one cleared. -/
def clearLast (bytes : Bytes m) : Bytes m :=
  Bytes.ofFn fun k => if k.val + 1 = m then bytes[k] &&& 0x0f else bytes[k]

/-- A byte is made of its nibbles. -/
theorem byte_of_nibbles : ∀ i : Fin 256,
    let byte := UInt8.ofFin i
    byte &&& (0x0f : UInt8) ||| (byte >>> 4 &&& (0x0f : UInt8)) <<< 4 = byte := by
  decide +kernel

/-- Packing gives back what was unpacked, except for a nibble that holds no element. -/
theorem packed_unpacked (bytes : Bytes m) (hm : m = (n + 1) / 2) :
    packed m (unpacked n bytes (by omega)) = if n % 2 = 0 then bytes else clearLast bytes := by
  subst hm
  apply Bytes.ext_getElem
  intro k hk
  have hlow : nibbleAt (unpacked n bytes (by omega)) (2 * k) = bytes[k] &&& 0x0f := by
    rw [nibbleAt, dif_pos (by omega), getElem_unpacked, nibble]
    simp [Gf16.new, Nat.and_one_is_mod]
  rw [packed, packedUpTo, Bytes.getElem_ofFn, if_pos (by dsimp only; omega)]
  dsimp only
  rw [hlow]
  by_cases hhigh : 2 * k + 1 < n
  · have hvalue : nibbleAt (unpacked n bytes (by omega)) (2 * k + 1) = bytes[k] >>> 4 &&& 0x0f := by
      have hhalf : (2 * k + 1) / 2 = k := by omega
      rw [nibbleAt, dif_pos hhigh, getElem_unpacked, nibble]
      simp [Gf16.new, Nat.and_one_is_mod, hhalf, Nat.add_mod]
    have hbyte := byte_of_nibbles bytes[k].toFin
    rw [if_pos hhigh, hvalue]
    split
    · exact hbyte
    · rw [clearLast, Bytes.getElem_ofFn, if_neg (by dsimp only; omega)]
      exact hbyte
  · rw [if_neg hhigh, UInt8.or_zero, if_neg (by omega), clearLast, Bytes.getElem_ofFn,
      if_pos (by dsimp only; omega)]
    rfl

/-- `unpack_gf16` refuses bytes of another length. -/
theorem unpack_gf16_of_ne (bytes : List UInt8) (output : Vector Gf16 n)
    (h : bytes.length ≠ (n + 1) / 2) :
    (unpackGf16 bytes output : Exec (Bool × Vector Gf16 n)) = Run.ret (false, output) [] := by
  unfold unpackGf16
  by_cases hn : n + 1 < 2 ^ 64
  · rw [checked_add_of_lt hn]
    exact if_pos h
  · rw [checkedAdd, if_neg hn]
    rfl

/-- `pack_gf16` refuses a buffer of another length. -/
theorem pack_gf16_of_ne (elements : Vector Gf16 n) (output : Bytes m) (h : m ≠ (n + 1) / 2) :
    (packGf16 elements output : Exec (Bool × Bytes m)) = Run.ret (false, output) [] := by
  unfold packGf16
  by_cases hn : n + 1 < 2 ^ 64
  · rw [checked_add_of_lt hn]
    exact if_pos h
  · rw [checkedAdd, if_neg hn]
    rfl

/-- Packing and unpacking are inverse up to the nibble that holds no element, whatever the buffers
held before. Unpacking is additive, and buffers of other lengths are refused and left alone. The
bound is the one that the code checks; no slice is as long as that. -/
theorem packing_laws (hn : n + 1 < 2 ^ 64) :
    (∀ (elements target : Vector Gf16 n) (output : Bytes ((n + 1) / 2)), ∃ bytes : Bytes _,
      (packGf16 elements output : Exec _).outcome = .ok (true, bytes) ∧
      (unpackGf16 bytes.toList target : Exec _).outcome = .ok (true, elements)) ∧
    (∀ (bytes output : Bytes ((n + 1) / 2)) (target : Vector Gf16 n), ∃ elements,
      (unpackGf16 bytes.toList target : Exec _).outcome = .ok (true, elements) ∧
      (packGf16 elements output : Exec _).outcome =
        .ok (true, if n % 2 = 0 then bytes else clearLast bytes)) ∧
    (∀ (bytes bytes' : Bytes ((n + 1) / 2)) (target : Vector Gf16 n), ∃ elements elements',
      (unpackGf16 bytes.toList target : Exec _).outcome = .ok (true, elements) ∧
      (unpackGf16 bytes'.toList target : Exec _).outcome = .ok (true, elements') ∧
      (unpackGf16 (bytes ^^^ bytes').toList target : Exec _).outcome =
        .ok (true, Vector.ofFn fun i : Fin n => elements[i] + elements'[i])) ∧
    ∀ k, k ≠ (n + 1) / 2 →
      (∀ (elements : Vector Gf16 n) (output : Bytes k),
        (packGf16 elements output : Exec _).outcome = .ok (false, output)) ∧
      ∀ (bytes : Bytes k) (target : Vector Gf16 n),
        (unpackGf16 bytes.toList target : Exec _).outcome = .ok (false, target) := by
  refine ⟨?_, ?_, ?_, ?_⟩
  · intro elements target output
    refine ⟨packed _ elements, ?_, ?_⟩
    · rw [pack_gf16_eq elements output rfl hn]
      rfl
    · have hsame : unpacked n (packed ((n + 1) / 2) elements) (le_refl _) = elements :=
        Vector.ext fun i hi => by rw [getElem_unpacked, nibble_packed elements i hi]
      rw [unpack_gf16_eq _ target rfl hn, hsame]
      rfl
  · intro bytes output target
    refine ⟨unpacked n bytes (le_refl _), ?_, ?_⟩
    · rw [unpack_gf16_eq bytes target rfl hn]
      rfl
    · rw [pack_gf16_eq _ output rfl hn, packed_unpacked bytes rfl]
      rfl
  · intro bytes bytes' target
    refine ⟨unpacked n bytes (le_refl _), unpacked n bytes' (le_refl _), ?_, ?_, ?_⟩
    · rw [unpack_gf16_eq bytes target rfl hn]
      rfl
    · rw [unpack_gf16_eq bytes' target rfl hn]
      rfl
    · -- taking a nibble is additive
      have hsum : unpacked n (bytes ^^^ bytes') (le_refl _) = Vector.ofFn fun i : Fin n =>
          (unpacked n bytes (le_refl _))[i] + (unpacked n bytes' (le_refl _))[i] := by
        apply Vector.ext
        intro i hi
        have hadd := map_add (nibbleHom i (by omega)) bytes bytes'
        simpa using hadd
      rw [unpack_gf16_eq _ target rfl hn, hsum]
      rfl
  · intro k hk
    constructor
    · intro elements output
      rw [pack_gf16_of_ne elements output hk]
      rfl
    · intro bytes target
      rw [unpack_gf16_of_ne _ target (by rw [Bytes.length_toList]; exact hk)]
      rfl

/-- Three elements, packed into a buffer that was not zero. -/
theorem three_elements_pack :
    ∃ bytes : Bytes _,
      (packGf16 (#v[1, 0, 1] : Vector Gf16 3) (Bytes.pair 7 9) : Exec _).outcome =
        .ok (true, bytes) ∧
      (unpackGf16 bytes.toList (#v[0, 0, 0] : Vector Gf16 3) : Exec _).outcome =
        .ok (true, #v[1, 0, 1]) :=
  (packing_laws (n := 3) (by omega)).1 #v[1, 0, 1] #v[0, 0, 0] (Bytes.pair 7 9)

/-! ## Elements of the extension field -/

/-- An element is parsed back from its bytes. -/
theorem Gf256x2.from_bytes_to_bytes (a : Gf256x2) : fromBytes a.toBytes = a := rfl

/-- Two bytes are written back from their element. -/
theorem Gf256x2.to_bytes_from_bytes (bytes : Bytes 2) : (fromBytes bytes).toBytes = bytes := by
  apply Bytes.ext_getElem
  intro i hi
  rcases (show i = 0 ∨ i = 1 by omega) with rfl | rfl <;> rfl

/-- Different bytes are different elements. -/
theorem Gf256x2.from_bytes_injective : Function.Injective fromBytes := fun a b h => by
  rw [← to_bytes_from_bytes a, h, to_bytes_from_bytes]

/-- Parsing is additive. -/
theorem Gf256x2.from_bytes_add (a b : Bytes 2) :
    fromBytes (a + b) = fromBytes a + fromBytes b := by
  ext1 <;> ext1 <;> simp [fromBytes, Gf256.new]

/-- The element at a position of an encoded vector. -/
def extensionAt (bytes : Bytes m) (i : Nat) (h : 2 * i + 1 < m) : Gf256x2 :=
  Gf256x2.fromBytes (Bytes.pair bytes[2 * i] bytes[2 * i + 1])

/-- Reading a position of an encoded vector is additive. -/
def extensionHom (i : Nat) (h : 2 * i + 1 < m) : Bytes m →+ Gf256x2 where
  toFun bytes := extensionAt bytes i h
  map_zero' := by simp [extensionAt]; rfl
  map_add' a b := by
    rw [extensionAt, extensionAt, extensionAt, ← Gf256x2.from_bytes_add]
    simp only [Bytes.getElem_add]
    rfl

/-- The homomorphism reads an element. -/
@[simp] theorem extension_hom_apply (i : Nat) (h : 2 * i + 1 < m) (bytes : Bytes m) :
    extensionHom i h bytes = extensionAt bytes i h := rfl

/-- The elements of an encoded vector. -/
def parsed (n : Nat) (bytes : Bytes m) (h : n * 2 ≤ m) : Vector Gf256x2 n :=
  Vector.ofFn fun i => extensionAt bytes i (by omega)

/-- An element of a parsed vector. -/
@[simp] theorem getElem_parsed (bytes : Bytes m) (h : n * 2 ≤ m) (i : Nat) (hi : i < n) :
    (parsed n bytes h)[i] = extensionAt bytes i (by omega) := by
  simp [parsed]

/-- `parse_extension_vector` reads every position of bytes of the matching length. -/
theorem parse_extension_vector_eq (bytes : Bytes m) (hm : m = n * 2) :
    parseExtensionVector n bytes.toList = Run.ret (parsed n bytes (by omega)) [] := by
  subst hm
  rw [parseExtensionVector, Run.require_of (by simp)]
  simp (disch := omega) only [index_toList, Run.ret_bind, Run.pure_eq_ret, Run.after_nil,
    Run.of_fn_m_ret, Nat.mul_comm _ 2]
  rfl

/-! ## The point of a number -/

/-- The element whose encoding is a little-endian number. -/
def point (n : Nat) : Gf256x2 :=
  Gf256x2.fromBytes (u16ToLeBytes (UInt16.ofNat n))

/-- The bytes of a sum of words. -/
theorem u16_to_le_bytes_xor (a b : UInt16) :
    u16ToLeBytes (a ^^^ b) = u16ToLeBytes a + u16ToLeBytes b := by
  apply Bytes.ext_getElem
  intro i hi
  rcases (show i = 0 ∨ i = 1 by omega) with rfl | rfl <;>
    simp [u16ToLeBytes, UInt16.shiftRight_xor]

/-- A word is determined by its bytes. -/
theorem u16_to_le_bytes_injective : Function.Injective u16ToLeBytes := by
  intro a b h
  have hlow := congrArg (fun bytes : Bytes 2 => bytes[0].toNat) h
  have hhigh := congrArg (fun bytes : Bytes 2 => bytes[1].toNat) h
  simp [u16ToLeBytes, Nat.shiftRight_eq_div_pow] at hlow hhigh
  have ha := a.toNat_lt
  have hb := b.toNat_lt
  apply UInt16.toNat_inj.mp
  omega

/-- Points are added like the words that they encode. -/
theorem point_xor (a b : Nat) : point (a ^^^ b) = point a + point b := by
  rw [point, UInt16.ofNat_xor, u16_to_le_bytes_xor, Gf256x2.from_bytes_add]
  rfl

/-- A point is the sum of the points of its bits. -/
theorem sum_bit_point {n w : Nat} (h : n < 2 ^ w) :
    ∑ k : Fin w, bit n k • point (2 ^ k.val) = point n :=
  sum_bits point_xor h

/-- Different words are different points. -/
theorem point_injective {a b : Nat} (ha : a < 2 ^ 16) (hb : b < 2 ^ 16) (h : point a = point b) :
    a = b := by
  have hnumber := u16_to_le_bytes_injective (Gf256x2.from_bytes_injective h)
  have hvalue := congrArg UInt16.toNat hnumber
  rwa [UInt16.toNat_ofNat_of_lt' ha, UInt16.toNat_ofNat_of_lt' hb] at hvalue

end Mqom
