import Mqom.Rust.Run
import Mathlib.Algebra.Field.ZMod
import Mathlib.Algebra.Module.ZMod
import Mathlib.Data.List.GetD

/-!
# Byte arrays and slices

`Bytes n` is the array type `[u8; n]`: a list of bytes that carries its length. A slice `&[T]` is
a list. Under `^^^`, which works byte by byte, the arrays of one length are a vector space over
`ZMod 2`, written additively. Slicing, indexing and copying panic outside the bounds, as they do
in Rust; each has one lemma for the case that is in bounds.
-/

namespace Mqom.Rust

variable {Event Branch α : Type} {m n : Nat}

/-- An array `[u8; n]`. -/
@[ext]
structure Bytes (n : Nat) where
  toList : List UInt8
  length_toList : toList.length = n
  deriving DecidableEq

namespace Bytes

attribute [simp, grind =] Bytes.length_toList

/-- The byte at an index below the length. -/
instance : GetElem (Bytes n) Nat UInt8 fun _ i => i < n where
  getElem bytes i h := bytes.toList.get ⟨i, by simpa using h⟩

/-- The byte at an index of the array's own index type, which is in bounds. -/
instance instGetElemFin : GetElem (Bytes n) (Fin n) UInt8 fun _ _ => True where
  getElem bytes i _ := getElem bytes i.val i.isLt

/-- An index of the array's own type reads the byte at its value. -/
@[simp] theorem getElem_fin (bytes : Bytes n) (i : Fin n) :
    bytes[i] = getElem bytes i.val i.isLt := rfl

/-- A byte of an array is the entry of its list. -/
theorem getElem_eq_toList (bytes : Bytes n) (i : Nat) (h : i < n) :
    bytes[i] = bytes.toList.get ⟨i, by simpa using h⟩ := rfl

/-- An entry of the list is a byte of the array. -/
theorem getElem_toList (bytes : Bytes n) (i : Nat) (h : i < n) (hlist : i < bytes.toList.length) :
    bytes.toList[i] = bytes[i] := rfl

/-- The bytes of an array that is built from a list. -/
theorem getElem_mk (list : List UInt8) (hlist : list.length = n) (i : Nat) (h : i < n) :
    (Bytes.mk list hlist)[i] = list.get ⟨i, by omega⟩ := rfl

/-- Arrays with the same bytes are equal. -/
theorem ext_getElem {left right : Bytes n} (h : ∀ i (hi : i < n), left[i] = right[i]) :
    left = right := by
  apply Bytes.ext
  apply List.ext_getElem (by simp)
  intro i hleft _
  exact h i (by simpa using hleft)

/-- An array is determined by its list. -/
theorem toList_injective : Function.Injective (Bytes.toList : Bytes n → List UInt8) :=
  fun _ _ h => Bytes.ext h

/-- The array with the given bytes. -/
def ofFn (byte : Fin n → UInt8) : Bytes n :=
  ⟨List.ofFn byte, List.length_ofFn⟩

/-- The bytes of an array that is built from a function. -/
@[simp] theorem getElem_ofFn (byte : Fin n → UInt8) (i : Nat) (h : i < n) :
    (ofFn byte)[i] = byte ⟨i, h⟩ := by
  simp [ofFn, getElem_mk]

/-- The array with the byte at an index replaced. -/
def set (bytes : Bytes n) (i : Nat) (byte : UInt8) : Bytes n :=
  ⟨bytes.toList.set i byte, by simp⟩

/-- Setting a byte changes that byte only. -/
@[simp] theorem getElem_set (bytes : Bytes n) (i : Nat) (byte : UInt8) (j : Nat) (h : j < n) :
    (bytes.set i byte)[j] = if i = j then byte else bytes[j] := by
  simp [set, getElem_eq_toList, List.getElem_set]

/-- The array of two bytes. -/
def pair (first second : UInt8) : Bytes 2 :=
  ⟨[first, second], rfl⟩

/-- The first byte of a pair. -/
@[simp] theorem getElem_pair_zero (first second : UInt8) (h : 0 < 2) :
    (pair first second)[0] = first := rfl

/-- The second byte of a pair. -/
@[simp] theorem getElem_pair_one (first second : UInt8) (h : 1 < 2) :
    (pair first second)[1] = second := rfl

/-! ## The group of arrays under XOR -/

/-- Byte-by-byte XOR. -/
def xor (left right : Bytes n) : Bytes n :=
  ⟨List.zipWith (· ^^^ ·) left.toList right.toList, by simp⟩

instance : XorOp (Bytes n) := ⟨xor⟩

instance : Add (Bytes n) := ⟨xor⟩

instance : Zero (Bytes n) := ⟨⟨List.replicate n 0, List.length_replicate⟩⟩

instance : Neg (Bytes n) := ⟨id⟩

/-- The exclusive or of arrays is their sum, in the simp normal form. -/
@[simp] theorem xor_eq_add (left right : Bytes n) : left ^^^ right = left + right := rfl

/-- Arrays are added byte by byte. -/
@[simp] theorem getElem_add (left right : Bytes n) (i : Nat) (h : i < n) :
    (left + right)[i] = left[i] ^^^ right[i] := by
  show (List.zipWith (· ^^^ ·) left.toList right.toList).get ⟨i, _⟩ = _
  rw [List.get_eq_getElem, List.getElem_zipWith]
  rfl

/-- The zero array holds zeros. -/
@[simp] theorem getElem_zero (i : Nat) (h : i < n) : (0 : Bytes n)[i] = 0 := by
  show (List.replicate n (0 : UInt8)).get ⟨i, _⟩ = 0
  rw [List.get_eq_getElem, List.getElem_replicate]

/-- Every array is its own negative. -/
protected theorem add_self (bytes : Bytes n) : bytes + bytes = 0 :=
  ext_getElem (fun i h => by simp)

instance : AddCommGroup (Bytes n) where
  add_assoc a b c := ext_getElem (fun i h => by simp [UInt8.xor_assoc])
  zero_add a := ext_getElem (fun i h => by simp)
  add_zero a := ext_getElem (fun i h => by simp)
  neg_add_cancel a := Bytes.add_self a
  add_comm a b := ext_getElem (fun i h => by simp [UInt8.xor_comm])
  nsmul := nsmulRec
  zsmul := zsmulRec

instance : Module (ZMod 2) (Bytes n) :=
  AddCommGroup.zmodModule (fun bytes => by rw [two_nsmul]; exact Bytes.add_self bytes)

/-! ## Concatenation and parts -/

/-- The concatenation of two arrays. -/
def append (left : Bytes m) (right : Bytes n) : Bytes (m + n) :=
  ⟨left.toList ++ right.toList, by simp⟩

/-- The `length` bytes starting at `offset`. -/
def extract (bytes : Bytes n) (offset length : Nat) (h : offset + length ≤ n) : Bytes length :=
  ⟨(bytes.toList.drop offset).take length, by simp; omega⟩

/-- The list of two joined arrays. -/
@[simp] theorem toList_append (left : Bytes m) (right : Bytes n) :
    (left.append right).toList = left.toList ++ right.toList := rfl

/-- The list of a part of an array. -/
theorem toList_extract (bytes : Bytes n) (offset length : Nat) (h : offset + length ≤ n) :
    (bytes.extract offset length h).toList = (bytes.toList.drop offset).take length := rfl

/-- A byte of a part is read behind its offset. -/
@[simp] theorem getElem_extract (bytes : Bytes n) (offset length : Nat) (h : offset + length ≤ n)
    (i : Nat) (hi : i < length) : (bytes.extract offset length h)[i] = bytes[offset + i] := by
  simp [extract, getElem_eq_toList]

/-- The bytes of the first of two joined arrays. -/
theorem getElem_append_left (left : Bytes m) (right : Bytes n) (i : Nat) (hi : i < m + n)
    (h : i < m) : (left.append right)[i] = left[i] := by
  simp [append, getElem_eq_toList, List.getElem_append_left, h]

/-- The bytes of the second of two joined arrays. -/
theorem getElem_append_right (left : Bytes m) (right : Bytes n) (i : Nat) (hi : m + i < m + n)
    (h : i < n) : (left.append right)[m + i] = right[i] := by
  simp [append, getElem_eq_toList, List.getElem_append_right]

/-- The first of two joined arrays can be cut out again. -/
@[simp] theorem extract_append_left (left : Bytes m) (right : Bytes n) (h : 0 + m ≤ m + n) :
    (left.append right).extract 0 m h = left :=
  ext_getElem (fun i hi => by simp [getElem_append_left, hi])

/-- So can the second. -/
@[simp] theorem extract_append_right (left : Bytes m) (right : Bytes n) (h : m + n ≤ m + n) :
    (left.append right).extract m n h = right :=
  ext_getElem (fun i hi => by simp [getElem_append_right, hi])

/-- A part of a part is a part. -/
theorem extract_extract (bytes : Bytes n) {offset length offset' length' : Nat}
    (h : offset + length ≤ n) (h' : offset' + length' ≤ length) :
    (bytes.extract offset length h).extract offset' length' h' =
      bytes.extract (offset + offset') length' (by omega) :=
  ext_getElem (fun i hi => by simp [Nat.add_assoc])

/-- Cutting commutes with addition. -/
@[simp] theorem extract_add (left right : Bytes n) (offset length : Nat)
    (h : offset + length ≤ n) :
    (left + right).extract offset length h =
      left.extract offset length h + right.extract offset length h :=
  ext_getElem (fun i hi => by simp)

/-- A part of the zero array is zero. -/
@[simp] theorem extract_zero (offset length : Nat) (h : offset + length ≤ n) :
    (0 : Bytes n).extract offset length h = 0 :=
  ext_getElem (fun i hi => by simp)

/-- Taking a part is additive. -/
def extractHom (offset length : Nat) (h : offset + length ≤ n) : Bytes n →+ Bytes length where
  toFun bytes := bytes.extract offset length h
  map_zero' := extract_zero offset length h
  map_add' left right := extract_add left right offset length h

/-- The homomorphism is `extract`. -/
@[simp] theorem extract_hom_apply (offset length : Nat) (h : offset + length ≤ n)
    (bytes : Bytes n) : extractHom offset length h bytes = bytes.extract offset length h := rfl

/-- Two arrays that agree before and from a position are equal. -/
theorem eq_of_extract {left right : Bytes n} (cut rest : Nat) (hcut : cut + rest = n)
    (hfirst : left.extract 0 cut (by omega) = right.extract 0 cut (by omega))
    (hrest : left.extract cut rest (by omega) = right.extract cut rest (by omega)) :
    left = right := by
  apply ext_getElem
  intro i hi
  by_cases h : i < cut
  · have hbyte := congrArg (fun bytes : Bytes cut => bytes[i]) hfirst
    simpa using hbyte
  · have hindex : i - cut < rest := by omega
    have hbyte := congrArg (fun bytes : Bytes rest => bytes[i - cut]) hrest
    simp only [getElem_extract] at hbyte
    simpa [show cut + (i - cut) = i by omega] using hbyte

/-! ## Overwriting a part -/

/-- The array with the bytes from a position on replaced by those of a list. -/
def write (target : Bytes n) (lo : Nat) (source : List UInt8) : Bytes n :=
  ofFn fun k => if lo ≤ k.val then (source[k.val - lo]?).getD target[k] else target[k]

/-- A written byte comes from the source where the source reaches, and from the target elsewhere. -/
theorem getElem_write (target : Bytes n) (lo : Nat) (source : List UInt8) (k : Nat) (hk : k < n) :
    (target.write lo source)[k] =
      if lo ≤ k then (source[k - lo]?).getD target[k] else target[k] := by
  simp [write]

/-- The overwritten bytes. -/
theorem getElem_write_mem (target : Bytes n) {lo : Nat} {source : List UInt8} {k : Nat} (hk : k < n)
    (hlo : lo ≤ k) (hhi : k - lo < source.length) :
    (target.write lo source)[k] = source[k - lo] := by
  rw [getElem_write, if_pos hlo, List.getElem?_eq_getElem hhi]
  rfl

/-- The other bytes. -/
theorem getElem_write_of_not_mem (target : Bytes n) {lo : Nat} {source : List UInt8} {k : Nat}
    (hk : k < n) (h : k < lo ∨ lo + source.length ≤ k) :
    (target.write lo source)[k] = target[k] := by
  rw [getElem_write]
  split
  · rw [List.getElem?_eq_none (by omega)]
    rfl
  · rfl

/-- A part that lies in the overwritten bytes. -/
theorem extract_write (target : Bytes n) (lo : Nat) (source : Bytes m) (h : lo + m ≤ n) :
    (target.write lo source.toList).extract lo m h = source := by
  apply ext_getElem
  intro i hi
  rw [getElem_extract, getElem_write_mem target (by omega) (by omega) (by simp; omega)]
  simp [getElem_eq_toList]

/-- A part that lies outside the overwritten bytes. -/
theorem extract_write_of_disjoint (target : Bytes n) {lo : Nat} {source : List UInt8}
    {offset length : Nat} (h : offset + length ≤ n)
    (hdisjoint : offset + length ≤ lo ∨ lo + source.length ≤ offset) :
    (target.write lo source).extract offset length h = target.extract offset length h := by
  apply ext_getElem
  intro i hi
  rw [getElem_extract, getElem_extract, getElem_write_of_not_mem target _ (by omega)]

/-- Writing nothing changes nothing. -/
@[simp] theorem write_nil (target : Bytes n) (lo : Nat) : target.write lo [] = target := by
  apply ext_getElem
  intro k hk
  rw [getElem_write]
  split <;> rfl

/-- Writing two lists one after the other writes their concatenation. -/
theorem write_write (target : Bytes n) (lo : Nat) (first second : List UInt8) :
    (target.write lo first).write (lo + first.length) second =
      target.write lo (first ++ second) := by
  apply ext_getElem
  intro k hk
  rcases Nat.lt_or_ge k lo with hbefore | hge
  · rw [getElem_write_of_not_mem _ hk (by omega), getElem_write_of_not_mem _ hk (by omega),
      getElem_write_of_not_mem _ hk (by omega)]
  rcases Nat.lt_or_ge k (lo + first.length) with hfirst | hsecond
  · rw [getElem_write_of_not_mem _ hk (by omega), getElem_write, getElem_write, if_pos hge,
      if_pos hge, List.getElem?_append_left (by omega)]
  · have hnone : first[k - lo]? = none := List.getElem?_eq_none (by omega)
    rw [getElem_write, getElem_write, getElem_write, if_pos hsecond, if_pos hge, if_pos hge,
      List.getElem?_append_right (by omega), hnone, Nat.sub_sub]
    rfl

end Bytes

/-! ## Slices -/

/-- The slice conversion `try_into::<[u8; n]>()`. -/
def tryInto (n : Nat) (slice : List UInt8) : Option (Bytes n) :=
  if h : slice.length = n then some ⟨slice, h⟩ else none

/-- The subslice `items[lo..hi]`. -/
def slice (items : List α) (lo hi : Nat) : Run Event Branch (List α) :=
  if lo ≤ hi ∧ hi ≤ items.length then Run.ret ((items.drop lo).take (hi - lo)) []
  else Run.halt .panic

/-- The element `items[i]`. -/
def index (items : List α) (i : Nat) : Run Event Branch α :=
  if h : i < items.length then Run.ret items[i] [] else Run.halt .panic

/-- The assignment `items[i] = value`. -/
def setIndex (items : Vector α n) (i : Nat) (value : α) : Run Event Branch (Vector α n) :=
  if h : i < n then Run.ret (items.set i value) [] else Run.halt .panic

/-- The update `target[i] = change(target[i])` of a byte. -/
def modifyByte (target : Bytes n) (i : Nat) (change : UInt8 → UInt8) :
    Run Event Branch (Bytes n) :=
  if h : i < n then Run.ret (target.set i (change target[i])) [] else Run.halt .panic

/-- `target[lo..hi].copy_from_slice(source)`: panics when the range is out of bounds or has
another length than the source. -/
def copyFromSlice (target : Bytes n) (lo hi : Nat) (source : List UInt8) :
    Run Event Branch (Bytes n) :=
  if h : lo ≤ hi ∧ hi ≤ n ∧ source.length = hi - lo then
    Run.ret ⟨target.toList.take lo ++ source ++ target.toList.drop hi, by simp; omega⟩ []
  else Run.halt .panic

/-- The chunks of `chunks_exact(size)`: the full ones, in order. -/
def chunksExact (size : Nat) (items : List α) : List (List α) :=
  (List.range (items.length / size)).map fun i => (items.drop (i * size)).take size

/-- The array of the first values of a function. -/
def tableOf (n : Nat) (entry : Nat → α) : Vector α n :=
  Vector.ofFn fun i => entry i

/-- The list of a table. -/
theorem toList_table (entry : Nat → α) :
    (tableOf n entry).toList = (List.range n).map entry := by
  apply List.ext_getElem
  · simp
  · intro i _ _
    simp [tableOf]

/-- A constant vector is a table. -/
theorem replicate_eq_table (value : α) : Vector.replicate n value = tableOf n fun _ => value := by
  ext i hi
  simp [tableOf]

/-- Indexing a table evaluates it. -/
theorem index_table (entry : Nat → α) {i : Nat} (h : i < n) :
    (index (tableOf n entry).toList i : Run Event Branch α) = Run.ret (entry i) [] := by
  rw [index, dif_pos (by simpa using h)]
  simp [tableOf]

/-- Setting an entry of a table updates its function. -/
theorem set_table (entry : Nat → α) {i : Nat} (h : i < n) (value : α) :
    (tableOf n entry).set i value = tableOf n (Function.update entry i value) := by
  ext k hk
  rw [Vector.getElem_set]
  simp [tableOf, Function.update_apply, eq_comm]

/-- The checked assignment to a table. -/
theorem set_index_table (entry : Nat → α) {i : Nat} (h : i < n) (value : α) :
    (setIndex (tableOf n entry) i value : Run Event Branch (Vector α n)) =
      Run.ret (tableOf n (Function.update entry i value)) [] := by
  rw [setIndex, dif_pos h, set_table entry h]

/-- An array whose first entries have been computed. -/
def computedUpTo (start : Vector α n) (entry : Fin n → α) (count : Nat) : Vector α n :=
  Vector.ofFn fun i => if i.val < count then entry i else start[i]

/-- Before the first entry there is the start. -/
theorem computed_up_to_zero (start : Vector α n) (entry : Fin n → α) :
    computedUpTo start entry 0 = start := by
  ext i hi
  simp [computedUpTo]

/-- After the last entry there is the whole vector. -/
theorem computed_up_to_all (start : Vector α n) (entry : Fin n → α) :
    computedUpTo start entry n = Vector.ofFn entry := by
  ext i hi
  simp [computedUpTo]

/-- The entry that is computed next still has its start value. -/
theorem getElem_computed_up_to (start : Vector α n) (entry : Fin n → α) (i : Fin n) :
    (computedUpTo start entry i)[i] = start[i] := by
  simp [computedUpTo]

/-- Computing one more entry sets it. -/
theorem computed_up_to_succ (start : Vector α n) (entry : Fin n → α) (i : Fin n) :
    (computedUpTo start entry i).set i (entry i) = computedUpTo start entry (i + 1) := by
  ext k hk
  rw [Vector.getElem_set]
  split
  · rename_i h
    simp [computedUpTo, ← h]
  · have hsame : k < i.val + 1 ↔ k < i.val := by omega
    simp only [computedUpTo, Vector.getElem_ofFn, hsame]

/-- Arrays with the same entries are equal. -/
theorem vector_ext {left right : Vector α n} (h : ∀ i : Fin n, left[i] = right[i]) : left = right :=
  Vector.ext fun i hi => h ⟨i, hi⟩

/-- An array is converted back from its own list. -/
@[simp] theorem try_into_toList (bytes : Bytes n) : tryInto n bytes.toList = some bytes :=
  dif_pos bytes.length_toList

/-- Only the slice of its bytes is converted to an array. -/
theorem try_into_eq_some {items : List UInt8} {bytes : Bytes n} :
    tryInto n items = some bytes ↔ items = bytes.toList := by
  constructor
  · intro h
    unfold tryInto at h
    by_cases hlength : items.length = n
    · rw [dif_pos hlength] at h
      obtain rfl := Option.some.inj h
      rfl
    · rw [dif_neg hlength] at h
      exact nomatch h
  · rintro rfl
    exact try_into_toList bytes

/-- A slice within bounds. -/
theorem slice_of_le {items : List α} {lo hi : Nat} (hlo : lo ≤ hi) (hhi : hi ≤ items.length) :
    (slice items lo hi : Run Event Branch (List α)) =
      Run.ret ((items.drop lo).take (hi - lo)) [] := if_pos ⟨hlo, hhi⟩

/-- A slice of an array that is in bounds is the part at its offset. -/
theorem slice_toList (bytes : Bytes n) {lo hi : Nat} (length : Nat) (h : lo + length ≤ n)
    (hhi : lo + length = hi) :
    (slice bytes.toList lo hi : Run Event Branch (List UInt8)) =
      Run.ret (bytes.extract lo length h).toList [] := by
  rw [slice_of_le (by omega) (by simp; omega), ← hhi, Nat.add_sub_cancel_left]
  rfl

/-- A slice of the list of a vector. -/
theorem slice_vector (items : Vector α n) {lo hi : Nat} (hlo : lo ≤ hi) (hhi : hi ≤ n) :
    (slice items.toList lo hi : Run Event Branch (List α)) =
      Run.ret ((items.toList.drop lo).take (hi - lo)) [] :=
  slice_of_le hlo (by simpa using hhi)

/-- An index within bounds. -/
theorem index_of_lt {items : List α} {i : Nat} (h : i < items.length) :
    (index items i : Run Event Branch α) = Run.ret items[i] [] := dif_pos h

/-- An index into the list of an array. -/
theorem index_toList (bytes : Bytes n) {i : Nat} (h : i < n) :
    (index bytes.toList i : Run Event Branch UInt8) = Run.ret bytes[i] [] :=
  index_of_lt (by simpa using h)

/-- An index into the list of a vector. -/
theorem index_vector (items : Vector α n) {i : Nat} (h : i < n) :
    (index items.toList i : Run Event Branch α) = Run.ret items[i] [] := by
  rw [index_of_lt (by simpa using h)]
  simp

/-- An assignment within bounds. -/
theorem set_index_of_lt (items : Vector α n) {i : Nat} (h : i < n) (value : α) :
    (setIndex items i value : Run Event Branch (Vector α n)) =
      Run.ret (items.set i value) [] := dif_pos h

/-- A byte that is changed within bounds. -/
theorem modify_byte_of_lt (target : Bytes n) {i : Nat} (h : i < n) (change : UInt8 → UInt8) :
    (modifyByte target i change : Run Event Branch (Bytes n)) =
      Run.ret (target.set i (change target[i])) [] := dif_pos h

/-- `copy_from_slice` of a source with the length of the range. -/
theorem copy_from_slice_of_le (target : Bytes n) {lo hi : Nat} {source : List UInt8} (hlo : lo ≤ hi)
    (hhi : hi ≤ n) (hlength : source.length = hi - lo) :
    (copyFromSlice target lo hi source : Run Event Branch (Bytes n)) =
      Run.ret (target.write lo source) [] := by
  rw [copyFromSlice, dif_pos ⟨hlo, hhi, hlength⟩]
  congr 1
  apply Bytes.ext_getElem
  intro k hk
  have hlist : k < target.toList.length := by simpa using hk
  have htake : (target.toList.take lo).length = lo := by
    simp
    omega
  have hfront : (target.toList.take lo ++ source).length = hi := by
    rw [List.length_append]
    omega
  rw [Bytes.getElem_mk, List.get_eq_getElem]
  rcases Nat.lt_or_ge k lo with hbefore | hinside
  · rw [Bytes.getElem_write_of_not_mem target hk (Or.inl hbefore),
      List.getElem_append_left (by dsimp only; omega),
      List.getElem_append_left (by dsimp only; omega), List.getElem_take]
    rfl
  rcases Nat.lt_or_ge k hi with hinside' | hafter
  · rw [Bytes.getElem_write_mem target hk hinside (by omega),
      List.getElem_append_left (by dsimp only; omega),
      List.getElem_append_right (by dsimp only; omega)]
    simp only [htake]
  · rw [Bytes.getElem_write_of_not_mem target hk (Or.inr (by omega)),
      List.getElem_append_right (by dsimp only; omega), List.getElem_drop,
      ← Bytes.getElem_toList _ _ _ hlist]
    simp only [hfront, show hi + (k - hi) = k by omega]

/-! ## Little-endian integers -/

/-- `u16::from_le_bytes([low, high])`. -/
def u16FromLeBytes (low high : UInt8) : UInt16 :=
  low.toUInt16 ||| (high.toUInt16 <<< 8)

/-- `value.to_le_bytes()` of a `u16`. -/
def u16ToLeBytes (value : UInt16) : Bytes 2 :=
  Bytes.pair value.toUInt8 (value >>> 8).toUInt8

/-- `value.to_le_bytes()` of a `u32`. -/
def u32ToLeBytes (value : UInt32) : Bytes 4 :=
  ⟨[value.toUInt8, (value >>> 8).toUInt8, (value >>> 16).toUInt8, (value >>> 24).toUInt8], rfl⟩

/-- `u8::try_from(value)` of a `usize`. -/
def u8TryFrom (value : Nat) : Option UInt8 :=
  if value < 2 ^ 8 then some (UInt8.ofNat value) else none

/-- `u16::try_from(value)` of a `usize`. -/
def u16TryFrom (value : Nat) : Option UInt16 :=
  if value < 2 ^ 16 then some (UInt16.ofNat value) else none

/-- `left.checked_add(right)` of 64-bit `usize` values. -/
def checkedAdd (left right : Nat) : Option Nat :=
  if left + right < 2 ^ 64 then some (left + right) else none

/-- Small numbers fit a `u8`. -/
theorem u8_try_from_of_lt {value : Nat} (h : value < 2 ^ 8) :
    u8TryFrom value = some (UInt8.ofNat value) := if_pos h

/-- Small numbers fit a `u16`. -/
theorem u16_try_from_of_lt {value : Nat} (h : value < 2 ^ 16) :
    u16TryFrom value = some (UInt16.ofNat value) := if_pos h

/-- A sum that fits 64 bits does not overflow. -/
theorem checked_add_of_lt {left right : Nat} (h : left + right < 2 ^ 64) :
    checkedAdd left right = some (left + right) := if_pos h

end Mqom.Rust
