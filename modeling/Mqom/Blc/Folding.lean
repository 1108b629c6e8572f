import Mqom.Field.Packing
import Mqom.Library.Sums
import Mqom.Model.Blc

/-!
# The leaf loops and the folding

Both leaf loops absorb a commitment for each leaf and fold the expanded leaves along the Gray-code
cycle of eleven bits. After the cycle, `combineBasis` gives the sum of the leaves weighted with
the points of their code words.
-/

namespace Mqom

open Rust Params Library

/-! ## Gray-code positions -/

/-- The code word of an index, as the source computes it. -/
theorem gray_of_u16 (leafIndex : UInt16) :
    leafIndex ^^^ (leafIndex >>> 1) = UInt16.ofNat (gray leafIndex.toNat) := by
  have hgray : gray leafIndex.toNat % 65536 = gray leafIndex.toNat :=
    Nat.mod_eq_of_lt (gray_lt_two_pow leafIndex.toNat_lt)
  apply UInt16.toNat_inj.mp
  simp [hgray]
  rfl

/-- `gray_code` of an index. -/
theorem gray_code_eq {leafIndex : Nat} (h : leafIndex < 2 ^ 16) :
    grayCode leafIndex = Run.ret (UInt16.ofNat (gray leafIndex)) [] := by
  rw [grayCode, u16_try_from_of_lt h, Run.of_option_some, Run.ret_bind, gray_of_u16,
    UInt16.toNat_ofNat_of_lt' h]
  rfl

/-- `trailing_zeros` finds the bit of a power of two. -/
theorem trailing_zeros_two_pow : ∀ t : Fin 16, trailingZeros (UInt16.ofNat (2 ^ t.val)) = t := by
  decide

/-- The bit in which the code words of a leaf and of the next one differ. -/
def flipAt (leafIndex : Nat) : Nat :=
  trailingZeros (UInt16.ofNat (grayCycle 11 leafIndex ^^^ grayCycle 11 (leafIndex + 1)))

/-- The code words around a leaf differ exactly at its flip. -/
theorem flip_at_spec {leafIndex : Nat} (h : leafIndex < 2048) :
    flipAt leafIndex < 11 ∧
      grayCycle 11 leafIndex ^^^ grayCycle 11 (leafIndex + 1) = 2 ^ flipAt leafIndex := by
  obtain ⟨t, ht, hflip⟩ := gray_cycle_succ (w := 10) h
  have hzeros := trailing_zeros_two_pow ⟨t, by omega⟩
  rw [flipAt, hflip, hzeros]
  exact ⟨ht, rfl⟩

/-- `gray_code_bit_position` finds the flip of a leaf. -/
theorem gray_code_bit_position_eq {leafIndex : Nat} (h : leafIndex < 2048) :
    grayCodeBitPosition leafIndex = Run.ret (flipAt leafIndex) [] := by
  obtain ⟨hlt, hflip⟩ := flip_at_spec h
  have hposition : trailingZeros (UInt16.ofNat (gray leafIndex) ^^^
      UInt16.ofNat (grayCycle 11 (leafIndex + 1))) = flipAt leafIndex := by
    rw [← gray_cycle_of_lt (w := 11) h, ← UInt16.ofNat_xor]
    rfl
  rw [grayCodeBitPosition, gray_code_eq (by omega), Run.ret_bind]
  by_cases hlast : leafIndex + 1 < nbEvals
  · dsimp only
    rw [if_pos hlast, gray_code_eq (by simp at hlast; omega), Run.ret_bind,
      ← gray_cycle_of_lt (w := 11) hlast, hposition, Run.require_of (by simpa using hlt)]
    rfl
  · have hend : UInt16.ofNat (grayCycle 11 (leafIndex + 1)) = 0 :=
      congrArg UInt16.ofNat (if_neg hlast)
    rw [hend] at hposition
    dsimp only
    rw [if_neg hlast, Run.pure_eq_ret, Run.ret_bind, hposition,
      Run.require_of (by simpa using hlt)]
    rfl

/-- The bits of the code words along the cycle. -/
def codeBit (leafIndex : Nat) (k : Fin 11) : ZMod 2 :=
  bit (grayCycle 11 leafIndex) k

/-- The flip of a leaf, as an index of the folding. -/
def flipBucket (leafIndex : Nat) : Fin 11 :=
  Fin.ofNat 11 (flipAt leafIndex)

/-- The bucket of a leaf is the bit that flips behind it. -/
theorem flip_bucket_val {leafIndex : Nat} (h : leafIndex < 2048) :
    (flipBucket leafIndex).val = flipAt leafIndex :=
  Nat.mod_eq_of_lt (flip_at_spec h).1

/-- From one leaf to the next, one bit of the code changes. -/
theorem code_bit_succ {leafIndex : Nat} (h : leafIndex < 2048) (k : Fin 11) :
    codeBit (leafIndex + 1) k =
      codeBit leafIndex k + if k = flipBucket leafIndex then 1 else 0 := by
  have hsame : k = flipBucket leafIndex ↔ k.val = flipAt leafIndex := by
    rw [Fin.ext_iff, flip_bucket_val h]
  rw [codeBit, codeBit, bit_gray_cycle_succ (flip_at_spec h).2]
  simp only [hsame]

/-- The code ends with zeros. -/
theorem code_bit_end (k : Fin 11) : codeBit 2048 k = 0 := by
  rw [codeBit, show (2048 : Nat) = 2 ^ 11 from rfl, gray_cycle_end, bit_zero]

/-! ## The leaf loops -/

variable {n : Nat}

/-- `xor_bytes` adds arrays of one length. -/
@[simp] theorem xor_bytes_eq (destination source : Bytes n) :
    xorBytes destination source.toList = Run.ret (destination + source) [] := by
  rw [xorBytes, dif_pos source.length_toList]
  rfl

/-- The accumulators after some leaves. -/
def foldAt (commitment : Nat → List UInt8) (expanded : Nat → Bytes 44) (count : Nat) :
    LeafFold where
  commitmentHash := ⟨[0x06] :: (List.range count).map commitment⟩
  accumulator := runningSum expanded count
  folding := Vector.ofFn (folding flipBucket expanded count)

/-- Before the first leaf nothing is folded. -/
theorem fold_at_zero (commitment : Nat → List UInt8) (expanded : Nat → Bytes 44) :
    foldAt commitment expanded 0 = LeafFold.new := by
  have hfolding : Vector.ofFn (folding flipBucket expanded 0) = Vector.replicate 11 0 := by
    ext1 i hi
    simp [folding]
  rw [foldAt, hfolding]
  rfl

/-- Absorbing the commitment of the next leaf and adding its expansion. -/
theorem fold_at_succ (commitment : Nat → List UInt8) (expanded : Nat → Bytes 44) {leafIndex : Nat}
    (h : leafIndex < 2048) :
    ((foldAt commitment expanded leafIndex).absorb (commitment leafIndex)).add leafIndex
        (expanded leafIndex) =
      Run.ret (foldAt commitment expanded (leafIndex + 1)) [] := by
  have hbucket := flip_bucket_val h
  have hlt := (flip_at_spec h).1
  rw [LeafFold.add, xor_bytes_eq, Run.ret_bind, gray_code_bit_position_eq h, Run.ret_bind,
    index_vector _ hlt, Run.ret_bind, xor_bytes_eq, Run.ret_bind, set_index_of_lt _ hlt,
    Run.ret_bind]
  refine congrArg (fun fold => Run.ret fold []) (LeafFold.ext ?_ rfl ?_)
  · simp [foldAt, LeafFold.absorb, Shake128State.absorb, List.range_succ]
  · apply Vector.ext
    intro k hk
    have hhere : (⟨k, hk⟩ : Fin 11) = flipBucket leafIndex ↔ flipAt leafIndex = k := by
      rw [Fin.ext_iff, hbucket, eq_comm]
    rw [Vector.getElem_set]
    simp only [foldAt, LeafFold.absorb, Vector.getElem_ofFn, folding, hhere]
    split
    · rename_i heq
      subst heq
      rfl
    · rfl

/-- The leaf loops. Each leaf is committed and expanded, whatever its seed is read from. -/
theorem leaf_loop_eq {leaves : List (Bytes 16)}
    {step : LeafFold → Bytes 16 × Nat → Exec LeafFold} (commitment : Nat → List UInt8)
    (expanded : Nat → Bytes 44) (recorded : Nat → List Call) (hlength : leaves.length = 2048)
    (hstep : ∀ fold j (h : j < leaves.length), step fold (leaves[j], j) =
      (((fold.absorb (commitment j)).add j (expanded j)).after (recorded j))) :
    leaves.zipIdx.foldlM step LeafFold.new =
      Run.ret (foldAt commitment expanded 2048) ((List.range 2048).flatMap recorded) := by
  rw [← fold_at_zero commitment expanded,
    Run.foldlM_trace leaves.zipIdx (foldAt commitment expanded) recorded]
  · rw [List.length_zipIdx, hlength]
  · intro j hj
    rw [List.length_zipIdx] at hj
    rw [List.getElem_zipIdx, Nat.zero_add, hstep _ j hj, fold_at_succ _ _ (by omega)]
    simp

/-! ## Combining the folded vectors -/

/-- The embedded element at a position of the base vector of an expanded leaf. -/
def baseAt (i : Fin 56) : Bytes 44 →+ Gf256x2 :=
  Gf16.toExt.toAddMonoidHom.comp
    ((nibbleHom i (by omega)).comp (Bytes.extractHom 0 28 leaf_base_le))

/-- The element at a position of the mask vector of an expanded leaf. -/
def maskAt (i : Fin 8) : Bytes 44 →+ Gf256x2 :=
  (extensionHom i (by omega)).comp (Bytes.extractHom 28 16 leaf_mask_le)

/-- What is read at a position of the base vector. -/
theorem base_at_apply (i : Fin 56) (bytes : Bytes 44) :
    baseAt i bytes = Gf16.toExt (nibble (bytes.extract 0 28 leaf_base_le) i (by omega)) := rfl

/-- What is read at a position of the masks. -/
theorem mask_at_apply (i : Fin 8) (bytes : Bytes 44) :
    maskAt i bytes = extensionAt (bytes.extract 28 16 leaf_mask_le) i (by omega) := rfl

/-- The base part of an expanded leaf. -/
theorem slice_base (bytes : Bytes 44) :
    (slice bytes.toList 0 Blc.baseVectorSize : Exec (List UInt8)) =
      Run.ret (bytes.extract 0 28 leaf_base_le).toList [] :=
  slice_toList _ 28 (by decide) rfl

/-- The mask part of an expanded leaf. -/
theorem slice_mask (bytes : Bytes 44) :
    (slice bytes.toList Blc.baseVectorSize Blc.expandedLeafSize : Exec (List UInt8)) =
      Run.ret (bytes.extract 28 16 leaf_mask_le).toList [] :=
  slice_toList _ 16 (by decide) rfl

/-- The mask vector of an expanded leaf. -/
theorem parse_mask (bytes : Bytes 44) :
    parseExtensionVector 8 (bytes.extract 28 16 leaf_mask_le).toList =
      Run.ret (Vector.ofFn fun i => maskAt i bytes) [] :=
  parse_extension_vector_eq _ rfl

/-- The basis that the buckets are combined with is the points of the powers of two. -/
theorem basis_eq : ∀ k : Fin 11,
    Gf256x2.fromBytes (u16ToLeBytes (1 <<< UInt16.ofNat k)) = point (2 ^ k.val) := by
  decide

/-- The sums of the loop over the folded vectors after some of them. -/
def combinedUpTo (folding : Vector (Bytes 44) 11) (count : Nat) :
    Vector Gf256x2 56 × Vector Gf256x2 8 :=
  (Vector.ofFn fun i => sumUpTo (fun k : Fin 11 => point (2 ^ k.val) * baseAt i folding[k]) count,
    Vector.ofFn fun i => sumUpTo (fun k : Fin 11 => point (2 ^ k.val) * maskAt i folding[k]) count)

/-- Before the first bucket nothing is combined. -/
theorem combined_up_to_zero (folding : Vector (Bytes 44) 11) :
    combinedUpTo folding 0 = (Vector.replicate 56 0, Vector.replicate 8 0) := by
  refine Prod.ext (Vector.ext fun i hi => ?_) (Vector.ext fun i hi => ?_)
  · simp only [combinedUpTo, Vector.getElem_ofFn, sum_up_to_zero, Vector.getElem_replicate]
  · simp only [combinedUpTo, Vector.getElem_ofFn, sum_up_to_zero, Vector.getElem_replicate]

/-- The loop over the folded vectors adds them up with the points of the powers of two. -/
theorem combine_basis_eq (folding : Vector (Bytes 44) 11) :
    combineBasis folding =
      Run.ret (Vector.ofFn fun i => ∑ k : Fin 11, point (2 ^ k.val) * baseAt i folding[k],
        Vector.ofFn fun i => ∑ k : Fin 11, point (2 ^ k.val) * maskAt i folding[k]) [] := by
  rw [combineBasis, ← combined_up_to_zero folding, Run.foldlM_fin_range (combinedUpTo folding)
    (fun _ => [])]
  · simp only [combinedUpTo, sum_up_to_all, Run.flatMap_nil]
  · intro k
    dsimp only
    rw [slice_base, Run.ret_bind, unpack_gf16_eq _ _ rfl (by decide), Run.ret_bind]
    dsimp only
    rw [Run.require_of rfl, Run.ret_bind, slice_mask, Run.ret_bind, parse_mask, Run.ret_bind,
      basis_eq]
    refine congrArg (fun sums => Run.ret sums [])
      (Prod.ext (Vector.ext fun i hi => ?_) (Vector.ext fun i hi => ?_))
    · simp [combinedUpTo, sum_up_to_succ, base_at_apply, mul_comm]
    · simp [combinedUpTo, sum_up_to_succ]

/-! ## The weighted sum of the leaves -/

/-- The sum of what is read from the leaves, weighted with the points of their code words. -/
def weightedSum (read : Bytes 44 →+ Gf256x2) (expanded : Nat → Bytes 44) : Gf256x2 :=
  ∑ j ∈ Finset.range 2048, point (gray j) * read (expanded j)

/-- Folding along the cycle and combining the folded vectors gives the weighted sum. -/
theorem sum_folding_eq (read : Bytes 44 →+ Gf256x2) (expanded : Nat → Bytes 44) :
    ∑ k : Fin 11, point (2 ^ k.val) * read (folding flipBucket expanded 2048 k) =
      weightedSum read expanded := by
  have hfold := sum_folding_cycle expanded
    (fun k : Fin 11 => (AddMonoidHom.mulLeft (point (2 ^ k.val))).comp read)
    (fun j (hj : j < 2048) => code_bit_succ hj) code_bit_end
  simp only [AddMonoidHom.comp_apply, AddMonoidHom.coe_mulLeft] at hfold
  rw [hfold, weightedSum]
  refine Finset.sum_congr rfl (fun j hj => ?_)
  have hlt : j < 2 ^ 11 := Finset.mem_range.mp hj
  simp only [← smul_mul_assoc]
  rw [← Finset.sum_mul, ← gray_cycle_of_lt hlt, ← sum_bit_point (gray_cycle_lt 11 j)]
  rfl

/-- What `combineBasis` returns after a whole leaf loop. -/
theorem combine_basis_fold (expanded : Nat → Bytes 44) :
    combineBasis (Vector.ofFn (folding flipBucket expanded 2048)) =
      Run.ret (Vector.ofFn fun i => weightedSum (baseAt i) expanded,
        Vector.ofFn fun i => weightedSum (maskAt i) expanded) [] := by
  rw [combine_basis_eq]
  simp only [getElem_fin, Vector.getElem_ofFn, Fin.eta, sum_folding_eq]

end Mqom
