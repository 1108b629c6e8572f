import Mqom.Blc.Commit

/-!
# The layout of an opening

An opening holds the sibling paths of the twelve executions, then their hidden commitments, then
their partial deltas. `OpeningParts.encode` is that layout, and `open` writes it.
-/

namespace Mqom

open Rust Params Library

/-- The parts of an opening. -/
@[ext]
structure OpeningParts where
  paths : Fin 12 → Bytes 176
  hiddenCommitments : Fin 12 → Bytes 32
  partialDeltas : Fin 12 → Bytes 12

namespace OpeningParts

/-- The execution that a byte of an opening belongs to. -/
def ownerOf (i : Nat) : Nat :=
  if i < 2112 then i / 176 else if i < 2496 then (i - 2112) / 32 else (i - 2496) / 12

/-- A byte of an opening. -/
def byteAt (parts : OpeningParts) (i : Nat) (h : i < 2640) : UInt8 :=
  if hpath : i < 2112 then (parts.paths ⟨i / 176, by omega⟩)[i % 176]
  else if hcommitment : i < 2496 then
    have hoffset : (i - 2112) % 32 < 32 := Nat.mod_lt _ (by decide)
    (parts.hiddenCommitments ⟨(i - 2112) / 32, by omega⟩)[(i - 2112) % 32]
  else
    have hoffset : (i - 2496) % 12 < 12 := Nat.mod_lt _ (by decide)
    (parts.partialDeltas ⟨(i - 2496) / 12, by omega⟩)[(i - 2496) % 12]

/-- The bytes of a path stand among the paths. -/
theorem byte_at_path (parts : OpeningParts) {i : Nat} (h : i < 2640) (e : Fin 12) {k : Nat}
    (hk : k < 176) (hi : i = e * 176 + k) : parts.byteAt i h = (parts.paths e)[k] := by
  have hlt : i < 2112 := by omega
  have hexecution : (⟨i / 176, by omega⟩ : Fin 12) = e := Fin.ext (by simp; omega)
  have hoffset : i % 176 = k := by omega
  simp only [byteAt, dif_pos hlt, hexecution, hoffset]

/-- The bytes of a hidden commitment stand behind the paths. -/
theorem byte_at_commitment (parts : OpeningParts) {i : Nat} (h : i < 2640) (e : Fin 12) {k : Nat}
    (hk : k < 32) (hi : i = 2112 + e * 32 + k) :
    parts.byteAt i h = (parts.hiddenCommitments e)[k] := by
  have hnot : ¬ i < 2112 := by omega
  have hlt : i < 2496 := by omega
  have hexecution : (⟨(i - 2112) / 32, by omega⟩ : Fin 12) = e := Fin.ext (by simp; omega)
  have hoffset : (i - 2112) % 32 = k := by omega
  simp only [byteAt, dif_neg hnot, dif_pos hlt, hexecution, hoffset]

/-- The bytes of a partial delta stand at the end. -/
theorem byte_at_delta (parts : OpeningParts) {i : Nat} (h : i < 2640) (e : Fin 12) {k : Nat}
    (hk : k < 12) (hi : i = 2496 + e * 12 + k) :
    parts.byteAt i h = (parts.partialDeltas e)[k] := by
  have hnot : ¬ i < 2112 := by omega
  have hnot' : ¬ i < 2496 := by omega
  have hexecution : (⟨(i - 2496) / 12, by omega⟩ : Fin 12) = e := Fin.ext (by simp; omega)
  have hoffset : (i - 2496) % 12 = k := by omega
  simp only [byteAt, dif_neg hnot, dif_neg hnot', hexecution, hoffset]

/-- Every byte belongs to the part of one execution. -/
theorem byte_cases {i : Nat} (h : i < 2640) :
    (∃ e : Fin 12, ∃ k < 176, i = e * 176 + k) ∨
      (∃ e : Fin 12, ∃ k < 32, i = 2112 + e * 32 + k) ∨
        ∃ e : Fin 12, ∃ k < 12, i = 2496 + e * 12 + k := by
  by_cases hpath : i < 2112
  · exact Or.inl ⟨⟨i / 176, by omega⟩, i % 176, by omega, by simp; omega⟩
  by_cases hcommitment : i < 2496
  · exact Or.inr (Or.inl
      ⟨⟨(i - 2112) / 32, by omega⟩, (i - 2112) % 32, by omega, by simp; omega⟩)
  · exact Or.inr (Or.inr
      ⟨⟨(i - 2496) / 12, by omega⟩, (i - 2496) % 12, by omega, by simp; omega⟩)

/-- The bytes of the first executions of an opening. -/
def encodeUpTo (parts : OpeningParts) (count : Nat) : Bytes 2640 :=
  Bytes.ofFn fun i => if ownerOf i < count then parts.byteAt i i.isLt else 0

/-- The opening with these parts. -/
def encode (parts : OpeningParts) : Bytes 2640 :=
  Bytes.ofFn fun i => parts.byteAt i i.isLt

/-- The parts of an opening that `evaluate_opening` reads. -/
def decode (opening : Bytes 2640) : OpeningParts where
  paths e := opening.extract (e * 176) 176 (opening_path_le e)
  hiddenCommitments e := opening.extract (2112 + e * 32) 32 (by omega)
  partialDeltas e := opening.extract (2496 + e * 12) 12 (by omega)

/-- Before the first execution the opening holds zeros. -/
theorem encode_up_to_zero (parts : OpeningParts) : parts.encodeUpTo 0 = 0 :=
  Bytes.ext_getElem (fun i hi => by simp [encodeUpTo])

/-- After the last execution it is written. -/
theorem encode_up_to_all (parts : OpeningParts) : parts.encodeUpTo 12 = parts.encode := by
  apply Bytes.ext_getElem
  intro i hi
  have howner : ownerOf i < 12 := by
    unfold ownerOf
    split
    · omega
    · split <;> omega
  simp [encodeUpTo, encode, howner]

/-- A byte is written with the execution that it belongs to. -/
theorem getElem_encode_up_to (parts : OpeningParts) (count : Nat) {i : Nat} (h : i < 2640) :
    (parts.encodeUpTo count)[i] = if ownerOf i < count then parts.byteAt i h else 0 := by
  simp [encodeUpTo]

/-- One more execution writes its own bytes. -/
theorem getElem_encode_up_to_succ (parts : OpeningParts) (e : Fin 12) {i : Nat} (h : i < 2640) :
    (parts.encodeUpTo (e + 1))[i] =
      if ownerOf i = e then parts.byteAt i h else (parts.encodeUpTo e)[i] := by
  rw [getElem_encode_up_to, getElem_encode_up_to]
  by_cases hhere : ownerOf i = e
  · rw [if_pos (by omega), if_pos hhere]
  · have hsame : ownerOf i < e.val + 1 ↔ ownerOf i < e.val := by omega
    simp only [hsame, if_neg hhere]

/-- Writing the three parts of the next execution. -/
theorem encode_up_to_succ (parts : OpeningParts) (e : Fin 12) :
    (((parts.encodeUpTo e).write (e * 176) (parts.paths e).toList).write (2112 + e * 32)
        (parts.hiddenCommitments e).toList).write (2496 + e * 12)
        (parts.partialDeltas e).toList = parts.encodeUpTo (e + 1) := by
  have hpath := (parts.paths e).length_toList
  have hcommitment := (parts.hiddenCommitments e).length_toList
  have hdelta := (parts.partialDeltas e).length_toList
  apply Bytes.ext_getElem
  intro i hi
  rw [getElem_encode_up_to_succ]
  split
  · -- a byte of this execution lies in one of the three parts
    rename_i howner
    unfold ownerOf at howner
    obtain ⟨f, k, hk, rfl⟩ | ⟨f, k, hk, rfl⟩ | ⟨f, k, hk, rfl⟩ := byte_cases hi
    · have hf : f = e := Fin.ext (by rw [if_pos (by omega)] at howner; omega)
      subst hf
      rw [Bytes.getElem_write_of_not_mem _ hi (by omega),
        Bytes.getElem_write_of_not_mem _ hi (by omega),
        Bytes.getElem_write_mem _ hi (by omega) (by omega), byte_at_path _ hi f hk rfl]
      simp only [Nat.add_sub_cancel_left]
      rfl
    · have hf : f = e := Fin.ext (by rw [if_neg (by omega), if_pos (by omega)] at howner; omega)
      subst hf
      rw [Bytes.getElem_write_of_not_mem _ hi (by omega),
        Bytes.getElem_write_mem _ hi (by omega) (by omega), byte_at_commitment _ hi f hk rfl]
      simp only [Nat.add_sub_cancel_left]
      rfl
    · have hf : f = e := Fin.ext (by rw [if_neg (by omega), if_neg (by omega)] at howner; omega)
      subst hf
      rw [Bytes.getElem_write_mem _ hi (by omega) (by omega), byte_at_delta _ hi f hk rfl]
      simp only [Nat.add_sub_cancel_left]
      rfl
  · -- a byte of another execution lies in none of them
    rename_i howner
    unfold ownerOf at howner
    rw [Bytes.getElem_write_of_not_mem _ hi (by split_ifs at howner <;> omega),
      Bytes.getElem_write_of_not_mem _ hi (by split_ifs at howner <;> omega),
      Bytes.getElem_write_of_not_mem _ hi (by split_ifs at howner <;> omega)]

/-- The parts are read back as they were written. -/
theorem decode_encode (parts : OpeningParts) : decode parts.encode = parts := by
  refine OpeningParts.ext (funext fun e => ?_) (funext fun e => ?_) (funext fun e => ?_) <;>
    apply Bytes.ext_getElem <;> intro k hk
  · simp only [decode, encode, Bytes.getElem_extract, Bytes.getElem_ofFn]
    exact byte_at_path parts _ e hk rfl
  · simp only [decode, encode, Bytes.getElem_extract, Bytes.getElem_ofFn]
    exact byte_at_commitment parts _ e hk rfl
  · simp only [decode, encode, Bytes.getElem_extract, Bytes.getElem_ofFn]
    exact byte_at_delta parts _ e hk rfl

/-- An opening is determined by its parts. -/
theorem encode_decode (opening : Bytes 2640) : (decode opening).encode = opening := by
  apply Bytes.ext_getElem
  intro i hi
  simp only [encode, Bytes.getElem_ofFn]
  obtain ⟨e, k, hk, rfl⟩ | ⟨e, k, hk, rfl⟩ | ⟨e, k, hk, rfl⟩ := byte_cases hi
  · rw [byte_at_path _ hi e hk rfl]
    simp [decode]
  · rw [byte_at_commitment _ hi e hk rfl]
    simp [decode]
  · rw [byte_at_delta _ hi e hk rfl]
    simp [decode]

end OpeningParts

/-! ## Opening a commitment -/

namespace CommitInput

variable (P : Primitives) (input : CommitInput) (hiddenIndices : Vector UInt16 12)

/-- The parts of the opening of a commitment at some leaves. -/
def openingParts : OpeningParts where
  paths e := pathOf fun k => treeNode P input.salt (executionByte e) (input.rootSeeds P)[e]
    input.delta (sibling (2048 + hiddenIndices[e].toNat) k)
  hiddenCommitments e := input.leafCommitment P e hiddenIndices[e].toNat
  partialDeltas := input.partialDelta P

/-- The call that `open` records for an execution. -/
def openCall (e : Fin 12) : Call :=
  commitCall input.salt (executionByte e) (input.leafSeed P e hiddenIndices[e].toNat)

/-- `open` writes the parts of one execution. -/
theorem open_execution_eq (opening : Bytes 2640) (e : Fin 12)
    (h : hiddenIndices[e].toNat < 2048) :
    openExecution P (input.commitment P) hiddenIndices opening e =
      Run.ret (((opening.write
        (e * 176) ((input.openingParts P hiddenIndices).paths e).toList).write
        (2112 + e * 32) ((input.openingParts P hiddenIndices).hiddenCommitments e).toList).write
        (2496 + e * 12) ((input.openingParts P hiddenIndices).partialDeltas e).toList)
        [input.openCall P hiddenIndices e] := by
  have hlength : ((opening.toList.drop (e * 176)).take (e * 176 + 176 - e * 176)).length = 176 := by
    simp
    omega
  obtain ⟨path, hpath, hwritten⟩ := opening_path_slice P input.salt (executionByte e)
    (input.rootSeeds P)[e] input.delta h (Bytes.mk _ rfl) hlength
  rw [openExecution, u8_try_from_of_lt (by omega), Run.of_option_some, Run.ret_bind]
  dsimp only
  rw [show Blc.pathSizePerExecution = 176 from rfl, show Blc.partialDeltaSize = 12 from rfl,
    show Blc.pathsSize = 2112 from rfl, show Blc.partialDeltasOffset = 2496 from rfl,
    show digestSize = 32 from rfl, show (input.commitment P).salt = input.salt from rfl,
    show (input.commitment P).delta = input.delta from rfl,
    show (input.commitment P).rootSeeds = input.rootSeeds P from rfl,
    show (input.commitment P).partialDeltas[e] = input.partialDelta P e by simp [commitment],
    slice_of_le (by omega) (by simp; omega), Run.ret_bind]
  erw [hpath]
  rw [Run.ret_bind]
  dsimp only
  rw [hwritten, copy_from_slice_of_le _ (by omega) (by omega) (by simp), Run.ret_bind,
    seed_commit_eq, Run.ret_bind, copy_from_slice_of_le _ (by omega) (by omega) (by simp),
    Run.ret_bind, copy_from_slice_of_le _ (by omega) (by omega) (by simp)]
  rfl

/-- `open` stops at an execution whose index is not the one of a leaf. -/
theorem open_execution_of_not_lt (opening : Bytes 2640) (e : Fin 12)
    (h : ¬ hiddenIndices[e].toNat < 2048) :
    openExecution P (input.commitment P) hiddenIndices opening e =
      Run.halt (.none .pathArguments) := by
  rw [openExecution, u8_try_from_of_lt (by omega), Run.of_option_some, Run.ret_bind]
  dsimp only
  rw [show Blc.pathSizePerExecution = 176 from rfl, slice_of_le (by omega) (by simp; omega),
    Run.ret_bind, opening_path_of_not_lt P _ _ _ _ _ _ h]
  rfl

/-- `open` succeeds when every index is the one of a leaf. -/
theorem open_at_eq (h : ∀ e : Fin 12, hiddenIndices[e].toNat < 2048) :
    (input.commitment P).openAt P hiddenIndices =
      Run.ret (input.openingParts P hiddenIndices).encode
        ((List.finRange 12).map (input.openCall P hiddenIndices)) := by
  rw [SigningCommitment.openAt, ← (input.openingParts P hiddenIndices).encode_up_to_zero,
    Run.foldlM_fin_range (input.openingParts P hiddenIndices).encodeUpTo
      (fun e => [input.openCall P hiddenIndices e])
      (fun e => by
        rw [input.open_execution_eq P hiddenIndices _ e (h e), OpeningParts.encode_up_to_succ]),
    OpeningParts.encode_up_to_all, ← List.map_eq_flatMap]

/-- `open` fails when some index is not the one of a leaf. -/
theorem open_at_of_not_lt {e : Fin 12} (h : ¬ hiddenIndices[e].toNat < 2048) :
    ((input.commitment P).openAt P hiddenIndices).outcome = .error (.none .pathArguments) := by
  refine Run.foldlM_outcome_error _ (fun opening f _ => ?_)
    ⟨e, List.mem_finRange e, fun opening => by
      rw [input.open_execution_of_not_lt P hiddenIndices opening e h]
      rfl⟩ 0
  by_cases hlt : hiddenIndices[f].toNat < 2048
  · rw [input.open_execution_eq P hiddenIndices opening f hlt]
    exact Or.inl ⟨_, rfl⟩
  · rw [input.open_execution_of_not_lt P hiddenIndices opening f hlt]
    exact Or.inr rfl

end CommitInput

end Mqom
