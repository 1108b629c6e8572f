import Mqom.Blc.Folding
import Mqom.Prg.Stream

/-!
# Leaves

An expanded leaf is its seed followed by the stream of the execution's generator for that seed. A
revealed leaf is committed and expanded, and the hidden one contributes a given commitment and no
expansion.
-/

namespace Mqom

open Rust Params Library

/-- The number of an execution, as the byte that enters the tweaks. -/
abbrev executionByte (e : Fin 12) : UInt8 := UInt8.ofNat e

/-- The expansion of a leaf. -/
def expandedLeaf (P : Primitives) (salt : Bytes 16) (execution : UInt8) (leafSeed : Bytes 16) :
    Bytes 44 :=
  leafSeed.append (stream P salt execution leafSeed 28)

/-- The call that a leaf commitment records. -/
def commitCall (salt : Bytes 16) (execution : UInt8) (leafSeed : Bytes 16) : Call :=
  .commitSeed (SeedCommitter.new salt execution).first.key
    (SeedCommitter.new salt execution).second.key leafSeed

/-- The generator of an execution, with blocks for the stream of a leaf. -/
theorem leaf_generator_eq (salt : Bytes 16) (execution : UInt8) :
    Generator.new salt execution Blc.leafPrgSize = Run.ret (blockGenerator salt execution 2) [] :=
  generator_new_eq salt execution (by decide)

/-- An expanded leaf starts with its seed. -/
theorem expanded_leaf_seed (P : Primitives) (salt : Bytes 16) (execution : UInt8)
    (leafSeed : Bytes 16) :
    (expandedLeaf P salt execution leafSeed).extract 0 16 leaf_seed_le = leafSeed :=
  Bytes.extract_append_left _ _ _

section

variable (P : Primitives) (salt : Bytes 16) (execution : UInt8)

/-- Committing to a seed records one call. -/
@[simp] theorem seed_commit_eq (leafSeed : Bytes 16) :
    (SeedCommitter.new salt execution).commit P leafSeed =
      Run.ret ((SeedCommitter.new salt execution).commitment P leafSeed)
        [commitCall salt execution leafSeed] := rfl

/-- The generator of an execution expands a leaf. -/
@[simp] theorem expand_leaf_eq (leafSeed : Bytes 16) :
    expandLeaf P (blockGenerator salt execution 2) leafSeed =
      Run.ret (expandedLeaf P salt execution leafSeed) [] := by
  rw [expandLeaf, generator_fill_eq P salt execution leafSeed _ (by omega) (by omega),
    Run.ret_bind]
  rfl

/-- The loop of `commit` on one leaf. -/
theorem commit_leaf_eq (fold : LeafFold) (leafSeed : Bytes 16) (leafIndex : Nat) :
    commitLeaf P (SeedCommitter.new salt execution) (blockGenerator salt execution 2) fold
        (leafSeed, leafIndex) =
      ((fold.absorb ((SeedCommitter.new salt execution).commitment P leafSeed).toList).add
        leafIndex (expandedLeaf P salt execution leafSeed)).after
          [commitCall salt execution leafSeed] := by
  simp [commitLeaf]

/-- The loop of `evaluate_opening` on a revealed leaf. -/
theorem open_leaf_revealed (hiddenIndex : Nat) (hiddenCommitment : List UInt8) (fold : LeafFold)
    (leafSeed : Bytes 16) {leafIndex : Nat} (h : leafIndex ≠ hiddenIndex) :
    openLeaf P (SeedCommitter.new salt execution) (blockGenerator salt execution 2) hiddenIndex
        hiddenCommitment fold (leafSeed, leafIndex) =
      ((fold.absorb ((SeedCommitter.new salt execution).commitment P leafSeed).toList).add
        leafIndex (expandedLeaf P salt execution leafSeed)).after
          [commitCall salt execution leafSeed] := by
  simp [openLeaf, h]

/-- The loop of `evaluate_opening` on the hidden leaf. -/
theorem open_leaf_hidden (committer : SeedCommitter) (generator : Generator) (hiddenIndex : Nat)
    (hiddenCommitment : List UInt8) (fold : LeafFold) (leafSeed : Bytes 16) :
    openLeaf P committer generator hiddenIndex hiddenCommitment fold (leafSeed, hiddenIndex) =
      (fold.absorb hiddenCommitment).add hiddenIndex 0 := by
  simp [openLeaf]

end

/-! ## The folding of the loops -/

/-- The point of the code word of a leaf. -/
def codePoint (leafIndex : Nat) : Gf256x2 :=
  Gf256x2.fromBytes (u16ToLeBytes (UInt16.ofNat (leafIndex ^^^ (leafIndex >>> 1))))

/-- The accumulators hold the leaves of a sequence: all of them, those whose code word has a bit
set, and, once the folded vectors are combined, the unpacked leaves weighted with their points. -/
structure GrayFolded (expanded : Nat → Bytes 44) (fold : LeafFold) : Prop where
  accumulator : fold.accumulator = ∑ j ∈ Finset.range 2048, expanded j
  folding : ∀ k : Fin 11, fold.folding[k] =
    ∑ j ∈ (Finset.range 2048).filter (fun j => (j ^^^ (j >>> 1)).testBit k), expanded j
  combined : ∃ (base : Nat → Vector Gf16 56) (mask : Nat → Vector Gf256x2 8),
    (∀ j, (unpackGf16 ((expanded j).extract 0 28 leaf_base_le).toList (Vector.replicate 56 0) :
      Exec _).outcome = .ok (true, base j)) ∧
    (∀ j, (parseExtensionVector 8 ((expanded j).extract 28 16 leaf_mask_le).toList).outcome =
      .ok (mask j)) ∧
    (combineBasis fold.folding).outcome = .ok (
      Vector.ofFn fun i : Fin 56 => ∑ j ∈ Finset.range 2048, codePoint j * (base j)[i],
      Vector.ofFn fun i : Fin 8 => ∑ j ∈ Finset.range 2048, codePoint j * (mask j)[i])

/-- A whole leaf loop has folded its leaves. -/
theorem fold_at_folded (commitment : Nat → List UInt8) (expanded : Nat → Bytes 44) :
    GrayFolded expanded (foldAt commitment expanded 2048) where
  accumulator := running_sum_eq expanded 2048
  folding k := by
    have hcycle : folding flipBucket expanded 2048 k =
        ∑ j ∈ Finset.range 2048, codeBit j k • expanded j :=
      folding_cycle expanded 2048 k (fun j hj => code_bit_succ hj k) (code_bit_end k)
    rw [foldAt, getElem_fin, Vector.getElem_ofFn, hcycle, Finset.sum_filter]
    refine Finset.sum_congr rfl (fun j hj => ?_)
    have hlt : j < 2 ^ 11 := Finset.mem_range.mp hj
    rw [codeBit, gray_cycle_of_lt hlt, gray, bit]
    split
    · exact one_smul _ _
    · exact zero_smul _ _
  combined := by
    refine ⟨fun j => unpacked 56 ((expanded j).extract 0 28 (by omega)) (by omega),
      fun j => Vector.ofFn fun i => maskAt i (expanded j), ?_, ?_, ?_⟩
    · intro j
      rw [unpack_gf16_eq _ _ rfl (by omega)]
      rfl
    · intro j
      rw [parse_mask]
      rfl
    · rw [foldAt, combine_basis_fold, Run.ret_outcome]
      refine congrArg Except.ok (Prod.ext (vector_ext fun i => ?_) (vector_ext fun i => ?_))
      · rw [getElem_fin, Vector.getElem_ofFn, getElem_fin, Vector.getElem_ofFn, weightedSum]
        refine Finset.sum_congr rfl (fun j _ => ?_)
        rw [Gf16.mul_scalar, getElem_fin, getElem_unpacked]
        rfl
      · rw [getElem_fin, Vector.getElem_ofFn, getElem_fin, Vector.getElem_ofFn, weightedSum]
        refine Finset.sum_congr rfl (fun j _ => ?_)
        rw [getElem_fin, Vector.getElem_ofFn]
        rfl

section

variable (P : Primitives)

/-- Adding the leaves of any sequence one after the other. -/
theorem add_loop_folded (commitment : Nat → List UInt8) (expanded : Nat → Bytes 44) :
    (List.range 2048).foldlM (fun (fold : LeafFold) j =>
        (fold.absorb (commitment j)).add j (expanded j)) LeafFold.new =
      Run.ret (foldAt commitment expanded 2048) [] := by
  rw [← fold_at_zero commitment expanded,
    Run.foldlM_silent (List.range 2048) (foldAt commitment expanded)]
  · rw [List.length_range]
  · intro j hj
    rw [List.length_range] at hj
    rw [List.getElem_range, fold_at_succ commitment expanded hj]

variable (salt : Bytes 16) (execution : UInt8) (leaves : Vector (Bytes 16) 2048)

/-- The leaf loop of `commit`. -/
theorem commit_loop_eq :
    ∃ recorded, leaves.toList.zipIdx.foldlM (commitLeaf P (SeedCommitter.new salt execution)
        (blockGenerator salt execution 2)) LeafFold.new =
      Run.ret (foldAt
        (fun j => ((SeedCommitter.new salt execution).commitment P (leaves.toList.getD j 0)).toList)
        (fun j => expandedLeaf P salt execution (leaves.toList.getD j 0)) 2048) recorded := by
  refine ⟨_, leaf_loop_eq _ _
    (fun j => [commitCall salt execution (leaves.toList.getD j 0)]) (Vector.length_toList) ?_⟩
  intro fold j hj
  rw [commit_leaf_eq, List.getD_eq_getElem _ _ hj]

/-- The leaf loop of `evaluate_opening`. -/
theorem open_loop_eq (hiddenIndex : Nat) (hiddenCommitment : List UInt8) :
    ∃ commitment recorded, leaves.toList.zipIdx.foldlM (openLeaf P
        (SeedCommitter.new salt execution) (blockGenerator salt execution 2) hiddenIndex
        hiddenCommitment) LeafFold.new =
      Run.ret (foldAt commitment (fun j => if j = hiddenIndex then 0
        else expandedLeaf P salt execution (leaves.toList.getD j 0)) 2048) recorded := by
  refine ⟨fun j => if j = hiddenIndex then hiddenCommitment
      else ((SeedCommitter.new salt execution).commitment P (leaves.toList.getD j 0)).toList, _,
    leaf_loop_eq _ _ (fun j => if j = hiddenIndex then []
      else [commitCall salt execution (leaves.toList.getD j 0)]) (Vector.length_toList) ?_⟩
  intro fold j hj
  rw [List.getD_eq_getElem _ _ hj]
  by_cases hhidden : j = hiddenIndex
  · subst hhidden
    rw [open_leaf_hidden, if_pos rfl, if_pos rfl, if_pos rfl, Run.after_nil]
  · rw [open_leaf_revealed P salt execution hiddenIndex hiddenCommitment fold _ hhidden,
      if_neg hhidden, if_neg hhidden, if_neg hhidden]

/-- The leaf loops fold their expanded leaves, whatever these are. In `commit` these are the
expansions of all leaves, and in `evaluate_opening` the hidden one is zero. -/
theorem leaf_loops_fold :
    (∀ (commitment : Nat → List UInt8) (expanded : Nat → Bytes 44), ∃ fold,
      ((List.range 2048).foldlM (fun (fold : LeafFold) j =>
        (fold.absorb (commitment j)).add j (expanded j)) LeafFold.new).outcome = .ok fold ∧
      GrayFolded expanded fold) ∧
    ∀ (salt : Bytes 16) (execution : UInt8) (leaves : Vector (Bytes 16) 2048),
      ∃ generator, (Generator.new salt execution Blc.leafPrgSize).outcome = .ok generator ∧
      (∃ fold expanded, (leaves.toList.zipIdx.foldlM
          (commitLeaf P (SeedCommitter.new salt execution) generator) LeafFold.new).outcome =
            .ok fold ∧
        (∀ j : Fin 2048, (expandLeaf P generator leaves[j]).outcome = .ok (expanded j.val)) ∧
        GrayFolded expanded fold) ∧
      ∀ (hiddenIndex : Nat) (hiddenCommitment : List UInt8), ∃ fold expanded,
        (leaves.toList.zipIdx.foldlM (openLeaf P (SeedCommitter.new salt execution) generator
          hiddenIndex hiddenCommitment) LeafFold.new).outcome = .ok fold ∧
        (∀ j : Fin 2048, j.val = hiddenIndex → expanded j.val = 0) ∧
        (∀ j : Fin 2048, j.val ≠ hiddenIndex →
          (expandLeaf P generator leaves[j]).outcome = .ok (expanded j.val)) ∧
        GrayFolded expanded fold := by
  constructor
  · intro commitment expanded
    rw [add_loop_folded]
    exact ⟨_, rfl, fold_at_folded commitment expanded⟩
  · intro salt execution leaves
    have hexpand : ∀ j : Fin 2048,
        (expandLeaf P (blockGenerator salt execution 2) leaves[j]).outcome =
          .ok (expandedLeaf P salt execution (leaves.toList.getD j 0)) := by
      intro j
      rw [expand_leaf_eq, List.getD_eq_getElem _ _ (by simp)]
      rfl
    refine ⟨_, congrArg Run.outcome (leaf_generator_eq salt execution), ?_, ?_⟩
    · obtain ⟨recorded, hloop⟩ := commit_loop_eq P salt execution leaves
      exact ⟨_, _, congrArg Run.outcome hloop, hexpand, fold_at_folded _ _⟩
    · intro hiddenIndex hiddenCommitment
      obtain ⟨commitment, recorded, hloop⟩ :=
        open_loop_eq P salt execution leaves hiddenIndex hiddenCommitment
      refine ⟨_, _, congrArg Run.outcome hloop, ?_, ?_, fold_at_folded _ _⟩
      · intro j hj
        exact if_pos hj
      · intro j hj
        rw [hexpand j, if_neg hj]

end

end Mqom
