import Mqom.Blc.Leaves
import Mqom.Blc.Tree

/-!
# The commitment of the signer

`commit` succeeds on every input. Its executions are described by the leaves of their trees: the
masks are the weighted sums of the expanded leaves, and the partial delta corrects the sum of the
leaves to the secret, of which the first sixteen bytes are the delta of every tree.
-/

namespace Mqom

open Rust Params Library

/-- The arguments of `commit`. -/
structure CommitInput where
  masterSeed : Bytes 16
  salt : Bytes 16
  secret : Vector Gf16 56

namespace CommitInput

variable (P : Primitives) (input : CommitInput)

/-- The packed secret. -/
def serializedSecret : Bytes 28 :=
  packed 28 input.secret

/-- The label of the root of every tree. -/
def delta : Bytes 16 :=
  input.serializedSecret.extract 0 16 secret_delta_le

/-- The root seeds of the executions. -/
def rootSeeds : Vector (Bytes 16) 12 :=
  Vector.ofFn fun e =>
    (stream P 0 0 input.masterSeed 192).extract (16 * e) 16 (execution_part_le e)

variable (e : Fin 12)

/-- The seed of a leaf. -/
def leafSeed (j : Nat) : Bytes 16 :=
  treeNode P input.salt (executionByte e) (input.rootSeeds P)[e] input.delta (2048 + j)

/-- The expansion of a leaf. -/
def expanded (j : Nat) : Bytes 44 :=
  expandedLeaf P input.salt (executionByte e) (input.leafSeed P e j)

/-- The commitment to a leaf. -/
def leafCommitment (j : Nat) : Bytes 32 :=
  (SeedCommitter.new input.salt (executionByte e)).commitment P (input.leafSeed P e j)

/-- The sum of the expanded leaves. -/
def total : Bytes 44 :=
  ∑ j ∈ Finset.range 2048, input.expanded P e j

/-- The correction of the rest of the secret. -/
def partialDelta : Bytes 12 :=
  input.serializedSecret.extract 16 12 secret_tail_le +
    (input.total P e).extract 16 12 leaf_tail_le

/-- The strings that the leaf hash of an execution absorbs. -/
def leafParts : List (List UInt8) :=
  [0x06] :: (List.range 2048).map fun j => (input.leafCommitment P e j).toList

/-- What `commit` computes for an execution. -/
def committed : CommittedExecution where
  xZero := Vector.ofFn fun i => weightedSum (baseAt i) (input.expanded P e)
  uZero := Vector.ofFn fun i => weightedSum (maskAt i) (input.expanded P e)
  uOne := Vector.ofFn fun i => maskAt i (input.total P e)
  partialDelta := input.partialDelta P e
  leafCommitmentHash := P.shake128 (input.leafParts P e).flatten 32

/-- The calls that `commit` records for an execution. -/
def executionCalls : List Call :=
  (List.range 2048).map (fun j => commitCall input.salt (executionByte e) (input.leafSeed P e j)) ++
    [.shake128 .leafHash (input.leafParts P e)]

/-- One execution of `commit` succeeds and commits to its leaves. -/
theorem commit_execution_eq :
    commitExecution P input.salt input.serializedSecret input.delta (input.rootSeeds P) e =
      Run.ret (input.committed P e) (input.executionCalls P e) := by
  rw [commitExecution, u8_try_from_of_lt (by omega), Run.of_option_some, Run.ret_bind,
    fully_expand_tree_eq, Run.ret_bind, slice_vector _ (by decide) (by decide), Run.ret_bind,
    show 4096 - nbEvals = 2048 from rfl, show nbEvals = 2048 from rfl, expanded_leaves,
    Run.require_of (length_leaf_list _), Run.ret_bind]
  dsimp only
  rw [leaf_generator_eq, Run.ret_bind,
    leaf_loop_eq (fun j => (input.leafCommitment P e j).toList) (input.expanded P e)
      (fun j => [commitCall input.salt (executionByte e) (input.leafSeed P e j)])
      (length_leaf_list _) (fun fold j h => by
        rw [getElem_leaf_list, commit_leaf_eq]
        rfl),
    Run.ret_bind, Shake128State.squeeze_eq, Run.ret_bind]
  have haccumulator : (foldAt (fun j => (input.leafCommitment P e j).toList) (input.expanded P e)
      2048).accumulator = input.total P e := running_sum_eq _ _
  rw [haccumulator,
    show (foldAt (fun j => (input.leafCommitment P e j).toList) (input.expanded P e) 2048).folding =
      Vector.ofFn (folding flipBucket (input.expanded P e) 2048) from rfl,
    combine_basis_fold, Run.ret_bind]
  dsimp only
  rw [slice_mask, Run.ret_bind, parse_mask, Run.ret_bind]
  simp only [Run.pure_eq_ret, Run.after_ret, List.append_nil, List.nil_append,
    ← List.map_eq_flatMap]
  rfl

omit e

/-- The strings that the first commitment absorbs. -/
def overallParts : List (List UInt8) :=
  [0x07] :: (List.finRange 12).map (fun e => (input.committed P e).leafCommitmentHash.toList) ++
    (List.finRange 12).map (fun e => (input.partialDelta P e).toList)

/-- The commitment that `commit` returns. -/
def commitment : SigningCommitment where
  commitment := P.shake128 (input.overallParts P).flatten 32
  xZero := Vector.ofFn fun e => (input.committed P e).xZero
  uZero := Vector.ofFn fun e => (input.committed P e).uZero
  uOne := Vector.ofFn fun e => (input.committed P e).uOne
  salt := input.salt
  delta := input.delta
  rootSeeds := input.rootSeeds P
  partialDeltas := Vector.ofFn (input.partialDelta P)

/-- The calls that `commit` records. -/
def calls : List Call :=
  (List.finRange 12).flatMap (input.executionCalls P) ++
    [.shake128 .overallCommitment (input.overallParts P)]

/-- `commit` succeeds on every input. -/
theorem commit_eq :
    commit P input.masterSeed input.salt input.secret =
      Run.ret (input.commitment P) (input.calls P) := by
  rw [commit, pack_gf16_eq _ _ rfl (by decide), Run.ret_bind]
  dsimp only
  rw [Run.require_of rfl, Run.ret_bind, prg_fill_eq P 0 0 _ _ (by decide), Run.ret_bind]
  dsimp only
  rw [Run.require_of rfl, Run.ret_bind]
  rw [show Vector.ofFnM (commitExecution P input.salt (packed 28 input.secret)
      ((packed 28 input.secret).extract 0 16 (by omega))
      (Vector.ofFn fun e : Fin 12 =>
        (stream P 0 0 input.masterSeed 192).extract (16 * e) 16 (by omega))) =
      Run.ret (Vector.ofFn (input.committed P))
        ((List.finRange 12).flatMap (input.executionCalls P))
      from Run.of_fn_m_eq_ret _ _ (input.commit_execution_eq P), Run.ret_bind]
  rw [Shake128State.foldl_absorb_map, Shake128State.foldl_absorb_map, Shake128State.squeeze_eq,
    Run.ret_bind]
  simp only [Vector.toList_ofFn, List.ofFn_eq_map, Vector.map_ofFn,
    Run.pure_eq_ret, Run.after_ret, List.append_nil, List.nil_append]
  rfl

end CommitInput

end Mqom
