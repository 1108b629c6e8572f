import Mqom.Blc.Forest
import Mqom.Blc.Leaves
import Mqom.Blc.Opening
import Mqom.Library.Line

/-!
# Evaluating an opening

`evaluate_opening` up to its comparison succeeds on every opening of the right length when the
hidden indices are indices of leaves. What it reads at a position is the weighted sum of the
revealed leaves, corrected by the sum of the revealed leaves and the partial delta times the point
of the hidden leaf.
-/

namespace Mqom

open Rust Params Library

/-- The arguments of `evaluate_opening` that pass its checks of lengths and indices. -/
@[ext]
structure EvaluateInput where
  salt : Bytes 16
  opening : Bytes 2640
  hiddenIndices : Vector UInt16 12
  hidden_lt : ∀ e : Fin 12, hiddenIndices[e].toNat < 2048

/-- The bytes that a partial delta adds to the sum of the expanded leaves. -/
def deltaOffset (partialDelta : Bytes 12) : Bytes 44 :=
  ((0 : Bytes 16).append partialDelta).append (0 : Bytes 16)

namespace EvaluateInput

variable (P : Primitives) (input : EvaluateInput) (e : Fin 12)

/-- The parts of the opening. -/
def parts : OpeningParts :=
  OpeningParts.decode input.opening

/-- The hidden index of an execution. -/
def hidden : Nat :=
  input.hiddenIndices[e].toNat

/-- The point of the hidden leaf. -/
def hiddenPoint : Gf256x2 :=
  point (gray (input.hidden e))

/-- The seed of a leaf of the forest, zero for the hidden one. -/
def leafSeed (j : Nat) : Bytes 16 :=
  (forest P input.salt (executionByte e) 0 (input.parts.paths e) (input.hidden e) (2048 + j)).getD 0

/-- The expansion of a revealed leaf, zero for the hidden one. -/
def expanded (j : Nat) : Bytes 44 :=
  if j = input.hidden e then 0
  else expandedLeaf P input.salt (executionByte e) (input.leafSeed P e j)

/-- The commitment of a leaf. The one of the hidden leaf stands in the opening. -/
def leafCommitment (j : Nat) : Bytes 32 :=
  if j = input.hidden e then input.parts.hiddenCommitments e
  else (SeedCommitter.new input.salt (executionByte e)).commitment P (input.leafSeed P e j)

/-- The sum of the revealed leaves and the partial delta. -/
def adjustedTotal : Bytes 44 :=
  ∑ j ∈ Finset.range 2048, input.expanded P e j + deltaOffset (input.parts.partialDeltas e)

/-- What `evaluate_opening` computes at a position of the leaves. -/
def evaluationAt (read : Bytes 44 →+ Gf256x2) : Gf256x2 :=
  weightedSum read (input.expanded P e) + input.hiddenPoint e * read (input.adjustedTotal P e)

/-- The strings that the leaf hash of an execution absorbs. -/
def leafParts : List (List UInt8) :=
  [0x06] :: (List.range 2048).map fun j => (input.leafCommitment P e j).toList

/-- The leaf hash of an execution. -/
def leafHash : Bytes 32 :=
  P.shake128 (input.leafParts P e).flatten 32

/-- What `evaluate_opening` computes for an execution. -/
def evaluated : EvaluatedExecution where
  x := Vector.ofFn fun i => input.evaluationAt P e (baseAt i)
  u := Vector.ofFn fun i => input.evaluationAt P e (maskAt i)
  leafCommitmentHash := input.leafHash P e

/-- The calls that `evaluate_opening` records on a leaf. -/
def leafCalls (j : Nat) : List Call :=
  if j = input.hidden e then []
  else [commitCall input.salt (executionByte e) (input.leafSeed P e j)]

/-- The calls that `evaluate_opening` records for an execution. -/
def executionCalls : List Call :=
  (List.range 2048).flatMap (input.leafCalls P e) ++ [.shake128 .leafHash (input.leafParts P e)]

/-- The leaf loop of `evaluate_opening` on one leaf. -/
theorem open_leaf_eq (fold : LeafFold) (j : Nat) :
    openLeaf P (SeedCommitter.new input.salt (executionByte e))
        (blockGenerator input.salt (executionByte e) 2) (input.hidden e)
        (input.parts.hiddenCommitments e).toList fold (input.leafSeed P e j, j) =
      ((fold.absorb (input.leafCommitment P e j).toList).add j (input.expanded P e j)).after
        (input.leafCalls P e j) := by
  by_cases hhidden : j = input.hidden e
  · rw [leafCommitment, expanded, leafCalls, if_pos hhidden, if_pos hhidden, if_pos hhidden,
      hhidden, open_leaf_hidden, Run.after_nil]
  · rw [leafCommitment, expanded, leafCalls, if_neg hhidden, if_neg hhidden, if_neg hhidden,
      open_leaf_revealed _ _ _ _ _ _ _ hhidden]

end EvaluateInput

/-- A partial delta does not touch the seed. -/
theorem delta_offset_first (partialDelta : Bytes 12) :
    (deltaOffset partialDelta).extract 0 16 leaf_seed_le = 0 := by
  apply Bytes.ext_getElem
  intro i hi
  rw [Bytes.getElem_extract, deltaOffset,
    Bytes.getElem_append_left _ _ (0 + i) (by omega) (by omega),
    Bytes.getElem_append_left _ _ (0 + i) (by omega) (by omega)]
  simp

/-- It is added to the bytes behind the seed. -/
theorem delta_offset_rest (partialDelta : Bytes 12) :
    (deltaOffset partialDelta).extract 16 12 leaf_tail_le = partialDelta := by
  apply Bytes.ext_getElem
  intro i hi
  rw [Bytes.getElem_extract, deltaOffset,
    Bytes.getElem_append_left _ _ (16 + i) (by omega) (by omega),
    Bytes.getElem_append_right _ _ i (by omega) hi]

/-- The base bytes that `evaluate_opening` adjusts by the partial delta. -/
theorem adjusted_base_eq (accumulator : Bytes 44) (partialDelta : Bytes 12) :
    (accumulator.extract 0 16 leaf_seed_le).append
        (accumulator.extract 16 12 leaf_tail_le + partialDelta) =
      (accumulator + deltaOffset partialDelta).extract 0 28 leaf_base_le := by
  apply Bytes.eq_of_extract 16 12 rfl
  · refine (Bytes.extract_append_left _ _ _).trans ?_
    rw [Bytes.extract_extract, Bytes.extract_add, delta_offset_first, add_zero]
  · refine (Bytes.extract_append_right _ _ _).trans ?_
    rw [Bytes.extract_extract, Bytes.extract_add, delta_offset_rest]

/-- The partial delta does not touch the mask. -/
theorem mask_at_offset (accumulator : Bytes 44) (partialDelta : Bytes 12) (i : Fin 8) :
    maskAt i (accumulator + deltaOffset partialDelta) = maskAt i accumulator := by
  have hmask : (deltaOffset partialDelta).extract 28 16 (by omega) = 0 :=
    Bytes.extract_append_right _ _ _
  rw [mask_at_apply, Bytes.extract_add, hmask, add_zero, mask_at_apply]

namespace EvaluateInput

variable (P : Primitives) (input : EvaluateInput) (e : Fin 12)

/-- `evaluate_opening` on one execution. -/
theorem evaluate_execution_eq :
    evaluateExecution P input.salt input.opening.toList input.hiddenIndices e =
      Run.ret (input.evaluated P e) (input.executionCalls P e) := by
  have hhidden : input.hidden e < 2048 := input.hidden_lt e
  have haccumulator : (foldAt (fun j => (input.leafCommitment P e j).toList) (input.expanded P e)
      2048).accumulator = ∑ j ∈ Finset.range 2048, input.expanded P e j := running_sum_eq _ _
  have hpoint : Gf256x2.fromBytes (u16ToLeBytes (UInt16.ofNat (gray (input.hidden e)))) =
      input.hiddenPoint e := rfl
  have hdelta : input.opening.extract (2496 + e * 12) 12 (by omega) =
      input.parts.partialDeltas e := rfl
  rw [evaluateExecution, u8_try_from_of_lt (by omega), Run.of_option_some, Run.ret_bind]
  dsimp only
  rw [show input.hiddenIndices[e].toNat = input.hidden e from rfl,
    show Blc.pathSizePerExecution = 176 from rfl, show Blc.partialDeltaSize = 12 from rfl,
    show Blc.pathsSize = 2112 from rfl, show Blc.partialDeltasOffset = 2496 from rfl,
    show digestSize = 32 from rfl, Run.require_of (show input.hidden e < nbEvals from hhidden),
    Run.ret_bind, slice_toList _ 176 (by omega) rfl, Run.ret_bind,
    partially_expand_tree_eq P input.salt (executionByte e) 0 _ hhidden, Run.ret_bind,
    slice_toList _ 32 (by omega) rfl, Run.ret_bind, slice_toList _ 12 (by omega) rfl, Run.ret_bind,
    leaf_generator_eq, Run.ret_bind,
    leaf_loop_eq (fun j => (input.leafCommitment P e j).toList) (input.expanded P e)
      (input.leafCalls P e) (length_leaf_list _) (fun fold j h => by
        rw [getElem_leaf_list]
        exact input.open_leaf_eq P e fold j),
    Run.ret_bind, Shake128State.squeeze_eq, Run.ret_bind, haccumulator,
    show (foldAt (fun j => (input.leafCommitment P e j).toList) (input.expanded P e) 2048).folding =
      Vector.ofFn (folding flipBucket (input.expanded P e) 2048) from rfl,
    combine_basis_fold, Run.ret_bind, gray_code_eq (by omega), Run.ret_bind]
  dsimp only
  rw [xor_bytes_eq, Run.ret_bind, adjusted_base_eq, unpack_gf16_eq (m := 28) _ _ rfl (by decide),
    Run.ret_bind]
  dsimp only
  rw [Run.require_of rfl, Run.ret_bind, slice_mask, Run.ret_bind, parse_mask, Run.ret_bind]
  simp only [Run.pure_eq_ret, Run.after_ret, List.append_nil, List.nil_append]
  -- the commitments and the calls agree; the evaluations do position by position
  refine congrArg₂ Run.ret (EvaluatedExecution.ext (Vector.ext fun i hi => ?_)
    (Vector.ext fun i hi => ?_) rfl) rfl
  · simp only [evaluated, Vector.getElem_ofFn, getElem_fin, getElem_unpacked, Gf16.scalar_mul,
      evaluationAt, adjustedTotal, base_at_apply, hpoint, hdelta]
    rw [mul_comm (input.hiddenPoint e)]
  · simp only [evaluated, Vector.getElem_ofFn, getElem_fin, evaluationAt, adjustedTotal,
      mask_at_offset, hpoint]

/-- The strings that the first commitment absorbs. -/
def overallParts : List (List UInt8) :=
  [0x07] :: (List.finRange 12).map (fun e => (input.leafHash P e).toList) ++
    [(input.opening.extract 2496 144 opening_deltas_le).toList]

/-- The first commitment, recomputed. -/
def digest : Bytes 32 :=
  P.shake128 (input.overallParts P).flatten 32

/-- The opened evaluations. -/
def opened : OpenedEvaluations where
  x := Vector.ofFn fun e => (input.evaluated P e).x
  u := Vector.ofFn fun e => (input.evaluated P e).u

/-- The calls that `evaluate_opening` records. -/
def calls : List Call :=
  (List.finRange 12).flatMap (input.executionCalls P) ++
    [.shake128 .overallCommitment (input.overallParts P)]

/-- `evaluate_opening` up to its comparison. -/
theorem reconstruct_opening_eq :
    reconstructOpening P input.salt input.opening.toList input.hiddenIndices =
      Run.ret (input.digest P, input.opened P) (input.calls P) := by
  rw [reconstructOpening, Run.require_of (by simp), Run.ret_bind,
    Run.of_fn_m_eq_ret _ _ (input.evaluate_execution_eq P), Run.ret_bind]
  dsimp only
  rw [Shake128State.foldl_absorb_map,
    slice_toList _ 144 (by decide) (by decide), Run.ret_bind,
    Shake128State.squeeze_eq, Run.ret_bind]
  simp only [Vector.toList_ofFn, List.ofFn_eq_map, Vector.map_ofFn,
    Run.pure_eq_ret, Run.after_ret, List.append_nil, List.nil_append]
  rfl

/-- `evaluate_opening` accepts when the recomputed commitment is the expected one. -/
theorem evaluate_opening_eq (expected : Bytes 32) :
    evaluateOpening P input.salt expected input.opening.toList input.hiddenIndices =
      (if input.digest P = expected then Run.ret (input.opened P) []
        else Run.halt (.none .firstCommitment)).after (input.calls P) := by
  rw [evaluateOpening, reconstruct_opening_eq, Run.ret_bind]
  dsimp only
  split
  · rename_i h
    rw [Run.require_of h]
    rfl
  · rename_i h
    rw [Run.require_of_not h]
    rfl

/-- The calls do not depend on the comparison. -/
theorem evaluate_opening_events (expected : Bytes 32) :
    (evaluateOpening P input.salt expected input.opening.toList input.hiddenIndices).events =
      input.calls P := by
  rw [evaluate_opening_eq, Run.after_events]
  split
  · rw [Run.ret_events, List.append_nil]
  · rw [Run.halt_events, List.append_nil]

/-- The hidden leaf may be replaced by any item. What is read lies on the line that the items and
the partial delta determine. -/
theorem evaluation_at_line {item : Nat → Bytes 44}
    (hitem : ∀ j < 2048, j ≠ input.hidden e → input.expanded P e j = item j)
    (read : Bytes 44 →+ Gf256x2) :
    input.evaluationAt P e read =
      weightedSum read item + input.hiddenPoint e *
        read (∑ j ∈ Finset.range 2048, item j + deltaOffset (input.parts.partialDeltas e)) := by
  have hlt : input.hidden e < 2048 := input.hidden_lt e
  have hzero : input.expanded P e (input.hidden e) = 0 := if_pos rfl
  have hline := punctured_sum (fun j => point (gray j)) read hlt hzero hitem
    (deltaOffset (input.parts.partialDeltas e))
  rw [evaluationAt, adjustedTotal, hiddenPoint, weightedSum, weightedSum]
  with_reducible exact hline

end EvaluateInput

/-! ## Accepted openings -/

/-- `evaluate_opening` stops at an execution whose index is not the one of a leaf. -/
theorem evaluate_execution_of_not_lt (P : Primitives) (salt : Bytes 16) (opening : List UInt8)
    (hiddenIndices : Vector UInt16 12) (e : Fin 12) (h : ¬ hiddenIndices[e].toNat < 2048) :
    evaluateExecution P salt opening hiddenIndices e = Run.halt (.none .hiddenIndex) := by
  rw [evaluateExecution, u8_try_from_of_lt (by omega), Run.of_option_some, Run.ret_bind]
  dsimp only
  rw [Run.require_of_not (show ¬ hiddenIndices[e].toNat < nbEvals from h)]
  rfl

/-- An execution reads no hidden index but its own. -/
theorem evaluate_execution_of_lt (P : Primitives) (salt : Bytes 16) (opening : Bytes 2640)
    (hiddenIndices : Vector UInt16 12) (e : Fin 12) (h : hiddenIndices[e].toNat < 2048) :
    ∃ input : EvaluateInput,
      evaluateExecution P salt opening.toList hiddenIndices e =
        Run.ret (input.evaluated P e) (input.executionCalls P e) := by
  have hreplicate : ∀ f : Fin 12, (Vector.replicate 12 hiddenIndices[e])[f] = hiddenIndices[e] :=
    fun f => Vector.getElem_replicate f.isLt
  refine ⟨⟨salt, opening, Vector.replicate 12 hiddenIndices[e], fun f => ?_⟩, ?_⟩
  · rw [hreplicate]
    exact h
  · rw [← EvaluateInput.evaluate_execution_eq, evaluateExecution, evaluateExecution, hreplicate]

/-- The indices of an accepted opening are indices of leaves. -/
theorem hidden_lt_of_accepted {P : Primitives} {salt : Bytes 16} {expected : Bytes 32}
    {opening : List UInt8} {hiddenIndices : Vector UInt16 12} {opened : OpenedEvaluations}
    (h : (evaluateOpening P salt expected opening hiddenIndices).outcome = .ok opened)
    (e : Fin 12) : hiddenIndices[e].toNat < 2048 := by
  obtain ⟨reconstructed, hreconstruct, _⟩ := Run.bind_outcome_ok.mp h
  obtain ⟨_, _, hrest⟩ := Run.bind_outcome_ok.mp hreconstruct
  obtain ⟨executions, hexecutions, _⟩ := Run.bind_outcome_ok.mp hrest
  by_contra hlt
  have hexecution := Run.of_fn_m_outcome_ok hexecutions e
  rw [evaluate_execution_of_not_lt P salt opening hiddenIndices e hlt] at hexecution
  exact nomatch hexecution

/-- What `evaluate_opening` returns for an accepted opening, and that the recomputed commitment was
the expected one. -/
theorem EvaluateInput.of_accepted {P : Primitives} {expected : Bytes 32} {input : EvaluateInput}
    {opened : OpenedEvaluations}
    (h : (evaluateOpening P input.salt expected input.opening.toList input.hiddenIndices).outcome =
      .ok opened) :
    input.digest P = expected ∧ opened = input.opened P := by
  rw [evaluate_opening_eq] at h
  split at h
  · rename_i hdigest
    exact ⟨hdigest, (Except.ok.inj h).symm⟩
  · exact nomatch h

end Mqom
