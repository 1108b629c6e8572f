import Mqom.Blc.Evaluate
import Mqom.Model.Verify

/-!
# Opening what was committed

An opening of a commitment gives `evaluate_opening` the leaves that `commit` expanded, the hidden
one excepted. The recomputed commitment is the commitment, and the evaluations lie on the lines
through the masks whose slopes are the secret and the masks `u_one`.
-/

namespace Mqom

open Rust Params Library

/-- The verifier's evaluation point is the point of the code word. -/
theorem evaluation_point_eq (hiddenIndex : UInt16) :
    evaluationPoint hiddenIndex = point (gray hiddenIndex.toNat) := by
  rw [evaluationPoint, gray_of_u16]
  rfl

/-- A list of a multiple of some length is the concatenation of its parts of that length. -/
theorem flatten_parts {α : Type} (size count : Nat) (items : List α)
    (h : items.length = count * size) :
    ((List.range count).map fun i => (items.drop (i * size)).take size).flatten = items := by
  induction count generalizing items with
  | zero =>
      rw [Nat.zero_mul, List.length_eq_zero_iff] at h
      simp [h]
  | succ count ih =>
      rw [Nat.succ_mul] at h
      have hrest := ih (items.drop size) (by simp; omega)
      simp only [List.drop_drop] at hrest
      rw [List.range_succ_eq_map, List.map_cons, List.flatten_cons, List.map_map, Nat.zero_mul,
        List.drop_zero]
      conv_rhs => rw [← List.take_append_drop size items, ← hrest]
      refine congrArg (fun parts => items.take size ++ List.flatten parts)
        (List.map_congr_left fun i _ => ?_)
      rw [Function.comp_apply, Nat.succ_mul, Nat.add_comm]

/-- The last bytes of an opening are its partial deltas in order. -/
theorem partial_deltas_flatten (opening : Bytes 2640) :
    ((List.finRange 12).map fun e =>
        ((OpeningParts.decode opening).partialDeltas e).toList).flatten =
      (opening.extract 2496 144 opening_deltas_le).toList := by
  rw [← flatten_parts 12 12 (opening.extract 2496 144 (by omega)).toList (by simp),
    ← List.map_coe_finRange_eq_range, List.map_map]
  refine congrArg List.flatten (List.map_congr_left fun e _ => ?_)
  have hpart : (opening.extract 2496 144 (by omega)).extract (e * 12) 12 (by omega) =
      (OpeningParts.decode opening).partialDeltas e := Bytes.extract_extract _ _ _
  rw [← hpart, Bytes.toList_extract]
  rfl

namespace CommitInput

variable (P : Primitives) (input : CommitInput) (hiddenIndices : Vector UInt16 12)

/-! ## The line of the signer -/

variable (e : Fin 12)

/-- The seeds of the leaves add up to the first bytes of the secret. -/
theorem total_first :
    (input.total P e).extract 0 16 leaf_seed_le =
      input.serializedSecret.extract 0 16 secret_delta_le := by
  have hsum := map_sum (Bytes.extractHom 0 16 (by omega)) (input.expanded P e)
    (Finset.range 2048)
  simp only [Bytes.extract_hom_apply, expanded, expanded_leaf_seed] at hsum
  exact hsum.trans (sum_tree_leaves P input.salt (executionByte e) (input.rootSeeds P)[e]
    input.delta)

/-- The partial delta corrects the sum of the leaves to the secret. -/
theorem total_corrected :
    (input.total P e + deltaOffset (input.partialDelta P e)).extract 0 28 (by omega) =
      input.serializedSecret := by
  apply Bytes.eq_of_extract 16 12 rfl
  · rw [Bytes.extract_extract, Bytes.extract_add, delta_offset_first, add_zero, total_first]
  · rw [Bytes.extract_extract, Bytes.extract_add, delta_offset_rest, partialDelta, add_comm,
      add_assoc, Bytes.add_self, add_zero]

/-- Read at a position of the base vector, the corrected sum is the secret. -/
theorem base_at_corrected (i : Fin 56) :
    baseAt i (input.total P e + deltaOffset (input.partialDelta P e)) =
      Gf16.toExt input.secret[i] := by
  rw [base_at_apply, total_corrected, serializedSecret, nibble_packed _ _ i.isLt]
  rfl

/-! ## What the opening reveals -/

variable (h : ∀ e : Fin 12, hiddenIndices[e].toNat < 2048)

/-- The opening of a commitment, given to `evaluate_opening`. -/
def evaluateInput : EvaluateInput :=
  ⟨input.salt, (input.openingParts P hiddenIndices).encode, hiddenIndices, h⟩

/-- The verifier reads the parts that the signer wrote. -/
theorem evaluate_input_parts :
    (input.evaluateInput P hiddenIndices h).parts = input.openingParts P hiddenIndices :=
  OpeningParts.decode_encode _

/-- Among them are the partial deltas. -/
theorem evaluate_partial_delta :
    (input.evaluateInput P hiddenIndices h).parts.partialDeltas e = input.partialDelta P e := by
  rw [evaluate_input_parts]
  rfl

/-- A revealed leaf has the seed that was committed. -/
theorem evaluate_leaf_seed {j : Nat} (hj : j < 2048) (hne : j ≠ hiddenIndices[e].toNat) :
    (input.evaluateInput P hiddenIndices h).leafSeed P e j = input.leafSeed P e j := by
  rw [EvaluateInput.leafSeed, evaluate_input_parts]
  exact forest_leaf_of_tree P input.salt (executionByte e) 0 (h e) (input.rootSeeds P)[e]
    input.delta hj hne

/-- A revealed leaf expands as it did for the signer. -/
theorem evaluate_expanded {j : Nat} (hj : j < 2048) (hne : j ≠ hiddenIndices[e].toNat) :
    (input.evaluateInput P hiddenIndices h).expanded P e j = input.expanded P e j := by
  have hhidden : ¬ j = (input.evaluateInput P hiddenIndices h).hidden e := hne
  rw [EvaluateInput.expanded, if_neg hhidden, evaluate_leaf_seed P input hiddenIndices e h hj hne]
  rfl

/-- The commitment of every leaf is recomputed or stands in the opening. -/
theorem evaluate_leaf_commitment {j : Nat} (hj : j < 2048) :
    (input.evaluateInput P hiddenIndices h).leafCommitment P e j = input.leafCommitment P e j := by
  rw [EvaluateInput.leafCommitment]
  split
  · rename_i hhidden
    rw [evaluate_input_parts, hhidden]
    rfl
  · rename_i hne
    rw [evaluate_leaf_seed P input hiddenIndices e h hj hne]
    rfl

/-- The leaf hashes are those of the signer. -/
theorem evaluate_leaf_hash :
    (input.evaluateInput P hiddenIndices h).leafHash P e =
      (input.committed P e).leafCommitmentHash := by
  have hparts : (input.evaluateInput P hiddenIndices h).leafParts P e = input.leafParts P e := by
    refine congrArg (List.cons [0x06]) (List.map_congr_left fun j hj => ?_)
    rw [evaluate_leaf_commitment P input hiddenIndices e h (List.mem_range.mp hj)]
  rw [EvaluateInput.leafHash, hparts]
  rfl

/-- The recomputed commitment is the one that was opened. -/
theorem evaluate_digest :
    (input.evaluateInput P hiddenIndices h).digest P = (input.commitment P).commitment := by
  have hdeltas : ((input.evaluateInput P hiddenIndices h).opening.extract 2496 144
      (by omega)).toList =
        ((List.finRange 12).map fun e => (input.partialDelta P e).toList).flatten := by
    rw [← partial_deltas_flatten]
    refine congrArg List.flatten (List.map_congr_left fun e _ => ?_)
    rw [← evaluate_partial_delta P input hiddenIndices e h]
    rfl
  have hhashes : ((List.finRange 12).map fun e =>
      ((input.evaluateInput P hiddenIndices h).leafHash P e).toList) =
        (List.finRange 12).map fun e => (input.committed P e).leafCommitmentHash.toList :=
    List.map_congr_left fun e _ => by rw [evaluate_leaf_hash]
  have hparts : ((input.evaluateInput P hiddenIndices h).overallParts P).flatten =
      (input.overallParts P).flatten := by
    rw [EvaluateInput.overallParts, overallParts, List.flatten_append, List.flatten_append, hhashes,
      ← hdeltas, List.flatten_singleton]
  rw [EvaluateInput.digest, hparts]
  rfl

/-- What is read from an opening lies on a line through what the signer reads. -/
theorem evaluation_at_line (read : Bytes 44 →+ Gf256x2) :
    (input.evaluateInput P hiddenIndices h).evaluationAt P e read =
      weightedSum read (input.expanded P e) +
        evaluationPoint hiddenIndices[e] *
          read (input.total P e + deltaOffset (input.partialDelta P e)) := by
  rw [evaluation_point_eq, EvaluateInput.evaluation_at_line P _ e
    (fun j hj hne => input.evaluate_expanded P hiddenIndices e h hj hne), evaluate_partial_delta]
  rfl

/-- The opened base vector lies on the line through the base masks whose slope is the secret. -/
theorem opened_base (e : Fin 12) (i : Fin 56) :
    ((input.evaluateInput P hiddenIndices h).opened P).x[e][i] =
      (input.commitment P).xZero[e][i] +
        evaluationPoint hiddenIndices[e] * Gf16.toExt input.secret[i] := by
  have hline := input.evaluation_at_line P hiddenIndices e h (baseAt i)
  rw [CommitInput.base_at_corrected] at hline
  simp only [EvaluateInput.opened, EvaluateInput.evaluated, commitment, committed,
    getElem_fin, Vector.getElem_ofFn, Fin.eta]
  exact hline

/-- The opened masks lie on the line of the two masks of the signer. -/
theorem opened_mask (e : Fin 12) (k : Fin 8) :
    ((input.evaluateInput P hiddenIndices h).opened P).u[e][k] =
      (input.commitment P).uZero[e][k] +
        evaluationPoint hiddenIndices[e] * (input.commitment P).uOne[e][k] := by
  have hline := input.evaluation_at_line P hiddenIndices e h (maskAt k)
  rw [mask_at_offset] at hline
  simp only [EvaluateInput.opened, EvaluateInput.evaluated, commitment, committed,
    getElem_fin, Vector.getElem_ofFn, Fin.eta]
  exact hline

end CommitInput

/-- Opening a commitment at the leaves `hiddenIndices` evaluates the committed lines at their
points, and every other array of indices is refused. -/
theorem commit_open_evaluate (P : Primitives) (masterSeed salt : Bytes 16)
    (secret : Vector Gf16 56) (hiddenIndices : Vector UInt16 12) :
    ∃ c, (commit P masterSeed salt secret).outcome = .ok c ∧
      ((∀ e : Fin 12, hiddenIndices[e].toNat < nbEvals) →
        ∃ opening opened, (c.openAt P hiddenIndices).outcome = .ok opening ∧
          (evaluateOpening P salt c.commitment opening.toList hiddenIndices).outcome =
            .ok opened ∧
          ∀ e : Fin 12, (evaluationPoint hiddenIndices[e]).toBytes =
              u16ToLeBytes (hiddenIndices[e] ^^^ (hiddenIndices[e] >>> 1)) ∧
            (∀ i : Fin 56, opened.x[e][i] =
              c.xZero[e][i] + evaluationPoint hiddenIndices[e] * (secret[i] : Gf16)) ∧
            ∀ k : Fin 8, opened.u[e][k] =
              c.uZero[e][k] + evaluationPoint hiddenIndices[e] * c.uOne[e][k]) ∧
      ((∃ e : Fin 12, ¬ hiddenIndices[e].toNat < nbEvals) →
        (c.openAt P hiddenIndices).outcome = .error (.none .pathArguments)) := by
  let input : CommitInput := ⟨masterSeed, salt, secret⟩
  have hcommit : commit P masterSeed salt secret = _ := input.commit_eq P
  refine ⟨input.commitment P, by rw [hcommit, Run.ret_outcome], fun h => ?_,
    fun ⟨e, he⟩ => input.open_at_of_not_lt P hiddenIndices he⟩
  let opened := input.evaluateInput P hiddenIndices h
  refine ⟨opened.opening, opened.opened P, by rw [input.open_at_eq P hiddenIndices h]; rfl, ?_,
    fun e => ⟨Gf256x2.to_bytes_from_bytes _, fun i => ?_, fun k => ?_⟩⟩
  · have haccepted := opened.evaluate_opening_eq P (input.commitment P).commitment
    rw [if_pos (input.evaluate_digest P hiddenIndices h)] at haccepted
    exact congrArg Run.outcome haccepted
  · rw [Gf16.mul_scalar]
    exact input.opened_base P hiddenIndices h e i
  · exact input.opened_mask P hiddenIndices h e k

end Mqom
