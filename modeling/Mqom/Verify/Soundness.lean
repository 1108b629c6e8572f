import Mqom.Mq.Masking
import Mqom.Verify.Binding

/-!
# Special soundness

Three accepted signatures with the same commitments, opened at three different leaves of an
execution, determine a vector that solves the batched equations: the sum of all leaves of the
execution and the partial delta.
-/

namespace Mqom

open Rust Params Library

variable (P : Primitives)

/-! ## Leaves and challenges -/

/-- What `evaluate_opening` expands a leaf to. The partial expansion of the sibling path gives the
seed of the leaf, and the generator of the execution expands it. -/
def LeafExpansion (salt : Bytes 16) (opening : Bytes 2640) (e : Fin 12) (hiddenIndex j : Nat)
    (leaf : Bytes 44) : Prop :=
  ∃ (leaves : List (Bytes 16)) (leafSeed : Bytes 16) (generator : Generator),
    (partiallyExpandTree P salt (opening.extract (e * 176) 176 (opening_path_le e)).toList
      (executionByte e) hiddenIndex).outcome = .ok leaves ∧
    leaves[j]? = some leafSeed ∧
    (Generator.new salt (executionByte e) Blc.leafPrgSize).outcome = .ok generator ∧
    (expandLeaf P generator leafSeed).outcome = .ok leaf

/-- A revealed leaf is expanded. -/
theorem EvaluateInput.leaf_expansion (input : EvaluateInput) (e : Fin 12) {j : Nat} (hj : j < 2048)
    (hne : j ≠ input.hidden e) :
    LeafExpansion P input.salt input.opening e (input.hidden e) j (input.expanded P e j) := by
  have htree := partially_expand_tree_eq P input.salt (executionByte e) 0 (input.parts.paths e)
    (input.hidden_lt e)
  refine ⟨_, input.leafSeed P e j, _, congrArg Run.outcome htree, ?_,
    congrArg Run.outcome (leaf_generator_eq input.salt (executionByte e)), ?_⟩
  · rw [List.getElem?_eq_getElem (by simpa using hj), getElem_leaf_list]
    rfl
  · rw [expand_leaf_eq, EvaluateInput.expanded, if_neg hne]
    rfl

/-- Different indices have different evaluation points. -/
theorem evaluation_point_injective : Function.Injective evaluationPoint := by
  intro index index' h
  rw [evaluation_point_eq, evaluation_point_eq] at h
  have hgray := point_injective (gray_lt_two_pow index.toNat_lt) (gray_lt_two_pow index'.toNat_lt) h
  exact UInt16.toNat_inj.mp (gray_injective hgray)

namespace VerifyInput

variable {P}

/-- `parse_challenge` on the Fiat-Shamir hash. -/
theorem challenge_outcome (input : VerifyInput) {hiddenIndices : Vector UInt16 12} :
    (do
      let hash ← fiatShamirHash P input.publicKey.toList input.firstCommitment.toList
        input.secondCommitment.toList input.message
      parseChallenge P hash input.nonce).outcome = .ok hiddenIndices ↔
      input.grindingPasses P ∧ hiddenIndices = input.hiddenIndices P := by
  rw [fiat_shamir_hash_eq, Run.ret_bind, Run.after_outcome, parse_challenge_eq, Run.after_outcome]
  constructor
  · intro h
    split at h
    · rename_i hgrinding
      exact ⟨hgrinding, (Except.ok.inj h).symm⟩
    · exact nomatch h
  · rintro ⟨hgrinding, rfl⟩
    exact congrArg Run.outcome (if_pos hgrinding)

/-! ## Three runs -/

section Runs

variable {input : Fin 3 → VerifyInput} {publicKey : Bytes 60} {salt : Bytes 16}
variable {firstCommitment secondCommitment : Bytes 32} {calls : Set Call} {e : Fin 12}
variable (haccepted : ∀ k, (input k).Accepted P)
variable (hfirst : ∀ k, (input k).firstCommitment = firstCommitment)
variable (hcalls : ∀ k, ∀ call ∈ (verify P (input k).publicKey.toList (input k).message
  (input k).signature.toList).events, call ∈ calls)
variable (hdigests : NoDigestCollision P [.responseCommitment, .leafHash, .overallCommitment] calls)
include haccepted hfirst hcalls hdigests

/-- The runs agree on the partial delta and, when one of them reveals it, on a leaf. -/
theorem leaves_of_accepted (hsalt : ∀ k, (input k).salt = salt)
    (hseeds : NoSeedCollision P salt calls) :
    ∃ (leaf : Nat → Bytes 44) (partialDelta : Bytes 12), ∀ k,
      (∀ j < 2048, j ≠ ((input k).evaluateInput P).hidden e →
        ((input k).evaluateInput P).expanded P e j = leaf j) ∧
      ((input k).evaluateInput P).parts.partialDeltas e = partialDelta := by
  have hopenings : NoDigestCollision P [.leafHash, .overallCommitment] calls :=
    hdigests.mono (List.subset_cons_self _ _)
  have hevaluate : ∀ k, ∀ call ∈ ((input k).evaluateInput P).calls P, call ∈ calls :=
    fun k call hcall => hcalls k call ((haccepted k).evaluate_calls_subset call hcall)
  have hdigest : ∀ k, ((input k).evaluateInput P).digest P = firstCommitment :=
    fun k => (haccepted k).first.trans (hfirst k)
  refine ⟨revealedLeaf P (fun k => (input k).evaluateInput P) e,
    ((input 0).evaluateInput P).parts.partialDeltas e, fun k => ⟨fun j hj hne => ?_, ?_⟩⟩
  · have hleaf := expanded_eq_revealed_leaf hopenings hseeds hevaluate hdigest hsalt k e hj hne
    exact hleaf
  · exact partial_delta_agree hopenings (hevaluate k) (hevaluate 0)
      ((hdigest k).trans (hdigest 0).symm) e

/-- The slope of the line that the runs open leaves no error in the batched equations. -/
theorem error_of_accepted {masterSeed : Bytes 32} {output : Vector Gf256x2 14}
    (hmaster : ∀ k, (input k).masterSeed = masterSeed)
    (houtput : ∀ k, (input k).publicOutput = output)
    (hsecond : ∀ k, (input k).secondCommitment = secondCommitment)
    (hdistinct : ∀ k l, k ≠ l →
      ((input k).hiddenIndices P)[e] ≠ ((input l).hiddenIndices P)[e])
    {leaf : Nat → Bytes 44} {partialDelta : Bytes 12}
    (hleaves : ∀ k, (∀ j < 2048, j ≠ ((input k).evaluateInput P).hidden e →
        ((input k).evaluateInput P).expanded P e j = leaf j) ∧
      ((input k).evaluateInput P).parts.partialDeltas e = partialDelta)
    (component : Fin 8) :
    ∑ j, (systemOf P firstCommitment masterSeed).weight component j *
      (((systemOf P firstCommitment masterSeed).equation j).valueAt
        (baseSlope leaf partialDelta) + output[j]) = 0 := by
  have hresponses : ∀ k, (input k).alphaZero P = (input 0).alphaZero P ∧
      (input k).serializedAlphaOne = (input 0).serializedAlphaOne := fun k =>
    responses_agree hdigests (haccepted k) (haccepted 0) (hcalls k) (hcalls 0)
      ((hsecond k).trans (hsecond 0).symm)
  have hpoints : Function.Injective fun k => evaluationPoint ((input k).hiddenIndices P)[e] := by
    intro k l h
    by_contra hne
    exact hdistinct k l hne (evaluation_point_injective h)
  -- the second commitment fixes both responses, so all runs recompute the same one
  have hrecomputed : ∀ k, (systemOf P firstCommitment masterSeed).recomputed (input 0).alphaOne
      ((input k).hiddenIndices P) (((input k).evaluateInput P).opened P) output =
        (input 0).alphaZero P := by
    intro k
    have hone : (input k).alphaOne = (input 0).alphaOne := by
      rw [alphaOne, alphaOne, (hresponses k).2]
    have hzero := (hresponses k).1
    rw [alphaZero, hfirst k, hmaster k, houtput k, hone] at hzero
    exact hzero
  exact (systemOf P firstCommitment masterSeed).solves_of_three_points hpoints
    (fun k i => EvaluateInput.opened_base_line (hleaves k).1 (hleaves k).2 i)
    (fun k => EvaluateInput.opened_mask_line (hleaves k).1 (hleaves k).2 component) hrecomputed

end Runs

end VerifyInput

/-- Special soundness. Three accepted signatures with one salt and one pair of commitments, whose
hidden indices in some execution differ, determine a solution of the batched equations, unless
their runs contain a collision: all leaves of the execution and the partial delta added up. -/
theorem special_soundness (publicKey : Bytes 60) (message : Fin 3 → List UInt8)
    (signature : Fin 3 → Bytes 2916) {salt : Bytes 16} {firstCommitment secondCommitment : Bytes 32}
    (haccepted : ∀ k,
      (verify P publicKey.toList (message k) (signature k).toList).outcome = .ok true)
    (hsalt : ∀ k, (signature k).extract 0 16 (by omega) = salt)
    (hfirst : ∀ k, (signature k).extract 16 32 (by omega) = firstCommitment)
    (hsecond : ∀ k, (signature k).extract 48 32 (by omega) = secondCommitment)
    {hiddenIndices : Fin 3 → Vector UInt16 12}
    (hhidden : ∀ k, (do
      let hash ← fiatShamirHash P publicKey.toList firstCommitment.toList secondCommitment.toList
        (message k)
      parseChallenge P hash ((signature k).extract 2912 4 (by omega))).outcome =
        .ok (hiddenIndices k))
    (e : Fin 12) (hdistinct : ∀ k l, k ≠ l → (hiddenIndices k)[e] ≠ (hiddenIndices l)[e])
    (hdigests : NoDigestCollision P [.responseCommitment, .leafHash, .overallCommitment]
      {call | ∃ k, call ∈ (verify P publicKey.toList (message k) (signature k).toList).events})
    (hseeds : NoSeedCollision P salt
      {call | ∃ k, call ∈ (verify P publicKey.toList (message k) (signature k).toList).events}) :
    ∃ (leaf : Nat → Bytes 44) (partialDelta : Bytes 12) (secret : Vector Gf16 56)
      (batching : Vector (Vector Gf256x2 14) 8) (output : Vector Gf256x2 14)
      (value : Fin 14 → Gf256x2),
      (∀ k, ∀ j < 2048, j ≠ (hiddenIndices k)[e].toNat →
        LeafExpansion P salt ((signature k).extract 272 2640 (by omega)) e
          (hiddenIndices k)[e].toNat j (leaf j)) ∧
      (∀ k, (signature k).extract (272 + (2496 + e * 12)) 12 (by omega) = partialDelta) ∧
      (unpackGf16 (((∑ j ∈ Finset.range 2048, leaf j).extract 0 16 (by omega)).append
          ((∑ j ∈ Finset.range 2048, leaf j).extract 16 12 (by omega) + partialDelta)).toList
        (Vector.replicate 56 0) : Exec _).outcome = .ok (true, secret) ∧
      (expandBatching P firstCommitment).outcome = .ok batching ∧
      (parseExtensionVector 14 (publicKey.extract 32 28 (by omega)).toList).outcome = .ok output ∧
      (∀ j : Fin 14, (do
        let equation ← expandEquation P (publicKey.extract 0 32 (by omega)) j
        equation.evaluateBase secret).outcome = .ok (value j)) ∧
      ∀ component : Fin 8, ∑ j : Fin 14, batching[component][j] * (value j + output[j]) = 0 := by
  let input : Fin 3 → VerifyInput := fun k => ⟨publicKey, message k, signature k⟩
  have hinput : ∀ k, (input k).Accepted P := fun k => VerifyInput.verify_accepts.mp (haccepted k)
  have hindices : ∀ k, hiddenIndices k = (input k).hiddenIndices P := by
    intro k
    have hchallenge := hhidden k
    rw [← hfirst k, ← hsecond k] at hchallenge
    exact ((input k).challenge_outcome.mp hchallenge).2
  obtain rfl : hiddenIndices = fun k => (input k).hiddenIndices P := funext hindices
  have hcalls : ∀ k, ∀ call ∈ (verify P (input k).publicKey.toList (input k).message
      (input k).signature.toList).events, call ∈ {call | ∃ k, call ∈
        (verify P publicKey.toList (message k) (signature k).toList).events} :=
    fun k call hcall => ⟨k, hcall⟩
  -- the leaves that the runs share give one line, which is opened at three points
  obtain ⟨leaf, partialDelta, hleaves⟩ :=
    VerifyInput.leaves_of_accepted hinput hfirst hcalls hdigests hsalt hseeds
  have hmaster : ∀ k, (input k).masterSeed = publicKey.extract 0 32 (by omega) := fun _ => rfl
  have houtput : ∀ k, (input k).publicOutput =
      parsed 14 (publicKey.extract 32 28 (by omega)) (by omega) := fun _ => rfl
  have herror := VerifyInput.error_of_accepted hinput hfirst hcalls hdigests hmaster houtput
    hsecond hdistinct hleaves
  refine ⟨leaf, partialDelta, baseSlope leaf partialDelta, batchingOf P firstCommitment, _,
    fun j => (equationOf P (publicKey.extract 0 32 (by omega)) j).valueAt
      (baseSlope leaf partialDelta), fun k j hj hne => ?_, fun k => ?_, ?_, ?_, ?_, fun j => ?_,
    herror⟩
  · have hexpansion := ((input k).evaluateInput P).leaf_expansion P e hj hne
    rw [(hleaves k).1 j hj hne] at hexpansion
    rw [← hsalt k]
    exact hexpansion
  · have hpart : ((signature k).extract 272 2640 (by omega)).extract (2496 + e * 12) 12 (by omega) =
        (signature k).extract (272 + (2496 + e * 12)) 12 (by omega) := Bytes.extract_extract _ _ _
    exact hpart.symm.trans (hleaves k).2
  · rw [adjusted_base_eq, unpack_gf16_eq _ _ rfl (by omega)]
    rfl
  · rw [expand_batching_eq]
    rfl
  · rw [parse_extension_vector_eq _ rfl]
    rfl
  · rw [expand_equation_eq P _ j.isLt, Run.ret_bind, PackedEquation.evaluate_base_eq]
    rfl

/-! ## A sample -/

/-- The hidden indices of the sample signatures. -/
def sampleHidden (k : Fin 3) : Vector UInt16 12 :=
  Vector.replicate 12 (257 * UInt16.ofNat k)

/-- The hidden indices of a sample. -/
theorem sample_hidden_indices (message : List UInt8) (k : Fin 3) :
    (sampleInput message k).hiddenIndices samplePrimitives = sampleHidden k := by
  have hindex : ∀ k : Fin 3,
      u16FromLeBytes (UInt8.ofNat k) (UInt8.ofNat k) &&& 2047 = 257 * UInt16.ofNat k := by decide
  refine vector_ext fun e => ?_
  rw [VerifyInput.hiddenIndices, indicesOf, challengeIndices, getElem_fin, Vector.getElem_ofFn,
    sample_challenge_stream _ _ (by decide), Bytes.getElem_ofFn, Bytes.getElem_ofFn,
    if_neg (by simp; omega), if_neg (by simp; omega), sample_nonce, hindex k, sampleHidden,
    getElem_fin, Vector.getElem_replicate]

/-- The samples hide different leaves in every execution. -/
theorem sample_hidden_distinct (e : Fin 12) (k l : Fin 3) (hne : k ≠ l) :
    (sampleHidden k)[e] ≠ (sampleHidden l)[e] := by
  have hvalues : ∀ k l : Fin 3, k ≠ l → 257 * UInt16.ofNat k ≠ 257 * UInt16.ofNat l := by decide
  rw [sampleHidden, sampleHidden, getElem_fin, getElem_fin, Vector.getElem_replicate,
    Vector.getElem_replicate]
  exact hvalues k l hne

/-- The challenge of a sample gives these indices. -/
theorem sample_challenge (message : List UInt8) (k : Fin 3) :
    (do
      let hash ← fiatShamirHash samplePrimitives (0 : Bytes 60).toList (sampleHash [0x07] 32).toList
        (sampleHash [0x03] 32).toList message
      parseChallenge samplePrimitives hash
        ((sampleSignature k).extract 2912 4 (by omega))).outcome = .ok (sampleHidden k) := by
  have hchallenge := (sampleInput message k).challenge_outcome.mpr
    ⟨sample_grinding message k, (sample_hidden_indices message k).symm⟩
  rw [sample_first_commitment, sample_second_commitment, sampleInput] at hchallenge
  exact hchallenge

/-- The three sample signatures of the empty message, and the first execution. -/
theorem sample_special_soundness :
    ∃ (leaf : Nat → Bytes 44) (partialDelta : Bytes 12) (secret : Vector Gf16 56)
      (batching : Vector (Vector Gf256x2 14) 8) (output : Vector Gf256x2 14)
      (value : Fin 14 → Gf256x2),
      (∀ k, ∀ j < 2048, j ≠ (sampleHidden k)[(0 : Fin 12)].toNat →
        LeafExpansion samplePrimitives 0 ((sampleSignature k).extract 272 2640 (by omega)) 0
          (sampleHidden k)[(0 : Fin 12)].toNat j (leaf j)) ∧
      (∀ k, (sampleSignature k).extract 2768 12 (by omega) = partialDelta) ∧
      (unpackGf16 (((∑ j ∈ Finset.range 2048, leaf j).extract 0 16 (by omega)).append
          ((∑ j ∈ Finset.range 2048, leaf j).extract 16 12 (by omega) + partialDelta)).toList
        (Vector.replicate 56 0) : Exec _).outcome = .ok (true, secret) ∧
      (expandBatching samplePrimitives (sampleHash [0x07] 32)).outcome = .ok batching ∧
      (parseExtensionVector 14 (0 : Bytes 28).toList).outcome = .ok output ∧
      (∀ j : Fin 14, (do
        let equation ← expandEquation samplePrimitives 0 j
        equation.evaluateBase secret).outcome = .ok (value j)) ∧
      ∀ component : Fin 8, ∑ j : Fin 14, batching[component][j] * (value j + output[j]) = 0 :=
  special_soundness samplePrimitives 0 (fun _ => []) sampleSignature (sample_verify_accepts [])
    (fun k => sample_signature_zero k (by omega) (by omega) (by omega)) (sample_first_commitment [])
    (sample_second_commitment []) (sample_challenge []) 0 (sample_hidden_distinct 0)
    (sample_run_no_collision fun _ hcall => ⟨[], hcall⟩) (sample_no_seed_collision 0 _)

end Mqom
