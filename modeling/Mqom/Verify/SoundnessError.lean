import Mqom.Verify.HonestProver

/-!
# The soundness error

Unless the accepted signatures of a prover contain a collision or give away a secret of the public
key, it is accepted under few answers of the oracle.
-/

namespace Mqom

open Rust Params Library

variable (P : Primitives)

namespace Prover

variable {P} {prover : Prover}

/-! ## Leaves -/

section Leaves

variable (P prover) (e : Fin 12)

/-- The leaves that the accepted signatures reveal. -/
noncomputable def leaf (j : Nat) : Bytes 44 :=
  revealedLeaf P (fun answers : prover.accepted P =>
    prover.evaluateInput answers.val.1 answers.val.2) e j

/-- The partial delta of the accepted signatures. -/
noncomputable def partialDelta : Bytes 12 :=
  open Classical in
  if h : (prover.accepted P).Nonempty then
    (prover.evaluateInput h.some.1 h.some.2).parts.partialDeltas e
  else 0

/-- The slope of the line that the accepted signatures open. -/
noncomputable def slope : Vector Gf16 56 :=
  baseSlope (prover.leaf P e) (prover.partialDelta P e)

/-- The error of the slope in an equation. -/
noncomputable def error (j : Fin 14) : Gf256x2 :=
  (equationOf P (prover.publicKey.extract 0 32 public_seed_le) j).valueAt (prover.slope P e) +
    prover.publicOutput[j]

/-- Whether every leaf of an execution is revealed by an accepted signature. -/
def Revealed : Prop :=
  ∀ j < 2048, ∃ answers ∈ prover.accepted P,
    j ≠ (prover.evaluateInput answers.1 answers.2).hidden e

variable {P prover}

/-- Two accepted signatures with different hidden leaves reveal all leaves. -/
theorem revealed_of_ne {answers other : Bytes 224 × Bytes 26} (h : answers ∈ prover.accepted P)
    (hother : other ∈ prover.accepted P)
    (hne : (challengeIndices answers.2 2047)[e] ≠ (challengeIndices other.2 2047)[e]) :
    prover.Revealed P e := by
  intro j _
  by_cases hj : j = (prover.evaluateInput answers.1 answers.2).hidden e
  · refine ⟨other, hother, fun heq => hne ?_⟩
    exact UInt16.toNat_inj.mp (hj.symm.trans heq)
  · exact ⟨answers, h, hj⟩

variable (hopenings : NoDigestCollision P [.leafHash, .overallCommitment] (prover.calls P))
include hopenings

/-- All accepted openings have the same partial deltas. -/
theorem partial_delta_of_accepted {answers : Bytes 224 × Bytes 26}
    (h : answers ∈ prover.accepted P) :
    (prover.evaluateInput answers.1 answers.2).parts.partialDeltas e = prover.partialDelta P e := by
  have hnonempty : (prover.accepted P).Nonempty := ⟨answers, h⟩
  rw [partialDelta, dif_pos hnonempty]
  exact partial_delta_agree hopenings
    (evaluate_calls_of_accepted h) (evaluate_calls_of_accepted hnonempty.some_mem)
    ((digest_of_accepted h).trans (digest_of_accepted hnonempty.some_mem).symm) e

variable (hseeds : NoSeedCollision P prover.salt (prover.calls P))
include hseeds

/-- An accepted opening shows the leaves of the prover. -/
theorem leaf_of_accepted {answers : Bytes 224 × Bytes 26} (h : answers ∈ prover.accepted P) :
    ∀ j < 2048, j ≠ (prover.evaluateInput answers.1 answers.2).hidden e →
      (prover.evaluateInput answers.1 answers.2).expanded P e j = prover.leaf P e j := by
  intro j hj hne
  have hleaf := @expanded_eq_revealed_leaf (prover.accepted P) P _
    (fun answers => prover.evaluateInput answers.val.1 answers.val.2) _ _ hopenings hseeds
    (fun answers => evaluate_calls_of_accepted answers.property)
    (fun answers => digest_of_accepted answers.property) (fun _ => rfl) ⟨answers, h⟩ e _ hj hne
  exact hleaf

/-- Three accepted signatures for one batching with different hidden leaves leave no error in its
equations. -/
theorem error_of_three {batching : Bytes 224} {challenge : Fin 3 → Bytes 26}
    (hresponses : NoDigestCollision P [.responseCommitment] (prover.callsAt P batching))
    (h : ∀ k, (batching, challenge k) ∈ prover.accepted P)
    (hdistinct : Function.Injective fun k => (challengeIndices (challenge k) 2047)[e])
    (component : Fin 8) :
    ∑ j : Fin 14, (batchingFrom batching)[component][j] * prover.error P e j = 0 := by
  have hpoints : Function.Injective fun k =>
      evaluationPoint (challengeIndices (challenge k) 2047)[e] :=
    evaluation_point_injective.comp hdistinct
  -- the second commitment fixes both responses, so all runs recompute the same one
  have hagree := fun k => responses_agree (h k) hresponses (h 0) rfl
  have hrecomputed : ∀ k, (prover.system P batching).recomputed
      (prover.verifyInput batching (challenge 0)).alphaOne (challengeIndices (challenge k) 2047)
      ((prover.evaluateInput batching (challenge k)).opened P) prover.publicOutput =
        prover.alphaZero P batching (challenge 0) := by
    intro k
    rw [← (hagree k).1, ← (hagree k).2]
    rfl
  have hsolves := (prover.system P batching).solves_of_three_points hpoints
    (fun k i => EvaluateInput.opened_base_line (leaf_of_accepted e hopenings hseeds (h k))
      (partial_delta_of_accepted e hopenings (h k)) i)
    (fun k => EvaluateInput.opened_mask_line (leaf_of_accepted e hopenings hseeds (h k))
      (partial_delta_of_accepted e hopenings (h k)) component) hrecomputed
  simp only [ResponseSystem.weight, system] at hsolves
  simp only [error, slope]
  exact hsolves

end Leaves

/-! ## Counting -/

section Counting

variable (hopenings : NoDigestCollision P [.leafHash, .overallCommitment] (prover.calls P))
variable (hresponses : ∀ batching,
  NoDigestCollision P [.responseCommitment] (prover.callsAt P batching))
variable (hseeds : NoSeedCollision P prover.salt (prover.calls P))

variable (P prover) in
/-- The batchings under which some slope that is not a secret solves the batched equations. -/
def cancelling : Set (Bytes 224) :=
  {batching | ∃ e, (∃ j, prover.error P e j ≠ 0) ∧ ∀ component : Fin 8,
    ∑ j : Fin 14, (batchingFrom batching)[component][j] * prover.error P e j = 0}

/-- Few batchings cancel the errors of an execution. -/
theorem ncard_cancelling_le : (prover.cancelling P).ncard ≤ 12 * 2 ^ 1664 := by
  have hunion : prover.cancelling P = ⋃ e : Fin 12, {batching | (∃ j, prover.error P e j ≠ 0) ∧
      ∀ component : Fin 8,
        ∑ j : Fin 14, (batchingFrom batching)[component][j] * prover.error P e j = 0} := by
    ext batching
    rw [Set.mem_iUnion]
    rfl
  have hexecution : ∀ e : Fin 12, {batching | (∃ j, prover.error P e j ≠ 0) ∧
      ∀ component : Fin 8, ∑ j : Fin 14,
        (batchingFrom batching)[component][j] * prover.error P e j = 0}.ncard ≤ 2 ^ 1664 := by
    intro e
    by_cases herror : ∃ j, prover.error P e j ≠ 0
    · rw [← ncard_cancelling herror]
      exact Set.ncard_le_ncard fun batching h => h.2
    · have hempty : {batching | (∃ j, prover.error P e j ≠ 0) ∧ ∀ component : Fin 8,
          ∑ j : Fin 14, (batchingFrom batching)[component][j] * prover.error P e j = 0} = ∅ :=
        Set.eq_empty_of_forall_notMem fun batching h => herror h.1
      rw [hempty, Set.ncard_empty]
      exact Nat.zero_le _
  calc (prover.cancelling P).ncard ≤ ∑ e : Fin 12, _ := by
        rw [hunion]
        exact Set.ncard_iUnion_le_of_fintype _
    _ ≤ ∑ _e : Fin 12, 2 ^ 1664 := Finset.sum_le_sum fun e _ => hexecution e
    _ = 12 * 2 ^ 1664 := by rw [Finset.sum_const, Finset.card_univ, Fintype.card_fin, smul_eq_mul]

include hopenings hresponses hseeds

/-- When no slope is a secret, a batching that cancels no error leaves two hidden leaves for each
execution. -/
theorem ncard_hidden_le (hno : ∀ e, prover.Revealed P e → ∃ j, prover.error P e j ≠ 0)
    {batching : Bytes 224} (h : batching ∉ prover.cancelling P) (e : Fin 12) :
    ((fun challenge => (challengeIndices challenge 2047)[e]) ''
      prover.answered P batching).ncard ≤ 2 := by
  by_contra hthree
  obtain ⟨challenge, haccepted, hdistinct⟩ := exists_points_of_lt_ncard _ (not_le.mp hthree)
  have hne : (0 : Fin 3) ≠ 1 := by decide
  have hrevealed := revealed_of_ne e (haccepted 0) (haccepted 1) (hdistinct.ne hne)
  exact h ⟨e, hno e hrevealed,
    error_of_three e hopenings hseeds (hresponses batching) haccepted hdistinct⟩

omit hopenings hresponses hseeds in
/-- Few challenges with the same hidden leaves are answered. -/
theorem ncard_same_hidden_le (batching : Bytes 224) (hidden : Fin 12 → UInt16) :
    {challenge ∈ prover.answered P batching |
      (fun e => (challengeIndices challenge 2047)[e]) = hidden}.ncard ≤ 2 ^ 68 := by
  rcases Set.eq_empty_or_nonempty {challenge ∈ prover.answered P batching |
    (fun e => (challengeIndices challenge 2047)[e]) = hidden} with hempty | ⟨first, _, rfl⟩
  · rw [hempty, Set.ncard_empty]
    exact Nat.zero_le _
  · rw [← ncard_challenges (challenge_index_lt first)]
    refine Set.ncard_le_ncard ?_
    rintro challenge ⟨hanswered, hhidden⟩
    have haccepted : (batching, challenge) ∈ prover.accepted P := hanswered
    have hgrinding := grinding_of_accepted haccepted
    have hindices : challengeIndices challenge 2047 = challengeIndices first 2047 :=
      vector_ext fun e => congrFun hhidden e
    exact ⟨hgrinding, hindices⟩

/-- Such a batching leaves few challenges that the prover can answer. -/
theorem ncard_answered_le (hno : ∀ e, prover.Revealed P e → ∃ j, prover.error P e j ≠ 0)
    {batching : Bytes 224} (h : batching ∉ prover.cancelling P) :
    (prover.answered P batching).ncard ≤ 2 ^ 80 := by
  have hcount := ncard_le_of_coordinates (fun challenge (e : Fin 12) =>
    (challengeIndices challenge 2047)[e]) (ncard_hidden_le hopenings hresponses hseeds hno h)
    (ncard_same_hidden_le batching)
  rw [Fintype.card_fin, ← pow_add] at hcount
  exact hcount

/-- Few answers are accepted when some error is not zero. -/
theorem ncard_accepted_le (hno : ∀ e, prover.Revealed P e → ∃ j, prover.error P e j ≠ 0) :
    (prover.accepted P).ncard ≤ 13 * 2 ^ 1872 := by
  have hrounds := ncard_le_of_rounds (s := prover.accepted P) ncard_cancelling_le
    fun batching h => ncard_answered_le hopenings hresponses hseeds hno h
  rw [Bytes.card_eq, Bytes.card_eq] at hrounds
  refine hrounds.trans_eq ?_
  rw [mul_left_comm, ← pow_add, ← pow_add]
  omega

end Counting

variable (P prover) in
/-- The leaves that accepted signatures reveal in some execution and the partial delta add up to a
secret of the public key. -/
def RevealsSecret : Prop :=
  ∃ (e : Fin 12) (leaf : Nat → Bytes 44) (partialDelta : Bytes 12) (secret : Vector Gf16 56)
    (output : Vector Gf256x2 14),
    (∀ j < 2048, ∃ answers ∈ prover.accepted P, j ≠ (challengeIndices answers.2 2047)[e].toNat ∧
      LeafExpansion P prover.salt (prover.opening answers.1 answers.2) e
        (challengeIndices answers.2 2047)[e].toNat j (leaf j)) ∧
    (∃ answers ∈ prover.accepted P, (prover.signature answers.1 answers.2).extract
      (272 + (2496 + e.val * 12)) 12 (signature_delta_le e) = partialDelta) ∧
    (unpackGf16 (((∑ j ∈ Finset.range 2048, leaf j).extract 0 16 leaf_seed_le).append
        ((∑ j ∈ Finset.range 2048, leaf j).extract 16 12 leaf_tail_le + partialDelta)).toList
      (Vector.replicate 56 0) : Exec _).outcome = .ok (true, secret) ∧
    (parseExtensionVector 14 (prover.publicKey.extract 32 28 public_output_le).toList).outcome =
      .ok output ∧
    ∀ j : Fin 14, (do
      let equation ← expandEquation P (prover.publicKey.extract 0 32 public_seed_le) j
      equation.evaluateBase secret).outcome = .ok output[j]

end Prover

/-- The soundness error. Whatever a prover answers to the two challenges, its accepted signatures
contain a collision or reveal a secret of the public key, or they answer at most 13 in `2^128` pairs
of challenges. A collision of responses is one of responses to the same batching. -/
theorem soundness_error (prover : Prover)
    (hopenings : NoDigestCollision P [.leafHash, .overallCommitment] (prover.calls P))
    (hresponses : ∀ batching,
      NoDigestCollision P [.responseCommitment] (prover.callsAt P batching))
    (hseeds : NoSeedCollision P prover.salt (prover.calls P)) :
    prover.RevealsSecret P ∨ (prover.accepted P).ncard ≤ 13 * 2 ^ 1872 := by
  by_cases hno : ∀ e, prover.Revealed P e → ∃ j, prover.error P e j ≠ 0
  · exact Or.inr (Prover.ncard_accepted_le hopenings hresponses hseeds hno)
  push Not at hno
  obtain ⟨e, hrevealed, herror⟩ := hno
  refine Or.inl ⟨e, prover.leaf P e, prover.partialDelta P e, prover.slope P e,
    prover.publicOutput, fun j hj => ?_, ?_, ?_, ?_, fun j => ?_⟩
  · obtain ⟨answers, haccepted, hne⟩ := hrevealed j hj
    have hexpansion := (prover.evaluateInput answers.1 answers.2).leaf_expansion P e hj hne
    rw [Prover.leaf_of_accepted e hopenings hseeds haccepted j hj hne] at hexpansion
    exact ⟨answers, haccepted, hne, hexpansion⟩
  · obtain ⟨answers, haccepted, _⟩ := hrevealed 0 (by omega)
    refine ⟨answers, haccepted, ?_⟩
    rw [← Prover.partial_delta_of_accepted e hopenings haccepted]
    have hpart : ((prover.signature answers.1 answers.2).extract 272 2640
        signature_opening_le).extract (2496 + e * 12) 12 (by omega) =
          (prover.signature answers.1 answers.2).extract (272 + (2496 + e * 12)) 12 (by omega) :=
      Bytes.extract_extract _ _ _
    exact hpart.symm
  · rw [adjusted_base_eq, unpack_gf16_eq _ _ rfl (by omega)]
    rfl
  · rw [parse_extension_vector_eq _ rfl]
    rfl
  · rw [expand_equation_eq P _ j.isLt, Run.ret_bind, PackedEquation.evaluate_base_eq]
    exact congrArg Except.ok (CharTwo.add_eq_zero.mp (herror j))

/-! ## A sample -/

section Head

variable (input : CommitInput) (e : Fin 12)
variable (hmaster : seedHead input.masterSeed = 0) (hdelta : seedHead input.delta = input.delta)
include hmaster hdelta

/-- When the root seed is zero, one node of a level has the label of the root and the others are
zero. -/
theorem head_tree_level (depth : Nat) {j : Nat} (hj : j < 2 ^ (depth + 1)) :
    treeNode headPrimitives input.salt (executionByte e) (input.rootSeeds headPrimitives)[e]
      input.delta (2 ^ (depth + 1) + j) = if j = 2 ^ depth then input.delta else 0 := by
  induction depth generalizing j with
  | zero =>
      have hroot : (input.rootSeeds headPrimitives)[e] = 0 := by rw [head_root_seed, hmaster]
      have hparent : (2 ^ (0 + 1) + j) / 2 = 1 := by omega
      have hone : 1 < 2 := by omega
      rw [treeNode, node_of_two_le _ _ (by omega), hparent, node_one, child, hparent, treeDerive,
        if_pos hone, hroot]
      obtain rfl | rfl : j = 0 ∨ j = 1 := by omega
      · rfl
      · exact zero_add input.delta
  | succ depth ih =>
      have hpow : 2 ^ (depth + 1 + 1) = 2 * 2 ^ (depth + 1) := by rw [pow_succ, mul_comm]
      have hpow' : 2 ^ (depth + 1) = 2 * 2 ^ depth := by rw [pow_succ, mul_comm]
      have hpos : 0 < 2 ^ depth := Nat.two_pow_pos depth
      have hindex : (2 ^ (depth + 1 + 1) + j) / 2 = 2 ^ (depth + 1) + j / 2 := by omega
      have hinner : ¬ 2 ^ (depth + 1) + j / 2 < 2 := by omega
      have hparent := ih (j := j / 2) (by omega)
      have hhead := head_tree_node input hdelta e (2 ^ (depth + 1) + j / 2)
      rw [treeNode] at hparent hhead
      -- a left child repeats its parent, and a right child is zero
      rw [treeNode, node_of_two_le _ _ (by omega), hindex, child, hindex, treeDerive,
        if_neg hinner, head_derive, hhead, hparent, Bytes.add_self]
      by_cases heven : (2 ^ (depth + 1 + 1) + j) % 2 = 0
      · rw [if_pos heven]
        exact if_congr (by omega) rfl rfl
      · rw [if_neg heven, if_neg (by omega)]

/-- One leaf of such a tree is not zero. -/
theorem head_leaf_seed {j : Nat} (hj : j < 2048) :
    input.leafSeed headPrimitives e j = if j = 1024 then input.delta else 0 :=
  head_tree_level input e hmaster hdelta 10 hj

end Head

/-- The expansion of a leaf repeats its seed. -/
theorem head_expanded (salt : Bytes 16) (execution : UInt8) {seed : Bytes 16}
    (h : seedHead seed = seed) :
    expandedLeaf headPrimitives salt execution seed = Bytes.ofFn fun i => seed[i.val % 16] := by
  apply Bytes.ext_getElem
  intro i hi
  rw [expandedLeaf, Bytes.getElem_ofFn]
  rcases Nat.lt_or_ge i 16 with hlt | hge
  · rw [Bytes.getElem_append_left _ _ _ _ hlt]
    simp only [Nat.mod_eq_of_lt hlt]
  · obtain ⟨k, rfl⟩ := Nat.exists_eq_add_of_le hge
    rw [Bytes.getElem_append_right _ _ _ _ (by omega)]
    simp only [stream, streamByte, Bytes.getElem_ofFn, head_derive, h, Nat.add_mod_left]

/-- The elements of the stream of an equation alternate between four ones and four zeros. -/
theorem head_stream_element (masterSeed : Bytes 32) (j : Nat) {k : Nat} (hk : k < 1652) :
    streamElement (equationStream headPrimitives masterSeed j) k =
      if k % 8 < 4 then ⟨1, 1⟩ else 0 := by
  have hseed : headPrimitives.shake128 (equationParts masterSeed j).flatten 16 =
      sampleHash [0x01] 16 := sample_digest 0x01 (by decide) _ 16
  have hhead : seedHead (sampleHash [0x01] 16) =
      Bytes.ofFn fun i => if i.val < 8 then 1 else 0 := by decide
  have hbyte : ∀ i (hi : i < 3304), (equationStream headPrimitives masterSeed j)[i] =
      if i % 16 < 8 then 1 else 0 := fun i hi => by
    simp only [equationStream, stream, streamByte, Bytes.getElem_ofFn, head_derive, hseed, hhead]
  rw [stream_element_eq _ (by omega), extensionAt, hbyte _ (by omega), hbyte _ (by omega)]
  by_cases h : k % 8 < 4
  · rw [if_pos h, if_pos (by omega), if_pos (by omega)]
    rfl
  · rw [if_neg h, if_neg (by omega), if_neg (by omega)]
    rfl

/-- A signer whose secret has one element that is not zero. -/
def sampleSigner : SignInput where
  key := keyWith headPrimitives 0 (Bytes.ofFn fun i => if i.val = 0 then 1 else 0)
  message := []
  masterSeed := 0
  salt := 0

/-- The secret of the sample. -/
theorem sample_signer_secret :
    secretVectorOf sampleSigner.key = Vector.ofFn fun i => if i.val = 0 then 1 else 0 := by
  rw [secretVectorOf, sampleSigner, key_with_secret]
  decide

/-- The delta of the sample. -/
theorem sample_signer_delta :
    sampleSigner.commitInput.delta = Bytes.ofFn fun i => if i.val = 0 then 1 else 0 := by
  have hsecret : sampleSigner.commitInput.secret = _ := sample_signer_secret
  rw [CommitInput.delta, CommitInput.serializedSecret, hsecret]
  decide

/-- It stays in the first bytes. -/
theorem sample_signer_head :
    seedHead sampleSigner.commitInput.delta = sampleSigner.commitInput.delta := by
  rw [sample_signer_delta]
  decide

/-- The leaves of the sample. -/
theorem sample_signer_expanded (e : Fin 12) {j : Nat} (hj : j < 2048) :
    sampleSigner.commitInput.expanded headPrimitives e j =
      if j = 1024 then Bytes.ofFn fun i => if i.val % 16 = 0 then 1 else 0 else 0 := by
  rw [CommitInput.expanded,
    head_leaf_seed sampleSigner.commitInput e (by decide) sample_signer_head hj]
  split
  · rw [head_expanded _ _ sample_signer_head, sample_signer_delta]
    apply Bytes.ext_getElem
    intro i hi
    simp
  · rw [head_expanded _ _ (by decide)]
    apply Bytes.ext_getElem
    intro i hi
    simp

/-- The bases of the sample. -/
theorem sample_signer_base (e : Fin 12) :
    (fun i : Fin 56 => (sampleSigner.commitment headPrimitives).xZero[e][i]) =
      point (gray 1024) • (Pi.single 0 1 + Pi.single 32 1) := by
  have hread : (fun i => baseAt i (Bytes.ofFn fun i => if i.val % 16 = 0 then 1 else 0)) =
      Pi.single 0 1 + Pi.single 32 1 := by decide
  funext i
  have hentry : (sampleSigner.commitment headPrimitives).xZero[e][i] =
      weightedSum (baseAt i) (sampleSigner.commitInput.expanded headPrimitives e) := by
    simp [SignInput.commitment, CommitInput.commitment, CommitInput.committed]
  rw [hentry, weightedSum, Finset.sum_eq_single_of_mem 1024 (Finset.mem_range.mpr (by omega)),
    sample_signer_expanded e (by omega), if_pos rfl, Pi.smul_apply, smul_eq_mul, ← hread]
  intro j hj hne
  rw [sample_signer_expanded e (Finset.mem_range.mp hj), if_neg hne, map_zero, mul_zero]

/-- The linear terms of the sample. -/
theorem sample_signer_linear_term (e : Fin 12) (masterSeed : Bytes 32) (j : Nat) :
    linearTerm (equationOf headPrimitives masterSeed j).matrix
      (equationOf headPrimitives masterSeed j).vector
      (fun i => (sampleSigner.commitment headPrimitives).xZero[e][i])
      (fun i => Gf16.toExt (secretVectorOf sampleSigner.key)[i]) = point (gray 1024) * ⟨1, 1⟩ := by
  have hslope : (fun i : Fin 56 => Gf16.toExt (secretVectorOf sampleSigner.key)[i]) =
      Pi.single 0 1 := by
    rw [sample_signer_secret]
    decide
  have hlow : (equationOf headPrimitives masterSeed j).matrix 32 0 = ⟨1, 1⟩ := by
    rw [equation_of_matrix _ _ _ (by decide), head_stream_element _ _ (by decide)]
    rfl
  have hhigh : (equationOf headPrimitives masterSeed j).matrix 0 32 = 0 :=
    PackedEquation.matrix_apply_of_lt _ (by decide)
  have hvector : ∀ i : Fin 56, i = 0 ∨ i = 32 →
      (equationOf headPrimitives masterSeed j).vector i = 0 := by
    rintro i (rfl | rfl) <;> rw [equation_of_vector, head_stream_element _ _ (by decide)] <;> rfl
  rw [sample_signer_base, hslope, linear_term_single, hlow, hhigh, hvector 0 (Or.inl rfl),
    hvector 32 (Or.inr rfl), zero_add, add_zero, add_zero]

/-- Batching coefficients of which one is not zero. -/
def sampleBatching : Bytes 224 :=
  Bytes.ofFn fun i => if i.val = 0 then 1 else 0

/-- A response of the sample. -/
theorem sample_signer_alpha_one (batching : Bytes 224) :
    (sampleSigner.alphaOne
        (sampleSigner.batched headPrimitives batching))[(0 : Fin 12)][(0 : Fin 8)] =
      (sampleSigner.commitment headPrimitives).uOne[(0 : Fin 12)][(0 : Fin 8)] +
        (∑ j : Fin 14, (batchingFrom batching)[(0 : Fin 8)][j]) *
          (point (gray 1024) * ⟨1, 1⟩) := by
  rw [SignInput.alpha_one_batched, ResponseSystem.alpha_one_entry, ResponseSystem.linearPart,
    batchedLinear]
  simp only [sample_signer_linear_term, ← Finset.sum_mul, ResponseSystem.weight]

/-- The responses of the sample depend on the batching. -/
theorem sample_responses_ne :
    sampleSigner.alphaOne (sampleSigner.batched headPrimitives 0) ≠
      sampleSigner.alphaOne (sampleSigner.batched headPrimitives sampleBatching) := by
  intro heq
  have hzero : ∑ j : Fin 14, (batchingFrom 0)[(0 : Fin 8)][j] = 0 := by decide
  have hone : ∑ j : Fin 14, (batchingFrom sampleBatching)[(0 : Fin 8)][j] = 1 := by decide
  have hpoint : point (gray 1024) * ⟨1, 1⟩ ≠ 0 := by decide
  have hentry := sample_signer_alpha_one 0
  rw [heq, sample_signer_alpha_one, hzero, hone, zero_mul, one_mul, add_right_inj] at hentry
  exact hpoint hentry

/-- The prover that signs with the key of the sample under every pair of answers. -/
def sampleProver : Prover :=
  sampleSigner.honestProver headPrimitives fun _ => 0

/-- Its commitment absorbs no two strings with one digest. -/
theorem sample_signer_no_collision :
    NoDigestCollision headPrimitives [.leafHash, .overallCommitment]
      {call | call ∈ sampleSigner.commitInput.calls headPrimitives} :=
  sampleSigner.commitInput.no_digest_collision_of_derive
    (fun _ _ _ => by rw [head_derive, head_derive]) rfl

/-- The sample prover sends other responses under another batching. It is accepted under more
answers than a prover that reveals no secret. -/
theorem sample_soundness_error :
    (∀ challenge, (sampleProver.verifyInput 0 challenge).serializedAlphaOne ≠
      (sampleProver.verifyInput sampleBatching challenge).serializedAlphaOne) ∧
    (sampleProver.accepted headPrimitives).ncard = 2 ^ 1992 ∧
      sampleProver.RevealsSecret headPrimitives := by
  have hkey : KeyConsistent headPrimitives sampleSigner.key := key_with_consistent _ _ _
  have hcount : (sampleProver.accepted headPrimitives).ncard = 2 ^ 1992 :=
    SignInput.ncard_honest_prover_accepted _ hkey
  have hmany : 13 * 2 ^ 1872 < 2 ^ 1992 := by
    rw [show 1992 = 120 + 1872 from rfl, pow_add]
    omega
  refine ⟨fun challenge heq => ?_, hcount, (soundness_error headPrimitives sampleProver
    (SignInput.honest_prover_openings _ sample_signer_no_collision)
    (fun batching => SignInput.honest_prover_responses _ batching hkey)
    (SignInput.honest_prover_seeds _
      (head_no_seed_collision _ sample_signer_head))).resolve_right ?_⟩
  · rw [sampleProver, SignInput.honest_prover_alpha_one, SignInput.honest_prover_alpha_one] at heq
    exact sample_responses_ne (encoded_alpha_injective heq)
  · rw [hcount]
    exact Nat.not_le.mpr hmany

end Mqom
