import Mqom.Blc.CommitBinding
import Mqom.Sign.Signer
import Mqom.Verify.Prover

/-!
# The honest prover

The prover that signs under the answers it is given. It is accepted under every answer that passes
the check of the grinding bits, its openings are all of one commitment, and its responses do not
depend on the challenge.
-/

namespace Mqom

open Rust Params

variable (P : Primitives)

/-! ## The signer under a programmed oracle -/

section Program

variable {m : Nat} {tag : UInt8} (rest : List UInt8) (answer : Bytes m)

namespace CommitInput

variable (input : CommitInput)

/-- The leaves of a commitment are expanded without SHAKE128. -/
theorem expanded_program :
    input.expanded (P.program (tag :: rest) answer) = input.expanded P :=
  rfl

/-- So the partial deltas do not depend on its answers. -/
theorem partial_delta_program :
    input.partialDelta (P.program (tag :: rest) answer) = input.partialDelta P := by
  funext e
  rw [partialDelta, partialDelta, total, total, expanded_program]

/-- What an execution commits to depends on the answers to the leaf strings only. -/
theorem committed_program (hleaf : 0x06 ≠ tag) (e : Fin 12) :
    input.committed (P.program (tag :: rest) answer) e = input.committed P e := by
  have hparts : input.leafParts (P.program (tag :: rest) answer) e = input.leafParts P e :=
    congrArg (List.cons [0x06]) (List.map_congr_left fun j _ => rfl)
  have hhash : (P.program (tag :: rest) answer).shake128 (input.leafParts P e).flatten 32 =
      P.shake128 (input.leafParts P e).flatten 32 := program_of_parts P answer hleaf _ rest 32
  simp only [committed, total, partial_delta_program, expanded_program, hparts, hhash]

/-- The commitment depends on the answers to the strings of the opening only. -/
theorem commitment_program (hleaf : 0x06 ≠ tag) (hoverall : 0x07 ≠ tag) :
    input.commitment (P.program (tag :: rest) answer) = input.commitment P := by
  have hcommitted := input.committed_program P rest answer hleaf
  have hparts : input.overallParts (P.program (tag :: rest) answer) = input.overallParts P := by
    simp only [overallParts, hcommitted, partial_delta_program]
  have hhash : (P.program (tag :: rest) answer).shake128 (input.overallParts P).flatten 32 =
      P.shake128 (input.overallParts P).flatten 32 := program_of_parts P answer hoverall _ rest 32
  have hroots : input.rootSeeds (P.program (tag :: rest) answer) = input.rootSeeds P := rfl
  simp only [commitment, hparts, hhash, hcommitted, hroots, partial_delta_program]

end CommitInput

/-- Consistency of a key depends on the answers for the equations only. -/
theorem KeyConsistent.program {key : Bytes 88} (h : KeyConsistent P key) (htag : 0x01 ≠ tag) :
    KeyConsistent (P.program (tag :: rest) answer) key := by
  intro j
  rw [← h j, equationOutput, equationOutput, equation_of_program P answer htag]

namespace SignInput

variable (input : SignInput)

/-- The first commitment depends on the answers to the strings of the opening only. -/
theorem first_commitment_program (hleaf : 0x06 ≠ tag) (hoverall : 0x07 ≠ tag) :
    input.firstCommitment (P.program (tag :: rest) answer) = input.firstCommitment P :=
  congrArg SigningCommitment.commitment
    (input.commitInput.commitment_program P rest answer hleaf hoverall)

/-- The Fiat-Shamir hash of a signer, written with the commitments of programmed primitives. -/
theorem hash_program (hmessage : 0x02 ≠ tag) (hhash : 0x04 ≠ tag) :
    input.hash (P.program (tag :: rest) answer) =
      P.shake128 (fiatShamirParts P input.publicKey.toList
        (input.firstCommitment (P.program (tag :: rest) answer)).toList
        (input.secondCommitment (P.program (tag :: rest) answer)).toList
        input.message).flatten 32 := by
  have hmessageHash :
      (P.program (tag :: rest) answer).shake128 (messageParts input.message).flatten 32 =
        P.shake128 (messageParts input.message).flatten 32 :=
    program_of_parts P answer hmessage _ rest 32
  rw [hash, fiatShamirParts, fiatShamirParts, hmessageHash]
  exact program_of_parts P answer hhash _ rest 32

/-- The system of the run does not depend on the answers to the challenges. -/
theorem system_challenge :
    input.system (P.program (0x05 :: rest) answer) = input.system P := by
  have hbatching : (P.program (0x05 :: rest) answer).shake128
      (batchingParts (input.firstCommitment P)).flatten 224 =
        P.shake128 (batchingParts (input.firstCommitment P)).flatten 224 :=
    program_of_parts P answer (by decide) _ rest 224
  have hequation : ∀ j : Fin 14, equationOf (P.program (0x05 :: rest) answer)
      (masterSeedOf input.key) j = equationOf P (masterSeedOf input.key) j :=
    fun j => equation_of_program P answer (by decide) rest (masterSeedOf input.key) j
  rw [system, system, systemOf, systemOf,
    input.first_commitment_program P rest answer (by decide) (by decide), batchingOf, batchingOf,
    hbatching]
  exact congrArg (ResponseSystem.mk _) (funext hequation)

/-- Neither do the responses. -/
theorem alpha_challenge :
    input.alphaZero (P.program (0x05 :: rest) answer) = input.alphaZero P ∧
      input.alphaOne (P.program (0x05 :: rest) answer) = input.alphaOne P := by
  have hcommitment : input.commitment (P.program (0x05 :: rest) answer) = input.commitment P :=
    input.commitInput.commitment_program P rest answer (by decide) (by decide)
  rw [alphaZero, alphaZero, alphaOne, alphaOne, hcommitment, input.system_challenge P rest answer]
  exact ⟨rfl, rfl⟩

/-- Neither does the second commitment. -/
theorem second_commitment_challenge :
    input.secondCommitment (P.program (0x05 :: rest) answer) = input.secondCommitment P := by
  obtain ⟨hzero, hone⟩ := input.alpha_challenge P rest answer
  rw [secondCommitment, secondCommitment, hzero, hone]
  exact program_of_parts P answer (by decide) _ rest 32

/-- Neither does the Fiat-Shamir hash. -/
theorem hash_challenge :
    input.hash (P.program (0x05 :: rest) answer) = input.hash P := by
  rw [input.hash_program P rest answer (by decide) (by decide),
    input.first_commitment_program P rest answer (by decide) (by decide),
    input.second_commitment_challenge P rest answer]
  rfl

end SignInput

end Program

/-! ## The prover -/

namespace SignInput

variable (input : SignInput) (nonce : Bytes 224 → Bytes 4)

/-- The primitives with an answer for the batching coefficients. -/
def batched (batching : Bytes 224) : Primitives :=
  P.program (batchingParts (input.firstCommitment P)).flatten batching

/-- The primitives with answers for the batching coefficients and the challenge. -/
def challenged (batching : Bytes 224) (challenge : Bytes 26) : Primitives :=
  (input.batched P batching).program
    (challengeParts (input.hash (input.batched P batching)) (nonce batching)).flatten challenge

variable (batching : Bytes 224) (challenge : Bytes 26)

/-- The first commitment is sent before any answer. -/
theorem first_commitment_batched :
    input.firstCommitment (input.batched P batching) = input.firstCommitment P :=
  input.first_commitment_program P _ batching (by decide) (by decide)

/-- The responses are those of the system of the answer. -/
theorem alpha_one_batched :
    input.alphaOne (input.batched P batching) =
      ResponseSystem.alphaOne
        ⟨batchingFrom batching, fun j => equationOf P (masterSeedOf input.key) j⟩
        (input.commitment P).masks (secretVectorOf input.key) := by
  have hcommitment : input.commitment (input.batched P batching) = input.commitment P :=
    input.commitInput.commitment_program P _ batching (by decide) (by decide)
  have hequation : ∀ j : Fin 14, equationOf (input.batched P batching) (masterSeedOf input.key) j =
      equationOf P (masterSeedOf input.key) j :=
    fun j => equation_of_program P batching (by decide) _ (masterSeedOf input.key) j
  have hbatching : batchingOf (input.batched P batching) (input.firstCommitment P) =
      batchingFrom batching := batching_of_program P _ batching
  rw [alphaOne, hcommitment, system, systemOf, first_commitment_batched, hbatching]
  simp only [hequation]

/-- The first commitment does not depend on the challenge either. -/
theorem first_commitment_challenged :
    input.firstCommitment (input.challenged P nonce batching challenge) =
      input.firstCommitment P :=
  (input.first_commitment_program _ _ challenge (by decide) (by decide)).trans
    (input.first_commitment_batched P batching)

/-- The second commitment is sent before the challenge. -/
theorem second_commitment_challenged :
    input.secondCommitment (input.challenged P nonce batching challenge) =
      input.secondCommitment (input.batched P batching) :=
  input.second_commitment_challenge _ _ challenge

/-- The challenge is computed from the hash that was programmed. -/
theorem hash_challenged :
    input.hash (input.challenged P nonce batching challenge) =
      input.hash (input.batched P batching) :=
  input.hash_challenge _ _ challenge

/-- The signer's stream of challenges is the answer. -/
theorem stream_challenged :
    challengeStream (input.challenged P nonce batching challenge)
      (input.hash (input.challenged P nonce batching challenge)) (nonce batching) = challenge := by
  rw [hash_challenged]
  exact program_self _ challenge _

/-- The hidden leaves are those of the answer. -/
theorem hidden_indices_challenged :
    input.hiddenIndices (input.challenged P nonce batching challenge) (nonce batching) =
      challengeIndices challenge 2047 := by
  rw [hiddenIndices, indicesOf, stream_challenged]

/-- The prover that signs under the answers. -/
def honestProver : Prover where
  publicKey := input.publicKey
  salt := input.salt
  firstCommitment := input.firstCommitment P
  message _ := input.message
  secondCommitment batching := input.secondCommitment (input.batched P batching)
  nonce := nonce
  signature batching challenge :=
    input.signature (input.challenged P nonce batching challenge) (nonce batching)
  salt_eq _ _ := input.verify_input_salt _ _
  first_eq batching challenge := (input.verify_input_first _ _).trans
    (input.first_commitment_challenged P nonce batching challenge)
  second_eq batching challenge := (input.verify_input_second _ _).trans
    (input.second_commitment_challenged P nonce batching challenge)
  nonce_eq _ _ := input.verify_input_nonce _ _

/-- The verifier and the signer see the same answers. -/
theorem honest_prover_oracle :
    (input.honestProver P nonce).oracle P batching challenge =
      input.challenged P nonce batching challenge := by
  have hhash : (input.honestProver P nonce).hash P batching =
      input.hash (input.batched P batching) := by
    refine Eq.trans ?_ (input.hash_program P _ batching (by decide) (by decide)).symm
    rw [input.first_commitment_program P _ batching (by decide) (by decide)]
    rfl
  rw [Prover.oracle, hhash]
  rfl

/-- The verifier opens the commitment of the signer. -/
theorem honest_prover_evaluate :
    (input.honestProver P nonce).evaluateInput batching challenge =
      input.commitInput.evaluateInput P (challengeIndices challenge 2047)
        (challenge_index_lt challenge) := by
  refine EvaluateInput.ext rfl ?_ rfl
  refine (input.verify_input_opening (input.challenged P nonce batching challenge) _).trans ?_
  rw [opening, hidden_indices_challenged]
  rfl

variable {P input}

/-- A key stays consistent under the answers. -/
theorem key_consistent_challenged (hkey : KeyConsistent P input.key) :
    KeyConsistent (input.challenged P nonce batching challenge) input.key :=
  (hkey.program P _ batching (by decide)).program _ _ challenge (by decide)

/-- The honest prover is accepted under every answer that passes the check of the grinding bits. -/
theorem mem_honest_prover_accepted (hkey : KeyConsistent P input.key)
    {answers : Bytes 224 × Bytes 26} :
    answers ∈ (input.honestProver P nonce).accepted P ↔ maskedGrinding answers.2 = 0 := by
  refine ⟨Prover.grinding_of_accepted, fun hgrinding => ?_⟩
  have hconsistent := key_consistent_challenged nonce answers.1 answers.2 hkey
  have haccepted := input.signature_accepted _ (nonce answers.1) hconsistent
    (show maskedGrinding _ = 0 by rw [stream_challenged]; exact hgrinding)
  show ((input.honestProver P nonce).run P answers.1 answers.2).outcome = .ok true
  rw [Prover.run, honest_prover_oracle]
  exact haccepted

/-- The verifier recomputes the responses of the signer, whatever the challenge is. -/
theorem honest_prover_alpha_zero (hkey : KeyConsistent P input.key) :
    (input.honestProver P nonce).alphaZero P batching challenge =
      input.alphaZero (input.batched P batching) := by
  have hconsistent := key_consistent_challenged nonce batching challenge hkey
  rw [← Prover.alpha_zero_eq, honest_prover_oracle]
  exact (input.verify_input_alpha_zero _ (nonce batching) hconsistent).trans
    (input.alpha_challenge _ _ challenge).1

/-- The bytes of `alpha_one` do not depend on the challenge. -/
theorem honest_prover_alpha_one :
    ((input.honestProver P nonce).verifyInput batching challenge).serializedAlphaOne =
      encodedAlpha (input.alphaOne (input.batched P batching)) :=
  (input.verify_input_alpha_one _ (nonce batching)).trans
    (congrArg encodedAlpha (input.alpha_challenge _ _ challenge).2)

/-! ## Collisions -/

/-- The honest prover absorbs one response for each batching. -/
theorem honest_prover_responses (hkey : KeyConsistent P input.key) :
    NoDigestCollision P [.responseCommitment]
      ((input.honestProver P nonce).callsAt P batching) := by
  refine NoDigestCollision.of_preimage (fun _ => (responseParts
    (input.alphaZero (input.batched P batching))
    (encodedAlpha (input.alphaOne (input.batched P batching))).toList).flatten) ?_
  rintro kind hkind parts ⟨challenge, _, hcall⟩
  obtain rfl := List.mem_singleton.mp hkind
  rcases Prover.digest_call_cases P _ batching challenge List.mem_cons_self hcall with
    hopening | ⟨_, rfl⟩
  · obtain ⟨_, hopening, _⟩ | ⟨hopening, _⟩ := shake_mem_calls hopening <;> cases hopening
  · rw [honest_prover_alpha_zero nonce batching challenge hkey, honest_prover_alpha_one]

/-- What the openings of the honest prover absorb was absorbed by `commit`. -/
theorem honest_prover_openings (hcommit : NoDigestCollision P [.leafHash, .overallCommitment]
    {call | call ∈ input.commitInput.calls P}) :
    NoDigestCollision P [.leafHash, .overallCommitment]
      ((input.honestProver P nonce).calls P) := by
  refine hcommit.of_flatten ?_
  rintro kind hkind parts ⟨answers, _, hcall⟩
  rcases Prover.digest_call_cases P _ answers.1 answers.2 (List.mem_cons_of_mem _ hkind) hcall with
    hopening | ⟨rfl, _⟩
  · rw [honest_prover_evaluate] at hopening
    obtain ⟨parts', hmem, hparts⟩ := input.commitInput.absorbed_by_commit P _ _ hopening
    exact ⟨parts', hmem, hparts⟩
  · simp at hkind

/-- The seeds that the honest prover reveals were committed by `commit`. -/
theorem honest_prover_seeds
    (hcommit : NoSeedCollision P input.salt {call | call ∈ input.commitInput.calls P}) :
    NoSeedCollision P input.salt ((input.honestProver P nonce).calls P) := by
  have hmem : ∀ (execution : Fin 12) (seed : Bytes 16),
      commitCall input.salt (executionByte execution) seed ∈
        (input.honestProver P nonce).calls P →
      commitCall input.salt (executionByte execution) seed ∈ input.commitInput.calls P := by
    rintro execution seed ⟨answers, _, hcall⟩
    have hopening := ((input.honestProver P nonce).verifyInput answers.1 answers.2).seed_call_mem
      ((input.honestProver P nonce).oracle P answers.1 answers.2) hcall
    rw [Prover.evaluate_input_eq, Prover.evaluate_calls_eq, honest_prover_evaluate] at hopening
    rcases input.commitInput.mem_evaluate_calls P _ _ hopening with hcommitted | ⟨_, heq, _⟩
    · exact hcommitted
    · cases heq
  intro execution seed seed' hcall hcall' h
  exact hcommit execution seed seed' (hmem execution seed hcall) (hmem execution seed' hcall') h

/-- The honest prover is accepted under one in 256 of all pairs of answers. -/
theorem ncard_honest_prover_accepted (hkey : KeyConsistent P input.key) :
    ((input.honestProver P nonce).accepted P).ncard = 2 ^ 1992 := by
  have hset : (input.honestProver P nonce).accepted P =
      Set.univ ×ˢ {challenge | maskedGrinding challenge = 0} := by
    ext answers
    exact (mem_honest_prover_accepted nonce hkey).trans ⟨fun h => ⟨trivial, h⟩, And.right⟩
  rw [hset, Set.ncard_prod, Set.ncard_univ, Bytes.card_eq, ncard_grinding, ← pow_add]

end SignInput

end Mqom
