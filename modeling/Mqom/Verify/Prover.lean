import Mqom.Verify.Oracle
import Mqom.Verify.Soundness

/-!
# Provers

A prover answers two challenges of a random oracle: the batching coefficients, before the second
commitment, and the hidden leaves, after it. Its accepted signatures open the first commitment, and
those for one batching send one response.
-/

namespace Mqom

open Rust Params Library

variable (P : Primitives)

/-! ## Provers -/

/-- What a prover sends. The second commitment, the message and the nonce may depend on the batching
coefficients, and the rest of the signature on both challenges. -/
structure Prover where
  publicKey : Bytes 60
  salt : Bytes 16
  firstCommitment : Bytes 32
  message : Bytes 224 → List UInt8
  secondCommitment : Bytes 224 → Bytes 32
  nonce : Bytes 224 → Bytes 4
  signature : Bytes 224 → Bytes 26 → Bytes 2916
  salt_eq : ∀ batching challenge,
    (signature batching challenge).extract 0 16 signature_salt_le = salt
  first_eq : ∀ batching challenge,
    (signature batching challenge).extract 16 32 first_commitment_le = firstCommitment
  second_eq : ∀ batching challenge,
    (signature batching challenge).extract 48 32 second_commitment_le = secondCommitment batching
  nonce_eq : ∀ batching challenge,
    (signature batching challenge).extract 2912 4 signature_nonce_le = nonce batching

namespace Prover

variable (prover : Prover) (batching : Bytes 224) (challenge : Bytes 26)

/-- The Fiat-Shamir hash. -/
def hash : Bytes 32 :=
  P.shake128 (fiatShamirParts P prover.publicKey.toList prover.firstCommitment.toList
    (prover.secondCommitment batching).toList (prover.message batching)).flatten 32

/-- The primitives with the given answers to the strings of the two challenges. -/
def oracle : Primitives :=
  (P.program (batchingParts prover.firstCommitment).flatten batching).program
    (challengeParts (prover.hash P batching) (prover.nonce batching)).flatten challenge

/-- The run of the verifier. -/
def run : Exec Bool :=
  verify (prover.oracle P batching challenge) prover.publicKey.toList (prover.message batching)
    (prover.signature batching challenge).toList

/-- The pairs of answers under which the signature is accepted. -/
def accepted : Set (Bytes 224 × Bytes 26) :=
  {answers | (prover.run P answers.1 answers.2).outcome = .ok true}

/-- The challenges that are answered for a batching. -/
def answered : Set (Bytes 26) :=
  {challenge | (batching, challenge) ∈ prover.accepted P}

/-- The calls of the runs that accept. -/
def calls : Set Call :=
  {call | ∃ answers ∈ prover.accepted P, call ∈ (prover.run P answers.1 answers.2).events}

/-- The calls of the runs that accept under a batching. -/
def callsAt : Set Call :=
  {call | ∃ challenge ∈ prover.answered P batching, call ∈ (prover.run P batching challenge).events}

/-- The opening in a signature. -/
def opening : Bytes 2640 :=
  (prover.signature batching challenge).extract 272 2640 signature_opening_le

/-- The arguments of the verifier. -/
def verifyInput : VerifyInput :=
  ⟨prover.publicKey, prover.message batching, prover.signature batching challenge⟩

/-- The opening at the leaves of the challenge. -/
def evaluateInput : EvaluateInput :=
  ⟨prover.salt, prover.opening batching challenge, challengeIndices challenge 2047,
    challenge_index_lt challenge⟩

/-- The system of the batching coefficients. -/
def system : ResponseSystem where
  batching := batchingFrom batching
  equation j := equationOf P (prover.publicKey.extract 0 32 public_seed_le) j

/-- The output of the public key. -/
def publicOutput : Vector Gf256x2 14 :=
  parsed 14 (prover.publicKey.extract 32 28 public_output_le) output_elements_le

/-- The responses that the verifier recomputes. -/
def alphaZero : Alpha :=
  (prover.system P batching).recomputed (prover.verifyInput batching challenge).alphaOne
    (challengeIndices challenge 2047) ((prover.evaluateInput batching challenge).opened P)
    prover.publicOutput

/-! What the verifier computes under the oracle. -/

/-- Other hashes are those of the primitives. -/
theorem oracle_of_tag {tag : UInt8} (hchallenge : tag ≠ 0x05) (hbatching : tag ≠ 0x08)
    (rest : List UInt8) (n : Nat) :
    (prover.oracle P batching challenge).shake128 (tag :: rest) n = P.shake128 (tag :: rest) n :=
  (program_of_tag _ challenge hchallenge rest _ n).trans
    (program_of_tag P batching hbatching rest _ n)

/-- The challenge is the second answer. -/
theorem oracle_challenge :
    challengeStream (prover.oracle P batching challenge) (prover.hash P batching)
      (prover.nonce batching) = challenge :=
  program_self _ challenge _

/-- The batching is read from the first answer. -/
theorem oracle_batching :
    batchingOf (prover.oracle P batching challenge) prover.firstCommitment =
      batchingFrom batching := by
  have hanswer : (prover.oracle P batching challenge).shake128
      (batchingParts prover.firstCommitment).flatten 224 = batching :=
    (program_of_tag _ challenge (by decide) _ _ 224).trans (program_self P batching _)
  rw [batchingOf, hanswer, batchingFrom]

/-- So the equations are batched with it. -/
theorem oracle_system :
    systemOf (prover.oracle P batching challenge) prover.firstCommitment
      (prover.verifyInput batching challenge).masterSeed = prover.system P batching := by
  have hequation : ∀ j : Fin 14, equationOf (prover.oracle P batching challenge)
      (prover.verifyInput batching challenge).masterSeed j =
        equationOf P (prover.publicKey.extract 0 32 public_seed_le) j := by
    intro j
    refine (equation_of_program _ challenge (by decide) _ _ j).trans ?_
    exact equation_of_program P batching (by decide) _ _ j
  rw [systemOf, oracle_batching, system]
  exact congrArg (ResponseSystem.mk _) (funext hequation)

/-- The verifier reads the first commitment of the prover. -/
theorem first_commitment_eq :
    (prover.verifyInput batching challenge).firstCommitment = prover.firstCommitment :=
  prover.first_eq batching challenge

/-- It computes the hash of the transcript. -/
theorem hash_eq :
    (prover.verifyInput batching challenge).hash (prover.oracle P batching challenge) =
      prover.hash P batching := by
  have hsecond : (prover.verifyInput batching challenge).secondCommitment =
      prover.secondCommitment batching := prover.second_eq batching challenge
  have hmessage : (prover.oracle P batching challenge).shake128
      (messageParts (prover.message batching)).flatten 32 =
        P.shake128 (messageParts (prover.message batching)).flatten 32 :=
    prover.oracle_of_tag P batching challenge (by decide) (by decide) _ 32
  rw [VerifyInput.hash, first_commitment_eq, hsecond, fiatShamirParts,
    show (prover.verifyInput batching challenge).message = prover.message batching from rfl,
    hmessage]
  exact prover.oracle_of_tag P batching challenge (by decide) (by decide) _ 32

/-- The hidden indices are read from the second answer. -/
theorem hidden_indices_eq :
    (prover.verifyInput batching challenge).hiddenIndices (prover.oracle P batching challenge) =
      challengeIndices challenge 2047 := by
  have hnonce : (prover.verifyInput batching challenge).nonce = prover.nonce batching :=
    prover.nonce_eq batching challenge
  rw [VerifyInput.hiddenIndices, hash_eq, hnonce, indicesOf, oracle_challenge]

/-- The opening that the verifier checks. -/
theorem evaluate_input_eq :
    (prover.verifyInput batching challenge).evaluateInput (prover.oracle P batching challenge) =
      prover.evaluateInput batching challenge :=
  EvaluateInput.ext (prover.salt_eq batching challenge) rfl
    (prover.hidden_indices_eq P batching challenge)

/-- The constant responses that it recomputes. -/
theorem alpha_zero_eq :
    (prover.verifyInput batching challenge).alphaZero (prover.oracle P batching challenge) =
      prover.alphaZero P batching challenge := by
  have hopened : (prover.evaluateInput batching challenge).opened
      (prover.oracle P batching challenge) = (prover.evaluateInput batching challenge).opened P :=
    (EvaluateInput.opened_program _ _ _ challenge _).trans
      (EvaluateInput.opened_program P _ _ batching _)
  rw [VerifyInput.alphaZero, first_commitment_eq, oracle_system, hidden_indices_eq,
    evaluate_input_eq, hopened]
  rfl

/-- The first commitment that it computes does not depend on the answers. -/
theorem digest_eq :
    (prover.evaluateInput batching challenge).digest (prover.oracle P batching challenge) =
      (prover.evaluateInput batching challenge).digest P :=
  (EvaluateInput.digest_program _ _ challenge _ (by decide) (by decide)).trans
    (EvaluateInput.digest_program P _ batching _ (by decide) (by decide))

/-- Nor do the calls of the opening. -/
theorem evaluate_calls_eq :
    (prover.evaluateInput batching challenge).calls (prover.oracle P batching challenge) =
      (prover.evaluateInput batching challenge).calls P :=
  (EvaluateInput.calls_program _ _ challenge _ (by decide)).trans
    (EvaluateInput.calls_program P _ batching _ (by decide))

/-- What a run absorbs for the opening and the response. -/
theorem digest_call_cases {kind : HashKind} {parts : List (List UInt8)}
    (hkind : kind ∈ [.responseCommitment, .leafHash, .overallCommitment])
    (hcall : .shake128 kind parts ∈ (prover.run P batching challenge).events) :
    .shake128 kind parts ∈ (prover.evaluateInput batching challenge).calls P ∨
      kind = .responseCommitment ∧ parts = responseParts (prover.alphaZero P batching challenge)
        (prover.verifyInput batching challenge).serializedAlphaOne.toList := by
  have hcases := (prover.verifyInput batching challenge).digest_call_cases
    (prover.oracle P batching challenge) hkind hcall
  rw [evaluate_input_eq, evaluate_calls_eq, alpha_zero_eq] at hcases
  exact hcases

/-! ## Accepted signatures -/

variable {P prover}

/-- The answers with which the verifier accepts. -/
theorem mem_accepted {answers : Bytes 224 × Bytes 26} :
    answers ∈ prover.accepted P ↔
      (prover.verifyInput answers.1 answers.2).Accepted (prover.oracle P answers.1 answers.2) :=
  @VerifyInput.verify_accepts (prover.oracle P answers.1 answers.2)
    (prover.verifyInput answers.1 answers.2)

section Accepted

variable {answers other : Bytes 224 × Bytes 26} (h : answers ∈ prover.accepted P)
include h

/-- An accepted challenge has the grinding zeros. -/
theorem grinding_of_accepted : maskedGrinding answers.2 = 0 := by
  have hgrinding := (mem_accepted.mp h).grinding
  have hnonce : (prover.verifyInput answers.1 answers.2).nonce = prover.nonce answers.1 :=
    prover.nonce_eq answers.1 answers.2
  rw [VerifyInput.grindingPasses, hash_eq, hnonce, oracle_challenge] at hgrinding
  exact hgrinding

/-- An accepted opening has the first commitment. -/
theorem digest_of_accepted :
    (prover.evaluateInput answers.1 answers.2).digest P = prover.firstCommitment := by
  have hfirst := (mem_accepted.mp h).first
  rw [evaluate_input_eq, digest_eq, first_commitment_eq] at hfirst
  exact hfirst

/-- Its calls are among the calls of the prover. -/
theorem evaluate_calls_of_accepted :
    ∀ call ∈ (prover.evaluateInput answers.1 answers.2).calls P, call ∈ prover.calls P := by
  intro call hcall
  refine ⟨answers, h, (mem_accepted.mp h).evaluate_calls_subset call ?_⟩
  rw [evaluate_input_eq, evaluate_calls_eq]
  exact hcall

/-- The hash of the responses is among the calls under a batching. -/
theorem response_mem_calls_at :
    .shake128 .responseCommitment (responseParts (prover.alphaZero P answers.1 answers.2)
      (prover.verifyInput answers.1 answers.2).serializedAlphaOne.toList) ∈
        prover.callsAt P answers.1 := by
  have hcall := (mem_accepted.mp h).response_mem_events
  rw [alpha_zero_eq] at hcall
  exact ⟨answers.2, h, hcall⟩

/-- It is the second commitment. -/
theorem response_of_accepted :
    P.shake128 (responseParts (prover.alphaZero P answers.1 answers.2)
      (prover.verifyInput answers.1 answers.2).serializedAlphaOne.toList).flatten 32 =
        prover.secondCommitment answers.1 := by
  have hsecond := (mem_accepted.mp h).second
  have hcommitment : (prover.verifyInput answers.1 answers.2).secondCommitment =
      prover.secondCommitment answers.1 := prover.second_eq answers.1 answers.2
  rw [VerifyInput.observedSecond, alpha_zero_eq, hcommitment, response_parts_flatten] at hsecond
  rw [response_parts_flatten, ← hsecond]
  exact (prover.oracle_of_tag P answers.1 answers.2 (by decide) (by decide) _ 32).symm

/-- The responses to one batching are one response. -/
theorem responses_agree
    (hresponses : NoDigestCollision P [.responseCommitment] (prover.callsAt P answers.1))
    (hother : other ∈ prover.accepted P) (hbatching : answers.1 = other.1) :
    prover.alphaZero P answers.1 answers.2 = prover.alphaZero P other.1 other.2 ∧
      (prover.verifyInput answers.1 answers.2).alphaOne =
        (prover.verifyInput other.1 other.2).alphaOne := by
  have hdigest := (response_of_accepted h).trans
    ((congrArg prover.secondCommitment hbatching).trans (response_of_accepted hother).symm)
  have hcalls : prover.callsAt P other.1 = prover.callsAt P answers.1 :=
    congrArg (prover.callsAt P) hbatching.symm
  have hflatten := hresponses .responseCommitment List.mem_cons_self .responseCommitment
    List.mem_cons_self _ _ (response_mem_calls_at h)
    (hcalls.subset (response_mem_calls_at hother)) hdigest
  rw [response_parts_flatten, response_parts_flatten] at hflatten
  obtain ⟨hzero, hone⟩ := List.append_inj (List.cons.inj hflatten).2 (by simp)
  refine ⟨encoded_alpha_injective (Bytes.toList_injective hzero), ?_⟩
  rw [VerifyInput.alphaOne, VerifyInput.alphaOne, Bytes.toList_injective hone]

end Accepted

end Prover

end Mqom
