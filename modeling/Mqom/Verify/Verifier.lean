import Mqom.Blc.Binding
import Mqom.Mq.Response

/-!
# The verifier

`verify_inner` on arguments of any length. The parts of a signature are read at fixed offsets, the
hidden indices come from a masked challenge and are always indices of leaves, and so every step but
the comparisons succeeds.
-/

namespace Mqom

open Rust Params Library

/-! ## The hashes of the transcript -/

/-- The strings that a message is hashed from. -/
def messageParts (message : List UInt8) : List (List UInt8) :=
  [[0x02], message]

/-- The strings that the Fiat-Shamir hash is computed from. -/
def fiatShamirParts (P : Primitives) (publicKey firstCommitment secondCommitment : List UInt8)
    (message : List UInt8) : List (List UInt8) :=
  [[0x04], publicKey, firstCommitment, secondCommitment,
    (P.shake128 (messageParts message).flatten 32).toList]

/-- The strings that the challenge is computed from. -/
def challengeParts (hash : Bytes 32) (nonce : Bytes 4) : List (List UInt8) :=
  [[0x05], hash.toList, nonce.toList]

/-- The strings that the second commitment is computed from. -/
def responseParts (alphaZero : Alpha) (serializedAlphaOne : List UInt8) : List (List UInt8) :=
  [0x03] :: alphaParts alphaZero ++ [serializedAlphaOne]

variable (P : Primitives)

/-- The hash of the transcript is two calls. -/
theorem fiat_shamir_hash_eq (publicKey firstCommitment secondCommitment message : List UInt8) :
    fiatShamirHash P publicKey firstCommitment secondCommitment message =
      Run.ret (P.shake128 (fiatShamirParts P publicKey firstCommitment secondCommitment
          message).flatten 32)
        [.shake128 .messageHash (messageParts message), .shake128 .fiatShamir
          (fiatShamirParts P publicKey firstCommitment secondCommitment message)] := by
  rw [fiatShamirHash, shake128_eq, Run.ret_bind, shake128_eq]
  rfl

/-- The second commitment is one call. -/
theorem second_commitment_hash_eq (alphaZero : Alpha) (serializedAlphaOne : List UInt8) :
    secondCommitmentHash P alphaZero serializedAlphaOne =
      Run.ret (P.shake128 (responseParts alphaZero serializedAlphaOne).flatten 32)
        [.shake128 .responseCommitment (responseParts alphaZero serializedAlphaOne)] := by
  unfold secondCommitmentHash
  dsimp only
  rw [Shake128State.squeeze_eq, Shake128State.absorb_parts, Shake128State.foldl_absorb_parts]
  rfl

/-- The stream that a challenge is read from. -/
def challengeStream (hash : Bytes 32) (nonce : Bytes 4) : Bytes 26 :=
  P.shake128 (challengeParts hash nonce).flatten 26

/-- The hidden indices of a challenge. -/
def indicesOf (hash : Bytes 32) (nonce : Bytes 4) : Vector UInt16 12 :=
  challengeIndices (challengeStream P hash nonce) 2047

/-- The indices of a challenge are masked to eleven bits. -/
theorem indices_of_lt (hash : Bytes 32) (nonce : Bytes 4) (e : Fin 12) :
    (indicesOf P hash nonce)[e].toNat < 2048 := by
  unfold indicesOf challengeIndices
  rw [getElem_fin, Vector.getElem_ofFn, UInt16.toNat_and]
  exact Nat.lt_of_le_of_lt Nat.and_le_right (by decide)

/-- A challenge is one call and the test of its grinding bits. -/
theorem parse_challenge_eq (hash : Bytes 32) (nonce : Bytes 4) :
    parseChallenge P hash nonce =
      (if maskedGrinding (challengeStream P hash nonce) = 0 then
        Run.ret (indicesOf P hash nonce) []
      else Run.halt (.none .grinding)).after
        [.shake128 .challenge (challengeParts hash nonce)] := by
  rw [parseChallenge, shake128_eq, Run.ret_bind, u16_try_from_of_lt (by decide), Run.of_option_some,
    Run.ret_bind]
  dsimp only
  rw [show [[0x05], hash.toList, nonce.toList] = challengeParts hash nonce from rfl,
    show P.shake128 (challengeParts hash nonce).flatten 26 = challengeStream P hash nonce from rfl]
  split
  · rename_i hgrinding
    rw [Run.require_of hgrinding]
    rfl
  · rename_i hgrinding
    rw [Run.require_of_not hgrinding]
    rfl

/-! ## The parts of a signature -/

/-- The arguments of `verify_inner` that pass its check of lengths. -/
@[ext]
structure VerifyInput where
  publicKey : Bytes 60
  message : List UInt8
  signature : Bytes 2916

namespace VerifyInput

variable (input : VerifyInput)

/-- The seed of the equations. -/
def masterSeed : Bytes 32 :=
  input.publicKey.extract 0 32 public_seed_le

/-- The output of the public key. -/
def publicOutput : Vector Gf256x2 14 :=
  parsed 14 (input.publicKey.extract 32 28 public_output_le) output_elements_le

/-- The salt. -/
def salt : Bytes 16 :=
  input.signature.extract 0 16 signature_salt_le

/-- The first commitment. -/
def firstCommitment : Bytes 32 :=
  input.signature.extract 16 32 first_commitment_le

/-- The second commitment. -/
def secondCommitment : Bytes 32 :=
  input.signature.extract 48 32 second_commitment_le

/-- The bytes of `alpha_one`. -/
def serializedAlphaOne : Bytes 192 :=
  input.signature.extract 80 192 (by omega)

/-- The opening. -/
def opening : Bytes 2640 :=
  input.signature.extract 272 2640 signature_opening_le

/-- The nonce. -/
def nonce : Bytes 4 :=
  input.signature.extract 2912 4 signature_nonce_le

/-- The elements of `alpha_one`. -/
def alphaOne : Alpha :=
  Vector.ofFn fun e =>
    parsed 8 (input.serializedAlphaOne.extract (16 * e) 16 (execution_part_le e))
      execution_elements_le

/-- The Fiat-Shamir hash. -/
def hash : Bytes 32 :=
  P.shake128 (fiatShamirParts P input.publicKey.toList input.firstCommitment.toList
    input.secondCommitment.toList input.message).flatten 32

/-- The hidden indices. -/
def hiddenIndices : Vector UInt16 12 :=
  indicesOf P (input.hash P) input.nonce

/-- Whether the grinding bits of the challenge are zero. -/
def grindingPasses : Prop :=
  maskedGrinding (challengeStream P (input.hash P) input.nonce) = 0

instance : Decidable (input.grindingPasses P) :=
  inferInstanceAs (Decidable (maskedGrinding _ = 0))

/-- The opening, as `evaluate_opening` receives it. -/
def evaluateInput : EvaluateInput :=
  ⟨input.salt, input.opening, input.hiddenIndices P, indices_of_lt P (input.hash P) input.nonce⟩

/-- The `alpha_zero` that is recomputed. -/
def alphaZero : Alpha :=
  (systemOf P input.firstCommitment input.masterSeed).recomputed input.alphaOne
    (input.hiddenIndices P) ((input.evaluateInput P).opened P) input.publicOutput

/-- The second commitment, recomputed. -/
def observedSecond : Bytes 32 :=
  P.shake128 (responseParts (input.alphaZero P) input.serializedAlphaOne.toList).flatten 32

/-- The calls before the check of the grinding bits. -/
def challengeCalls : List Call :=
  [.shake128 .messageHash (messageParts input.message),
    .shake128 .fiatShamir (fiatShamirParts P input.publicKey.toList input.firstCommitment.toList
      input.secondCommitment.toList input.message),
    .shake128 .challenge (challengeParts (input.hash P) input.nonce)]

/-- The calls between the two comparisons of commitments. -/
def responseCalls : List Call :=
  .shake128 .batching (batchingParts input.firstCommitment) :: equationCalls input.masterSeed ++
    [.shake128 .responseCommitment
      (responseParts (input.alphaZero P) input.serializedAlphaOne.toList)]

/-- The checks that decide after the check of the lengths, in order. -/
def decision : Exec Unit :=
  (if input.grindingPasses P then
    (if (input.evaluateInput P).digest P = input.firstCommitment then
      (if input.observedSecond P = input.secondCommitment then Run.ret () []
      else Run.halt (.none .secondCommitment)).after (input.responseCalls P)
    else Run.halt (.none .firstCommitment)).after ((input.evaluateInput P).calls P)
  else Run.halt (.none .grinding)).after (input.challengeCalls P)

/-- The elements of `alpha_one` are parsed one execution at a time. -/
theorem parse_alpha_one :
    (Vector.ofFnM fun execution : Fin 12 => do
      let encoded ← slice input.serializedAlphaOne.toList (16 * execution) (16 * execution + 16)
      parseExtensionVector 8 encoded) = (Run.ret input.alphaOne [] : Exec Alpha) := by
  rw [Run.of_fn_m_eq_ret
    (fun e : Fin 12 =>
      parsed 8 (input.serializedAlphaOne.extract (16 * e) 16 (by omega)) (by omega))
    (fun _ => []), Run.flatMap_nil]
  · rfl
  · intro e
    rw [slice_toList _ 16 (by omega) rfl, Run.ret_bind, parse_extension_vector_eq _ rfl]
    rfl

/-! The slices that `verify_inner` takes are the parts. -/

/-- The master seed starts the public key. -/
theorem slice_master_seed :
    (slice input.publicKey.toList 0 Verify.publicSeedSize : Exec (List UInt8)) =
      Run.ret input.masterSeed.toList [] :=
  slice_toList _ 32 (by omega) rfl

/-- The output is the rest of it. -/
theorem slice_public_output :
    (slice input.publicKey.toList Verify.publicSeedSize input.publicKey.toList.length :
      Exec (List UInt8)) =
      Run.ret (input.publicKey.extract 32 28 public_output_le).toList [] :=
  slice_toList _ 28 (by simp) (by simp)

/-- The salt starts the signature. -/
theorem slice_salt :
    (slice input.signature.toList Verify.saltOffset (Verify.saltOffset + saltSize) :
      Exec (List UInt8)) = Run.ret input.salt.toList [] :=
  slice_toList _ 16 (by simp) rfl

/-- The first commitment comes after the salt. -/
theorem slice_first_commitment :
    (slice input.signature.toList Verify.firstCommitmentOffset
      (Verify.firstCommitmentOffset + digestSize) : Exec (List UInt8)) =
      Run.ret input.firstCommitment.toList [] :=
  slice_toList _ 32 (by simp) rfl

/-- The second commitment comes after the first. -/
theorem slice_second_commitment :
    (slice input.signature.toList Verify.secondCommitmentOffset
      (Verify.secondCommitmentOffset + digestSize) : Exec (List UInt8)) =
      Run.ret input.secondCommitment.toList [] :=
  slice_toList _ 32 (by simp) rfl

/-- The linear responses come after the commitments. -/
theorem slice_alpha_one :
    (slice input.signature.toList Verify.alphaOneOffset Verify.openingOffset :
      Exec (List UInt8)) = Run.ret input.serializedAlphaOne.toList [] :=
  slice_toList _ 192 (by simp) rfl

/-- The opening comes after the responses. -/
theorem slice_opening :
    (slice input.signature.toList Verify.openingOffset Verify.nonceOffset :
      Exec (List UInt8)) = Run.ret input.opening.toList [] :=
  slice_toList _ 2640 (by simp) rfl

/-- The nonce ends the signature. -/
theorem slice_nonce :
    (slice input.signature.toList Verify.nonceOffset input.signature.toList.length :
      Exec (List UInt8)) = Run.ret input.nonce.toList [] :=
  slice_toList _ 4 (by simp) (by simp)

/-- The elements of the public output. -/
theorem parse_public_output :
    parseExtensionVector 14 (input.publicKey.extract 32 28 public_output_le).toList =
      Run.ret input.publicOutput [] :=
  parse_extension_vector_eq _ rfl

/-- `evaluate_opening` on the parts of a signature. -/
theorem evaluate_opening_eq :
    evaluateOpening P input.salt input.firstCommitment input.opening.toList
        (indicesOf P (input.hash P) input.nonce) =
      (if (input.evaluateInput P).digest P = input.firstCommitment then
        Run.ret ((input.evaluateInput P).opened P) []
      else Run.halt (.none .firstCommitment)).after ((input.evaluateInput P).calls P) :=
  (input.evaluateInput P).evaluate_opening_eq P input.firstCommitment

/-- `verify_inner` on arguments of the right lengths is decided by three comparisons. -/
theorem verify_inner_eq :
    verifyInner P input.publicKey.toList input.message input.signature.toList =
      input.decision P := by
  unfold verifyInner decision
  rw [Run.require_of ⟨by simp, by simp⟩, Run.ret_bind, slice_master_seed, Run.ret_bind,
    try_into_toList, Run.of_option_some, Run.ret_bind, slice_public_output, Run.ret_bind,
    parse_public_output, Run.ret_bind, slice_salt, Run.ret_bind, try_into_toList,
    Run.of_option_some, Run.ret_bind, slice_first_commitment, Run.ret_bind, try_into_toList,
    Run.of_option_some, Run.ret_bind, slice_second_commitment, Run.ret_bind, try_into_toList,
    Run.of_option_some, Run.ret_bind, slice_alpha_one, Run.ret_bind, slice_opening, Run.ret_bind,
    slice_nonce, Run.ret_bind, try_into_toList, Run.of_option_some, Run.ret_bind,
    fiat_shamir_hash_eq, Run.ret_bind, show P.shake128 (fiatShamirParts P input.publicKey.toList
      input.firstCommitment.toList input.secondCommitment.toList input.message).flatten 32 =
        input.hash P from rfl, parse_challenge_eq]
  simp only [Run.after_nil, Run.after_bind]
  by_cases hgrinding : input.grindingPasses P
  · have hmasked : maskedGrinding (challengeStream P (input.hash P) input.nonce) = 0 := hgrinding
    rw [if_pos hgrinding, if_pos hmasked, Run.ret_bind, evaluate_opening_eq]
    by_cases hfirst : (input.evaluateInput P).digest P = input.firstCommitment
    · rw [if_pos hfirst, if_pos hfirst, Run.after_ret, Run.ret_bind, parse_alpha_one,
        Run.ret_bind, recompute_alpha_zero_eq, Run.ret_bind, second_commitment_hash_eq,
        Run.ret_bind]
      simp only [Run.after_after, List.nil_append, List.append_nil]
      rfl
    · rw [if_neg hfirst, if_neg hfirst, Run.after_bind, Run.halt_bind, Run.after_nil]
      exact Run.after_after _ _ _
  · have hmasked : ¬ maskedGrinding (challengeStream P (input.hash P) input.nonce) = 0 := hgrinding
    rw [if_neg hgrinding, if_neg hmasked, Run.halt_bind]
    exact Run.after_after _ _ _

/-! The values that the two comparisons recompute. -/

/-- Reconstruction returns the digest and the opened values. -/
theorem reconstruct_outcome :
    (reconstructOpening P input.salt input.opening.toList (input.hiddenIndices P)).outcome =
      .ok ((input.evaluateInput P).digest P, (input.evaluateInput P).opened P) := by
  have hrun := (input.evaluateInput P).reconstruct_opening_eq P
  exact congrArg Run.outcome hrun

/-- The constant responses are recomputed. -/
theorem alpha_zero_outcome :
    (recomputeAlphaZero P input.firstCommitment input.alphaOne (input.hiddenIndices P)
      ((input.evaluateInput P).opened P) input.masterSeed input.publicOutput).outcome =
      .ok (input.alphaZero P) := by
  rw [recompute_alpha_zero_eq, Run.ret_outcome]
  rfl

/-- The second commitment is recomputed. -/
theorem second_outcome :
    (secondCommitmentHash P (input.alphaZero P) input.serializedAlphaOne.toList).outcome =
      .ok (input.observedSecond P) := by
  rw [second_commitment_hash_eq, Run.ret_outcome]
  rfl

/-- The arguments are accepted when the three comparisons succeed. -/
theorem decision_ok :
    (input.decision P).outcome = .ok () ↔ input.grindingPasses P ∧
      (input.evaluateInput P).digest P = input.firstCommitment ∧
      input.observedSecond P = input.secondCommitment := by
  unfold decision
  split
  · rename_i hgrinding
    split
    · rename_i hfirst
      split
      · rename_i hsecond
        simp [hgrinding, hfirst, hsecond]
      · rename_i hsecond
        simp [hsecond]
    · rename_i hfirst
      simp [hfirst]
  · rename_i hgrinding
    simp [hgrinding]

/-- The comparisons never panic, and each has a branch of its own. -/
theorem decision_error {reason : Rust.Halt Branch}
    (h : (input.decision P).outcome = .error reason) :
    ∃ branch ∈ [Branch.grinding, .firstCommitment, .secondCommitment], reason = .none branch := by
  unfold decision at h
  split at h
  · split at h
    · split at h
      · exact nomatch h
      · exact ⟨.secondCommitment, by simp, by simpa [eq_comm] using h⟩
    · exact ⟨.firstCommitment, by simp, by simpa [eq_comm] using h⟩
  · exact ⟨.grinding, by simp, by simpa [eq_comm] using h⟩

/-- The calls of the comparisons. -/
theorem mem_decision_events {call : Call} (h : call ∈ (input.decision P).events) :
    call ∈ input.challengeCalls P ∨ call ∈ (input.evaluateInput P).calls P ∨
      call ∈ input.responseCalls P := by
  unfold decision at h
  rcases List.mem_append.mp h with hchallenge | h
  · exact Or.inl hchallenge
  split at h
  · rcases List.mem_append.mp h with hevaluate | h
    · exact Or.inr (Or.inl hevaluate)
    split at h
    · rcases List.mem_append.mp h with hresponse | h
      · exact Or.inr (Or.inr hresponse)
      · split at h <;> exact absurd h List.not_mem_nil
    · exact absurd h List.not_mem_nil
  · exact absurd h List.not_mem_nil

/-- Accepted arguments make all calls. -/
theorem decision_events_of_ok (h : (input.decision P).outcome = .ok ()) :
    (input.decision P).events =
      input.challengeCalls P ++ ((input.evaluateInput P).calls P ++ input.responseCalls P) := by
  obtain ⟨hgrinding, hfirst, hsecond⟩ := (input.decision_ok P).mp h
  unfold decision
  rw [if_pos hgrinding, if_pos hfirst, if_pos hsecond]
  simp

/-- The arguments are rejected when one of the comparisons fails. -/
theorem decision_rejects :
    (∃ branch, (input.decision P).outcome = .error (.none branch)) ↔
      ¬ input.grindingPasses P ∨ (input.evaluateInput P).digest P ≠ input.firstCommitment ∨
      input.observedSecond P ≠ input.secondCommitment := by
  have haccepts := input.decision_ok P
  cases houtcome : (input.decision P).outcome with
  | ok value =>
      obtain ⟨hgrinding, hfirst, hsecond⟩ := haccepts.mp houtcome
      simp [hgrinding, hfirst, hsecond]
  | error reason =>
      obtain ⟨branch, _, rfl⟩ := input.decision_error P houtcome
      rw [houtcome] at haccepts
      constructor
      · intro _
        by_contra hall
        rw [not_or, not_or, not_not, not_not, not_not] at hall
        exact nomatch haccepts.mpr hall
      · intro _
        exact ⟨branch, rfl⟩

end VerifyInput

/-- Arguments of wrong lengths are rejected at once. -/
theorem verify_inner_of_lengths {publicKey signature : List UInt8} (message : List UInt8)
    (h : ¬ (publicKey.length = 60 ∧ signature.length = 2916)) :
    verifyInner P publicKey message signature = Run.halt (.none .encodedLength) := by
  have hlengths : ¬ (publicKey.length = publicKeySize ∧ signature.length = signatureSize) := h
  unfold verifyInner
  rw [Run.require_of_not hlengths, Run.halt_bind]

/-- `verify` accepts what `verify_inner` accepts. -/
theorem verify_true {publicKey message signature : List UInt8} :
    (verify P publicKey message signature).outcome = .ok true ↔
      (verifyInner P publicKey message signature).outcome = .ok () := by
  unfold verify
  rw [Run.bind_outcome_ok]
  constructor
  · rintro ⟨result, hresult, hsome⟩
    cases result with
    | none => exact nomatch Except.ok.inj hsome
    | some value => exact Run.attempt_outcome_some.mp hresult
  · intro h
    exact ⟨some (), Run.attempt_outcome_some.mpr h, rfl⟩

/-- `verify_inner` never panics. It rejects exactly when a length is wrong, the masked grinding
bits are nonzero, or a recomputed commitment differs from the one in the signature, and then at
the branch of one of these checks. -/
theorem verify_inner_total (publicKey message signature : List UInt8) :
    (verifyInner P publicKey message signature).outcome ≠ .error .panic ∧
    (∀ branch, (verifyInner P publicKey message signature).outcome = .error (.none branch) →
      branch ∈ [.encodedLength, .grinding, .firstCommitment, .secondCommitment]) ∧
    ((∃ branch, (verifyInner P publicKey message signature).outcome = .error (.none branch)) ↔
      publicKey.length ≠ 60 ∨ signature.length ≠ 2916 ∨
      ∃ input : VerifyInput, input.publicKey.toList = publicKey ∧ input.message = message ∧
        input.signature.toList = signature ∧
        (maskedGrinding (challengeStream P (input.hash P) input.nonce) ≠ 0 ∨
        ∃ observedFirst opened,
          (reconstructOpening P input.salt input.opening.toList (input.hiddenIndices P)).outcome =
            .ok (observedFirst, opened) ∧
          (observedFirst ≠ input.firstCommitment ∨
          ∃ alphaZero observedSecond,
            (recomputeAlphaZero P input.firstCommitment input.alphaOne (input.hiddenIndices P)
              opened input.masterSeed input.publicOutput).outcome = .ok alphaZero ∧
            (secondCommitmentHash P alphaZero input.serializedAlphaOne.toList).outcome =
              .ok observedSecond ∧
            observedSecond ≠ input.secondCommitment))) := by
  -- behind the check of the lengths the arguments are arrays
  by_cases hlengths : publicKey.length = 60 ∧ signature.length = 2916
  · obtain ⟨hpublicKey, hsignature⟩ := hlengths
    obtain ⟨input, rfl, rfl, rfl⟩ : ∃ input : VerifyInput, input.publicKey.toList = publicKey ∧
        input.message = message ∧ input.signature.toList = signature :=
      ⟨⟨⟨publicKey, hpublicKey⟩, message, ⟨signature, hsignature⟩⟩, rfl, rfl, rfl⟩
    rw [input.verify_inner_eq P]
    refine ⟨?_, ?_, ?_⟩
    · intro hpanic
      obtain ⟨branch, _, hbranch⟩ := input.decision_error P hpanic
      exact nomatch hbranch
    · intro branch hnone
      obtain ⟨other, hother, hbranch⟩ := input.decision_error P hnone
      cases hbranch
      exact List.mem_cons_of_mem _ hother
    · rw [input.decision_rejects P]
      constructor
      · rintro (hgrinding | hfirst | hsecond)
        · exact Or.inr (Or.inr ⟨input, rfl, rfl, rfl, Or.inl hgrinding⟩)
        · exact Or.inr (Or.inr ⟨input, rfl, rfl, rfl, Or.inr
            ⟨_, _, input.reconstruct_outcome P, Or.inl hfirst⟩⟩)
        · exact Or.inr (Or.inr ⟨input, rfl, rfl, rfl, Or.inr
            ⟨_, _, input.reconstruct_outcome P, Or.inr
              ⟨_, _, input.alpha_zero_outcome P, input.second_outcome P, hsecond⟩⟩⟩)
      · rintro (hlength | hlength | ⟨other, hpublicKey, hmessage, hsignature, hrejects⟩)
        · exact absurd hpublicKey hlength
        · exact absurd hsignature hlength
        · -- an input is determined by its arguments
          obtain rfl : other = input :=
            VerifyInput.ext (Bytes.ext hpublicKey) hmessage (Bytes.ext hsignature)
          rcases hrejects with hgrinding | ⟨observedFirst, opened, hfirst, hrest⟩
          · exact Or.inl hgrinding
          rw [other.reconstruct_outcome P] at hfirst
          cases hfirst
          rcases hrest with hne | ⟨alphaZero, observedSecond, hzero, hsecond, hne⟩
          · exact Or.inr (Or.inl hne)
          rw [other.alpha_zero_outcome P] at hzero
          cases hzero
          rw [other.second_outcome P] at hsecond
          cases hsecond
          exact Or.inr (Or.inr hne)
  · rw [verify_inner_of_lengths P message hlengths]
    refine ⟨by simp, by simp, ?_⟩
    constructor
    · intro _
      rw [not_and_or] at hlengths
      exact hlengths.elim Or.inl (fun h => Or.inr (Or.inl h))
    · intro _
      exact ⟨.encodedLength, rfl⟩

end Mqom
