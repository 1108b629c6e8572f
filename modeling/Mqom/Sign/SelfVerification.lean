import Mqom.Blc.CommitBinding
import Mqom.Sign.Signer
import Mqom.Verify.Binding
import Mqom.Verify.Soundness

/-!
# The self-verification of the signer

`sign` verifies its signature before it returns it. The verifier repeats the hashes of the signer
and recomputes responses that are off by the batched errors of the key, at the points of the
challenge. So the check catches a key whose secret does not solve its equations, unless the errors
cancel.
-/

namespace Mqom

open Rust Params Library

/-! ## The errors of a key -/

/-- The output in a key. -/
def publicOutputOf (key : Bytes 88) : Vector Gf256x2 14 :=
  parsed 14 ((key.extract 0 60 key_public_le).extract 32 28 public_output_le) output_elements_le

/-- By how much a batched equation at the secret of a key misses the output in the key. -/
def batchedKeyError (P : Primitives) (firstCommitment : Bytes 32) (key : Bytes 88)
    (component : Fin 8) : Gf256x2 :=
  ∑ j : Fin 14, (batchingOf P firstCommitment)[component][j] *
    ((equationOf P (masterSeedOf key) j).valueAt (secretVectorOf key) + (publicOutputOf key)[j])

/-- The evaluation point of an index is zero for the index zero only. -/
theorem evaluation_point_eq_zero {index : UInt16} : evaluationPoint index = 0 ↔ index = 0 := by
  have hzero : evaluationPoint 0 = 0 := by decide
  rw [← hzero]
  exact evaluation_point_injective.eq_iff

namespace SignInput

variable (P : Primitives) (input : SignInput) (nonce : Bytes 4)

/-! ## The responses of any key -/

/-- The errors do not show at the points of the challenge. -/
def ErrorsCancel : Prop :=
  ∀ (e : Fin 12) (component : Fin 8), (input.hiddenIndices P nonce)[e] = 0 ∨
    batchedKeyError P (input.firstCommitment P) input.key component = 0

/-- The batched error of a key is the sum of the weighted errors of its outputs. -/
theorem batched_key_error_eq (component : Fin 8) :
    batchedKeyError P (input.firstCommitment P) input.key component =
      ∑ j, (input.system P).weight component j *
        (((input.system P).equation j).valueAt input.commitInput.secret +
          (publicOutputOf input.key)[j]) := by
  simp only [batchedKeyError, ResponseSystem.weight, system, systemOf, commitInput]

/-- The verifier is off by the error of a component times the square of the point. -/
theorem verify_input_alpha_zero_entry (e : Fin 12) (component : Fin 8) :
    ((input.verifyInput P nonce).alphaZero P)[e][component] =
      (input.alphaZero P)[e][component] +
        evaluationPoint (input.hiddenIndices P nonce)[e] ^ 2 *
          batchedKeyError P (input.firstCommitment P) input.key component := by
  have hlt : ∀ e : Fin 12, (input.hiddenIndices P nonce)[e].toNat < 2048 :=
    indices_of_lt P (input.hash P) nonce
  have hone : input.alphaOne P =
      (input.system P).alphaOne (input.commitInput.commitment P).masks input.commitInput.secret :=
    rfl
  have hsystem : systemOf P (input.firstCommitment P) (masterSeedOf input.key) =
      input.system P := rfl
  have houtput : (input.verifyInput P nonce).publicOutput = publicOutputOf input.key := rfl
  have hzero : input.alphaZero P =
      (input.system P).alphaZero (input.commitInput.commitment P).masks := rfl
  rw [VerifyInput.alphaZero, verify_input_first, verify_input_seed, verify_input_responses,
    verify_input_hidden, verify_input_evaluate, hone, hsystem, houtput, hzero, batched_key_error_eq]
  have hbase := input.commitInput.opened_base P (input.hiddenIndices P nonce) hlt e
  have hmask := input.commitInput.opened_mask P (input.hiddenIndices P nonce) hlt e component
  have hentry := (input.system P).recomputed_eq (input.commitInput.commitment P).masks
    input.commitInput.secret (input.hiddenIndices P nonce)
    ((input.commitInput.evaluateInput P (input.hiddenIndices P nonce) hlt).opened P)
    (publicOutputOf input.key) e component (by with_reducible exact hbase)
    (by with_reducible exact hmask)
  with_reducible exact hentry

/-- The verifier recomputes the committed responses when the errors cancel, and only then. -/
theorem alpha_zero_iff :
    (input.verifyInput P nonce).alphaZero P = input.alphaZero P ↔ input.ErrorsCancel P nonce := by
  constructor
  · intro heq e component
    have hentry := input.verify_input_alpha_zero_entry P nonce e component
    rw [heq, left_eq_add, mul_eq_zero, pow_eq_zero_iff (by omega),
      evaluation_point_eq_zero] at hentry
    exact hentry
  · intro hcancel
    refine vector_ext fun e => vector_ext fun component => ?_
    rw [verify_input_alpha_zero_entry]
    rcases hcancel e component with hindex | herror
    · rw [evaluation_point_eq_zero.mpr hindex, zero_pow (by omega), zero_mul, add_zero]
    · rw [herror, mul_zero, add_zero]

/-! ## The run of the verifier on a signature -/

/-- The calls of the verifier. -/
def verifyCalls : List Call :=
  (input.verifyInput P nonce).challengeCalls P ++
    (((input.verifyInput P nonce).evaluateInput P).calls P ++
      (input.verifyInput P nonce).responseCalls P)

/-- The second commitment is what the verifier compares last. -/
theorem verify_signature_eq (haccepted : nonceAccepted P (input.hash P) nonce) :
    verify P input.publicKey.toList input.message (input.signature P nonce).toList =
      Run.ret (decide ((input.verifyInput P nonce).observedSecond P = input.secondCommitment P))
        (input.verifyCalls P nonce) := by
  have hgrinding : (input.verifyInput P nonce).grindingPasses P := by
    rw [VerifyInput.grindingPasses, verify_input_hash, verify_input_nonce]
    exact haccepted
  have hfirst : ((input.verifyInput P nonce).evaluateInput P).digest P =
      (input.verifyInput P nonce).firstCommitment := by
    rw [verify_input_evaluate, verify_input_first]
    exact input.commitInput.evaluate_digest P _ _
  have hrun : verifyInner P input.publicKey.toList input.message (input.signature P nonce).toList =
      (input.verifyInput P nonce).decision P := (input.verifyInput P nonce).verify_inner_eq P
  rw [verify, hrun, VerifyInput.decision, if_pos hgrinding, if_pos hfirst, verify_input_second]
  by_cases hsecond : (input.verifyInput P nonce).observedSecond P = input.secondCommitment P
  · simp [hsecond, verifyCalls]
  · simp [hsecond, verifyCalls]

/-- The calls of `sign` after the search. -/
def finishCalls : List Call :=
  (List.finRange 12).map (input.commitInput.openCall P (input.hiddenIndices P nonce)) ++
    input.verifyCalls P nonce

/-- What is left of `sign` when the search has found a nonce. -/
theorem sign_eq {searched : List Call} (haccepted : nonceAccepted P (input.hash P) nonce)
    (hfound : sampleChallenge P (input.hash P) =
      Run.ret (input.hiddenIndices P nonce, nonce) searched) :
    sign P input.key input.message input.masterSeed input.salt =
      (if (input.verifyInput P nonce).observedSecond P = input.secondCommitment P then
        Run.ret (input.signature P nonce) []
      else Run.halt (.none .selfVerification)).after
        (input.prepareCalls P ++ (searched ++ input.finishCalls P nonce)) := by
  have hopen : (input.commitment P).openAt P (input.hiddenIndices P nonce) =
      Run.ret (input.opening P nonce) ((List.finRange 12).map
        (input.commitInput.openCall P (input.hiddenIndices P nonce))) :=
    input.commitInput.open_at_eq P (input.hiddenIndices P nonce)
      (indices_of_lt P (input.hash P) nonce)
  have hsignature : ((input.header P).write Verify.openingOffset
      (input.opening P nonce).toList).write Verify.nonceOffset nonce.toList =
        input.signature P nonce := rfl
  unfold sign
  rw [input.prepare_signature_eq P, Run.ret_bind]
  dsimp only
  rw [hfound, Run.ret_bind]
  dsimp only
  rw [hopen, Run.ret_bind,
    copy_from_slice_of_le _ (by decide) (by decide) (by simp), Run.ret_bind, Run.after_nil,
    copy_from_slice_of_le _ (by decide) (by decide) (by simp), Run.ret_bind, Run.after_nil,
    hsignature, input.verify_signature_eq P nonce haccepted, Run.ret_bind]
  by_cases hsecond : (input.verifyInput P nonce).observedSecond P = input.secondCommitment P
  · rw [if_pos hsecond, Run.require_of (decide_eq_true hsecond), Run.ret_bind]
    simp only [Run.pure_eq_ret, Run.after_nil, Run.after_after, finishCalls]
  · rw [if_neg hsecond, Run.require_of_not (by simpa using hsecond), Run.halt_bind]
    simp only [Run.after_after, finishCalls]

/-- The calls of a signer that finds a nonce. -/
theorem sign_events {searched : List Call} (haccepted : nonceAccepted P (input.hash P) nonce)
    (hfound : sampleChallenge P (input.hash P) =
      Run.ret (input.hiddenIndices P nonce, nonce) searched) :
    (sign P input.key input.message input.masterSeed input.salt).events =
      input.prepareCalls P ++ (searched ++ input.finishCalls P nonce) := by
  rw [input.sign_eq P nonce haccepted hfound]
  split
  · rw [Run.after_ret, Run.ret_events, List.append_nil]
  · exact List.append_nil _

/-- A run of `sign` returns the signature with a nonce that the verifier accepts, or fails at the
self-verification or in the search. -/
theorem sign_outcome_cases :
    (∃ nonce, nonceAccepted P (input.hash P) nonce ∧
      (input.verifyInput P nonce).observedSecond P = input.secondCommitment P ∧
      (sign P input.key input.message input.masterSeed input.salt).outcome =
        .ok (input.signature P nonce)) ∨
    ∃ branch ∈ [Branch.selfVerification, .nonceSearch],
      (sign P input.key input.message input.masterSeed input.salt).outcome =
        .error (.none branch) := by
  have hsearch := sample_from_cases P (input.hash P) (2 ^ 32) 0
  rw [← sample_challenge_eq] at hsearch
  rcases hsearch with ⟨k, _, haccepted, _, hrun⟩ | ⟨_, hrun⟩
  · have hsign := congrArg Run.outcome (input.sign_eq P _ haccepted hrun)
    rw [hsign]
    split
    · rename_i hsecond
      exact Or.inl ⟨_, haccepted, hsecond, rfl⟩
    · exact Or.inr ⟨.selfVerification, by simp, rfl⟩
  · exact Or.inr ⟨.nonceSearch, by simp, input.sign_of_not_found P (congrArg Run.outcome hrun)⟩

/-- A signature that `sign` returns is accepted, whatever the key is. -/
theorem accepted_of_signed {signature : Bytes 2916}
    (h : (sign P input.key input.message input.masterSeed input.salt).outcome = .ok signature) :
    (verify P input.publicKey.toList input.message signature.toList).outcome = .ok true := by
  rcases input.sign_outcome_cases P with ⟨nonce, haccepted, hsecond, hsigned⟩ | ⟨_, _, hfailed⟩
  · obtain rfl := Except.ok.inj (hsigned.symm.trans h)
    have hverify := congrArg Run.outcome (input.verify_signature_eq P nonce haccepted)
    rw [decide_eq_true hsecond] at hverify
    exact hverify
  · exact nomatch hfailed.symm.trans h

/-- `sign` never panics, so a caught run returns its result. -/
theorem attempt_sign_outcome :
    (Run.attempt (sign P input.key input.message input.masterSeed input.salt)).outcome =
      .ok (sign P input.key input.message input.masterSeed input.salt).outcome.toOption := by
  rcases input.sign_outcome_cases P with ⟨nonce, _, _, hsigned⟩ | ⟨branch, _, hfailed⟩
  · rw [Run.attempt_outcome_some.mpr hsigned, hsigned]
    rfl
  · rw [Run.attempt, hfailed]
    rfl

/-! ## What decides -/

/-- The signer hashes its responses. -/
theorem response_mem_prepare_calls :
    .shake128 .responseCommitment (responseParts (input.alphaZero P)
      (encodedAlpha (input.alphaOne P)).toList) ∈ input.prepareCalls P :=
  List.mem_append_right _ List.mem_cons_self

/-- The self-verification hashes the recomputed ones. -/
theorem response_mem_verify_calls :
    .shake128 .responseCommitment (responseParts ((input.verifyInput P nonce).alphaZero P)
      (encodedAlpha (input.alphaOne P)).toList) ∈ input.verifyCalls P nonce := by
  rw [← input.verify_input_alpha_one P nonce]
  exact List.mem_append_right _ (List.mem_append_right _
    (List.mem_append_right _ List.mem_cons_self))

/-- The second commitment is recomputed when the errors cancel, and without a collision only
then. -/
theorem observed_second_iff {calls : Set Call}
    (hdigests : NoDigestCollision P [.responseCommitment] calls)
    (hprepare : ∀ call ∈ input.prepareCalls P, call ∈ calls)
    (hverify : ∀ call ∈ input.verifyCalls P nonce, call ∈ calls) :
    (input.verifyInput P nonce).observedSecond P = input.secondCommitment P ↔
      input.ErrorsCancel P nonce := by
  rw [← alpha_zero_iff, VerifyInput.observedSecond, verify_input_alpha_one, secondCommitment]
  constructor
  · intro hdigest
    have hflatten := hdigests .responseCommitment List.mem_cons_self .responseCommitment
      List.mem_cons_self _ _ (hverify _ (input.response_mem_verify_calls P nonce))
      (hprepare _ (input.response_mem_prepare_calls P)) hdigest
    rw [response_parts_flatten, response_parts_flatten] at hflatten
    obtain ⟨hzero, _⟩ := List.append_inj (List.cons.inj hflatten).2 (by simp)
    exact encoded_alpha_injective (Bytes.toList_injective hzero)
  · intro hzero
    rw [hzero]

/-- The responses that a run of `sign` hashes are the signer's and the verifier's. -/
theorem response_calls {start count : Nat} {parts : List (List UInt8)}
    (hcall : .shake128 .responseCommitment parts ∈ input.prepareCalls P ++
      (searchCalls (input.hash P) start count ++ input.finishCalls P nonce)) :
    parts = responseParts (input.alphaZero P) (encodedAlpha (input.alphaOne P)).toList ∨
      parts = responseParts ((input.verifyInput P nonce).alphaZero P)
        (encodedAlpha (input.alphaOne P)).toList := by
  rcases List.mem_append.mp hcall with hprepare | hcall
  · left
    rcases List.mem_append.mp hprepare with hearlier | hlast
    · rcases List.mem_append.mp hearlier with hcommit | hresponse
      · obtain ⟨_, hkind, _⟩ | ⟨hkind, _⟩ := shake_mem_commit_calls hcommit
        · cases hkind
        · cases hkind
      · simp [equationCalls] at hresponse
    · simpa using hlast
  rcases List.mem_append.mp hcall with hsearch | hfinish
  · simp [searchCalls] at hsearch
  rcases List.mem_append.mp hfinish with hopen | hverify
  · simp [CommitInput.openCall, commitCall] at hopen
  right
  rcases List.mem_append.mp hverify with hchallenge | hverify
  · simp [VerifyInput.challengeCalls] at hchallenge
  rcases List.mem_append.mp hverify with hevaluate | hresponse
  · obtain ⟨_, hkind, _⟩ | ⟨hkind, _⟩ := shake_mem_calls hevaluate
    · cases hkind
    · cases hkind
  · simpa [VerifyInput.responseCalls, equationCalls, verify_input_alpha_one] using hresponse

end SignInput

/-- Signing with any 88 bytes. When the search finds no nonce, `sign` fails there. Otherwise it
returns a signature, which is accepted, when at every hidden index but zero the batched equations
hold at the secret of the key, and fails at the self-verification when they do not, unless two
responses of the run collide. -/
theorem self_verification_decides (P : Primitives) (key : Bytes 88) (message : List UInt8)
    (masterSeed salt : Bytes 16)
    (hdigests : NoDigestCollision P [.responseCommitment]
      {call | call ∈ (sign P key message masterSeed salt).events}) :
    ∃ state, (prepareSignature P key message masterSeed salt).outcome = .ok state ∧
      (∀ reason, (sampleChallenge P state.fiatShamirHash).outcome = .error reason →
        (sign P key message masterSeed salt).outcome = .error (.none .nonceSearch)) ∧
      ∀ hiddenIndices nonce,
        (sampleChallenge P state.fiatShamirHash).outcome = .ok (hiddenIndices, nonce) →
        if ∀ (e : Fin 12) (component : Fin 8), hiddenIndices[e] = 0 ∨
            batchedKeyError P state.commitment.commitment key component = 0 then
          ∃ signature, (sign P key message masterSeed salt).outcome = .ok signature ∧
            (verify P state.publicKey.toList message signature.toList).outcome = .ok true
        else (sign P key message masterSeed salt).outcome = .error (.none .selfVerification) := by
  let input : SignInput := ⟨key, message, masterSeed, salt⟩
  refine ⟨_, congrArg Run.outcome (input.prepare_signature_eq P), ?_⟩
  have hsearch := sample_from_cases P (input.hash P) (2 ^ 32) 0
  rw [← sample_challenge_eq] at hsearch
  rcases hsearch with ⟨k, _, haccepted, _, hrun⟩ | ⟨_, hrun⟩
  · have hsign := input.sign_eq P _ haccepted hrun
    have hevents := input.sign_events P _ haccepted hrun
    refine ⟨fun reason hreason => ?_, fun hiddenIndices nonce hfound => ?_⟩
    · rw [hrun] at hreason
      exact nomatch hreason
    rw [hrun] at hfound
    obtain ⟨rfl, rfl⟩ := Prod.ext_iff.mp (Except.ok.inj hfound)
    have hdecided := input.observed_second_iff P (nonceOf (0 + k)) hdigests
      (fun call hcall => by
        rw [Set.mem_ofPred_eq, hevents]
        exact List.mem_append_left _ hcall)
      (fun call hcall => by
        rw [Set.mem_ofPred_eq, hevents]
        exact List.mem_append_right _ (List.mem_append_right _ (List.mem_append_right _ hcall)))
    rw [hsign]
    split
    · rename_i hcancel
      rw [if_pos (hdecided.mpr hcancel), Run.after_ret]
      refine ⟨_, rfl, input.accepted_of_signed P ?_⟩
      rw [hsign, if_pos (hdecided.mpr hcancel)]
      rfl
    · rename_i hcancel
      rw [if_neg (fun hsecond => hcancel (hdecided.mp hsecond))]
      rfl
  · have hsign := input.sign_of_not_found P (congrArg Run.outcome hrun)
    refine ⟨fun _ _ => hsign, fun hiddenIndices nonce hfound => ?_⟩
    rw [hrun] at hfound
    exact nomatch hfound

/-- A key of ones. -/
def onesKey : Bytes 88 := ⟨List.replicate 88 1, List.length_replicate⟩

/-- A key of ones is not consistent when all outputs are zero. -/
theorem ones_key_not_consistent : ¬ KeyConsistent zeroPrimitives onesKey := by
  intro h
  have hoverall := h 0
  rw [equationOutput, zero_value_at] at hoverall
  exact absurd hoverall (by decide)

/-- The challenges of the constant hash are zero. -/
theorem zero_challenge_accepted (hash : Bytes 32) (nonce : Bytes 4) :
    nonceAccepted zeroPrimitives hash nonce := by
  show maskedGrinding 0 = 0
  decide

/-- A batching of zeros cancels all errors. -/
theorem zero_errors_cancel (input : SignInput) (nonce : Bytes 4) :
    input.ErrorsCancel zeroPrimitives nonce := by
  intro e component
  left
  have hindices : input.hiddenIndices zeroPrimitives nonce = challengeIndices 0 2047 := rfl
  rw [hindices, challengeIndices, getElem_fin, Vector.getElem_ofFn]
  simp [u16FromLeBytes]

/-- Equal responses do not collide. -/
theorem no_response_collision {P : Primitives} {input : SignInput} {nonce : Bytes 4}
    {start count : Nat} (hcancel : input.ErrorsCancel P nonce) :
    NoDigestCollision P [.responseCommitment] {call | call ∈ input.prepareCalls P ++
      (searchCalls (input.hash P) start count ++ input.finishCalls P nonce)} := by
  have hparts : ∀ parts, .shake128 .responseCommitment parts ∈ input.prepareCalls P ++
      (searchCalls (input.hash P) start count ++ input.finishCalls P nonce) →
        parts = responseParts (input.alphaZero P) (encodedAlpha (input.alphaOne P)).toList := by
    intro parts hcall
    have hresponse := input.response_calls P nonce hcall
    rwa [(input.alpha_zero_iff P nonce).mpr hcancel, or_self] at hresponse
  intro kind hkind kind' hkind' parts parts' hcall hcall' _
  obtain rfl := List.mem_singleton.mp hkind
  obtain rfl := List.mem_singleton.mp hkind'
  rw [hparts parts hcall, hparts parts' hcall']

/-- Signing with the key of ones, at the indices zero. -/
theorem ones_key_self_verification :
    ¬ KeyConsistent zeroPrimitives onesKey ∧ ∃ signature,
      (sign zeroPrimitives onesKey [] 0 0).outcome = .ok signature ∧
        (verify zeroPrimitives (onesKey.extract 0 60 key_public_le).toList []
          signature.toList).outcome = .ok true := by
  let input : SignInput := ⟨onesKey, [], 0, 0⟩
  refine ⟨ones_key_not_consistent, ?_⟩
  rcases sample_from_cases zeroPrimitives (input.hash zeroPrimitives) (2 ^ 32) 0 with
    ⟨k, _, haccepted, _, hrun⟩ | ⟨hnone, _⟩
  · rw [← sample_challenge_eq] at hrun
    have hcancel := zero_errors_cancel input (nonceOf (0 + k))
    obtain ⟨state, hstate, _, hfound⟩ := self_verification_decides zeroPrimitives onesKey [] 0 0 (by
      rw [input.sign_events zeroPrimitives _ haccepted hrun]
      exact no_response_collision hcancel)
    rw [input.prepare_signature_eq zeroPrimitives] at hstate
    obtain rfl := Except.ok.inj hstate
    have hsigned := hfound _ _ (congrArg Run.outcome hrun)
    split at hsigned
    · exact hsigned
    · rename_i hshows
      exact absurd hcancel hshows
  · exact absurd (zero_challenge_accepted _ _) (hnone 0 (by decide))

/-! ## What the verifier repeats -/

namespace SignInput

variable (P : Primitives) (input : SignInput) (nonce : Bytes 4)

/-- The nonce that is found is the last that is tried. -/
theorem found_mem_search_calls (hash : Bytes 32) (start k : Nat) :
    .shake128 .challenge (challengeParts hash (nonceOf (start + k))) ∈
      searchCalls hash start (k + 1) :=
  List.mem_map.mpr ⟨start + k, List.mem_range'_1.mpr ⟨by omega, by omega⟩, rfl⟩

/-- The verifier hashes the transcript of the signer and one challenge. -/
theorem challenge_calls_repeat {call : Call}
    (hcall : call ∈ (input.verifyInput P nonce).challengeCalls P) :
    call ∈ input.prepareCalls P ∨
      call = .shake128 .challenge (challengeParts (input.hash P) nonce) := by
  simp only [VerifyInput.challengeCalls, verify_input_hash, verify_input_first,
    verify_input_second, verify_input_nonce, List.mem_cons, List.not_mem_nil, or_false] at hcall
  rcases hcall with rfl | rfl | rfl
  · exact Or.inl (List.mem_append_right _ (List.mem_cons_of_mem _ List.mem_cons_self))
  · exact Or.inl (List.mem_append_right _
      (List.mem_cons_of_mem _ (List.mem_cons_of_mem _ List.mem_cons_self)))
  · exact Or.inr rfl

/-- For a consistent key it hashes the responses of the signer. -/
theorem response_calls_repeat (hkey : KeyConsistent P input.key) {call : Call}
    (hcall : call ∈ (input.verifyInput P nonce).responseCalls P) :
    call ∈ input.prepareCalls P := by
  simp only [VerifyInput.responseCalls, verify_input_first, verify_input_seed,
    input.verify_input_alpha_zero P nonce hkey, verify_input_alpha_one] at hcall
  rcases List.mem_append.mp hcall with hsystem | hresponse
  · exact List.mem_append_left _ (List.mem_append_right _ hsystem)
  · rw [List.mem_singleton.mp hresponse]
    exact input.response_mem_prepare_calls P

/-- The verifier of a signature of a consistent key makes no calls of its own, but for the way in
which the partial deltas are cut. -/
theorem verify_calls_repeat (hkey : KeyConsistent P input.key) {call : Call}
    (hcall : call ∈ input.verifyCalls P nonce) :
    call ∈ input.prepareCalls P ∨
      call = .shake128 .challenge (challengeParts (input.hash P) nonce) ∨
      ∃ parts, call = .shake128 .overallCommitment parts ∧
        parts.flatten = (input.commitInput.overallParts P).flatten := by
  rcases List.mem_append.mp hcall with hchallenge | hcall
  · exact (input.challenge_calls_repeat P nonce hchallenge).imp_right Or.inl
  rcases List.mem_append.mp hcall with hevaluate | hresponse
  · rw [verify_input_evaluate] at hevaluate
    rcases input.commitInput.mem_evaluate_calls P _ _ hevaluate with hcommit | hoverall
    · exact Or.inl (List.mem_append_left _ (List.mem_append_left _ hcommit))
    · exact Or.inr (Or.inr hoverall)
  · exact Or.inl (input.response_calls_repeat P nonce hkey hresponse)

end SignInput

/-- The verifier of a signature commits to no seed and hashes no string that the signer has not
committed to or hashed before its self-verification. -/
theorem verifier_repeats_signer (P : Primitives) (key : SigningKey) (hkey : ObtainableKey P key)
    (message : List UInt8) (masterSeed salt : Bytes 16) :
    ∃ state, (prepareSignature P key.encoded message masterSeed salt).outcome = .ok state ∧
      ∀ signature, (sign P key.encoded message masterSeed salt).outcome = .ok signature →
        (∀ first second seed,
          .commitSeed first second seed ∈
              (key.verifyingKey.verify P message ⟨signature⟩).events →
            .commitSeed first second seed ∈
              (prepareSignature P key.encoded message masterSeed salt).events) ∧
        ∀ kind parts,
          .shake128 kind parts ∈ (key.verifyingKey.verify P message ⟨signature⟩).events →
            ∃ parts', parts'.flatten = parts.flatten ∧
              (.shake128 kind parts' ∈
                  (prepareSignature P key.encoded message masterSeed salt).events ∨
                .shake128 kind parts' ∈ (sampleChallenge P state.fiatShamirHash).events) := by
  let input : SignInput := ⟨key.encoded, message, masterSeed, salt⟩
  have hconsistent : KeyConsistent P input.key := hkey.consistent
  refine ⟨_, congrArg Run.outcome (input.prepare_signature_eq P), ?_⟩
  intro signature hsigned
  have hprepare := congrArg Run.events (input.prepare_signature_eq P)
  rw [Run.ret_events] at hprepare
  have hsearch := sample_from_cases P (input.hash P) (2 ^ 32) 0
  rw [← sample_challenge_eq] at hsearch
  rcases hsearch with ⟨k, _, haccepted, _, hrun⟩ | ⟨_, hrun⟩
  · have hsign := input.sign_of_found P hconsistent haccepted (congrArg Run.outcome hrun)
    obtain rfl := Except.ok.inj (hsign.symm.trans hsigned)
    have hverify :
        (key.verifyingKey.verify P message ⟨input.signature P (nonceOf (0 + k))⟩).events =
        input.verifyCalls P (nonceOf (0 + k)) :=
      congrArg Run.events (input.verify_signature_eq P _ haccepted)
    rw [hverify, hprepare, hrun, Run.ret_events]
    refine ⟨fun first second seed hcall => ?_, fun kind parts hcall => ?_⟩
    · rcases input.verify_calls_repeat P _ hconsistent hcall with hearlier | hchallenge | hoverall
      · exact hearlier
      · cases hchallenge
      · obtain ⟨_, heq, _⟩ := hoverall
        cases heq
    · rcases input.verify_calls_repeat P _ hconsistent hcall with hearlier | hchallenge | hoverall
      · exact ⟨parts, rfl, Or.inl hearlier⟩
      · obtain ⟨rfl, rfl⟩ := Call.shake128.inj hchallenge
        exact ⟨_, rfl, Or.inr (SignInput.found_mem_search_calls (input.hash P) 0 k)⟩
      · obtain ⟨parts', heq, hflatten⟩ := hoverall
        obtain ⟨rfl, rfl⟩ := Call.shake128.inj heq
        exact ⟨_, hflatten.symm, Or.inl (List.mem_append_left _ (List.mem_append_left _
          (input.commitInput.overall_mem_calls P)))⟩
  · have hsign := input.sign_of_not_found P (congrArg Run.outcome hrun)
    exact nomatch hsign.symm.trans hsigned

/-- The signature of the empty message with a generated key. -/
theorem zero_seed_verifier_repeats :
    ∃ state, (prepareSignature zeroPrimitives zeroSeedKey.encoded [] 0 0).outcome = .ok state ∧
      ∀ signature, (sign zeroPrimitives zeroSeedKey.encoded [] 0 0).outcome = .ok signature →
        (∀ first second seed,
          .commitSeed first second seed ∈
              (zeroSeedKey.verifyingKey.verify zeroPrimitives [] ⟨signature⟩).events →
            .commitSeed first second seed ∈
              (prepareSignature zeroPrimitives zeroSeedKey.encoded [] 0 0).events) ∧
        ∀ kind parts,
          .shake128 kind parts ∈
              (zeroSeedKey.verifyingKey.verify zeroPrimitives [] ⟨signature⟩).events →
            ∃ parts', parts'.flatten = parts.flatten ∧
              (.shake128 kind parts' ∈
                  (prepareSignature zeroPrimitives zeroSeedKey.encoded [] 0 0).events ∨
                .shake128 kind parts' ∈
                  (sampleChallenge zeroPrimitives state.fiatShamirHash).events) :=
  verifier_repeats_signer zeroPrimitives zeroSeedKey
    (Or.inl ⟨Unit, fun _ _ => (some 0, ()), (), (), generate_of_seed zeroPrimitives rfl⟩) [] 0 0

end Mqom
