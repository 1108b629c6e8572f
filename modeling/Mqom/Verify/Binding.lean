import Mqom.Sign.Encoding
import Mqom.Verify.Oracle

/-!
# Binding of signatures

Accepted signatures with the same commitments agree on the responses, unless the runs of the
verifier contain a collision. With the same nonce they are opened at the same leaves, and then
they are equal.
-/

namespace Mqom

open Rust Params Library

variable (P : Primitives)

/-- The strings of the second commitment together. -/
theorem response_parts_flatten (alphaZero : Alpha) (serializedAlphaOne : List UInt8) :
    (responseParts alphaZero serializedAlphaOne).flatten =
      0x03 :: ((encodedAlpha alphaZero).toList ++ serializedAlphaOne) := by
  have halpha : (encodedAlpha alphaZero).toList = (alphaParts alphaZero).flatten := rfl
  rw [responseParts, List.cons_append, List.flatten_cons, List.flatten_append,
    List.flatten_singleton, halpha]
  rfl

/-- The calls of `verify` are those of `verify_inner`. -/
theorem verify_events (publicKey message signature : List UInt8) :
    (verify P publicKey message signature).events =
      (verifyInner P publicKey message signature).events := by
  unfold verify
  rw [show (fun result : Option Unit => (pure result.isSome : Exec Bool)) =
    fun result => Run.ret result.isSome [] from rfl, Run.bind_ret_events, Run.attempt_events]

namespace VerifyInput

/-- A run that stops has made the calls up to there. -/
theorem mem_events (input : VerifyInput) {call : Call} (hcall : call ∈
      (verify P input.publicKey.toList input.message input.signature.toList).events) :
    call ∈ input.challengeCalls P ++
      ((input.evaluateInput P).calls P ++ input.responseCalls P) := by
  rw [verify_events, verify_inner_eq, decision, Run.after_events] at hcall
  refine List.mem_append.mpr ((List.mem_append.mp hcall).imp_right fun hopening => ?_)
  split at hopening
  · rw [Run.after_events] at hopening
    refine List.mem_append.mpr ((List.mem_append.mp hopening).imp_right fun hresponse => ?_)
    split at hresponse
    · rw [Run.after_events] at hresponse
      refine (List.mem_append.mp hresponse).resolve_right fun hlast => ?_
      split at hlast <;> exact List.not_mem_nil hlast
    · exact absurd hresponse List.not_mem_nil
  · exact absurd hopening List.not_mem_nil

/-- What a run absorbs for the opening and the response. -/
theorem digest_call_cases (input : VerifyInput) {kind : HashKind} {parts : List (List UInt8)}
    (hkind : kind ∈ [.responseCommitment, .leafHash, .overallCommitment])
    (hcall : .shake128 kind parts ∈
      (verify P input.publicKey.toList input.message input.signature.toList).events) :
    .shake128 kind parts ∈ (input.evaluateInput P).calls P ∨
      kind = .responseCommitment ∧
        parts = responseParts (input.alphaZero P) input.serializedAlphaOne.toList := by
  rcases List.mem_append.mp (input.mem_events P hcall) with hchallenge | hevent
  · -- the hashes of the transcript have other kinds
    simp only [challengeCalls, List.mem_cons, Call.shake128.injEq, List.not_mem_nil, or_false]
      at hchallenge
    obtain ⟨rfl, _⟩ | ⟨rfl, _⟩ | ⟨rfl, _⟩ := hchallenge <;> simp at hkind
  rcases List.mem_append.mp hevent with hopening | hresponse
  · exact Or.inl hopening
  · simp only [responseCalls, equationCalls, List.mem_append, List.mem_cons, List.mem_map,
      Call.shake128.injEq, List.not_mem_nil, or_false] at hresponse
    obtain (⟨rfl, _⟩ | ⟨j, _, rfl, _⟩) | hparts := hresponse
    · simp at hkind
    · simp at hkind
    · exact Or.inr hparts

/-- The seed commitments of a run are those of the opening. -/
theorem seed_call_mem (input : VerifyInput) {salt : Bytes 16} {execution : UInt8} {seed : Bytes 16}
    (hcall : commitCall salt execution seed ∈
      (verify P input.publicKey.toList input.message input.signature.toList).events) :
    commitCall salt execution seed ∈ (input.evaluateInput P).calls P := by
  rcases List.mem_append.mp (input.mem_events P hcall) with hchallenge | hevent
  · simp [challengeCalls, commitCall] at hchallenge
  rcases List.mem_append.mp hevent with hopening | hresponse
  · exact hopening
  · simp [responseCalls, equationCalls, commitCall] at hresponse

variable {P} {input other : VerifyInput}

/-- The arguments pass the three comparisons of `verify_inner`. -/
structure Accepted (P : Primitives) (input : VerifyInput) : Prop where
  grinding : input.grindingPasses P
  first : (input.evaluateInput P).digest P = input.firstCommitment
  second : input.observedSecond P = input.secondCommitment

/-- The verifier accepts the inputs that are accepted. -/
theorem verify_accepts :
    (verify P input.publicKey.toList input.message input.signature.toList).outcome = .ok true ↔
      input.Accepted P := by
  rw [verify_true, verify_inner_eq, decision_ok]
  constructor
  · rintro ⟨hgrinding, hfirst, hsecond⟩
    exact ⟨hgrinding, hfirst, hsecond⟩
  · intro h
    exact ⟨h.grinding, h.first, h.second⟩

/-- The calls of an accepted run. -/
theorem Accepted.events (h : input.Accepted P) :
    (verify P input.publicKey.toList input.message input.signature.toList).events =
      input.challengeCalls P ++ ((input.evaluateInput P).calls P ++ input.responseCalls P) := by
  rw [verify_events, verify_inner_eq]
  exact input.decision_events_of_ok P ((input.decision_ok P).mpr ⟨h.grinding, h.first, h.second⟩)

/-- An accepted input is checked with the calls of its opening. -/
theorem Accepted.evaluate_calls_subset (h : input.Accepted P) :
    ∀ call ∈ (input.evaluateInput P).calls P, call ∈
      (verify P input.publicKey.toList input.message input.signature.toList).events := by
  intro call hcall
  rw [h.events]
  exact List.mem_append_right _ (List.mem_append_left _ hcall)

/-- The hash of the responses is among them. -/
theorem Accepted.response_mem_events (h : input.Accepted P) :
    .shake128 .responseCommitment
        (responseParts (input.alphaZero P) input.serializedAlphaOne.toList) ∈
      (verify P input.publicKey.toList input.message input.signature.toList).events := by
  rw [h.events]
  exact List.mem_append_right _ (List.mem_append_right _
    (List.mem_append_right _ List.mem_cons_self))

/-! ## Two accepted signatures -/

section Agreement

variable {calls : Set Call}
variable (hdigests : NoDigestCollision P [.responseCommitment, .leafHash, .overallCommitment] calls)
variable (hinput : input.Accepted P) (hother : other.Accepted P)
variable (hcalls : ∀ call ∈
  (verify P input.publicKey.toList input.message input.signature.toList).events, call ∈ calls)
variable (hcalls' : ∀ call ∈
  (verify P other.publicKey.toList other.message other.signature.toList).events, call ∈ calls)
include hdigests hinput hother hcalls hcalls'

/-- One second commitment stands for one response. -/
theorem responses_agree (hsecond : input.secondCommitment = other.secondCommitment) :
    input.alphaZero P = other.alphaZero P ∧
      input.serializedAlphaOne = other.serializedAlphaOne := by
  have hflatten := hdigests .responseCommitment List.mem_cons_self .responseCommitment
    List.mem_cons_self _ _ (hcalls _ hinput.response_mem_events)
    (hcalls' _ hother.response_mem_events)
    ((hinput.second.trans hsecond).trans hother.second.symm)
  rw [response_parts_flatten, response_parts_flatten] at hflatten
  -- the first response has 192 bytes in both strings
  obtain ⟨hzero, hone⟩ := List.append_inj (List.cons.inj hflatten).2 (by simp)
  exact ⟨encoded_alpha_injective (Bytes.toList_injective hzero), Bytes.toList_injective hone⟩

/-- One first commitment stands for one opening at the same leaves. -/
theorem openings_agree (hseeds : NoSeedCollision P input.salt calls)
    (hsalt : input.salt = other.salt) (hfirst : input.firstCommitment = other.firstCommitment)
    (hindices : input.hiddenIndices P = other.hiddenIndices P) : input.opening = other.opening := by
  have hopenings : NoDigestCollision P [.leafHash, .overallCommitment] calls :=
    hdigests.mono (List.subset_cons_self _ _)
  have hagree := opening_agree hopenings
    (fun call hcall => hcalls call (hinput.evaluate_calls_subset call hcall))
    (fun call hcall => hcalls' call (hother.evaluate_calls_subset call hcall))
    ((hinput.first.trans hfirst).trans hother.first.symm) hseeds hsalt hindices
  exact hagree

end Agreement

/-- A signature is its header, the responses, the opening and the nonce. -/
theorem signature_eq_of_parts
    (hheader : input.signature.extract 0 80 (by omega) = other.signature.extract 0 80 (by omega))
    (hone : input.serializedAlphaOne = other.serializedAlphaOne)
    (hopening : input.opening = other.opening) (hnonce : input.nonce = other.nonce) :
    input.signature = other.signature := by
  refine Bytes.eq_of_extract 80 2836 rfl hheader (Bytes.eq_of_extract 192 2644 rfl ?_
    (Bytes.eq_of_extract 2640 4 rfl ?_ ?_))
  · rw [Bytes.extract_extract, Bytes.extract_extract]
    exact hone
  · rw [Bytes.extract_extract, Bytes.extract_extract, Bytes.extract_extract, Bytes.extract_extract]
    exact hopening
  · rw [Bytes.extract_extract, Bytes.extract_extract, Bytes.extract_extract, Bytes.extract_extract]
    exact hnonce

end VerifyInput

/-- Arguments that `verify` accepts have the lengths that it checks. -/
theorem accepted_lengths {publicKey message signature : List UInt8}
    (h : (verify P publicKey message signature).outcome = .ok true) :
    publicKey.length = 60 ∧ signature.length = 2916 := by
  by_contra hlengths
  rw [verify_true, verify_inner_of_lengths P message hlengths] at h
  exact nomatch h

/-- `verify` returns `false` when a comparison fails. -/
theorem verify_rejects {input : VerifyInput} (h : ¬ input.Accepted P) :
    (verify P input.publicKey.toList input.message input.signature.toList).outcome = .ok false := by
  have hrun := input.verify_inner_eq P
  cases houtcome : (input.decision P).outcome with
  | ok value =>
      obtain ⟨hgrinding, hfirst, hsecond⟩ := (input.decision_ok P).mp houtcome
      exact absurd ⟨hgrinding, hfirst, hsecond⟩ h
  | error reason =>
      obtain ⟨branch, _, rfl⟩ := input.decision_error P houtcome
      unfold verify
      have hattempt : (Run.attempt (input.decision P)).outcome = .ok none := by
        rw [Run.attempt, houtcome]
        rfl
      rw [hrun, Run.bind_outcome_of_ok hattempt]
      rfl

/-- An accepted signature is determined by its header and its nonce. Whatever else of it is
changed, the verifier rejects the result. -/
theorem signature_determined {publicKey message : List UInt8} {first second : Bytes 2916}
    (haccepted : (verify P publicKey message first.toList).outcome = .ok true)
    (hheader : first.extract 0 80 (by omega) = second.extract 0 80 (by omega))
    (hnonce : first.extract 2912 4 signature_nonce_le =
      second.extract 2912 4 signature_nonce_le)
    (hdigests : NoDigestCollision P [.responseCommitment, .leafHash, .overallCommitment]
      {call | call ∈ (verify P publicKey message first.toList).events ∨
        call ∈ (verify P publicKey message second.toList).events})
    (hseeds : NoSeedCollision P (first.extract 0 16 signature_salt_le)
      {call | call ∈ (verify P publicKey message first.toList).events ∨
        call ∈ (verify P publicKey message second.toList).events}) :
    ((verify P publicKey message second.toList).outcome = .ok true → first = second) ∧
      (first ≠ second → (verify P publicKey message second.toList).outcome = .ok false) := by
  obtain ⟨key, rfl⟩ : ∃ key : Bytes 60, key.toList = publicKey :=
    ⟨⟨publicKey, (accepted_lengths P haccepted).1⟩, rfl⟩
  let input : VerifyInput := ⟨key, message, first⟩
  let other : VerifyInput := ⟨key, message, second⟩
  have hinput : input.Accepted P := VerifyInput.verify_accepts.mp haccepted
  have hpart : ∀ (offset length : Nat) (h : offset + length ≤ 80),
      first.extract offset length (by omega) = second.extract offset length (by omega) := by
    intro offset length h
    have hextract := congrArg (fun header : Bytes 80 => header.extract offset length h) hheader
    simpa only [Bytes.extract_extract, Nat.zero_add] using hextract
  have hsalt : input.salt = other.salt := hpart 0 16 (by omega)
  have hfirst : input.firstCommitment = other.firstCommitment := hpart 16 32 (by omega)
  have hsecond : input.secondCommitment = other.secondCommitment := hpart 48 32 (by omega)
  -- the challenge is a hash of what the signatures share
  have hindices : input.hiddenIndices P = other.hiddenIndices P := by
    have hhash : input.hash P = other.hash P := by
      rw [VerifyInput.hash, VerifyInput.hash, hfirst, hsecond]
    have hshared : input.nonce = other.nonce := hnonce
    rw [VerifyInput.hiddenIndices, VerifyInput.hiddenIndices, hhash, hshared]
  have hequal : other.Accepted P → first = second := by
    intro hother
    obtain ⟨_, hone⟩ := VerifyInput.responses_agree hdigests hinput hother
      (fun call hcall => Or.inl hcall) (fun call hcall => Or.inr hcall) hsecond
    have hopening := VerifyInput.openings_agree hdigests hinput hother
      (fun call hcall => Or.inl hcall) (fun call hcall => Or.inr hcall) hseeds hsalt hfirst hindices
    have hsignature : input.signature = other.signature :=
      VerifyInput.signature_eq_of_parts hheader hone hopening hnonce
    exact hsignature
  constructor
  · intro hother
    exact hequal (VerifyInput.verify_accepts.mp hother)
  · intro hne
    exact verify_rejects P fun hother => hne (hequal hother)

/-! ## A sample -/

/-- Signatures of zeros under `samplePrimitives`, which differ in the first byte of the nonce. -/
def sampleSignature (k : Fin 3) : Bytes 2916 :=
  (((0 : Bytes 2916).write 16 (sampleHash [0x07] 32).toList).write 48
    (sampleHash [0x03] 32).toList).write 2912 (Bytes.pair (UInt8.ofNat k) 0).toList

/-- The arguments of a run on such a signature. -/
def sampleInput (message : List UInt8) (k : Fin 3) : VerifyInput :=
  ⟨0, message, sampleSignature k⟩

section Sample

variable (message : List UInt8) (k : Fin 3)

/-- Outside of the commitments and the nonce the signature consists of zeros. -/
theorem sample_signature_zero {offset length : Nat} (h : offset + length ≤ 2916)
    (hfirst : offset + length ≤ 16 ∨ 80 ≤ offset) (hlast : offset + length ≤ 2912) :
    (sampleSignature k).extract offset length h = 0 := by
  have hhash : ∀ tag, (sampleHash [tag] 32).toList.length = 32 := fun tag => Bytes.length_toList _
  have hbefore : offset + length ≤ 48 ∨ 48 + (sampleHash [0x03] 32).toList.length ≤ offset := by
    rw [hhash]
    omega
  have hbefore' : offset + length ≤ 16 ∨ 16 + (sampleHash [0x07] 32).toList.length ≤ offset := by
    rw [hhash]
    omega
  rw [sampleSignature, Bytes.extract_write_of_disjoint _ h (Or.inl hlast),
    Bytes.extract_write_of_disjoint _ h hbefore, Bytes.extract_write_of_disjoint _ h hbefore',
    Bytes.extract_zero]

/-- The first commitment of a sample. -/
theorem sample_first_commitment :
    (sampleInput message k).firstCommitment = sampleHash [0x07] 32 := by
  rw [VerifyInput.firstCommitment, sampleInput, sampleSignature,
    Bytes.extract_write_of_disjoint _ _ (Or.inl (by omega)),
    Bytes.extract_write_of_disjoint _ _ (Or.inl (by omega))]
  exact Bytes.extract_write _ _ _ _

/-- The second commitment of a sample. -/
theorem sample_second_commitment :
    (sampleInput message k).secondCommitment = sampleHash [0x03] 32 := by
  rw [VerifyInput.secondCommitment, sampleInput, sampleSignature,
    Bytes.extract_write_of_disjoint _ _ (Or.inl (by omega))]
  exact Bytes.extract_write _ _ _ _

/-- The nonce of a sample is its number. -/
theorem sample_nonce (h : 0 < 4) : (sampleInput message k).nonce[0] = UInt8.ofNat k := by
  rw [VerifyInput.nonce, Bytes.getElem_extract, sampleInput, sampleSignature,
    Bytes.getElem_write_mem _ _ (by omega) (by simp)]
  rfl

/-- The challenge repeats the first byte of the nonce. -/
theorem sample_challenge_stream (hash : Bytes 32) (nonce : Bytes 4) (h : 0 < 4) :
    challengeStream samplePrimitives hash nonce =
      Bytes.ofFn fun i => if i.val = 24 then 0 else nonce[0] := by
  apply Bytes.ext_getElem
  intro i hi
  simp only [challengeStream, samplePrimitives, sampleHash, Bytes.getElem_ofFn]
  refine if_congr Iff.rfl rfl ?_
  have hlength : hash.toList.length = 32 := Bytes.length_toList hash
  have hrest : (challengeParts hash nonce).flatten = 0x05 :: (hash.toList ++ nonce.toList) := by
    simp [challengeParts]
  rw [hrest]
  show (hash.toList ++ nonce.toList).getD 32 0 = nonce[0]
  rw [List.getD_eq_getElem _ _ (by simp), List.getElem_append_right (by omega)]
  simp only [hlength]
  rfl

/-- The challenge of a sample has the grinding zeros. -/
theorem sample_grinding : (sampleInput message k).grindingPasses samplePrimitives := by
  have hmasked : ∀ k : Fin 3, u16FromLeBytes 0 (UInt8.ofNat k) &&& 255 = 0 := by decide
  rw [VerifyInput.grindingPasses, sample_challenge_stream _ _ (by decide), sample_nonce,
    maskedGrinding, Bytes.getElem_ofFn, Bytes.getElem_ofFn]
  exact hmasked k

/-- The hidden indices of a sample are leaves. -/
theorem sample_hidden_lt (e : Fin 12) :
    ((sampleInput message k).hiddenIndices samplePrimitives)[e].toNat < 2048 :=
  indices_of_lt samplePrimitives _ _ e

/-- The opening in the signature is one of zeros. -/
theorem sample_evaluate_input :
    (sampleInput message k).evaluateInput samplePrimitives =
      zeroOpening 0 ((sampleInput message k).hiddenIndices samplePrimitives)
        (sample_hidden_lt message k) := by
  have hsalt : (sampleSignature k).extract 0 16 (by omega) = 0 :=
    sample_signature_zero k _ (by omega) (by omega)
  have hopening : (sampleSignature k).extract 272 2640 (by omega) = 0 :=
    sample_signature_zero k _ (by omega) (by omega)
  exact EvaluateInput.ext hsalt hopening rfl

/-- The samples are accepted. -/
theorem sample_accepted : (sampleInput message k).Accepted samplePrimitives where
  grinding := sample_grinding message k
  first := by rw [sample_evaluate_input, zero_digest, sample_first_commitment]
  second := by
    rw [sample_second_commitment, VerifyInput.observedSecond, responseParts, List.cons_append,
      sample_digest 0x03 (by decide)]

/-- The linear responses of a sample are zero. -/
theorem sample_alpha_one : (sampleInput message k).serializedAlphaOne = 0 :=
  sample_signature_zero k _ (by omega) (by omega)

/-- So are the constant ones. -/
theorem sample_alpha_zero :
    (sampleInput message k).alphaZero samplePrimitives =
      Vector.replicate 12 (Vector.replicate 8 0) := by
  have hone : (sampleInput message k).alphaOne = Vector.replicate 12 (Vector.replicate 8 0) := by
    rw [VerifyInput.alphaOne, sample_alpha_one]
    rfl
  have houtput : (sampleInput message k).publicOutput = Vector.replicate 14 0 := rfl
  rw [VerifyInput.alphaZero, sample_evaluate_input, zero_opened, hone, houtput]
  refine vector_ext fun e => vector_ext fun component => ?_
  have hvalue : ∀ (A : Matrix (Fin 56) (Fin 56) Gf256x2) (b : Fin 56 → Gf256x2) (w : Gf256x2),
      homogeneousValue A b w (fun _ => 0) 0 = 0 := by
    intro A b w
    rw [homogeneousValue, show (fun _ : Fin 56 => (0 : Gf256x2)) = 0 from rfl,
      dotProduct_zero, mul_zero, add_zero]
  simp [ResponseSystem.recomputed, hvalue]

/-- The strings that the runs absorb, by the first byte of the digest. -/
def sampleRunPreimage (digest : Bytes 32) : List UInt8 :=
  if digest[(0 : Fin 32)] = 0x03 then
    (responseParts (Vector.replicate 12 (Vector.replicate 8 0)) (0 : Bytes 192).toList).flatten
  else samplePreimage digest

/-- The digests of an opening of zeros are those of the tags of the leaves and of the commitment. -/
theorem zero_opening_digest {hiddenIndices : Vector UInt16 12}
    {h : ∀ e : Fin 12, hiddenIndices[e].toNat < 2048} {kind : HashKind} {parts : List (List UInt8)}
    (hcall : .shake128 kind parts ∈ (zeroOpening 0 hiddenIndices h).calls samplePrimitives) :
    samplePrimitives.shake128 parts.flatten 32 = sampleHash [0x06] 32 ∨
      samplePrimitives.shake128 parts.flatten 32 = sampleHash [0x07] 32 := by
  obtain ⟨e, _, rfl⟩ | ⟨_, rfl⟩ := shake_mem_calls hcall
  · exact Or.inl (zero_leaf_hash 0 hiddenIndices h e)
  · exact Or.inr (zero_digest 0 hiddenIndices h)

/-- Such an opening absorbs strings that can be told from their digests. -/
theorem zero_opening_preimage {hiddenIndices : Vector UInt16 12}
    {h : ∀ e : Fin 12, hiddenIndices[e].toNat < 2048} {kind : HashKind} {parts : List (List UInt8)}
    (hcall : .shake128 kind parts ∈ (zeroOpening 0 hiddenIndices h).calls samplePrimitives) :
    parts.flatten = sampleRunPreimage (samplePrimitives.shake128 parts.flatten 32) := by
  refine (zero_preimage 0 hiddenIndices h hcall).trans ?_
  rcases zero_opening_digest hcall with hdigest | hdigest
  · rw [hdigest, sampleRunPreimage, if_neg (by decide)]
  · rw [hdigest, sampleRunPreimage, if_neg (by decide)]

/-- The string behind the second commitment of a sample is the one told from the digest. -/
theorem sample_response_preimage :
    (responseParts ((sampleInput message k).alphaZero samplePrimitives)
        (sampleInput message k).serializedAlphaOne.toList).flatten =
      sampleRunPreimage ((sampleInput message k).observedSecond samplePrimitives) := by
  have hsecond : (sampleInput message k).observedSecond samplePrimitives = sampleHash [0x03] 32 :=
    (sample_accepted message k).second.trans (sample_second_commitment message k)
  rw [hsecond, sampleRunPreimage, if_pos (by decide), sample_alpha_zero, sample_alpha_one]

end Sample

/-- Runs of the verifier on the sample have no collisions. -/
theorem sample_run_no_collision {calls : Set Call} (hcalls : ∀ call ∈ calls, ∃ message k, call ∈
      (verify samplePrimitives (0 : Bytes 60).toList message (sampleSignature k).toList).events) :
    NoDigestCollision samplePrimitives [.responseCommitment, .leafHash, .overallCommitment]
      calls := by
  refine NoDigestCollision.of_preimage sampleRunPreimage ?_
  intro kind hkind parts hcall
  obtain ⟨message, k, hevent⟩ := hcalls _ hcall
  rcases (sampleInput message k).digest_call_cases samplePrimitives hkind hevent with
    hopening | ⟨rfl, rfl⟩
  · rw [sample_evaluate_input] at hopening
    exact zero_opening_preimage hopening
  · exact sample_response_preimage message k

/-- The verifier accepts the samples. -/
theorem sample_verify_accepts (message : List UInt8) (k : Fin 3) :
    (verify samplePrimitives (0 : Bytes 60).toList message (sampleSignature k).toList).outcome =
      .ok true := by
  have haccepts := VerifyInput.verify_accepts.mpr (sample_accepted message k)
  rw [sampleInput] at haccepts
  with_reducible exact haccepts

/-! ## A changed response -/

/-- The first sample signature with another byte in `alpha_one`. -/
def changedSignature : Bytes 2916 :=
  (sampleSignature 0).write 80 [1]

/-- The arguments of a run on it. -/
def changedInput : VerifyInput :=
  ⟨0, [], changedSignature⟩

/-- What its response is hashed from, behind the tag. -/
def changedResponse : List UInt8 :=
  (encodedAlpha (changedInput.alphaZero samplePrimitives)).toList ++
    changedInput.serializedAlphaOne.toList

/-- Primitives under which this response has a digest of zeros. -/
def changedPrimitives : Primitives :=
  samplePrimitives.program (0x03 :: changedResponse) (0 : Bytes 32)

/-- Only the byte is changed. -/
theorem changed_signature_part {offset length : Nat} (h : offset + length ≤ 2916)
    (hbyte : offset + length ≤ 80 ∨ 81 ≤ offset) :
    changedSignature.extract offset length h = (sampleSignature 0).extract offset length h :=
  Bytes.extract_write_of_disjoint _ h hbyte

/-- The changed byte of the linear responses. -/
theorem changed_alpha_one_byte (h : 0 < 192) : changedInput.serializedAlphaOne[0] = 1 := by
  rw [VerifyInput.serializedAlphaOne, Bytes.getElem_extract, changedInput, changedSignature,
    Bytes.getElem_write_mem _ _ (by omega) (by simp)]
  rfl

/-- So the linear responses are changed. -/
theorem changed_alpha_one_ne : changedInput.serializedAlphaOne ≠ 0 := by
  intro hzero
  have hbyte := changed_alpha_one_byte (by omega)
  rw [hzero, Bytes.getElem_zero] at hbyte
  exact absurd hbyte (by decide)

/-- The changed signature is another one. -/
theorem changed_signature_ne : sampleSignature 0 ≠ changedSignature := by
  intro heq
  refine changed_alpha_one_ne ?_
  rw [VerifyInput.serializedAlphaOne, changedInput, ← heq]
  exact sample_alpha_one [] 0

/-- The first commitment is opened as before. -/
theorem changed_evaluate_input :
    changedInput.evaluateInput samplePrimitives =
      zeroOpening 0 (changedInput.hiddenIndices samplePrimitives)
        (indices_of_lt samplePrimitives _ _) :=
  EvaluateInput.ext
    ((changed_signature_part _ (Or.inl (by omega))).trans
      (sample_signature_zero 0 signature_salt_le (by omega) (by omega)))
    ((changed_signature_part _ (Or.inr (by omega))).trans
      (sample_signature_zero 0 signature_opening_le (by omega) (by omega))) rfl

/-- The response of the sample keeps its digest. -/
theorem changed_response_kept :
    changedPrimitives.shake128 (0x03 :: ((encodedAlpha
      (Vector.replicate 12 (Vector.replicate 8 0))).toList ++ (0 : Bytes 192).toList)) 32 =
        sampleHash [0x03] 32 := by
  have hne : (0x03 :: ((encodedAlpha (Vector.replicate 12 (Vector.replicate 8 0))).toList ++
      (0 : Bytes 192).toList)) ≠ 0x03 :: changedResponse := by
    intro heq
    obtain ⟨_, hone⟩ := List.append_inj (List.cons.inj heq).2 (by simp)
    exact changed_alpha_one_ne (Bytes.toList_injective hone.symm)
  rw [changedPrimitives, program_of_ne samplePrimitives (0 : Bytes 32) hne,
    ← response_parts_flatten, responseParts, List.cons_append, sample_digest 0x03 (by decide)]

/-- The first sample signature is still accepted. -/
theorem changed_accepted : (sampleInput [] 0).Accepted changedPrimitives where
  grinding := by
    have hgrinding := sample_grinding [] 0
    rw [VerifyInput.grindingPasses] at hgrinding ⊢
    rw [changedPrimitives, VerifyInput.challenge_program]
    exact hgrinding
  first := by
    rw [changedPrimitives, VerifyInput.evaluate_input_program,
      EvaluateInput.digest_program _ _ _ _ (by decide) (by decide)]
    exact (sample_accepted [] 0).first
  second := by
    rw [VerifyInput.observedSecond, response_parts_flatten]
    rw [show (sampleInput [] 0).alphaZero changedPrimitives = _ from
      (sampleInput [] 0).alpha_zero_program samplePrimitives changedResponse (0 : Bytes 32),
      sample_alpha_zero, sample_alpha_one, changed_response_kept, sample_second_commitment]

/-- The strings that both runs absorb, by the digest. -/
def changedPreimage (digest : Bytes 32) : List UInt8 :=
  if digest = 0 then 0x03 :: changedResponse else sampleRunPreimage digest

/-- What an opening of zeros absorbs keeps its digest. -/
theorem changed_opening_preimage {hiddenIndices : Vector UInt16 12}
    {h : ∀ e : Fin 12, hiddenIndices[e].toNat < 2048} {kind : HashKind} {parts : List (List UInt8)}
    (hcall : .shake128 kind parts ∈ (zeroOpening 0 hiddenIndices h).calls samplePrimitives) :
    parts.flatten = changedPreimage (changedPrimitives.shake128 parts.flatten 32) := by
  have hsame : changedPrimitives.shake128 parts.flatten 32 =
      samplePrimitives.shake128 parts.flatten 32 := by
    obtain ⟨e, _, rfl⟩ | ⟨_, rfl⟩ := shake_mem_calls hcall
    · rw [EvaluateInput.leafParts]
      exact program_of_parts samplePrimitives (0 : Bytes 32) (by decide) _ changedResponse 32
    · rw [EvaluateInput.overallParts, List.cons_append]
      exact program_of_parts samplePrimitives (0 : Bytes 32) (by decide) _ changedResponse 32
  have hpreimage := zero_opening_preimage hcall
  rcases zero_opening_digest hcall with hdigest | hdigest
  · rw [hsame, hdigest, changedPreimage, if_neg (by decide), ← hdigest]
    exact hpreimage
  · rw [hsame, hdigest, changedPreimage, if_neg (by decide), ← hdigest]
    exact hpreimage

/-- The runs on the sample and on the changed signature have no collision. -/
theorem changed_no_collision :
    NoDigestCollision changedPrimitives [.responseCommitment, .leafHash, .overallCommitment]
      {call | call ∈
          (verify changedPrimitives (0 : Bytes 60).toList [] (sampleSignature 0).toList).events ∨
        call ∈
          (verify changedPrimitives (0 : Bytes 60).toList [] changedSignature.toList).events} := by
  refine NoDigestCollision.of_preimage changedPreimage ?_
  rintro kind hkind parts (hcall | hcall)
  · rcases (sampleInput [] 0).digest_call_cases changedPrimitives hkind hcall with
      hopening | ⟨_, rfl⟩
    · rw [changedPrimitives, VerifyInput.evaluate_input_program,
        EvaluateInput.calls_program _ _ _ _ (by decide), sample_evaluate_input] at hopening
      exact changed_opening_preimage hopening
    · rw [show (sampleInput [] 0).alphaZero changedPrimitives = _ from
        (sampleInput [] 0).alpha_zero_program samplePrimitives changedResponse (0 : Bytes 32),
        sample_alpha_zero, sample_alpha_one, response_parts_flatten, changed_response_kept,
        changedPreimage, if_neg (by decide), sampleRunPreimage, if_pos (by decide),
        response_parts_flatten]
  · rcases changedInput.digest_call_cases changedPrimitives hkind hcall with hopening | ⟨_, rfl⟩
    · rw [changedPrimitives, VerifyInput.evaluate_input_program,
        EvaluateInput.calls_program _ _ _ _ (by decide), changed_evaluate_input] at hopening
      exact changed_opening_preimage hopening
    · rw [show changedInput.alphaZero changedPrimitives = _ from
        changedInput.alpha_zero_program samplePrimitives changedResponse (0 : Bytes 32),
        response_parts_flatten]
      have hdigest : changedPrimitives.shake128 (0x03 :: changedResponse) 32 = 0 :=
        program_self samplePrimitives (0 : Bytes 32) _
      rw [changedResponse] at hdigest
      rw [hdigest, changedPreimage, if_pos rfl, changedResponse]

/-- The signature is accepted before the change. -/
theorem changed_verify_accepts :
    (verify changedPrimitives (0 : Bytes 60).toList [] (sampleSignature 0).toList).outcome =
      .ok true := by
  have haccepts := VerifyInput.verify_accepts.mpr changed_accepted
  rw [sampleInput] at haccepts
  with_reducible exact haccepts

/-- The signature with the changed byte is rejected. -/
theorem changed_signature_determined :
    sampleSignature 0 ≠ changedSignature ∧
      (verify changedPrimitives (0 : Bytes 60).toList [] changedSignature.toList).outcome =
        .ok false :=
  ⟨changed_signature_ne, (signature_determined changedPrimitives changed_verify_accepts
    (changed_signature_part _ (Or.inl (by omega))).symm
    (changed_signature_part _ (Or.inr (by omega))).symm changed_no_collision
    (sample_no_seed_collision _ _)).2 changed_signature_ne⟩

end Mqom
