import Mqom.Verify.Binding

/-!
# Uniqueness of accepted signatures

An accepted signature is determined by its two commitments and its nonce, and the string that the
challenge is hashed from determines them, the public key and the message as well, unless the runs of
the verifier contain a collision.
-/

namespace Mqom

open Rust Params

variable {P : Primitives}

/-- No two different pairs of a salt and a leaf seed that is committed for one execution have one
commitment. -/
def NoCommitmentCollision (P : Primitives) (salt salt' : Bytes 16) (calls : Set Call) : Prop :=
  ∀ (execution : Fin 12) (seed seed' : Bytes 16),
    commitCall salt (executionByte execution) seed ∈ calls →
      commitCall salt' (executionByte execution) seed' ∈ calls →
        (SeedCommitter.new salt (executionByte execution)).commitment P seed =
          (SeedCommitter.new salt' (executionByte execution)).commitment P seed' →
            salt = salt' ∧ seed = seed'

/-- Under one salt no two seeds have one commitment. -/
theorem NoCommitmentCollision.seeds {salt salt' : Bytes 16} {calls : Set Call}
    (h : NoCommitmentCollision P salt salt' calls) (hsalt : salt = salt') :
    NoSeedCollision P salt calls := by
  subst hsalt
  intro execution seed seed' hcall hcall' hcommitment
  exact (h execution seed seed' hcall hcall' hcommitment).2

namespace VerifyInput

variable {input other : VerifyInput}

/-- The calls of an accepted run for the transcript. -/
theorem Accepted.mem_challenge_calls (h : input.Accepted P) {kind : HashKind}
    (hkind : kind ∈ [.messageHash, .fiatShamir, .challenge]) {parts : List (List UInt8)}
    (hcall : .shake128 kind parts ∈
      (verify P input.publicKey.toList input.message input.signature.toList).events) :
    .shake128 kind parts ∈ input.challengeCalls P := by
  rw [h.events] at hcall
  rcases List.mem_append.mp hcall with hchallenge | hrest
  · exact hchallenge
  rcases List.mem_append.mp hrest with hevaluate | hresponse
  · obtain ⟨_, rfl, _⟩ | ⟨rfl, _⟩ := shake_mem_calls hevaluate
    · simp at hkind
    · simp at hkind
  · simp only [responseCalls, equationCalls, List.mem_append, List.mem_cons, List.mem_map,
      Call.shake128.injEq, List.not_mem_nil, or_false] at hresponse
    obtain (⟨rfl, _⟩ | ⟨_, _, rfl, _⟩) | ⟨rfl, _⟩ := hresponse
    · simp at hkind
    · simp at hkind
    · simp at hkind

/-- An accepted input asks for one challenge. -/
theorem Accepted.challenge_parts (h : input.Accepted P) {parts : List (List UInt8)}
    (hcall : .shake128 .challenge parts ∈
      (verify P input.publicKey.toList input.message input.signature.toList).events) :
    parts = challengeParts (input.hash P) input.nonce := by
  have hchallenge := h.mem_challenge_calls (by simp) hcall
  simpa [challengeCalls] using hchallenge

section Agreement

variable {calls : Set Call} (hinput : input.Accepted P) (hother : other.Accepted P)
variable (hcalls : ∀ call ∈
  (verify P input.publicKey.toList input.message input.signature.toList).events, call ∈ calls)
variable (hcalls' : ∀ call ∈
  (verify P other.publicKey.toList other.message other.signature.toList).events, call ∈ calls)
variable (hcollision : NoCommitmentCollision P input.salt other.salt calls)
include hinput hother hcalls hcalls'

include hcollision in
/-- One first commitment stands for one salt. A leaf that both openings reveal shows it. -/
theorem salts_agree (hdigests : NoDigestCollision P [.leafHash, .overallCommitment] calls)
    (hfirst : input.firstCommitment = other.firstCommitment) : input.salt = other.salt := by
  have hevaluate : ∀ call ∈ (input.evaluateInput P).calls P, call ∈ calls :=
    fun call hcall => hcalls call (hinput.evaluate_calls_subset call hcall)
  have hevaluate' : ∀ call ∈ (other.evaluateInput P).calls P, call ∈ calls :=
    fun call hcall => hcalls' call (hother.evaluate_calls_subset call hcall)
  -- two of the leaves 0, 1 and 2 may be hidden
  obtain ⟨j, hj, hne, hne'⟩ : ∃ j < 2048, j ≠ (input.evaluateInput P).hidden 0 ∧
      j ≠ (other.evaluateInput P).hidden 0 := by
    by_contra hnone
    push Not at hnone
    have h0 := hnone 0 (by omega)
    have h1 := hnone 1 (by omega)
    have h2 := hnone 2 (by omega)
    omega
  have hcommitment := leaf_commitment_agree hdigests hevaluate hevaluate'
    ((hinput.first.trans hfirst).trans hother.first.symm) 0 hj
  rw [EvaluateInput.leafCommitment, EvaluateInput.leafCommitment, if_neg hne, if_neg hne']
    at hcommitment
  exact (hcollision 0 _ _ (hevaluate _ ((input.evaluateInput P).commit_mem_calls P 0 hj hne))
    (hevaluate' _ ((other.evaluateInput P).commit_mem_calls P 0 hj hne')) hcommitment).1

include hcollision in
/-- Signatures with the same commitments and nonce that are opened at the same leaves. -/
theorem signatures_agree
    (hdigests : NoDigestCollision P [.responseCommitment, .leafHash, .overallCommitment] calls)
    (hfirst : input.firstCommitment = other.firstCommitment)
    (hsecond : input.secondCommitment = other.secondCommitment)
    (hhash : input.hash P = other.hash P) (hnonce : input.nonce = other.nonce) :
    input.signature = other.signature := by
  have hindices : input.hiddenIndices P = other.hiddenIndices P := by
    rw [hiddenIndices, hiddenIndices, hhash, hnonce]
  have hsalt : input.salt = other.salt := salts_agree hinput hother hcalls hcalls' hcollision
    (hdigests.mono (List.subset_cons_self _ _)) hfirst
  obtain ⟨_, hone⟩ := responses_agree hdigests hinput hother hcalls hcalls' hsecond
  have hopening := openings_agree hdigests hinput hother hcalls hcalls' (hcollision.seeds hsalt)
    hsalt hfirst hindices
  refine signature_eq_of_parts (Bytes.eq_of_extract 16 64 rfl ?_
    (Bytes.eq_of_extract 32 32 rfl ?_ ?_)) hone hopening hnonce
  · rw [Bytes.extract_extract, Bytes.extract_extract]
    exact hsalt
  · rw [Bytes.extract_extract, Bytes.extract_extract, Bytes.extract_extract, Bytes.extract_extract]
    exact hfirst
  · rw [Bytes.extract_extract, Bytes.extract_extract, Bytes.extract_extract, Bytes.extract_extract]
    exact hsecond

/-- One Fiat-Shamir hash stands for one public key, one pair of commitments and one message. -/
theorem transcripts_agree
    (htranscript : NoDigestCollision P [.messageHash, .fiatShamir] calls)
    (hhash : input.hash P = other.hash P) :
    input.publicKey = other.publicKey ∧ input.firstCommitment = other.firstCommitment ∧
      input.secondCommitment = other.secondCommitment ∧ input.message = other.message := by
  have hmem : ∀ {run : VerifyInput}, run.Accepted P → ∀ call ∈ run.challengeCalls P,
      call ∈ (verify P run.publicKey.toList run.message run.signature.toList).events := by
    intro run hrun call hcall
    rw [hrun.events]
    exact List.mem_append_left _ hcall
  have hparts := htranscript.parts_eq (List.mem_cons_of_mem _ List.mem_cons_self)
    (hcalls _ (hmem hinput _ (List.mem_cons_of_mem _ List.mem_cons_self)))
    (hcalls' _ (hmem hother _ (List.mem_cons_of_mem _ List.mem_cons_self)))
    (by simp [fiatShamirParts]) hhash
  simp only [fiatShamirParts, List.cons.injEq, Bytes.toList_injective.eq_iff] at hparts
  obtain ⟨_, hkey, hfirst, hsecond, hdigest, _⟩ := hparts
  have hmessage := htranscript .messageHash List.mem_cons_self .messageHash List.mem_cons_self _ _
    (hcalls _ (hmem hinput _ List.mem_cons_self)) (hcalls' _ (hmem hother _ List.mem_cons_self))
    hdigest
  refine ⟨hkey, hfirst, hsecond, ?_⟩
  simpa [messageParts] using hmessage

end Agreement

end VerifyInput

/-- An accepted signature is determined by its two commitments and its nonce. Whatever else of it is
changed, the salt included, the verifier rejects the result. -/
theorem signature_of_commitments {publicKey message : List UInt8} {first second : Bytes 2916}
    (haccepted : (verify P publicKey message first.toList).outcome = .ok true)
    (hfirst : first.extract 16 32 first_commitment_le = second.extract 16 32 first_commitment_le)
    (hsecond : first.extract 48 32 second_commitment_le =
      second.extract 48 32 second_commitment_le)
    (hnonce : first.extract 2912 4 signature_nonce_le =
      second.extract 2912 4 signature_nonce_le)
    (hdigests : NoDigestCollision P [.responseCommitment, .leafHash, .overallCommitment]
      {call | call ∈ (verify P publicKey message first.toList).events ∨
        call ∈ (verify P publicKey message second.toList).events})
    (hcollision : NoCommitmentCollision P (first.extract 0 16 signature_salt_le)
      (second.extract 0 16 signature_salt_le)
      {call | call ∈ (verify P publicKey message first.toList).events ∨
        call ∈ (verify P publicKey message second.toList).events}) :
    ((verify P publicKey message second.toList).outcome = .ok true → first = second) ∧
      (first ≠ second → (verify P publicKey message second.toList).outcome = .ok false) := by
  obtain ⟨key, rfl⟩ : ∃ key : Bytes 60, key.toList = publicKey :=
    ⟨⟨publicKey, (accepted_lengths P haccepted).1⟩, rfl⟩
  let input : VerifyInput := ⟨key, message, first⟩
  let other : VerifyInput := ⟨key, message, second⟩
  have hinput : input.Accepted P := VerifyInput.verify_accepts.mp haccepted
  have hhash : input.hash P = other.hash P := by
    have hfirst' : input.firstCommitment = other.firstCommitment := hfirst
    have hsecond' : input.secondCommitment = other.secondCommitment := hsecond
    rw [VerifyInput.hash, VerifyInput.hash, hfirst', hsecond']
  have hequal : other.Accepted P → first = second := fun hother =>
    VerifyInput.signatures_agree hinput hother (fun call hcall => Or.inl hcall)
      (fun call hcall => Or.inr hcall) hcollision hdigests hfirst hsecond hhash hnonce
  constructor
  · intro hother
    exact hequal (VerifyInput.verify_accepts.mp hother)
  · intro hne
    exact verify_rejects P fun hother => hne (hequal hother)

/-- Accepted runs that hash one string to the challenge had the same public key, message and
signature. -/
theorem accepted_of_challenge {publicKey publicKey' message message' : List UInt8}
    {first second : Bytes 2916} {parts parts' : List (List UInt8)}
    (haccepted : (verify P publicKey message first.toList).outcome = .ok true)
    (haccepted' : (verify P publicKey' message' second.toList).outcome = .ok true)
    (hchallenge : .shake128 .challenge parts ∈ (verify P publicKey message first.toList).events)
    (hchallenge' : .shake128 .challenge parts' ∈
      (verify P publicKey' message' second.toList).events)
    (hsame : parts.flatten = parts'.flatten)
    (htranscript : NoDigestCollision P [.messageHash, .fiatShamir]
      {call | call ∈ (verify P publicKey message first.toList).events ∨
        call ∈ (verify P publicKey' message' second.toList).events})
    (hdigests : NoDigestCollision P [.responseCommitment, .leafHash, .overallCommitment]
      {call | call ∈ (verify P publicKey message first.toList).events ∨
        call ∈ (verify P publicKey' message' second.toList).events})
    (hcollision : NoCommitmentCollision P (first.extract 0 16 signature_salt_le)
      (second.extract 0 16 signature_salt_le)
      {call | call ∈ (verify P publicKey message first.toList).events ∨
        call ∈ (verify P publicKey' message' second.toList).events}) :
    publicKey = publicKey' ∧ message = message' ∧ first = second := by
  obtain ⟨key, rfl⟩ : ∃ key : Bytes 60, key.toList = publicKey :=
    ⟨⟨publicKey, (accepted_lengths P haccepted).1⟩, rfl⟩
  obtain ⟨key', rfl⟩ : ∃ key' : Bytes 60, key'.toList = publicKey' :=
    ⟨⟨publicKey', (accepted_lengths P haccepted').1⟩, rfl⟩
  let input : VerifyInput := ⟨key, message, first⟩
  let other : VerifyInput := ⟨key', message', second⟩
  have hinput : input.Accepted P := VerifyInput.verify_accepts.mp haccepted
  have hother : other.Accepted P := VerifyInput.verify_accepts.mp haccepted'
  -- the string starts with the hash, and the nonce follows
  obtain ⟨hhash, hnonce⟩ : input.hash P = other.hash P ∧ input.nonce = other.nonce := by
    rw [hinput.challenge_parts hchallenge, hother.challenge_parts hchallenge'] at hsame
    simp only [challengeParts, List.flatten_cons, List.flatten_nil, List.append_nil] at hsame
    obtain ⟨hhash, hnonce⟩ := List.append_inj (List.append_cancel_left hsame) (by simp)
    exact ⟨Bytes.toList_injective hhash, Bytes.toList_injective hnonce⟩
  obtain ⟨hkey, hfirst, hsecond, hmessage⟩ := VerifyInput.transcripts_agree hinput hother
    (fun call hcall => Or.inl hcall) (fun call hcall => Or.inr hcall) htranscript hhash
  exact ⟨congrArg Bytes.toList hkey, hmessage, VerifyInput.signatures_agree hinput hother
    (fun call hcall => Or.inl hcall) (fun call hcall => Or.inr hcall) hcollision hdigests hfirst
    hsecond hhash hnonce⟩

/-! ## Samples -/

/-- A seed is read back from its commitment in the samples. -/
theorem sample_no_commitment_collision (salt : Bytes 16) (calls : Set Call) :
    NoCommitmentCollision samplePrimitives salt salt calls :=
  fun execution seed seed' hcall hcall' hcommitment =>
    ⟨rfl, sample_no_seed_collision salt calls execution seed seed' hcall hcall' hcommitment⟩

/-- The signature with the changed byte is rejected. -/
theorem changed_signature_of_commitments :
    sampleSignature 0 ≠ changedSignature ∧
      (verify changedPrimitives (0 : Bytes 60).toList [] changedSignature.toList).outcome =
        .ok false := by
  have hsalt : changedSignature.extract 0 16 signature_salt_le =
      (sampleSignature 0).extract 0 16 signature_salt_le :=
    changed_signature_part _ (Or.inl (by omega))
  refine ⟨changed_signature_ne, (signature_of_commitments changed_verify_accepts
    (changed_signature_part _ (Or.inl (by omega))).symm
    (changed_signature_part _ (Or.inl (by omega))).symm
    (changed_signature_part _ (Or.inr (by omega))).symm changed_no_collision ?_).2
      changed_signature_ne⟩
  rw [hsalt]
  exact sample_no_commitment_collision _ _

/-- The strings of the transcript of a sample, by the first byte of the digest. -/
def sampleTranscriptPreimage (message : List UInt8) (k : Fin 3) (digest : Bytes 32) : List UInt8 :=
  if digest.toList.head? = some 0x02 then (messageParts message).flatten
  else (fiatShamirParts samplePrimitives (sampleInput message k).publicKey.toList
    (sampleInput message k).firstCommitment.toList (sampleInput message k).secondCommitment.toList
    message).flatten

/-- No strings of a sample collide. -/
theorem sample_no_transcript_collision (message : List UInt8) (k : Fin 3) {calls : Set Call}
    (hcalls : ∀ call ∈ calls, call ∈
      (verify samplePrimitives (0 : Bytes 60).toList message (sampleSignature k).toList).events) :
    NoDigestCollision samplePrimitives [.messageHash, .fiatShamir] calls := by
  refine NoDigestCollision.of_preimage (sampleTranscriptPreimage message k) ?_
  intro kind hkind parts hcall
  have htranscript := (sample_accepted message k).mem_challenge_calls
    (List.mem_append_left [.challenge] hkind) (hcalls _ hcall)
  simp only [VerifyInput.challengeCalls, List.mem_cons, Call.shake128.injEq, List.not_mem_nil,
    or_false] at htranscript
  obtain ⟨rfl, rfl⟩ | ⟨rfl, rfl⟩ | ⟨rfl, _⟩ := htranscript
  · rw [messageParts, sample_digest 0x02 (by decide), sampleTranscriptPreimage,
      if_pos (by decide)]
    rfl
  · rw [fiatShamirParts, sample_digest 0x04 (by decide), sampleTranscriptPreimage,
      if_neg (by decide)]
    rfl
  · simp at hkind

/-- The same signature, with the string that its challenge is hashed from. -/
theorem sample_accepted_of_challenge :
    (0 : Bytes 60).toList = (0 : Bytes 60).toList ∧ ([] : List UInt8) = [] ∧
      sampleSignature 0 = sampleSignature 0 := by
  have hchallenge : .shake128 .challenge (challengeParts ((sampleInput [] 0).hash samplePrimitives)
      (sampleInput [] 0).nonce) ∈
        (verify samplePrimitives (0 : Bytes 60).toList [] (sampleSignature 0).toList).events := by
    have hevents := (sample_accepted [] 0).events
    rw [show (verify samplePrimitives (0 : Bytes 60).toList []
      (sampleSignature 0).toList).events = _ from hevents]
    exact List.mem_append_left _ (List.mem_cons_of_mem _ (List.mem_cons_of_mem _
      List.mem_cons_self))
  exact accepted_of_challenge (sample_verify_accepts [] 0) (sample_verify_accepts [] 0) hchallenge
    hchallenge rfl (sample_no_transcript_collision [] 0 fun _ hcall => hcall.elim id id)
    (sample_run_no_collision fun _ hcall => ⟨[], 0, hcall.elim id id⟩)
    (sample_no_commitment_collision _ _)

end Mqom
