import Mqom.Mq.Masking
import Mqom.Sign.Challenge
import Mqom.Sign.Encoding
import Mqom.Sign.Keys

/-!
# The signer

What `sign` has computed before the challenge search, and the signature that it makes of an
accepted nonce. For a consistent key that signature passes the three comparisons of the verifier,
so signing fails only when the search finds no nonce.
-/

namespace Mqom

open Rust Params

/-- The arguments of `sign`. -/
structure SignInput where
  key : Bytes 88
  message : List UInt8
  masterSeed : Bytes 16
  salt : Bytes 16

namespace SignInput

variable (P : Primitives) (input : SignInput)

/-! ## Before the challenge -/

/-- The public key. -/
def publicKey : Bytes 60 :=
  input.key.extract 0 60 key_public_le

/-- The arguments of `commit`. -/
def commitInput : CommitInput :=
  ⟨input.masterSeed, input.salt, secretVectorOf input.key⟩

/-- The commitment to the leaves. -/
def commitment : SigningCommitment :=
  input.commitInput.commitment P

/-- The first commitment. -/
def firstCommitment : Bytes 32 :=
  (input.commitment P).commitment

/-- The system of the run. -/
def system : ResponseSystem :=
  systemOf P (input.firstCommitment P) (masterSeedOf input.key)

/-- The responses that are committed to. -/
def alphaZero : Alpha :=
  (input.system P).alphaZero (input.commitment P).masks

/-- The responses that are sent. -/
def alphaOne : Alpha :=
  (input.system P).alphaOne (input.commitment P).masks (secretVectorOf input.key)

/-- The second commitment. -/
def secondCommitment : Bytes 32 :=
  P.shake128 (responseParts (input.alphaZero P) (encodedAlpha (input.alphaOne P)).toList).flatten 32

/-- The signature before the opening is written. -/
def header : Bytes 2916 :=
  ((((0 : Bytes 2916).write 0 input.salt.toList).write 16 (input.firstCommitment P).toList).write 80
    (encodedAlpha (input.alphaOne P)).toList).write 48 (input.secondCommitment P).toList

/-- The Fiat-Shamir hash. -/
def hash : Bytes 32 :=
  P.shake128 (fiatShamirParts P input.publicKey.toList (input.firstCommitment P).toList
    (input.secondCommitment P).toList input.message).flatten 32

/-- The calls of `sign` before the challenge. -/
def prepareCalls : List Call :=
  input.commitInput.calls P ++
    .shake128 .batching (batchingParts (input.firstCommitment P)) ::
      equationCalls (masterSeedOf input.key) ++
    [.shake128 .responseCommitment
      (responseParts (input.alphaZero P) (encodedAlpha (input.alphaOne P)).toList),
    .shake128 .messageHash (messageParts input.message),
    .shake128 .fiatShamir (fiatShamirParts P input.publicKey.toList (input.firstCommitment P).toList
      (input.secondCommitment P).toList input.message)]

/-- The bytes of `alpha_one` in the header. -/
theorem header_alpha_one (target : Bytes 2916) (alpha : Alpha) :
    (slice (target.write 80 (encodedAlpha alpha).toList).toList Verify.alphaOneOffset
      Verify.openingOffset : Exec (List UInt8)) = Run.ret (encodedAlpha alpha).toList [] := by
  have hslice : (slice (target.write 80 (encodedAlpha alpha).toList).toList Verify.alphaOneOffset
      Verify.openingOffset : Exec (List UInt8)) =
        Run.ret ((target.write 80 (encodedAlpha alpha).toList).extract 80 192
          (by omega)).toList [] :=
    slice_toList _ 192 (by simp) rfl
  rw [hslice, Bytes.extract_write]

/-- `sign` reaches the challenge search on every input. -/
theorem prepare_signature_eq :
    prepareSignature P input.key input.message input.masterSeed input.salt =
      Run.ret ⟨input.publicKey, input.commitment P, input.header P, input.hash P⟩
        (input.prepareCalls P) := by
  unfold prepareSignature
  rw [show publicKeySize = 60 from rfl, show secretKeySize = 88 from rfl,
    show Verify.publicSeedSize = 32 from rfl, show saltSize = 16 from rfl,
    slice_toList input.key 60 (by omega) rfl, Run.ret_bind, Run.after_nil, try_into_toList,
    Run.of_option_some, Run.ret_bind, Run.after_nil,
    slice_toList (input.key.extract 0 60 (by omega)) 32 (by omega) rfl, Run.ret_bind, Run.after_nil,
    try_into_toList, Run.of_option_some, Run.ret_bind, Run.after_nil,
    slice_toList input.key 28 (by omega) rfl, Run.ret_bind, Run.after_nil,
    unpack_gf16_eq _ _ (by omega) (by omega), Run.ret_bind, Run.after_nil]
  dsimp only
  rw [Run.require_of rfl, Run.ret_bind, Run.after_nil, Bytes.extract_extract]
  -- the parts of the key are the arguments of `commit` and `compute_alpha`
  have hcommit := input.commitInput.commit_eq P
  have halpha := compute_alpha_eq P (input.firstCommitment P) (masterSeedOf input.key)
    (input.commitment P) (secretVectorOf input.key)
  simp only [commitInput, secretVectorOf, masterSeedOf, firstCommitment, commitment]
    at hcommit halpha
  rw [hcommit, Run.ret_bind, halpha, Run.ret_bind]
  dsimp only
  rw [copy_from_slice_of_le _ (by omega) (by omega) (by simp), Run.ret_bind, Run.after_nil,
    copy_from_slice_of_le _ (by decide) (by decide) (by simp), Run.ret_bind, Run.after_nil,
    write_alpha_one_eq, Run.ret_bind, Run.after_nil]
  dsimp only
  rw [Run.require_of (show 272 = Verify.openingOffset by decide), Run.ret_bind, Run.after_nil,
    header_alpha_one, Run.ret_bind, Run.after_nil, second_commitment_hash_eq, Run.ret_bind,
    copy_from_slice_of_le _ (by decide) (by decide) (by simp), Run.ret_bind, Run.after_nil,
    fiat_shamir_hash_eq, Run.ret_bind, Run.pure_eq_ret]
  simp only [Run.after_ret, List.append_nil]
  refine congrArg₂ Run.ret rfl ?_
  rw [prepareCalls, List.append_assoc]
  rfl

/-! ## The signature of a nonce -/

variable (nonce : Bytes 4)

/-- The hidden indices of a nonce. -/
def hiddenIndices : Vector UInt16 12 :=
  indicesOf P (input.hash P) nonce

/-- The opening of the commitment at the hidden indices. -/
def opening : Bytes 2640 :=
  (input.commitInput.openingParts P (input.hiddenIndices P nonce)).encode

/-- The signature with a nonce. -/
def signature : Bytes 2916 :=
  ((input.header P).write 272 (input.opening P nonce).toList).write 2912 nonce.toList

/-- The signature as the verifier receives it. -/
def verifyInput : VerifyInput :=
  ⟨input.publicKey, input.message, input.signature P nonce⟩

/-- The opening and the nonce come after the header. -/
theorem signature_header {offset length : Nat} (h : offset + length ≤ 272) :
    (input.signature P nonce).extract offset length (by omega) =
      (input.header P).extract offset length (by omega) := by
  rw [signature, Bytes.extract_write_of_disjoint _ _ (Or.inl (by omega)),
    Bytes.extract_write_of_disjoint _ _ (Or.inl (by omega))]

/-- The verifier reads the salt of the signer. -/
theorem verify_input_salt : (input.verifyInput P nonce).salt = input.salt := by
  refine (input.signature_header P nonce (by omega)).trans ?_
  rw [header, Bytes.extract_write_of_disjoint _ _ (Or.inl (by omega)),
    Bytes.extract_write_of_disjoint _ _ (Or.inl (by omega)),
    Bytes.extract_write_of_disjoint _ _ (Or.inl (by omega))]
  exact Bytes.extract_write _ _ _ _

/-- It reads the first commitment. -/
theorem verify_input_first :
    (input.verifyInput P nonce).firstCommitment = input.firstCommitment P := by
  refine (input.signature_header P nonce (by omega)).trans ?_
  rw [header, Bytes.extract_write_of_disjoint _ _ (Or.inl (by omega)),
    Bytes.extract_write_of_disjoint _ _ (Or.inl (by omega))]
  exact Bytes.extract_write _ _ _ _

/-- It reads the second commitment. -/
theorem verify_input_second :
    (input.verifyInput P nonce).secondCommitment = input.secondCommitment P := by
  refine (input.signature_header P nonce (by omega)).trans ?_
  exact Bytes.extract_write _ _ _ _

/-- It reads the linear responses. -/
theorem verify_input_alpha_one :
    (input.verifyInput P nonce).serializedAlphaOne = encodedAlpha (input.alphaOne P) := by
  refine (input.signature_header P nonce (by omega)).trans ?_
  rw [header, Bytes.extract_write_of_disjoint _ _ (Or.inr (by simp))]
  exact Bytes.extract_write _ _ _ _

/-- It reads the opening. -/
theorem verify_input_opening :
    (input.verifyInput P nonce).opening = input.opening P nonce := by
  rw [VerifyInput.opening, verifyInput, signature,
    Bytes.extract_write_of_disjoint _ _ (Or.inl (by omega))]
  exact Bytes.extract_write _ _ _ _

/-- It reads the nonce. -/
theorem verify_input_nonce : (input.verifyInput P nonce).nonce = nonce :=
  Bytes.extract_write _ _ _ _

/-- The public key has the master seed of the secret key. -/
theorem verify_input_seed : (input.verifyInput P nonce).masterSeed = masterSeedOf input.key :=
  Bytes.extract_extract _ (by omega) (by omega)

/-- So the verifier computes the same hash. -/
theorem verify_input_hash : (input.verifyInput P nonce).hash P = input.hash P := by
  rw [VerifyInput.hash, verify_input_first, verify_input_second]
  rfl

/-- And it computes the same hidden indices. -/
theorem verify_input_hidden :
    (input.verifyInput P nonce).hiddenIndices P = input.hiddenIndices P nonce := by
  rw [VerifyInput.hiddenIndices, verify_input_hash, verify_input_nonce]
  rfl

/-- The verifier parses the responses that were encoded. -/
theorem verify_input_responses :
    (input.verifyInput P nonce).alphaOne = input.alphaOne P := by
  have hdecoded : (input.verifyInput P nonce).alphaOne =
      decodedAlpha (input.verifyInput P nonce).serializedAlphaOne := rfl
  rw [hdecoded, verify_input_alpha_one, decoded_encoded_alpha]

/-- The verifier evaluates the opening of the commitment. -/
theorem verify_input_evaluate :
    (input.verifyInput P nonce).evaluateInput P =
      input.commitInput.evaluateInput P (input.hiddenIndices P nonce)
        (indices_of_lt P (input.hash P) nonce) :=
  EvaluateInput.ext (input.verify_input_salt P nonce) (input.verify_input_opening P nonce)
    (input.verify_input_hidden P nonce)

/-- The embedded values of a consistent key are the values of the equations. -/
theorem public_output_value (hkey : KeyConsistent P input.key) (j : Fin 14) :
    (input.verifyInput P nonce).publicOutput[j] =
      ((input.system P).equation j).valueAt (secretVectorOf input.key) := by
  have hequation : (input.system P).equation j = equationOf P (masterSeedOf input.key) j := rfl
  have hcut : (input.publicKey.extract 32 28 (by omega)).extract (2 * j) 2 (by omega) =
      input.key.extract (32 + 2 * j) 2 (by omega) := by
    rw [Bytes.extract_extract, publicKey, Bytes.extract_extract]
    simp only [Nat.zero_add]
  have hpublic : (input.verifyInput P nonce).publicKey = input.publicKey := rfl
  rw [hequation, VerifyInput.publicOutput, getElem_fin, getElem_parsed, extension_at_extract,
    hpublic, hcut, ← hkey j, equationOutput, Gf256x2.from_bytes_to_bytes]

/-- The verifier recomputes the responses that were committed to. -/
theorem verify_input_alpha_zero (hkey : KeyConsistent P input.key) :
    (input.verifyInput P nonce).alphaZero P = input.alphaZero P := by
  have hlt : ∀ e : Fin 12, (input.hiddenIndices P nonce)[e].toNat < 2048 :=
    indices_of_lt P (input.hash P) nonce
  rw [VerifyInput.alphaZero, verify_input_first, verify_input_seed, verify_input_responses,
    verify_input_hidden, verify_input_evaluate]
  have hsecret : secretVectorOf input.key = input.commitInput.secret := rfl
  have hone : input.alphaOne P =
      (input.system P).alphaOne (input.commitInput.commitment P).masks input.commitInput.secret :=
    rfl
  have hzero : input.alphaZero P =
      (input.system P).alphaZero (input.commitInput.commitment P).masks := rfl
  have hsystem : systemOf P (input.firstCommitment P) (masterSeedOf input.key) =
      input.system P := rfl
  have hsolves := input.public_output_value P nonce hkey
  rw [hsecret] at hsolves
  rw [hone, hzero, hsystem]
  -- what is opened lies on the lines of the signer
  have hbase := input.commitInput.opened_base P (input.hiddenIndices P nonce) hlt
  have hmask := input.commitInput.opened_mask P (input.hiddenIndices P nonce) hlt
  exact (input.system P).recomputed_of_lines (input.commitInput.commitment P).masks
    input.commitInput.secret (input.hiddenIndices P nonce)
    ((input.commitInput.evaluateInput P (input.hiddenIndices P nonce) hlt).opened P)
    (input.verifyInput P nonce).publicOutput (by with_reducible exact hbase)
    (by with_reducible exact hmask) hsolves

/-- For a consistent key the signature with an accepted nonce is accepted. -/
theorem signature_accepted (hkey : KeyConsistent P input.key)
    (h : nonceAccepted P (input.hash P) nonce) :
    (verify P input.publicKey.toList input.message (input.signature P nonce).toList).outcome =
      .ok true := by
  have hrun := (input.verifyInput P nonce).verify_inner_eq P
  have hgrinding : (input.verifyInput P nonce).grindingPasses P := by
    rw [VerifyInput.grindingPasses, verify_input_hash, verify_input_nonce]
    exact h
  have hfirst : ((input.verifyInput P nonce).evaluateInput P).digest P =
      (input.verifyInput P nonce).firstCommitment := by
    rw [verify_input_evaluate, verify_input_first]
    exact input.commitInput.evaluate_digest P _ _
  have hsecond : (input.verifyInput P nonce).observedSecond P =
      (input.verifyInput P nonce).secondCommitment := by
    rw [VerifyInput.observedSecond, verify_input_alpha_zero P input nonce hkey,
      verify_input_alpha_one, verify_input_second]
    rfl
  refine (verify_true P).mpr ((congrArg Run.outcome hrun).trans ?_)
  exact ((input.verifyInput P nonce).decision_ok P).mpr ⟨hgrinding, hfirst, hsecond⟩

/-! ## Signing -/

/-- `sign` returns the signature with the nonce that the search finds. -/
theorem sign_of_found {nonce : Bytes 4} (hkey : KeyConsistent P input.key)
    (haccepted : nonceAccepted P (input.hash P) nonce)
    (hfound : (sampleChallenge P (input.hash P)).outcome =
      .ok (input.hiddenIndices P nonce, nonce)) :
    (sign P input.key input.message input.masterSeed input.salt).outcome =
      .ok (input.signature P nonce) := by
  have hprepare := congrArg Run.outcome (input.prepare_signature_eq P)
  have hopen : ((input.commitment P).openAt P (input.hiddenIndices P nonce)).outcome =
      .ok (input.opening P nonce) :=
    congrArg Run.outcome (input.commitInput.open_at_eq P (input.hiddenIndices P nonce)
      (indices_of_lt P (input.hash P) nonce))
  unfold sign
  rw [Run.bind_outcome_of_ok hprepare]
  dsimp only
  rw [Run.bind_outcome_of_ok hfound]
  dsimp only
  rw [Run.bind_outcome_of_ok hopen,
    copy_from_slice_of_le _ (by decide) (by decide) (by simp), Run.ret_bind, Run.after_nil,
    copy_from_slice_of_le _ (by decide) (by decide) (by simp), Run.ret_bind, Run.after_nil]
  have hsignature : ((input.header P).write Verify.openingOffset
      (input.opening P nonce).toList).write Verify.nonceOffset nonce.toList =
        input.signature P nonce := rfl
  rw [hsignature, Run.bind_outcome_of_ok (input.signature_accepted P nonce hkey haccepted),
    Run.require_of rfl, Run.ret_bind]
  rfl

/-- `sign` fails with the search. -/
theorem sign_of_not_found {reason : Rust.Halt Branch}
    (hfound : (sampleChallenge P (input.hash P)).outcome = .error reason) :
    (sign P input.key input.message input.masterSeed input.salt).outcome = .error reason := by
  have hprepare := congrArg Run.outcome (input.prepare_signature_eq P)
  unfold sign
  rw [Run.bind_outcome_of_ok hprepare]
  exact Run.bind_outcome_of_error hfound

end SignInput

/-! ## Completeness -/

/-- A key that `generate` or `from_slice` returns. -/
def ObtainableKey (P : Primitives) (key : SigningKey) : Prop :=
  (∃ (State : Type) (rng : TryCryptoRng State) (state final : State),
    (SigningKey.generate P rng state).outcome = .ok (some key, final)) ∨
  ∃ bytes, (SigningKey.fromSlice P bytes).outcome = .ok (.ok key)

/-- Every obtainable key is consistent. -/
theorem ObtainableKey.consistent {P : Primitives} {key : SigningKey} (h : ObtainableKey P key) :
    KeyConsistent P key.encoded := by
  rcases h with ⟨State, rng, state, final, hgenerate⟩ | ⟨bytes, hslice⟩
  · obtain ⟨seed, _, hkey⟩ := generate_ok P hgenerate
    rw [hkey]
    exact secret_key_consistent P seed
  · exact ((from_slice_ok P).mp hslice).2

/-- Signing with an obtainable key returns a signature exactly when some nonce passes the grinding
test for the Fiat-Shamir hash of the run, every signature it returns is accepted, and it fails only
when the search finds no nonce. -/
theorem signing_complete (P : Primitives) (key : SigningKey) (hkey : ObtainableKey P key)
    (message : List UInt8) (masterSeed salt : Bytes 16) :
    ∃ state, (prepareSignature P key.encoded message masterSeed salt).outcome = .ok state ∧
      ((∃ signature, (sign P key.encoded message masterSeed salt).outcome = .ok signature) ↔
        ∃ nonce : UInt32,
          maskedGrinding (challengeStream P state.fiatShamirHash (u32ToLeBytes nonce)) = 0) ∧
      (∀ signature, (sign P key.encoded message masterSeed salt).outcome = .ok signature →
        (key.verifyingKey.verify P message ⟨signature⟩).outcome = .ok true) ∧
      ∀ reason, (sign P key.encoded message masterSeed salt).outcome = .error reason →
        reason = .none .nonceSearch := by
  let input : SignInput := ⟨key.encoded, message, masterSeed, salt⟩
  have hconsistent : KeyConsistent P input.key := hkey.consistent
  refine ⟨_, congrArg Run.outcome (input.prepare_signature_eq P), ?_⟩
  -- everything but the search succeeds, so the search decides
  have hsearch := sample_from_cases P (input.hash P) (2 ^ 32) 0
  rw [← sample_challenge_eq] at hsearch
  rcases hsearch with ⟨k, hk, haccepted, _, hrun⟩ | ⟨hnone, hrun⟩
  · have hsign := input.sign_of_found P hconsistent haccepted (congrArg Run.outcome hrun)
    refine ⟨⟨fun _ => ⟨UInt32.ofNat (0 + k), haccepted⟩, fun _ => ⟨_, hsign⟩⟩, ?_, ?_⟩
    · intro signature hsignature
      obtain rfl := Except.ok.inj (hsign.symm.trans hsignature)
      exact input.signature_accepted P _ hconsistent haccepted
    · intro reason hreason
      exact nomatch hsign.symm.trans hreason
  · have hsign := input.sign_of_not_found P (congrArg Run.outcome hrun)
    refine ⟨⟨?_, ?_⟩, ?_, ?_⟩
    · rintro ⟨signature, hsignature⟩
      exact nomatch hsign.symm.trans hsignature
    · rintro ⟨nonce, hnonce⟩
      have hrejected := hnone nonce.toNat nonce.toNat_lt
      rw [Nat.zero_add, nonceOf, UInt32.ofNat_toNat] at hrejected
      exact absurd hnonce hrejected
    · intro signature hsignature
      exact nomatch hsign.symm.trans hsignature
    · intro reason hreason
      exact (Except.error.inj (hsign.symm.trans hreason)).symm

/-- The key of a seed of zeros. -/
def zeroSeedKey : SigningKey := ⟨secretKeyOf zeroPrimitives 0⟩

/-- Signing the empty message with a generated key. -/
theorem zero_seed_signing_complete :
    ∃ state, (prepareSignature zeroPrimitives zeroSeedKey.encoded [] 0 0).outcome = .ok state ∧
      ((∃ signature, (sign zeroPrimitives zeroSeedKey.encoded [] 0 0).outcome = .ok signature) ↔
        ∃ nonce : UInt32, maskedGrinding
          (challengeStream zeroPrimitives state.fiatShamirHash (u32ToLeBytes nonce)) = 0) ∧
      (∀ signature, (sign zeroPrimitives zeroSeedKey.encoded [] 0 0).outcome = .ok signature →
        (zeroSeedKey.verifyingKey.verify zeroPrimitives [] ⟨signature⟩).outcome = .ok true) ∧
      ∀ reason, (sign zeroPrimitives zeroSeedKey.encoded [] 0 0).outcome = .error reason →
        reason = .none .nonceSearch :=
  signing_complete zeroPrimitives zeroSeedKey
    (Or.inl ⟨Unit, fun _ _ => (some 0, ()), (), (), generate_of_seed zeroPrimitives rfl⟩) [] 0 0

end Mqom
