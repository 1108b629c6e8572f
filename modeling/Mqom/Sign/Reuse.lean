import Mqom.Sign.SelfVerification

/-!
# Two signatures from one seed

A signer that signs two messages with the same master seed and salt makes one commitment and opens
it twice. At two points of one line the slope is known, so whoever has the two signatures has the
key.
-/

namespace Mqom

open Rust Params

/-! ## What an observer computes -/

/-- What an observer learns from a signature: the hidden indices and the opened evaluations. -/
def observe (P : Primitives) (publicKey : Bytes 60) (message : List UInt8)
    (signature : Bytes 2916) : Exec (Vector UInt16 12 × OpenedEvaluations) := do
  let salt := signature.extract 0 16 signature_salt_le
  let firstCommitment := signature.extract 16 32 first_commitment_le
  let secondCommitment := signature.extract 48 32 second_commitment_le
  let opening := signature.extract 272 2640 signature_opening_le
  let nonce := signature.extract 2912 4 signature_nonce_le
  let hash ← fiatShamirHash P publicKey.toList firstCommitment.toList secondCommitment.toList
    message
  let hiddenIndices ← parseChallenge P hash nonce
  let opened ← evaluateOpening P salt firstCommitment opening.toList hiddenIndices
  pure (hiddenIndices, opened)

/-- The slope of the line through two points. -/
def slopeOf (w w' value value' : Gf256x2) : Gf256x2 :=
  (value + value') * (w + w').invert

/-- The element of GF(16) that an element of the extension is the image of. -/
def unembed (a : Gf256x2) : Gf16 :=
  (((List.range 16).map fun i => Gf16.new (UInt8.ofNat i)).find? fun s => s.embed = a.c0).getD 0

/-- The key, computed from two signatures at an execution. -/
def recoverKey (P : Primitives) (publicKey : Bytes 60) (message message' : List UInt8)
    (signature signature' : Bytes 2916) (e : Fin 12) : Exec (Bytes 88) := do
  let (hiddenIndices, opened) ← observe P publicKey message signature
  let (hiddenIndices', opened') ← observe P publicKey message' signature'
  let secret := Vector.ofFn fun i : Fin 56 => unembed (slopeOf (evaluationPoint hiddenIndices[e])
    (evaluationPoint hiddenIndices'[e]) opened.x[e][i] opened'.x[e][i])
  let (_, serializedSecret) ← packGf16 secret (0 : Bytes 28)
  pure (publicKey.append serializedSecret)

/-! ## Lines -/

/-- Two points of a line give its slope. -/
theorem slope_of_line {w w' base slope : Gf256x2} (h : w ≠ w') :
    slopeOf w w' (base + w * slope) (base + w' * slope) = slope := by
  have hne : w + w' ≠ 0 := fun hzero => h (CharTwo.add_eq_zero.mp hzero)
  have hsum : base + w * slope + (base + w' * slope) = slope * (w + w') := by
    linear_combination CharTwo.add_self_eq_zero base
  rw [slopeOf, hsum, mul_assoc, Gf256x2.mul_invert_cancel _ hne, mul_one]

/-- An element of the small field is read back from the large one. -/
theorem unembed_to_ext (s : Gf16) : unembed (Gf16.toExt s) = s := by
  induction s using Gf16.nibble_induction with
  | nibble i =>
      revert i
      decide +kernel

namespace SignInput

variable (P : Primitives) (input : SignInput) {nonce : Bytes 4}

/-- An observer of a signature opens the commitment of the signer. -/
theorem observe_signature (haccepted : nonceAccepted P (input.hash P) nonce) :
    (observe P input.publicKey input.message (input.signature P nonce)).outcome =
      .ok (input.hiddenIndices P nonce,
        (input.commitInput.evaluateInput P (input.hiddenIndices P nonce)
          (indices_of_lt P (input.hash P) nonce)).opened P) := by
  have hhash : (fiatShamirHash P input.publicKey.toList
      (input.verifyInput P nonce).firstCommitment.toList
      (input.verifyInput P nonce).secondCommitment.toList input.message).outcome =
        .ok (input.hash P) := by
    rw [fiat_shamir_hash_eq, Run.ret_outcome, verify_input_first, verify_input_second]
    rfl
  have hchallenge : (parseChallenge P (input.hash P) (input.verifyInput P nonce).nonce).outcome =
      .ok (input.hiddenIndices P nonce) := by
    have hmasked : maskedGrinding (challengeStream P (input.hash P) nonce) = 0 := haccepted
    rw [verify_input_nonce, parse_challenge_eq, if_pos hmasked]
    rfl
  have hopened := (input.verifyInput P nonce).evaluate_opening_eq P
  have hfirst : ((input.verifyInput P nonce).evaluateInput P).digest P =
      (input.verifyInput P nonce).firstCommitment := by
    rw [verify_input_evaluate, verify_input_first]
    exact input.commitInput.evaluate_digest P _ _
  rw [if_pos hfirst, verify_input_evaluate, verify_input_hash, verify_input_nonce] at hopened
  have hopened := congrArg Run.outcome hopened
  unfold observe
  dsimp only
  refine Run.bind_outcome_ok.mpr ⟨_, hhash, ?_⟩
  refine Run.bind_outcome_ok.mpr ⟨_, hchallenge, ?_⟩
  exact Run.bind_outcome_ok.mpr ⟨_, hopened, rfl⟩

end SignInput

/-- The public key and the packed secret are the key. -/
theorem key_parts (key : Bytes 88) :
    (key.extract 0 60 key_public_le).append (packed 28 (secretVectorOf key)) = key := by
  apply Bytes.eq_of_extract 60 28 rfl
  · exact Bytes.extract_append_left _ _ _
  · have hpacked : packed 28 (secretVectorOf key) = key.extract 60 28 key_secret_le :=
      packed_unpacked _ rfl
    rw [hpacked]
    exact Bytes.extract_append_right _ _ _

/-- Two signatures that were made with one master seed and salt give away the key to whoever
verifies them, at any execution in which their hidden indices differ. -/
theorem reused_randomness_reveals (P : Primitives) (key : Bytes 88) (message message' : List UInt8)
    (masterSeed salt : Bytes 16) (signature signature' : Bytes 2916)
    (hsigned : (sign P key message masterSeed salt).outcome = .ok signature)
    (hsigned' : (sign P key message' masterSeed salt).outcome = .ok signature') :
    ∃ hiddenIndices opened hiddenIndices' opened',
      (observe P (key.extract 0 60 key_public_le) message signature).outcome =
        .ok (hiddenIndices, opened) ∧
      (observe P (key.extract 0 60 key_public_le) message' signature').outcome =
        .ok (hiddenIndices', opened') ∧
      ∀ e : Fin 12, hiddenIndices[e] ≠ hiddenIndices'[e] →
        (recoverKey P (key.extract 0 60 key_public_le) message message' signature signature'
          e).outcome = .ok key := by
  let input : SignInput := ⟨key, message, masterSeed, salt⟩
  let input' : SignInput := ⟨key, message', masterSeed, salt⟩
  rcases input.sign_outcome_cases P with ⟨nonce, haccepted, _, hsign⟩ | ⟨_, _, hfailed⟩
  swap
  · cases hfailed.symm.trans hsigned
  rcases input'.sign_outcome_cases P with ⟨nonce', haccepted', _, hsign'⟩ | ⟨_, _, hfailed⟩
  swap
  · cases hfailed.symm.trans hsigned'
  obtain rfl := Except.ok.inj (hsign.symm.trans hsigned)
  obtain rfl := Except.ok.inj (hsign'.symm.trans hsigned')
  have hobserved := input.observe_signature P haccepted
  have hobserved' := input'.observe_signature P haccepted'
  refine ⟨_, _, _, _, hobserved, hobserved', fun e hne => ?_⟩
  have hpoints : evaluationPoint (input.hiddenIndices P nonce)[e] ≠
      evaluationPoint (input'.hiddenIndices P nonce')[e] :=
    fun heq => hne (evaluation_point_injective heq)
  -- both signatures open the commitment of the seed and the salt
  have hline := input.commitInput.opened_base P (input.hiddenIndices P nonce)
    (indices_of_lt P (input.hash P) nonce) e
  have hline' := input.commitInput.opened_base P (input'.hiddenIndices P nonce')
    (indices_of_lt P (input'.hash P) nonce') e
  have hsecret : (Vector.ofFn fun i : Fin 56 => unembed (slopeOf
      (evaluationPoint (input.hiddenIndices P nonce)[e])
      (evaluationPoint (input'.hiddenIndices P nonce')[e])
      ((input.commitInput.evaluateInput P (input.hiddenIndices P nonce)
        (indices_of_lt P (input.hash P) nonce)).opened P).x[e][i]
      ((input.commitInput.evaluateInput P (input'.hiddenIndices P nonce')
        (indices_of_lt P (input'.hash P) nonce')).opened P).x[e][i])) = secretVectorOf key := by
    refine vector_ext fun i => ?_
    rw [getElem_fin, Vector.getElem_ofFn, hline, hline', slope_of_line hpoints, unembed_to_ext]
    rfl
  have hpacked : (packGf16 (secretVectorOf key) (0 : Bytes 28) : Exec (Bool × Bytes 28)) =
      Run.ret (true, packed 28 (secretVectorOf key)) [] := pack_gf16_eq _ _ rfl (by omega)
  unfold recoverKey
  refine Run.bind_outcome_ok.mpr ⟨_, hobserved, Run.bind_outcome_ok.mpr ⟨_, hobserved', ?_⟩⟩
  refine Run.bind_outcome_ok.mpr ⟨(true, packed 28 (secretVectorOf key)), ?_, ?_⟩
  · exact (congrArg (fun secret => (packGf16 secret (0 : Bytes 28) : Exec _).outcome)
      hsecret).trans (congrArg Run.outcome hpacked)
  · exact congrArg Except.ok (key_parts key)

/-! ## Two messages of one byte -/

/-- The byte after the tag, or for the Fiat-Shamir hash the first byte of the message hash. -/
def echoedByte (data : List UInt8) : UInt8 :=
  if data.headD 0 = 0x04 then data.getD 125 0 else data.getD 1 0

/-- A hash whose first byte repeats one of the bytes it absorbs. -/
def echoPrimitives : Primitives where
  aes128 _ _ := 0
  shake128 data n := Bytes.ofFn fun i : Fin n => if i.val = 0 then echoedByte data else 0

/-- A generated key. -/
def echoKey : SigningKey := ⟨secretKeyOf echoPrimitives 0⟩

/-- Signing a message of one byte. -/
def echoInput (byte : UInt8) : SignInput := ⟨echoKey.encoded, [byte], 0, 0⟩

/-- An echoed hash is one byte and zeros. -/
theorem echo_first (data : List UInt8) (n : Nat) {i : Nat} (hi : i < n) :
    (echoPrimitives.shake128 data n)[i] = if i = 0 then echoedByte data else 0 := by
  simp [echoPrimitives]

/-- The Fiat-Shamir hash repeats the first byte of the message hash. -/
theorem echoed_byte_fiat_shamir (publicKey : Bytes 60) (first second hash : Bytes 32) :
    echoedByte ([[0x04], publicKey.toList, first.toList, second.toList, hash.toList].flatten) =
      hash.toList.getD 0 0 := by
  have hlist : [[0x04], publicKey.toList, first.toList, second.toList, hash.toList].flatten =
      ([0x04] ++ publicKey.toList ++ first.toList ++ second.toList) ++ hash.toList := by simp
  have hlength : ([0x04] ++ publicKey.toList ++ first.toList ++ second.toList).length = 125 := by
    simp
  rw [echoedByte, if_pos (by rfl), hlist, List.getD_append_right _ _ _ _ hlength.le, hlength]

/-- The first byte of a digest is the echoed one. -/
theorem echo_digest (data : List UInt8) :
    (echoPrimitives.shake128 data 32).toList.getD 0 0 = echoedByte data := rfl

/-- So the hash of an echo is its byte. -/
theorem echo_hash (byte : UInt8) :
    ((echoInput byte).hash echoPrimitives).toList.getD 0 0 = byte := by
  rw [SignInput.hash, echo_digest, fiatShamirParts, echoed_byte_fiat_shamir, echo_digest]
  rfl

/-- The challenge of an echo is its byte and zeros. -/
theorem echo_stream (byte : UInt8) (nonce : Bytes 4) {i : Nat} (hi : i < 26) :
    (challengeStream echoPrimitives ((echoInput byte).hash echoPrimitives) nonce)[i] =
      if i = 0 then byte else 0 := by
  have hbyte : echoedByte (challengeParts ((echoInput byte).hash echoPrimitives) nonce).flatten =
      byte := by
    have hlist : (challengeParts ((echoInput byte).hash echoPrimitives) nonce).flatten =
        [0x05] ++ (((echoInput byte).hash echoPrimitives).toList ++ nonce.toList) := by
      simp [challengeParts]
    rw [hlist, echoedByte, if_neg (by simp), List.getD_append_right _ _ _ _ (by simp),
      List.getD_append _ _ _ _ (by simp)]
    exact echo_hash byte
  rw [challengeStream, echo_first, hbyte]

/-- It has the grinding zeros. -/
theorem echo_accepted (byte : UInt8) (nonce : Bytes 4) :
    nonceAccepted echoPrimitives ((echoInput byte).hash echoPrimitives) nonce := by
  show maskedGrinding (challengeStream echoPrimitives _ nonce) = 0
  rw [maskedGrinding, echo_stream, echo_stream, if_neg (by omega), if_neg (by omega)]
  rfl

/-- Its first index is the byte. -/
theorem echo_hidden (byte : UInt8) (nonce : Bytes 4) :
    ((echoInput byte).hiddenIndices echoPrimitives nonce)[(0 : Fin 12)] =
      u16FromLeBytes byte 0 &&& 2047 := by
  rw [SignInput.hiddenIndices, indicesOf, challengeIndices, getElem_fin, Vector.getElem_ofFn]
  dsimp only
  rw [echo_stream, echo_stream]
  rfl

/-- Signing a message of one byte succeeds. -/
theorem echo_signed (byte : UInt8) :
    ∃ nonce, (sign echoPrimitives echoKey.encoded [byte] 0 0).outcome =
      .ok ((echoInput byte).signature echoPrimitives nonce) := by
  have hkey : KeyConsistent echoPrimitives (echoInput byte).key :=
    secret_key_consistent echoPrimitives 0
  rcases sample_from_cases echoPrimitives ((echoInput byte).hash echoPrimitives) (2 ^ 32) 0 with
    ⟨k, _, haccepted, _, hrun⟩ | ⟨hnone, _⟩
  · rw [← sample_challenge_eq] at hrun
    exact ⟨_, (echoInput byte).sign_of_found echoPrimitives hkey haccepted
      (congrArg Run.outcome hrun)⟩
  · exact absurd (echo_accepted byte _) (hnone 0 (by decide))

/-- The key that signed the messages of the byte 0 and of the byte 1 with the zero seed and salt. -/
theorem echo_reused_randomness :
    ∃ signature signature',
      (sign echoPrimitives echoKey.encoded [0] 0 0).outcome = .ok signature ∧
      (sign echoPrimitives echoKey.encoded [1] 0 0).outcome = .ok signature' ∧
      (recoverKey echoPrimitives (echoKey.encoded.extract 0 60 key_public_le) [0] [1] signature
        signature' 0).outcome = .ok echoKey.encoded := by
  obtain ⟨nonce, hsigned⟩ := echo_signed 0
  obtain ⟨nonce', hsigned'⟩ := echo_signed 1
  obtain ⟨hiddenIndices, opened, hiddenIndices', opened', hobserved, hobserved', hrecovered⟩ :=
    reused_randomness_reveals echoPrimitives echoKey.encoded [0] [1] 0 0 _ _ hsigned hsigned'
  refine ⟨_, _, hsigned, hsigned', hrecovered 0 ?_⟩
  have hleft := (echoInput 0).observe_signature echoPrimitives (echo_accepted 0 nonce)
  have hright := (echoInput 1).observe_signature echoPrimitives (echo_accepted 1 nonce')
  obtain ⟨rfl, _⟩ := Prod.ext_iff.mp (Except.ok.inj (hobserved.symm.trans hleft))
  obtain ⟨rfl, _⟩ := Prod.ext_iff.mp (Except.ok.inj (hobserved'.symm.trans hright))
  rw [echo_hidden, echo_hidden]
  decide

end Mqom
