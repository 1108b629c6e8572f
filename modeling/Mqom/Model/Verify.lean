import Mqom.Model.Blc

/-!
# Verification

`verify.rs`, and the parts of the transcript that `sign.rs` repeats.
-/

namespace Mqom

open Rust Params

namespace Verify

/-- `SALT_OFFSET`. -/
@[simp] def saltOffset : Nat := 0
/-- `FIRST_COMMITMENT_OFFSET`. -/
@[simp] def firstCommitmentOffset : Nat := saltOffset + saltSize
/-- `SECOND_COMMITMENT_OFFSET`. -/
@[simp] def secondCommitmentOffset : Nat := firstCommitmentOffset + digestSize
/-- `ALPHA_ONE_OFFSET`. -/
@[simp] def alphaOneOffset : Nat := secondCommitmentOffset + digestSize
/-- `ALPHA_ONE_SIZE`. -/
@[simp] def alphaOneSize : Nat := tau * eta * 2
/-- `OPENING_OFFSET`. -/
@[simp] def openingOffset : Nat := alphaOneOffset + alphaOneSize
/-- `NONCE_SIZE`. -/
@[simp] def nonceSize : Nat := 4
/-- `NONCE_OFFSET`. -/
@[simp] def nonceOffset : Nat := signatureSize - nonceSize
/-- `PUBLIC_SEED_SIZE`. -/
@[simp] def publicSeedSize : Nat := 2 * seedSize

example : alphaOneSize = 192 ∧ openingOffset = 272 ∧
    openingOffset + openingSize = nonceOffset := by decide

end Verify

/-- The type `Alpha`: `ETA` field elements for each execution. -/
abbrev Alpha : Type := Vector (Vector Gf256x2 8) 12

/-- `evaluation_point`. -/
def evaluationPoint (hiddenIndex : UInt16) : Gf256x2 :=
  Gf256x2.fromBytes (u16ToLeBytes (hiddenIndex ^^^ (hiddenIndex >>> 1)))

/-! ## The challenge stream -/

/-- The indices that `parse_challenge` and `sample_challenge` read from a challenge stream. -/
def challengeIndices (stream : Bytes 26) (evaluationMask : UInt16) : Vector UInt16 12 :=
  Vector.ofFn fun execution : Fin 12 =>
    u16FromLeBytes stream[2 * execution.val] stream[2 * execution.val + 1] &&& evaluationMask

/-- The masked grinding bits that `parse_challenge` and `sample_challenge` test. -/
def maskedGrinding (stream : Bytes 26) : UInt16 :=
  u16FromLeBytes stream[24] stream[25] &&& ((1 <<< UInt16.ofNat grindingBits) - 1)

/-- `parse_challenge`. -/
def parseChallenge (P : Primitives) (hash : Bytes 32) (nonce : Bytes 4) :
    Exec (Vector UInt16 12) := do
  let stream ← shake128 P .challenge [[0x05], hash.toList, nonce.toList] 26
  let evaluationMask ← Run.ofOption .evaluationMask (u16TryFrom (nbEvals - 1))
  let indices := challengeIndices stream evaluationMask
  Run.require .grinding (maskedGrinding stream = 0)
  pure indices

/-! ## The response -/

/-- The batching coefficients that `compute_alpha` and `recompute_alpha_zero` derive. -/
def expandBatching (P : Primitives) (firstCommitment : Bytes 32) :
    Exec (Vector (Vector Gf256x2 14) 8) := do
  let batchingStream ← shake128 P .batching [[0x08], firstCommitment.toList] 224
  Vector.ofFnM fun component : Fin 8 =>
    parseExtensionVector 14
      (batchingStream.extract (28 * component) 28 (batching_part_le component)).toList

/-- `expand_equations`, as in `sign.rs`. -/
def expandEquations (P : Primitives) (masterSeed : Bytes 32) : Exec (List PackedEquation) :=
  (List.range Mq.equationCount).mapM (expandEquation P masterSeed)

/-- `expand_equations`, as in `verify.rs`, which also checks the number of equations. -/
def expandCheckedEquations (P : Primitives) (masterSeed : Bytes 32) :
    Exec (List PackedEquation) := do
  let equations ← expandEquations P masterSeed
  Run.require .equationCount (equations.length = Mq.equationCount)
  pure equations

/-- The sum of the products of corresponding elements, added to `start`. -/
def addProducts {α : Type} [HMul Gf256x2 α Gf256x2] {N : Nat} (start : Gf256x2)
    (left : Vector Gf256x2 N) (right : Vector α N) : Gf256x2 :=
  (List.finRange N).foldl (fun sum (i : Fin N) => sum + (left[i] : Gf256x2) * (right[i] : α)) start

/-- The loop over the equations in `recompute_alpha_zero`: the value of one equation at the
opened vector. -/
def evaluateAtPoint (equation : PackedEquation) (point : Gf256x2) (x : Vector Gf256x2 56)
    (output : Gf256x2) : Exec Gf256x2 := do
  let product ← equation.multiplyExtension x
  let t := Vector.ofFn fun i : Fin 56 => product[i] + point * equation.linear[i]
  pure (addProducts 0 t x + point.square * output)

/-- The loop over the executions in `recompute_alpha_zero`. -/
def recomputeExecution (batching : Vector (Vector Gf256x2 14) 8)
    (equations : List PackedEquation) (alphaOne : Alpha) (hiddenIndices : Vector UInt16 12)
    (opened : OpenedEvaluations) (publicOutput : Vector Gf256x2 14) (execution : Fin 12) :
    Exec (Vector Gf256x2 8) := do
  let point := evaluationPoint hiddenIndices[execution]
  let zEvaluations ← Vector.ofFnM fun j : Fin 14 => do
    let equation ← index equations j
    evaluateAtPoint equation point opened.x[execution] publicOutput[j]
  pure (Vector.ofFn fun component : Fin 8 =>
    addProducts opened.u[execution][component] batching[component] zEvaluations +
      point * alphaOne[execution][component])

/-- `recompute_alpha_zero`. -/
def recomputeAlphaZero (P : Primitives) (firstCommitment : Bytes 32) (alphaOne : Alpha)
    (hiddenIndices : Vector UInt16 12) (opened : OpenedEvaluations) (masterSeed : Bytes 32)
    (publicOutput : Vector Gf256x2 14) : Exec Alpha := do
  let batching ← expandBatching P firstCommitment
  let equations ← expandCheckedEquations P masterSeed
  Vector.ofFnM
    (recomputeExecution batching equations alphaOne hiddenIndices opened publicOutput)

/-- The elements of an `Alpha`, encoded one by one. -/
def alphaParts (alpha : Alpha) : List (List UInt8) :=
  alpha.toList.flatMap fun execution => execution.toList.map fun element => element.toBytes.toList

/-- The hash that `sign` and `verify_inner` compute as the second commitment. -/
def secondCommitmentHash (P : Primitives) (alphaZero : Alpha) (serializedAlphaOne : List UInt8) :
    Exec (Bytes 32) :=
  let state := (alphaParts alphaZero).foldl Shake128State.absorb (Shake128State.new.absorb [0x03])
  (state.absorb serializedAlphaOne).squeeze P .responseCommitment 32

/-- The hash that `sign` and `verify_inner` compute from the public key, the commitments and the
message. -/
def fiatShamirHash (P : Primitives) (publicKey firstCommitment secondCommitment : List UInt8)
    (message : List UInt8) : Exec (Bytes 32) := do
  let messageHash ← shake128 P .messageHash [[0x02], message] 32
  shake128 P .fiatShamir
    [[0x04], publicKey, firstCommitment, secondCommitment, messageHash.toList] 32

/-! ## The verifier -/

/-- `verify_inner`. -/
def verifyInner (P : Primitives) (publicKey message signature : List UInt8) : Exec Unit := do
  Run.require .encodedLength
    (publicKey.length = publicKeySize ∧ signature.length = signatureSize)
  let masterSeed ← slice publicKey 0 Verify.publicSeedSize
  let masterSeed ← Run.ofOption .signatureParts (tryInto 32 masterSeed)
  let publicOutput ← slice publicKey Verify.publicSeedSize publicKey.length
  let publicOutput ← parseExtensionVector 14 publicOutput
  let salt ← slice signature Verify.saltOffset (Verify.saltOffset + saltSize)
  let salt ← Run.ofOption .signatureParts (tryInto 16 salt)
  let firstCommitment ← slice signature Verify.firstCommitmentOffset
    (Verify.firstCommitmentOffset + digestSize)
  let firstCommitment ← Run.ofOption .signatureParts (tryInto 32 firstCommitment)
  let secondCommitment ← slice signature Verify.secondCommitmentOffset
    (Verify.secondCommitmentOffset + digestSize)
  let secondCommitment ← Run.ofOption .signatureParts (tryInto 32 secondCommitment)
  let serializedAlphaOne ← slice signature Verify.alphaOneOffset Verify.openingOffset
  let opening ← slice signature Verify.openingOffset Verify.nonceOffset
  let nonce ← slice signature Verify.nonceOffset signature.length
  let nonce ← Run.ofOption .signatureParts (tryInto 4 nonce)
  let hash ← fiatShamirHash P publicKey firstCommitment.toList secondCommitment.toList message
  let hiddenIndices ← parseChallenge P hash nonce
  let opened ← evaluateOpening P salt firstCommitment opening hiddenIndices
  let alphaOne ← Vector.ofFnM fun execution : Fin 12 => do
    let encoded ← slice serializedAlphaOne (16 * execution) (16 * execution + 16)
    parseExtensionVector 8 encoded
  let alphaZero ← recomputeAlphaZero P firstCommitment alphaOne hiddenIndices opened masterSeed
    publicOutput
  let observedSecondCommitment ← secondCommitmentHash P alphaZero serializedAlphaOne
  Run.require .secondCommitment (observedSecondCommitment = secondCommitment)

/-- `verify`. -/
def verify (P : Primitives) (publicKey message signature : List UInt8) : Exec Bool := do
  let result ← Run.attempt (verifyInner P publicKey message signature)
  pure result.isSome

end Mqom
