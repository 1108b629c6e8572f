import Mqom.Model.Verify

/-!
# Signing

`sign.rs`. The part of `sign` before the challenge search has a name of its own, so that the
Fiat-Shamir hash of a run can be referred to.
-/

namespace Mqom

open Rust Params

/-- The loop over the equations in `compute_alpha`: the two coefficients of one equation. -/
def expandAtSecret (equation : PackedEquation) (tOne : Vector Gf256x2 56)
    (xZero : Vector Gf256x2 56) (secret : Vector Gf16 56) : Exec (Gf256x2 × Gf256x2) := do
  let tZero ← equation.multiplyExtension xZero
  let zZero := addProducts 0 tZero xZero
  let zOne := addProducts 0 tZero secret
  pure (zZero, addProducts zOne tOne xZero)

/-- The loop over the executions in `compute_alpha`. -/
def alphaExecution (batching : Vector (Vector Gf256x2 14) 8) (equations : List PackedEquation)
    (tOne : List (Vector Gf256x2 56)) (commitment : SigningCommitment)
    (secret : Vector Gf16 56) (execution : Fin 12) :
    Exec (Vector Gf256x2 8 × Vector Gf256x2 8) := do
  let z ← Vector.ofFnM fun j : Fin 14 => do
    let equation ← index equations j
    let tOne ← index tOne j
    expandAtSecret equation tOne commitment.xZero[execution] secret
  let zero := Vector.ofFn fun component : Fin 8 =>
    addProducts commitment.uZero[execution][component] batching[component] (z.map (·.1))
  let one := Vector.ofFn fun component : Fin 8 =>
    addProducts commitment.uOne[execution][component] batching[component] (z.map (·.2))
  pure (zero, one)

/-- `compute_alpha`. -/
def computeAlpha (P : Primitives) (firstCommitment : Bytes 32) (commitment : SigningCommitment)
    (secret : Vector Gf16 56) (masterSeed : Bytes 32) : Exec (Alpha × Alpha) := do
  let batching ← expandBatching P firstCommitment
  let equations ← expandEquations P masterSeed
  let tOne ← equations.mapM fun equation => do
    let value ← equation.multiplyBase secret
    pure (Vector.ofFn fun i : Fin 56 => value[i] + equation.linear[i])
  let alpha ← Vector.ofFnM (alphaExecution batching equations tOne commitment secret)
  pure (alpha.map (·.1), alpha.map (·.2))

/-- The loop of `sample_challenge`, with the number of nonces left to try. -/
def sampleFrom (P : Primitives) (hash : Bytes 32) (evaluationMask : UInt16) :
    Nat → UInt32 → Exec (Vector UInt16 12 × Bytes 4)
  | 0, _ => Run.halt (.none .nonceSearch)
  | remaining + 1, nonceValue => do
    let nonce := u32ToLeBytes nonceValue
    let stream ← shake128 P .challenge [[0x05], hash.toList, nonce.toList] 26
    if maskedGrinding stream = 0 then pure (challengeIndices stream evaluationMask, nonce)
    else sampleFrom P hash evaluationMask remaining (nonceValue + 1)

/-- `sample_challenge`: the loop over the nonces `0..=u32::MAX`. -/
def sampleChallenge (P : Primitives) (hash : Bytes 32) :
    Exec (Vector UInt16 12 × Bytes 4) := do
  let evaluationMask ← Run.ofOption .evaluationMask (u16TryFrom (nbEvals - 1))
  sampleFrom P hash evaluationMask (2 ^ 32) 0

/-- What `sign` has computed when it calls `sample_challenge`. -/
structure SigningState where
  publicKey : Bytes 60
  commitment : SigningCommitment
  signature : Bytes 2916
  fiatShamirHash : Bytes 32

/-- The encoding loop of `sign`: write the elements of `alpha_one` one after the other. -/
def writeAlphaOne (signature : Bytes 2916) (alphaOne : Alpha) : Exec (Bytes 2916 × Nat) :=
  (alphaParts alphaOne).foldlM (fun (state : Bytes 2916 × Nat) encoded => do
    let (signature, offset) := state
    let signature ← copyFromSlice signature offset (offset + encoded.length) encoded
    pure (signature, offset + encoded.length)) (signature, Verify.alphaOneOffset)

/-- `sign` up to the challenge search. -/
def prepareSignature (P : Primitives) (secretKey : Bytes 88) (message : List UInt8)
    (masterSeed salt : Bytes 16) : Exec SigningState := do
  let publicKey ← slice secretKey.toList 0 publicKeySize
  let publicKey ← Run.ofOption .secretKeyParts (tryInto 60 publicKey)
  let equationSeed ← slice publicKey.toList 0 Verify.publicSeedSize
  let equationSeed ← Run.ofOption .secretKeyParts (tryInto 32 equationSeed)
  let packedSecret ← slice secretKey.toList publicKeySize secretKeySize
  let (unpacked, secret) ← unpackGf16 packedSecret (Vector.replicate 56 0)
  Run.require .secretUnpacking unpacked
  let commitment ← commit P masterSeed salt secret
  let firstCommitment := commitment.commitment
  let (alphaZero, alphaOne) ← computeAlpha P firstCommitment commitment secret equationSeed
  let signature ← copyFromSlice (0 : Bytes 2916) 0 saltSize salt.toList
  let signature ← copyFromSlice signature Verify.firstCommitmentOffset
    Verify.secondCommitmentOffset firstCommitment.toList
  let (signature, alphaOneOffset) ← writeAlphaOne signature alphaOne
  Run.require .alphaOneLayout (alphaOneOffset = Verify.openingOffset)
  let serializedAlphaOne ← slice signature.toList Verify.alphaOneOffset Verify.openingOffset
  let secondCommitment ← secondCommitmentHash P alphaZero serializedAlphaOne
  let signature ← copyFromSlice signature Verify.secondCommitmentOffset Verify.alphaOneOffset
    secondCommitment.toList
  let hash ← fiatShamirHash P publicKey.toList firstCommitment.toList secondCommitment.toList
    message
  pure ⟨publicKey, commitment, signature, hash⟩

/-- `sign`. -/
def sign (P : Primitives) (secretKey : Bytes 88) (message : List UInt8)
    (masterSeed salt : Bytes 16) : Exec (Bytes 2916) := do
  let state ← prepareSignature P secretKey message masterSeed salt
  let (hiddenIndices, nonce) ← sampleChallenge P state.fiatShamirHash
  let opening ← state.commitment.openAt P hiddenIndices
  let signature ← copyFromSlice state.signature Verify.openingOffset Verify.nonceOffset
    opening.toList
  let signature ← copyFromSlice signature Verify.nonceOffset signatureSize nonce.toList
  let accepted ← verify P state.publicKey.toList message signature.toList
  Run.require .selfVerification accepted
  pure signature

end Mqom
