import Mqom.Model.Sign

/-!
# Keys

`keygen.rs` and the key and signature types of `mqom2_l1_gf16_short_r5/mod.rs`.
-/

namespace Mqom

open Rust Params

/-- `keypair_from_seed`: the secret and the public key. -/
def keypairFromSeed (P : Primitives) (seed : Bytes 32) : Exec (Bytes 88 × Bytes 60) := do
  let expansion ← shake128 P .keyExpansion [[0x00], seed.toList] 60
  let packedSecret ← slice expansion.toList 0 28
  let (unpacked, secretVector) ← unpackGf16 packedSecret (Vector.replicate 56 0)
  Run.require .expansionUnpacking unpacked
  let masterSeed ← slice expansion.toList 28 60
  let masterSeed ← Run.ofOption .expansionParts (tryInto 32 masterSeed)
  let publicKey ← copyFromSlice (0 : Bytes 60) 0 Verify.publicSeedSize masterSeed.toList
  let publicKey ← (List.range Mq.equationCount).foldlM (fun publicKey equationIndex => do
    let equation ← expandEquation P masterSeed equationIndex
    let value ← equation.evaluateBase secretVector
    let offset := Verify.publicSeedSize + equationIndex * 2
    copyFromSlice publicKey offset (offset + 2) value.toBytes.toList) publicKey
  let secretKey ← copyFromSlice (0 : Bytes 88) 0 publicKeySize publicKey.toList
  let secretKey ← copyFromSlice secretKey publicKeySize secretKeySize packedSecret
  pure (secretKey, publicKey)

/-- `secret_key_is_consistent`. A `None` on the way counts as `false`. -/
def secretKeyIsConsistent (P : Primitives) (secretKey : Bytes 88) : Exec Bool := do
  let masterSeed ← slice secretKey.toList 0 Verify.publicSeedSize
  match tryInto 32 masterSeed with
  | none => pure false
  | some masterSeed =>
    let packedSecret ← slice secretKey.toList publicKeySize secretKeySize
    let (unpacked, secretVector) ← unpackGf16 packedSecret (Vector.replicate 56 0)
    if !unpacked then pure false
    else do
      let result ← Run.attempt <| (List.range Mq.equationCount).foldlM
        (fun equal equationIndex => do
          let equation ← expandEquation P masterSeed equationIndex
          let offset := Verify.publicSeedSize + equationIndex * 2
          let observed ← slice secretKey.toList offset (offset + 2)
          let value ← equation.evaluateBase secretVector
          pure (equal && decide (value.toBytes.toList = observed))) true
      pure (result.getD false)

/-! ## The public types -/

/-- `EncodingError`. -/
structure EncodingError where
  expected : Nat
  actual : Nat
  deriving DecidableEq, Repr

/-- `SigningKeyError`. -/
inductive SigningKeyError where
  | invalidLength (error : EncodingError)
  | inconsistent
  deriving DecidableEq, Repr

/-- `VerifyingKey`. -/
structure VerifyingKey where
  encoded : Bytes 60
  deriving DecidableEq

/-- `Signature`. -/
structure Signature where
  encoded : Bytes 2916
  deriving DecidableEq

/-- `SigningKey`. -/
structure SigningKey where
  encoded : Bytes 88
  deriving DecidableEq

/-- The conversion of a slice to an array of `n` bytes in the `from_slice` functions. -/
def encodedFromSlice (n : Nat) (bytes : List UInt8) : Except EncodingError (Bytes n) :=
  match tryInto n bytes with
  | some encoded => .ok encoded
  | none => .error ⟨n, bytes.length⟩

/-- `VerifyingKey::from_slice`. -/
def VerifyingKey.fromSlice (bytes : List UInt8) : Except EncodingError VerifyingKey :=
  (encodedFromSlice publicKeySize bytes).map VerifyingKey.mk

/-- `VerifyingKey::verify`: whether the signature is accepted. -/
def VerifyingKey.verify (P : Primitives) (key : VerifyingKey) (message : List UInt8)
    (signature : Signature) : Exec Bool :=
  Mqom.verify P key.encoded.toList message signature.encoded.toList

/-- `Signature::from_slice`. -/
def Signature.fromSlice (bytes : List UInt8) : Except EncodingError Signature :=
  (encodedFromSlice signatureSize bytes).map Signature.mk

/-- A source of randomness: from its state, `n` bytes or a failure, and the next state. -/
abbrev TryCryptoRng (State : Type) : Type := (n : Nat) → State → Option (Bytes n) × State

namespace SigningKey

variable {State : Type}

/-- `SigningKey::generate`: the key, or `None` for its opaque error, and the state of the source
of randomness afterwards. -/
def generate (P : Primitives) (rng : TryCryptoRng State) (state : State) :
    Exec (Option SigningKey × State) := do
  let (seed, state) := rng 32 state
  match seed with
  | none => pure (none, state)
  | some seed => do
    let keypair ← Run.attempt (keypairFromSeed P seed)
    pure (keypair.map fun pair => ⟨pair.1⟩, state)

/-- `SigningKey::try_sign_with_rng`: the signature, or `None` for its opaque error, and the state
of the source of randomness afterwards. -/
def trySignWithRng (P : Primitives) (key : SigningKey) (rng : TryCryptoRng State)
    (state : State) (message : List UInt8) : Exec (Option Signature × State) := do
  let (masterSeed, state) := rng 16 state
  match masterSeed with
  | none => pure (none, state)
  | some masterSeed =>
    let (salt, state) := rng 16 state
    match salt with
    | none => pure (none, state)
    | some salt => do
      let signature ← Run.attempt (sign P key.encoded message masterSeed salt)
      pure (signature.map Signature.mk, state)

/-- `SigningKey::from_slice`. -/
def fromSlice (P : Primitives) (bytes : List UInt8) : Exec (Except SigningKeyError SigningKey) :=
  match encodedFromSlice secretKeySize bytes with
  | .error error => pure (.error (.invalidLength error))
  | .ok encoded => do
    let consistent ← secretKeyIsConsistent P encoded
    if !consistent then pure (.error .inconsistent) else pure (.ok ⟨encoded⟩)

/-- `SigningKey::verifying_key`. -/
def verifyingKey (key : SigningKey) : VerifyingKey :=
  ⟨key.encoded.extract 0 60 key_public_le⟩

/-- `SigningKey::to_bytes`. -/
def toBytes (key : SigningKey) : Bytes 88 := key.encoded

end SigningKey

end Mqom
