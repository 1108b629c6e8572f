import Mqom.Rust.Bytes

/-!
# The primitives, the branches and the calls of a run

AES-128 and SHAKE128 come from other crates and are parameters here. `Exec` is a run of a function
of this crate. The branches name every place at which one of its functions returns `None`, and
the calls are the SHAKE128 invocations and the seed commitments the run makes, in order. A
SHAKE128 invocation is recorded with the site that makes it and the byte strings it absorbs.
-/

namespace Mqom

open Rust

/-- AES-128 on a key and a block, and the first `n` bytes that SHAKE128 outputs for the absorbed
bytes. -/
structure Primitives where
  aes128 : Bytes 16 → Bytes 16 → Bytes 16
  shake128 : List UInt8 → (n : Nat) → Bytes n

/-- The sites that invoke SHAKE128. -/
inductive HashKind where
  /-- `keygen.rs`, tag `0x00`: the secret vector and the equation seed of a key. -/
  | keyExpansion
  /-- `mq.rs`, tag `0x01`: the seed of one equation. -/
  | equationSeed
  /-- `sign.rs` and `verify.rs`, tag `0x02`. -/
  | messageHash
  /-- `sign.rs` and `verify.rs`, tag `0x03`: the second commitment. -/
  | responseCommitment
  /-- `sign.rs` and `verify.rs`, tag `0x04`. -/
  | fiatShamir
  /-- `sign.rs` and `verify.rs`, tag `0x05`: the hidden indices and the grinding bits. -/
  | challenge
  /-- `blc.rs`, tag `0x06`: the leaf commitments of one execution. -/
  | leafHash
  /-- `blc.rs`, tag `0x07`: the first commitment. -/
  | overallCommitment
  /-- `sign.rs` and `verify.rs`, tag `0x08`: the batching coefficients. -/
  | batching
  deriving DecidableEq, Repr

/-- A call that a run records. -/
inductive Call where
  /-- One SHAKE128 invocation, with the strings it absorbs. -/
  | shake128 (kind : HashKind) (parts : List (List UInt8))
  /-- One `SeedCommitter::commit`, with the two AES keys of the committer. -/
  | commitSeed (firstKey secondKey seed : Bytes 16)
  deriving DecidableEq

/-- The places at which a function of the crate returns `None`. -/
inductive Branch where
  -- `prg.rs`
  | generatorLength
  | generatorBlockCount
  | generatorBlockIndex
  -- `mq.rs`
  | equationIndex
  | equationIndexBytes
  | equationStream
  | equationElements
  -- `blc.rs`
  | treeArguments
  | treeDepth
  | treePresence
  | pathArguments
  | pathDepth
  | grayCodeIndex
  | grayCodePosition
  | extensionVectorLength
  | xorLength
  | executionIndex
  | secretPacking
  | rootSeedStream
  | leafCount
  | leafStream
  | basisUnpacking
  | openingLength
  | hiddenIndex
  | adjustedBase
  | firstCommitment
  -- `sign.rs`
  | secretKeyParts
  | secretUnpacking
  | alphaOneLayout
  | evaluationMask
  | nonceSearch
  | selfVerification
  -- `verify.rs`
  | encodedLength
  | signatureParts
  | grinding
  | equationCount
  | secondCommitment
  -- `keygen.rs`
  | expansionUnpacking
  | expansionParts
  deriving DecidableEq, Repr

/-- A run of a function of the crate. -/
abbrev Exec (α : Type) : Type := Run Call Branch α

/-- `Shake128State`: the byte strings absorbed so far. -/
@[ext]
structure Shake128State where
  parts : List (List UInt8)

namespace Shake128State

/-- `Shake128State::new`. -/
def new : Shake128State := ⟨[]⟩

/-- `Shake128State::absorb`. -/
def absorb (state : Shake128State) (input : List UInt8) : Shake128State :=
  ⟨state.parts ++ [input]⟩

/-- `Shake128State::squeeze` into a buffer of `n` bytes. The output depends on the concatenation
of the absorbed strings only. -/
def squeeze (P : Primitives) (kind : HashKind) (state : Shake128State) (n : Nat) :
    Exec (Bytes n) := do
  Run.emit (.shake128 kind state.parts)
  pure (P.shake128 state.parts.flatten n)

end Shake128State

/-- `shake128`: absorb the parts in order and squeeze `n` bytes. -/
def shake128 (P : Primitives) (kind : HashKind) (parts : List (List UInt8)) (n : Nat) :
    Exec (Bytes n) :=
  (parts.foldl Shake128State.absorb Shake128State.new).squeeze P kind n

namespace Shake128State

/-- A new state has absorbed nothing. -/
@[simp] theorem new_parts : new.parts = [] := rfl

/-- An absorbed string comes last. -/
@[simp] theorem absorb_parts (state : Shake128State) (input : List UInt8) :
    (state.absorb input).parts = state.parts ++ [input] := rfl

/-- Absorbing several strings appends them. -/
@[simp] theorem foldl_absorb_parts (state : Shake128State) (inputs : List (List UInt8)) :
    (inputs.foldl absorb state).parts = state.parts ++ inputs := by
  induction inputs generalizing state with
  | nil => simp
  | cons input rest ih => simp [ih]

/-- Absorbing something of every item appends it, in order. -/
theorem foldl_absorb_map {α : Type} (state : Shake128State) (input : α → List UInt8)
    (items : List α) :
    items.foldl (fun state item => state.absorb (input item)) state =
      ⟨state.parts ++ items.map input⟩ := by
  induction items generalizing state with
  | nil => simp
  | cons item rest ih => simp [ih]

/-- Squeezing hashes what was absorbed and records it. -/
@[simp] theorem squeeze_eq (P : Primitives) (kind : HashKind) (state : Shake128State) (n : Nat) :
    state.squeeze P kind n =
      Run.ret (P.shake128 state.parts.flatten n) [.shake128 kind state.parts] := rfl

end Shake128State

/-- A SHAKE128 invocation records its parts and returns the output for their concatenation. -/
@[simp] theorem shake128_eq (P : Primitives) (kind : HashKind) (parts : List (List UInt8))
    (n : Nat) :
    shake128 P kind parts n = Run.ret (P.shake128 parts.flatten n) [.shake128 kind parts] := by
  simp [shake128]

end Mqom
