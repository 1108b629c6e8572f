import Mqom.Model.Primitives

/-!
# The AES-based generator

`prg.rs`: the key tweaks, the seed derivation and the block generator.
-/

namespace Mqom

open Rust

variable {n : Nat}

/-- `linear_orthomorphism`: swap the halves, then add the first half of the input to the first
half. -/
def linearOrthomorphism (seed : Bytes 16) : Bytes 16 :=
  (seed.extract 8 8 (by omega) ^^^ seed.extract 0 8 (by omega)).append
    (seed.extract 0 8 (by omega))

/-- `tweak_salt`. -/
def tweakSalt (salt : Bytes 16) (selector execution : UInt8) (index : UInt16) : Bytes 16 :=
  let indexBytes := u16ToLeBytes index
  ((salt.set 0 (salt[(0 : Fin 16)] ^^^ (selector + execution * 4))).set 1
    (salt[(1 : Fin 16)] ^^^ indexBytes[(0 : Fin 2)])).set 2
    (salt[(2 : Fin 16)] ^^^ indexBytes[(1 : Fin 2)])

/-- `SeedDeriver`: AES-128 under a key. -/
structure SeedDeriver where
  key : Bytes 16
  deriving DecidableEq

/-- `SeedDeriver::derive`. -/
def SeedDeriver.derive (P : Primitives) (deriver : SeedDeriver) (seed : Bytes 16) : Bytes 16 :=
  P.aes128 deriver.key seed ^^^ linearOrthomorphism seed

/-- `Generator`: one deriver for each block of the output. -/
structure Generator where
  blocks : List SeedDeriver

/-- `PRG_SELECTOR`. -/
def prgSelector : UInt8 := 3

/-- `Generator::new`. -/
def Generator.new (salt : Bytes 16) (execution : UInt8) (outputLen : Nat) : Exec Generator := do
  let sum ← Run.ofOption .generatorLength (checkedAdd outputLen 15)
  let blockCount := sum / 16
  Run.require .generatorBlockCount (blockCount ≤ 65535 + 1)
  let blocks ← (List.range blockCount).mapM fun blockIndex => do
    let blockIndex ← Run.ofOption .generatorBlockIndex (u16TryFrom blockIndex)
    pure (SeedDeriver.mk (tweakSalt salt prgSelector execution blockIndex))
  pure ⟨blocks⟩

/-- `Generator::fill`: whether the generator has enough blocks, and the output slice afterwards.
Chunk `i` of `output.chunks_mut(16)` is `output[16 * i .. min(16 * i + 16, n)]`. -/
def Generator.fill (P : Primitives) (generator : Generator) (seed : Bytes 16) (output : Bytes n) :
    Exec (Bool × Bytes n) :=
  match (checkedAdd n 15).map (· / 16) with
  | none => pure (false, output)
  | some requiredBlocks =>
    if requiredBlocks > generator.blocks.length then pure (false, output)
    else do
      let filled ← (generator.blocks.zip (List.range requiredBlocks)).foldlM
        (fun output (pair : SeedDeriver × Nat) => do
          let (deriver, i) := pair
          let lo := 16 * i
          let hi := min (lo + 16) n
          let block ← slice (deriver.derive P seed).toList 0 (hi - lo)
          copyFromSlice output lo hi block) output
      pure (true, filled)

/-- `prg::fill`. -/
def prgFill (P : Primitives) (salt : Bytes 16) (execution : UInt8) (seed : Bytes 16)
    (output : Bytes n) : Exec (Bool × Bytes n) := do
  match ← Run.attempt (Generator.new salt execution n) with
  | none => pure (false, output)
  | some generator => generator.fill P seed output

end Mqom
