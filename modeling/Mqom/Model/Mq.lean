import Mqom.Model.Field
import Mqom.Model.Params
import Mqom.Model.Prg

/-!
# The packed MQ system

`mq.rs`: one equation is a lower-triangular matrix, stored row by row, and a linear vector. The
length that `expand_equation` checks before it builds an equation is part of the type.
-/

namespace Mqom

open Rust Params

namespace Mq

/-- `EQUATION_COUNT`. -/
@[simp] def equationCount : Nat := mqM / mu
/-- `TRIANGULAR_ELEMENT_COUNT`. -/
@[simp] def triangularElementCount : Nat := mqN * (mqN + 1) / 2
/-- `EQUATION_ELEMENT_COUNT`. -/
@[simp] def equationElementCount : Nat := triangularElementCount + mqN
/-- `EQUATION_BYTE_COUNT`. -/
@[simp] def equationByteCount : Nat := equationElementCount * 2

example : equationCount = 14 ∧ triangularElementCount = 1596 ∧ equationElementCount = 1652 ∧
    equationByteCount = 3304 := by decide

end Mq

/-- `PackedEquation`. -/
@[ext]
structure PackedEquation where
  quadratic : Vector Gf256x2 1596
  linear : Vector Gf256x2 56

namespace PackedEquation

variable {α : Type}

/-- The loop of `multiply_base` and `multiply_extension`, with the product that each of them
takes. The running offset points at the row's first coefficient. -/
def multiplyRows (equation : PackedEquation) (product : Gf256x2 → α → Gf256x2)
    (vector : Vector α 56) : Exec (Vector Gf256x2 56) := do
  let (output, offset) ← (List.finRange 56).foldlM
    (fun (state : Vector Gf256x2 56 × Nat) (row : Fin 56) => do
      let (output, offset) := state
      let coefficients ← slice equation.quadratic.toList offset (offset + row + 1)
      let elements ← slice vector.toList 0 (row + 1)
      let element := (coefficients.zip elements).foldl
        (fun sum pair => sum + product pair.1 pair.2) output[row]
      pure (output.set row element, offset + (row + 1)))
    (Vector.replicate 56 0, 0)
  Run.check (offset = Mq.triangularElementCount)
  pure output

/-- `PackedEquation::multiply_base`. -/
def multiplyBase (equation : PackedEquation) (vector : Vector Gf16 56) :
    Exec (Vector Gf256x2 56) :=
  equation.multiplyRows (fun coefficient (element : Gf16) => element * coefficient) vector

/-- `PackedEquation::multiply_extension`. -/
def multiplyExtension (equation : PackedEquation) (vector : Vector Gf256x2 56) :
    Exec (Vector Gf256x2 56) :=
  equation.multiplyRows (fun coefficient (element : Gf256x2) => coefficient * element) vector

/-- `PackedEquation::evaluate_base`: the value `x^T A x + b^T x`. -/
def evaluateBase (equation : PackedEquation) (vector : Vector Gf16 56) : Exec Gf256x2 := do
  let matrixProduct ← equation.multiplyBase vector
  pure ((List.finRange 56).foldl (fun (result : Gf256x2) (i : Fin 56) =>
    let element : Gf16 := vector[i]
    result + element * matrixProduct[i] + element * equation.linear[i]) 0)

end PackedEquation

/-- `expand_equation`. The linear vector takes the stream's elements after the quadratic ones. -/
def expandEquation (P : Primitives) (masterSeed : Bytes 32) (equationIndex : Nat) :
    Exec PackedEquation := do
  Run.require .equationIndex (equationIndex < Mq.equationCount)
  let equationIndex ← Run.ofOption .equationIndexBytes (u16TryFrom equationIndex)
  let equationIndexBytes := u16ToLeBytes equationIndex
  let equationSeed ← shake128 P .equationSeed
    [[0x01], masterSeed.toList, equationIndexBytes.toList] 16
  let (filled, stream) ← prgFill P 0 0 equationSeed (0 : Bytes 3304)
  Run.require .equationStream filled
  let elements ← (chunksExact 2 stream.toList).mapM fun bytes => do
    let first ← index bytes 0
    let second ← index bytes 1
    pure (Gf256x2.fromBytes (Bytes.pair first second))
  let quadratic := elements.take Mq.triangularElementCount
  let rest := elements.drop Mq.triangularElementCount
  let linear := Vector.ofFn fun i : Fin 56 => rest.getD i 0
  if h : quadratic.length = 1596 ∧ rest.drop 56 = [] then
    pure ⟨⟨quadratic.toArray, by simpa using h.1⟩, linear⟩
  else Run.halt (.none .equationElements)

end Mqom
