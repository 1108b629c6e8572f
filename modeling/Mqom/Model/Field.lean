import Mqom.Rust.Bytes

/-!
# Finite-field arithmetic

The fields of `field.rs`: `Gf16` modulo `x^4 + x + 1`, `Gf256` modulo `x^8 + x^4 + x^3 + x + 1`,
and `Gf256x2`, the elements `c0 + c1 * X` modulo `X^2 + X + 32`. The multiplications are the
shift-and-add loops of the source. The four-bit range that `Gf16::new` and the operators keep is
a field of `Gf16`.
-/

namespace Mqom

open Rust

/-! ## GF(16) -/

/-- An element of GF(16), in the polynomial basis modulo `x^4 + x + 1`. -/
@[ext]
structure Gf16 where
  value : UInt8
  value_lt : value < 16
  deriving DecidableEq

/-- The low nibble is below 16. -/
theorem and_fifteen_lt (value : UInt8) : value &&& 0x0f < 16 := by
  rw [UInt8.lt_iff_toNat_lt, UInt8.toNat_and]
  exact Nat.lt_of_le_of_lt Nat.and_le_right (by decide)

/-- A sum of nibbles is a nibble. -/
theorem xor_lt_sixteen {left right : UInt8} (hleft : left < 16) (hright : right < 16) :
    left ^^^ right < 16 := by
  rw [UInt8.lt_iff_toNat_lt] at *
  rw [UInt8.toNat_xor]
  exact Nat.xor_lt_two_pow (n := 4) hleft hright

namespace Gf16

/-- `Gf16::new`: the low four bits of a byte. -/
def new (value : UInt8) : Gf16 :=
  ⟨value &&& 0x0f, and_fifteen_lt value⟩

instance : Zero Gf16 := ⟨⟨0, by decide⟩⟩

instance : One Gf16 := ⟨⟨1, by decide⟩⟩

instance : Add Gf16 :=
  ⟨fun left right => ⟨left.value ^^^ right.value, xor_lt_sixteen left.value_lt right.value_lt⟩⟩

instance : Sub Gf16 :=
  ⟨fun left right => ⟨left.value ^^^ right.value, xor_lt_sixteen left.value_lt right.value_lt⟩⟩

/-- One round of the multiplication loop, on the triple `(a, b, product)`. -/
def mulRound : UInt8 × UInt8 × UInt8 → UInt8 × UInt8 × UInt8
  | (a, b, product) =>
    let bMask := (0 : UInt8) - (b &&& 1)
    let highMask := (0 : UInt8) - ((a >>> 3) &&& 1)
    (((a <<< 1) &&& 0x0f) ^^^ (0x03 &&& highMask), b >>> 1, product ^^^ (a &&& bMask))

/-- `Mul for Gf16`: four rounds. -/
def mul (left right : Gf16) : Gf16 :=
  ⟨(mulRound^[4] (left.value, right.value, 0)).2.2 &&& 0x0f, and_fifteen_lt _⟩

instance : Mul Gf16 := ⟨mul⟩

/-- `Gf16::square`. -/
def square (a : Gf16) : Gf16 := a * a

/-- `Gf16::invert`: the power `a^14`. -/
def invert (a : Gf16) : Gf16 :=
  let a2 := a.square
  let a4 := a2.square
  let a8 := a4.square
  a8 * a4 * a2

end Gf16

/-! ## GF(256) -/

/-- An element of GF(256), in the polynomial basis modulo `x^8 + x^4 + x^3 + x + 1`. -/
@[ext]
structure Gf256 where
  value : UInt8
  deriving DecidableEq

namespace Gf256

/-- `Gf256::new`. -/
def new (value : UInt8) : Gf256 := ⟨value⟩

instance : Zero Gf256 := ⟨new 0⟩

instance : One Gf256 := ⟨new 1⟩

instance : Add Gf256 := ⟨fun left right => new (left.value ^^^ right.value)⟩

instance : Sub Gf256 := ⟨fun left right => new (left.value ^^^ right.value)⟩

/-- One round of the multiplication loop, on the triple `(a, b, product)`. -/
def mulRound : UInt8 × UInt8 × UInt8 → UInt8 × UInt8 × UInt8
  | (a, b, product) =>
    let bMask := (0 : UInt8) - (b &&& 1)
    let highMask := (0 : UInt8) - (a >>> 7)
    ((a <<< 1) ^^^ (0x1b &&& highMask), b >>> 1, product ^^^ (a &&& bMask))

/-- `Mul for Gf256`: eight rounds. -/
def mul (left right : Gf256) : Gf256 :=
  new (mulRound^[8] (left.value, right.value, 0)).2.2

instance : Mul Gf256 := ⟨mul⟩

/-- `Gf256::square`. -/
def square (a : Gf256) : Gf256 := a * a

/-- `Gf256::invert`: six square-and-multiply steps and a last square give `a^254`. -/
def invert (a : Gf256) : Gf256 :=
  ((fun product => product.square * a)^[6] a).square

end Gf256

/-- `Gf16::embed`: the element of the subfield of GF(256) with the same coordinates in the basis
`(0x01, 0xe0, 0x5d, 0xb0)`. -/
def Gf16.embed (a : Gf16) : Gf256 :=
  let bit0 := (0 : UInt8) - (a.value &&& 1)
  let bit1 := (0 : UInt8) - ((a.value >>> 1) &&& 1)
  let bit2 := (0 : UInt8) - ((a.value >>> 2) &&& 1)
  let bit3 := (0 : UInt8) - ((a.value >>> 3) &&& 1)
  .new ((0x01 &&& bit0) ^^^ (0xe0 &&& bit1) ^^^ (0x5d &&& bit2) ^^^ (0xb0 &&& bit3))

/-! ## GF(256^2) -/

/-- An element `c0 + c1 * X` of GF(256^2), modulo `X^2 + X + 32`. -/
@[ext]
structure Gf256x2 where
  c0 : Gf256
  c1 : Gf256
  deriving DecidableEq

namespace Gf256x2

/-- `Gf256x2::from_bytes`. -/
def fromBytes (bytes : Bytes 2) : Gf256x2 := ⟨.new bytes[0], .new bytes[1]⟩

/-- `Gf256x2::to_bytes`. -/
def toBytes (a : Gf256x2) : Bytes 2 := Bytes.pair a.c0.value a.c1.value

instance : Zero Gf256x2 := ⟨⟨0, 0⟩⟩

instance : One Gf256x2 := ⟨⟨1, 0⟩⟩

instance : Add Gf256x2 := ⟨fun left right => ⟨left.c0 + right.c0, left.c1 + right.c1⟩⟩

instance : Sub Gf256x2 := ⟨fun left right => ⟨left.c0 - right.c0, left.c1 - right.c1⟩⟩

/-- `Mul for Gf256x2`, with three products and one by the constant `32`. -/
def mul (left right : Gf256x2) : Gf256x2 :=
  let highProduct := left.c1 * right.c1
  let lowProduct := left.c0 * right.c0
  ⟨lowProduct + highProduct * .new 32, lowProduct + (left.c0 + left.c1) * (right.c0 + right.c1)⟩

instance : Mul Gf256x2 := ⟨mul⟩

/-- `Gf256x2::square`. -/
def square (a : Gf256x2) : Gf256x2 := a * a

/-- `Gf256x2::invert`: fourteen square-and-multiply steps and a last square give `a^65534`. -/
def invert (a : Gf256x2) : Gf256x2 :=
  ((fun product => product.square * a)^[14] a).square

end Gf256x2

/-- `Mul<Gf256x2> for Gf16`. -/
instance : HMul Gf16 Gf256x2 Gf256x2 :=
  ⟨fun scalar a => ⟨scalar.embed * a.c0, scalar.embed * a.c1⟩⟩

/-- `Mul<Gf16> for Gf256x2`. -/
instance : HMul Gf256x2 Gf16 Gf256x2 := ⟨fun a scalar => scalar * a⟩

/-! ## Packed vectors -/

variable {Event Branch : Type} {m n : Nat}

/-- `unpack_gf16`: whether the lengths match, and the output slice afterwards. -/
def unpackGf16 (bytes : List UInt8) (output : Vector Gf16 n) :
    Run Event Branch (Bool × Vector Gf16 n) :=
  match (checkedAdd n 1).map (· / 2) with
  | none => pure (false, output)
  | some required =>
    if bytes.length ≠ required then pure (false, output)
    else do
      let unpacked ← Vector.ofFnM fun i : Fin n => do
        let byte ← index bytes (i / 2)
        pure (Gf16.new (byte >>> UInt8.ofNat (4 * (i &&& 1))))
      pure (true, unpacked)

/-- `pack_gf16`: whether the lengths match, and the output slice afterwards. -/
def packGf16 (elements : Vector Gf16 n) (output : Bytes m) : Run Event Branch (Bool × Bytes m) :=
  match (checkedAdd n 1).map (· / 2) with
  | none => pure (false, output)
  | some required =>
    if m ≠ required then pure (false, output)
    else do
      let packed ← (List.finRange n).foldlM (fun output (i : Fin n) =>
        modifyByte output (i / 2) (· ||| elements[i].value <<< UInt8.ofNat (4 * (i &&& 1)))) 0
      pure (true, packed)

end Mqom
