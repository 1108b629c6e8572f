import Mqom.Model.Kat

/-!
# The deterministic generator of the known-answer tests

`KatDrbg` of `xtask/src/main.rs`, and the native functions that `verify_case` calls with it.
AES-256 comes from another crate and is a parameter here.
-/

namespace Mqom.Kat

open Rust

/-- AES-256 on a key and a block. -/
abbrev Aes256 : Type := Bytes 32 → Bytes 16 → Bytes 16

/-- `slice::chunks_mut`: the lengths of the chunks of a slice. -/
def chunkLengths (size n : Nat) : List Nat :=
  List.replicate (n / size) size ++ if n % size = 0 then [] else [n % size]

/-- The loop of `increment_value`, from the last byte to the first. -/
def incrementBytes : List UInt8 → List UInt8
  | [] => []
  | byte :: rest =>
    -- `overflowing_add`
    let incremented := byte + 1
    if byte.toNat + 1 < 2 ^ 8 then incremented :: rest else incremented :: incrementBytes rest

/-- The counter keeps its length. -/
theorem length_increment_bytes (bytes : List UInt8) :
    (incrementBytes bytes).length = bytes.length := by
  induction bytes with
  | nil => rfl
  | cons byte rest ih =>
      rw [incrementBytes]
      split
      · rfl
      · rw [List.length_cons, ih, List.length_cons]

/-- The part of `increment_value` that is about `value`. -/
def incremented (value : Bytes 16) : Bytes 16 where
  toList := (incrementBytes value.toList.reverse).reverse
  length_toList := by
    rw [List.length_reverse, length_increment_bytes, List.length_reverse, value.length_toList]

/-- `KatDrbg`. -/
@[ext]
structure KatDrbg where
  key : Bytes 32
  value : Bytes 16
  deriving DecidableEq

/-- The bounds of the key in the block of an update. -/
theorem drbg_key_le : 0 + 32 ≤ 48 := by decide

/-- The bounds of the counter in the block of an update. -/
theorem drbg_value_le : 32 + 16 ≤ 48 := by decide

namespace KatDrbg

variable (aes256 : Aes256)

/-- `KatDrbg::increment_value`. -/
def incrementValue (state : KatDrbg) : KatDrbg :=
  { state with value := incremented state.value }

/-- The loops of `update` and `generate` over the chunks of a buffer: what is written, and the
state afterwards. -/
def fillChunks (lengths : List Nat) (state : KatDrbg) : List UInt8 × KatDrbg :=
  lengths.foldl (fun (written, state) length =>
    let state := state.incrementValue
    let encrypted := aes256 state.key state.value
    (written ++ encrypted.toList.take length, state)) ([], state)

/-- The chunks of a buffer cover it. -/
theorem length_fill_chunks (n : Nat) (state : KatDrbg) :
    (fillChunks aes256 (chunkLengths 16 n) state).1.length = n := by
  have hstep : ∀ (lengths : List Nat) (written : List UInt8) (state : KatDrbg),
      (∀ length ∈ lengths, length ≤ 16) →
        (lengths.foldl (fun (written, state) length =>
          let state := state.incrementValue
          let encrypted := aes256 state.key state.value
          (written ++ encrypted.toList.take length, state)) (written, state)).1.length =
            written.length + lengths.sum := by
    intro lengths
    induction lengths with
    | nil =>
        intro written state _
        rfl
    | cons length rest ih =>
        intro written state hlengths
        have hlength := hlengths length List.mem_cons_self
        rw [List.foldl_cons, ih _ _ fun other hother =>
          hlengths other (List.mem_cons_of_mem length hother), List.sum_cons, List.length_append,
          List.length_take, Bytes.length_toList, Nat.min_eq_left hlength, Nat.add_assoc]
  rw [fillChunks, hstep]
  · rw [chunkLengths, List.sum_append, List.sum_replicate_nat]
    split <;> simp <;> omega
  · intro length hlength
    rcases List.mem_append.mp hlength with hwhole | hlast
    · exact (List.eq_of_mem_replicate hwhole).le
    · split at hlast
      · exact absurd hlast List.not_mem_nil
      · rw [List.mem_singleton.mp hlast]
        omega

/-- `KatDrbg::update`. -/
def update (state : KatDrbg) (provided : Option (Bytes 48)) : KatDrbg :=
  let temporary : Bytes 48 :=
    ⟨(fillChunks aes256 (chunkLengths 16 48) state).1, length_fill_chunks aes256 48 state⟩
  let temporary := match provided with
    | some provided => temporary ^^^ provided
    | none => temporary
  ⟨temporary.extract 0 32 drbg_key_le, temporary.extract 32 16 drbg_value_le⟩

/-- `KatDrbg::new`. -/
def new (seed : Bytes 48) : KatDrbg :=
  update aes256 ⟨0, 0⟩ (some seed)

/-- `KatDrbg::generate`, for a buffer of `n` bytes. -/
def generate (n : Nat) (state : KatDrbg) : Bytes n × KatDrbg :=
  let filled := fillChunks aes256 (chunkLengths 16 n) state
  (⟨filled.1, length_fill_chunks aes256 n state⟩, update aes256 filled.2 none)

/-- `KatDrbg` as a source of randomness: `try_fill_bytes`, which never fails. -/
def tryFillBytes : TryCryptoRng KatDrbg := fun n state =>
  ((generate aes256 n state).1, (generate aes256 n state).2)

end KatDrbg

/-- The functions that `verify_case` calls. A run that panics has no value, and its result here is
the one of a call that fails; `native_run_ok` excludes it. -/
def nativeFunctions (P : Primitives) (aes256 : Aes256) : Native where
  KatDrbg := KatDrbg
  new := KatDrbg.new aes256
  generate state :=
    match (SigningKey.generate P (KatDrbg.tryFillBytes aes256) state).outcome with
    | .ok result => result
    | .error _ => (none, state)
  trySignWithRng key state message :=
    match (key.trySignWithRng P (KatDrbg.tryFillBytes aes256) state message).outcome with
    | .ok result => result
    | .error _ => (none, state)
  verify key message signature := (key.verify P message signature).outcome = .ok true

end Mqom.Kat
