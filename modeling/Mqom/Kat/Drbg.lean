import Mathlib.Data.Nat.Digits.Lemmas
import Mqom.Library.CounterMode
import Mqom.Model.Drbg

/-!
# The generator as counter mode

`KatDrbg` is a generator in counter mode. Its `value` is a number of 128 bits with the last byte
lowest, and `CounterDrbg` is the same generator with this number in its place, which states the
output of a request without loops over buffers.
-/

namespace Mqom.Kat

open Rust Library

/-! ## The counter -/

/-- The number that a counter block stands for. -/
def counterOf (value : Bytes 16) : Nat :=
  Nat.ofDigits 256 (value.toList.reverse.map UInt8.toNat)

/-- The counter block of a number. -/
def bigEndian (n : Nat) : Bytes 16 where
  toList := ((List.range 16).map fun i => UInt8.ofNat (n / 256 ^ i)).reverse
  length_toList := by rw [List.length_reverse, List.length_map, List.length_range]

/-- Incrementing with a carry adds one. -/
theorem of_digits_increment (bytes : List UInt8) :
    Nat.ofDigits 256 ((incrementBytes bytes).map UInt8.toNat) =
      (Nat.ofDigits 256 (bytes.map UInt8.toNat) + 1) % 256 ^ bytes.length := by
  induction bytes with
  | nil => rfl
  | cons byte rest ih =>
      have hbyte := byte.toNat_lt
      have hrest : Nat.ofDigits 256 (rest.map UInt8.toNat) < 256 ^ rest.length := by
        have hlt := Nat.ofDigits_lt_base_pow_length (b := 256) (l := rest.map UInt8.toNat)
          (by omega) fun digit hdigit => by
            obtain ⟨other, _, rfl⟩ := List.mem_map.mp hdigit
            exact other.toNat_lt
        rwa [List.length_map] at hlt
      rw [incrementBytes, List.map_cons, Nat.ofDigits_cons, List.length_cons]
      split
      · -- no carry
        rename_i hsmall
        have hincremented : (byte + 1).toNat = byte.toNat + 1 := by
          rw [UInt8.toNat_add]
          exact Nat.mod_eq_of_lt hsmall
        have hlt : byte.toNat + 256 * Nat.ofDigits 256 (rest.map UInt8.toNat) + 1 <
            256 ^ (rest.length + 1) := by
          rw [Nat.pow_succ']
          omega
        rw [List.map_cons, Nat.ofDigits_cons, hincremented]
        rw [Nat.mod_eq_of_lt hlt, Nat.add_right_comm]
      · rename_i hlarge
        have hincremented : (byte + 1).toNat = 0 := by
          rw [UInt8.toNat_add, show byte.toNat = 255 by omega]
          rfl
        rw [List.map_cons, Nat.ofDigits_cons, hincremented, ih]
        rw [show byte.toNat + 256 * Nat.ofDigits 256 (rest.map UInt8.toNat) + 1 =
          256 * (Nat.ofDigits 256 (rest.map UInt8.toNat) + 1) by omega, Nat.pow_succ',
          Nat.mul_mod_mul_left, Nat.zero_add]

/-- A counter has 128 bits. -/
theorem counter_lt (value : Bytes 16) : counterOf value < 2 ^ 128 := by
  have hlt := Nat.ofDigits_lt_base_pow_length (b := 256) (l := value.toList.reverse.map UInt8.toNat)
    (by omega) fun digit hdigit => by
      obtain ⟨byte, _, rfl⟩ := List.mem_map.mp hdigit
      exact byte.toNat_lt
  rwa [List.length_map, List.length_reverse, value.length_toList,
    show 256 ^ 16 = 2 ^ 128 from (pow_mul 2 8 16).symm] at hlt

/-- Other bytes are another counter. -/
theorem counter_injective : Function.Injective counterOf := by
  intro value other h
  have hdigits := Nat.ofDigits_inj_of_len_eq (by omega) (by simp) (fun digit hdigit => by
    obtain ⟨byte, _, rfl⟩ := List.mem_map.mp hdigit
    exact byte.toNat_lt) (fun digit hdigit => by
    obtain ⟨byte, _, rfl⟩ := List.mem_map.mp hdigit
    exact byte.toNat_lt) h
  have hbytes := List.map_injective_iff.mpr (fun _ _ => UInt8.toNat_inj.mp) hdigits
  exact Bytes.ext (List.reverse_injective hbytes)

/-- `increment_value` adds one modulo `2^128`. -/
theorem counter_incremented (value : Bytes 16) :
    counterOf (incremented value) = (counterOf value + 1) % 2 ^ 128 := by
  rw [counterOf, incremented, List.reverse_reverse, of_digits_increment, List.length_reverse,
    value.length_toList, show 256 ^ 16 = 2 ^ 128 from (pow_mul 2 8 16).symm]
  rfl

/-- The digits of a number. -/
theorem of_digits_quotients (n count : Nat) :
    Nat.ofDigits 256 ((List.range count).map fun i => n / 256 ^ i % 256) = n % 256 ^ count := by
  induction count generalizing n with
  | zero => rw [Nat.pow_zero, Nat.mod_one]; rfl
  | succ count ih =>
      have hrest : (List.range count).map ((fun i => n / 256 ^ i % 256) ∘ Nat.succ) =
          (List.range count).map fun i => n / 256 / 256 ^ i % 256 := by
        refine List.map_congr_left fun i _ => ?_
        rw [Function.comp_apply, Nat.pow_succ', Nat.div_div_eq_div_mul]
      rw [List.range_succ_eq_map, List.map_cons, List.map_map, Nat.ofDigits_cons, hrest, ih,
        Nat.pow_succ', Nat.mod_mul]
      simp

/-- The bytes of a number are a counter for it modulo 2^128. -/
theorem counter_big_endian (n : Nat) : counterOf (bigEndian n) = n % 2 ^ 128 := by
  have hbytes : (bigEndian n).toList.reverse.map UInt8.toNat =
      (List.range 16).map fun i => n / 256 ^ i % 256 := by
    rw [bigEndian, List.reverse_reverse, List.map_map]
    exact List.map_congr_left fun i _ => UInt8.toNat_ofNat
  rw [counterOf, hbytes, of_digits_quotients, show 256 ^ 16 = 2 ^ 128 from (pow_mul 2 8 16).symm]

/-- The bytes of a counter are the bytes it was read from. -/
theorem big_endian_counter (value : Bytes 16) : bigEndian (counterOf value) = value :=
  counter_injective ((counter_big_endian _).trans (Nat.mod_eq_of_lt (counter_lt value)))

/-- The bytes of a number depend on it modulo 2^128. -/
theorem big_endian_mod (n : Nat) : bigEndian (n % 2 ^ 128) = bigEndian n :=
  counter_injective (by rw [counter_big_endian, counter_big_endian, Nat.mod_mod])

/-- The successor of the bytes of a number is the bytes of its successor. -/
theorem incremented_big_endian (n : Nat) : incremented (bigEndian n) = bigEndian (n + 1) := by
  refine counter_injective ?_
  rw [counter_incremented, counter_big_endian, counter_big_endian, Nat.mod_add_mod]

/-- `increment_value` comes back to a state after a multiple of `2^128` steps, and not before. -/
theorem increment_value_cycle (state : KatDrbg) (first second : Nat) :
    KatDrbg.incrementValue^[first] state = KatDrbg.incrementValue^[second] state ↔
      first ≡ second [MOD 2 ^ 128] := by
  have hvalue : ∀ count, KatDrbg.incrementValue^[count] state =
      ⟨state.key, incremented^[count] state.value⟩ := by
    intro count
    induction count with
    | zero => rfl
    | succ count ih => rw [Function.iterate_succ_apply', ih, Function.iterate_succ_apply']; rfl
  rw [hvalue, hvalue, ← iterate_eq_iff counter_incremented counter_injective state.value
    (counter_lt state.value), KatDrbg.mk.injEq]
  exact ⟨fun h => h.2, fun h => ⟨rfl, h⟩⟩

/-! ## The generator with a number for its counter -/

/-- A key and the number of the last counter that was used. -/
@[ext]
structure CounterDrbg where
  key : Bytes 32
  counter : Nat

namespace CounterDrbg

variable (aes256 : Aes256)

/-- The encryptions of the next counters. -/
def blocks (state : CounterDrbg) (count : Nat) : List UInt8 :=
  (List.range count).flatMap fun i =>
    (aes256 state.key (bigEndian (state.counter + (i + 1)))).toList

/-- The number of blocks that cover some bytes. -/
def blockCount (n : Nat) : Nat := (n + 15) / 16

/-- A block has 16 bytes. -/
theorem length_blocks (state : CounterDrbg) (count : Nat) :
    (state.blocks aes256 count).length = count * 16 := by
  simp [blocks, List.length_flatMap]

/-- The next state: three blocks, added to some bytes, are the new key and the new counter. -/
def update (state : CounterDrbg) (provided : Bytes 48) : CounterDrbg :=
  let bytes := (⟨state.blocks aes256 3, length_blocks aes256 state 3⟩ : Bytes 48) + provided
  ⟨bytes.extract 0 32 drbg_key_le, counterOf (bytes.extract 32 16 drbg_value_le)⟩

/-- The state for a seed. -/
def instantiate (seed : Bytes 48) : CounterDrbg :=
  update aes256 ⟨0, 0⟩ seed

/-- A request for `n` bytes. -/
def request (n : Nat) (state : CounterDrbg) : List UInt8 × CounterDrbg :=
  ((state.blocks aes256 (blockCount n)).take n,
    update aes256 ⟨state.key, state.counter + blockCount n⟩ 0)

/-- Some requests, one after the other. -/
def requests : List Nat → CounterDrbg → List (List UInt8) × CounterDrbg
  | [], state => ([], state)
  | n :: rest, state =>
    let (output, state) := request aes256 n state
    let (outputs, state) := requests rest state
    (output :: outputs, state)

/-- Counters are blocks of 128 bits. -/
theorem blocks_mod (key : Bytes 32) (counter count : Nat) :
    blocks aes256 ⟨key, counter % 2 ^ 128⟩ count = blocks aes256 ⟨key, counter⟩ count := by
  refine List.flatMap_congr fun i _ => ?_
  dsimp only
  rw [← big_endian_mod, Nat.mod_add_mod, big_endian_mod]

/-- An update depends on the counter modulo 2^128. -/
theorem update_mod (key : Bytes 32) (counter : Nat) (provided : Bytes 48) :
    update aes256 ⟨key, counter % 2 ^ 128⟩ provided = update aes256 ⟨key, counter⟩ provided := by
  simp only [update, blocks_mod]

end CounterDrbg

namespace KatDrbg

variable (aes256 : Aes256)

/-- The state with the number that its `value` stands for. -/
def abstract (state : KatDrbg) : CounterDrbg :=
  ⟨state.key, counterOf state.value⟩

/-- Some calls of `generate`, one after the other. -/
def requests : List Nat → KatDrbg → List (List UInt8) × KatDrbg
  | [], state => ([], state)
  | n :: rest, state =>
    let (output, state) := generate aes256 n state
    let (outputs, state) := requests rest state
    (output.toList :: outputs, state)

/-- The block of a state. -/
def encrypted (state : KatDrbg) : List UInt8 :=
  (aes256 state.key state.value).toList

/-- The keystream is the blocks of the counter generator. -/
theorem keystream_eq (key : Bytes 32) (counter count : Nat) :
    keystream incrementValue (encrypted aes256) ⟨key, bigEndian counter⟩ count =
      CounterDrbg.blocks aes256 ⟨key, counter⟩ count := by
  induction count generalizing counter with
  | zero => rfl
  | succ count ih =>
      have hnext : incrementValue ⟨key, bigEndian counter⟩ = ⟨key, bigEndian (counter + 1)⟩ := by
        rw [incrementValue, incremented_big_endian]
      rw [keystream, hnext, ih, CounterDrbg.blocks, CounterDrbg.blocks, List.range_succ_eq_map,
        List.flatMap_cons, List.flatMap_map]
      refine congrArg (_ ++ ·) (List.flatMap_congr fun i _ => ?_)
      simp only [Nat.add_assoc, Nat.add_comm 1]

/-- Repeated increments add to the counter. -/
theorem iterate_eq (key : Bytes 32) (counter count : Nat) :
    incrementValue^[count] ⟨key, bigEndian counter⟩ = ⟨key, bigEndian (counter + count)⟩ := by
  induction count generalizing counter with
  | zero => rfl
  | succ count ih =>
      rw [Function.iterate_succ_apply, incrementValue, incremented_big_endian, ih]
      simp only [Nat.add_assoc, Nat.add_comm 1]

/-- The loops of `update` and `generate` write the beginning of the next blocks. -/
theorem fill_chunks_eq (n : Nat) (state : KatDrbg) :
    fillChunks aes256 (chunkLengths 16 n) state =
      ((state.abstract.blocks aes256 (CounterDrbg.blockCount n)).take n,
        ⟨state.key, bigEndian (counterOf state.value + CounterDrbg.blockCount n)⟩) := by
  have hloop : fillChunks aes256 (chunkLengths 16 n) state =
      (chunkLengths 16 n).foldl (writeChunk incrementValue (encrypted aes256)) ([], state) := rfl
  have hcount : n / 16 + (if n % 16 = 0 then 0 else 1) = CounterDrbg.blockCount n := by
    unfold CounterDrbg.blockCount
    split <;> omega
  have hstate : state = ⟨state.key, bigEndian (counterOf state.value)⟩ := by
    rw [big_endian_counter]
  have hblock : ∀ state, (encrypted aes256 state).length = 16 := fun state =>
    Bytes.length_toList _
  rw [hloop, chunkLengths, foldl_write_chunks incrementValue hblock, hcount,
    Nat.div_add_mod']
  rw [hstate, keystream_eq, iterate_eq, ← hstate]
  rfl

/-- `update` is the update of the counter. -/
theorem abstract_update (state : KatDrbg) (provided : Option (Bytes 48)) :
    (update aes256 state provided).abstract =
      state.abstract.update aes256 (provided.getD 0) := by
  have htemporary : (⟨(fillChunks aes256 (chunkLengths 16 48) state).1,
      length_fill_chunks aes256 48 state⟩ : Bytes 48) =
        ⟨state.abstract.blocks aes256 3, CounterDrbg.length_blocks aes256 _ 3⟩ := by
    have hfilled := congrArg Prod.fst (fill_chunks_eq aes256 48 state)
    exact Bytes.ext (hfilled.trans
      (List.take_of_length_le (CounterDrbg.length_blocks aes256 _ 3).le))
  unfold update
  rw [htemporary]
  cases provided with
  | some provided => rfl
  | none =>
      rw [Option.getD_none, CounterDrbg.update, add_zero]
      rfl

/-- `generate` is a request. -/
theorem generate_eq (n : Nat) (state : KatDrbg) :
    (generate aes256 n state).1.toList = (state.abstract.request aes256 n).1 ∧
      (generate aes256 n state).2.abstract = (state.abstract.request aes256 n).2 := by
  rw [generate]
  dsimp only
  rw [abstract_update, Option.getD_none, fill_chunks_eq]
  refine ⟨rfl, ?_⟩
  rw [CounterDrbg.request, abstract, counter_big_endian, CounterDrbg.update_mod]
  rfl

/-- The crate's requests are the requests of the counter generator. -/
theorem requests_eq (lengths : List Nat) (state : KatDrbg) :
    (requests aes256 lengths state).1 = (state.abstract.requests aes256 lengths).1 ∧
      (requests aes256 lengths state).2.abstract = (state.abstract.requests aes256 lengths).2 := by
  induction lengths generalizing state with
  | nil => exact ⟨rfl, rfl⟩
  | cons n rest ih =>
      obtain ⟨houtput, hnext⟩ := generate_eq aes256 n state
      obtain ⟨houtputs, hlast⟩ := ih (generate aes256 n state).2
      rw [hnext] at houtputs hlast
      refine ⟨?_, hlast⟩
      rw [requests, CounterDrbg.requests]
      dsimp only
      rw [houtput, houtputs]

end KatDrbg

/-- The bytes that a run of the generator returns, for any seed and any requests, are those of
counter mode on a number, and the states agree after every run. -/
theorem drbg_is_counter_mode (aes256 : Aes256) (seed : Bytes 48) (lengths : List Nat) :
    (KatDrbg.requests aes256 lengths (KatDrbg.new aes256 seed)).1 =
        (CounterDrbg.requests aes256 lengths (CounterDrbg.instantiate aes256 seed)).1 ∧
      (KatDrbg.requests aes256 lengths (KatDrbg.new aes256 seed)).2.abstract =
        (CounterDrbg.requests aes256 lengths (CounterDrbg.instantiate aes256 seed)).2 := by
  have hzero : (⟨0, 0⟩ : KatDrbg).abstract = ⟨0, 0⟩ := rfl
  have hseed := KatDrbg.abstract_update aes256 ⟨0, 0⟩ (some seed)
  rw [hzero] at hseed
  have hrun := KatDrbg.requests_eq aes256 lengths (KatDrbg.new aes256 seed)
  rw [KatDrbg.new, hseed] at hrun
  exact hrun

end Mqom.Kat
