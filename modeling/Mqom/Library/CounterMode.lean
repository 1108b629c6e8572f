import Mathlib.Algebra.Order.Group.Nat
import Mathlib.Data.Nat.ModEq

/-!
# Counter mode

A generator that steps a counter and outputs a block for each of its values. A loop over the chunks
of a buffer writes a prefix of the blocks. A counter that is stepped modulo the number of its values
returns to a value exactly after all others.
-/

namespace Mqom.Library

/-! ## Blocks -/

section Blocks

variable {σ α : Type} (next : σ → σ) (block : σ → List α)

/-- The blocks of the counters after `start`. -/
def keystream (start : σ) : Nat → List α
  | 0 => []
  | count + 1 => block (next start) ++ keystream (next start) count

/-- The step of a loop that writes a block, or the beginning of one, for a chunk of a buffer. -/
def writeChunk (state : List α × σ) (length : Nat) : List α × σ :=
  (state.1 ++ (block (next state.2)).take length, next state.2)

/-- The blocks of two requests are the blocks of one. -/
theorem keystream_add (start : σ) (first second : Nat) :
    keystream next block start (first + second) =
      keystream next block start first ++ keystream next block (next^[first] start) second := by
  induction first generalizing start with
  | zero => rw [Nat.zero_add]; rfl
  | succ first ih =>
      rw [Nat.succ_add, keystream, keystream, ih, List.append_assoc, Function.iterate_succ_apply]

variable {block} {size : Nat} (hblock : ∀ counter, (block counter).length = size)
include hblock

/-- Every block adds its size. -/
theorem length_keystream (start : σ) (count : Nat) :
    (keystream next block start count).length = count * size := by
  induction count generalizing start with
  | zero => rw [Nat.zero_mul]; rfl
  | succ count ih => rw [keystream, List.length_append, hblock, ih, Nat.succ_mul, Nat.add_comm]

/-- The loop over chunks of the size of a block writes blocks. -/
theorem foldl_write_blocks (written : List α) (start : σ) (count : Nat) :
    (List.replicate count size).foldl (writeChunk next block) (written, start) =
      (written ++ keystream next block start count, next^[count] start) := by
  induction count generalizing written start with
  | zero => rw [keystream, List.append_nil]; rfl
  | succ count ih =>
      have hwhole : (block (next start)).take size = block (next start) :=
        List.take_of_length_le (hblock _).le
      rw [List.replicate_succ, List.foldl_cons, writeChunk, hwhole, ih, keystream,
        List.append_assoc, Function.iterate_succ_apply]

/-- The loop over the chunks of a buffer, of which the last may be shorter, writes a prefix of the
blocks. -/
theorem foldl_write_chunks (start : σ) (count rest : Nat) :
    (List.replicate count size ++ if rest = 0 then [] else [rest]).foldl (writeChunk next block)
        ([], start) =
      ((keystream next block start (count + if rest = 0 then 0 else 1)).take (count * size + rest),
        next^[count + if rest = 0 then 0 else 1] start) := by
  rw [List.foldl_append, foldl_write_blocks next hblock, List.nil_append]
  split
  · rename_i hzero
    rw [hzero, Nat.add_zero, Nat.add_zero, List.foldl_nil, List.take_of_length_le]
    rw [length_keystream next hblock]
  · have hlast : keystream next block (next^[count] start) 1 =
        block (next^[count + 1] start) := by
      rw [keystream, keystream, List.append_nil, Function.iterate_succ_apply']
    rw [List.foldl_cons, List.foldl_nil, writeChunk, keystream_add, hlast,
      Function.iterate_succ_apply', ← length_keystream next hblock start count,
      List.take_length_add_append]

end Blocks

/-! ## Counters -/

section Counters

variable {σ : Type} {next : σ → σ} {value : σ → Nat} {modulus : Nat}
variable (hnext : ∀ counter, value (next counter) = (value counter + 1) % modulus)
include hnext

/-- The counter counts the steps. -/
theorem value_iterate (start : σ) (hstart : value start < modulus) (count : Nat) :
    value (next^[count] start) = (value start + count) % modulus := by
  induction count with
  | zero => rw [Nat.add_zero, Nat.mod_eq_of_lt hstart]; rfl
  | succ count ih => rw [Function.iterate_succ_apply', hnext, ih, Nat.mod_add_mod, Nat.add_assoc]

/-- A counter has the same value after two numbers of steps when these are congruent. -/
theorem iterate_eq_iff (hvalue : Function.Injective value) (start : σ)
    (hstart : value start < modulus) (first second : Nat) :
    next^[first] start = next^[second] start ↔ first ≡ second [MOD modulus] := by
  rw [← hvalue.eq_iff, value_iterate hnext start hstart, value_iterate hnext start hstart]
  exact ⟨Nat.ModEq.add_left_cancel' _, Nat.ModEq.add_left _⟩

end Counters

end Mqom.Library
