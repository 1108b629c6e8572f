import Mqom.Model.Prg

/-!
# The stream of the generator

A salt, an execution and a seed determine one stream of bytes, in blocks of sixteen. Every
successful `fill` writes its first bytes.
-/

namespace Mqom

open Rust

variable {n : Nat}

/-- The deriver of block `i` of a generator. -/
def blockDeriver (salt : Bytes 16) (execution : UInt8) (i : Nat) : SeedDeriver :=
  ⟨tweakSalt salt prgSelector execution (UInt16.ofNat i)⟩

/-- A byte of the stream. -/
def streamByte (P : Primitives) (salt : Bytes 16) (execution : UInt8) (seed : Bytes 16) (i : Nat) :
    UInt8 :=
  ((blockDeriver salt execution (i / 16)).derive P seed)[i % 16]

/-- The first bytes of the stream. -/
def stream (P : Primitives) (salt : Bytes 16) (execution : UInt8) (seed : Bytes 16) (n : Nat) :
    Bytes n :=
  Bytes.ofFn fun i => streamByte P salt execution seed i

/-- The generator with derivers for a number of blocks. -/
def blockGenerator (salt : Bytes 16) (execution : UInt8) (count : Nat) : Generator :=
  ⟨(List.range count).map (blockDeriver salt execution)⟩

/-- `Generator::new` makes one deriver for each block, up to `2^16` blocks. -/
theorem generator_new_eq (salt : Bytes 16) (execution : UInt8) {outputLen : Nat}
    (h : outputLen ≤ 2 ^ 20) :
    Generator.new salt execution outputLen =
      Run.ret (blockGenerator salt execution ((outputLen + 15) / 16)) [] := by
  rw [Generator.new, checked_add_of_lt (by omega)]
  simp only [Run.of_option_some, Run.ret_bind, Run.after_nil]
  rw [Run.require_of (by omega), Run.mapM_eq_ret _ (blockDeriver salt execution) (fun _ => [])]
  · simp [blockGenerator, Run.flatMap_nil]
  · intro i hi
    rw [List.mem_range] at hi
    rw [u16_try_from_of_lt (by omega)]
    rfl

/-- A buffer whose first blocks have been filled. -/
def filledUpTo (P : Primitives) (salt : Bytes 16) (execution : UInt8) (seed : Bytes 16)
    (output : Bytes n) (blocks : Nat) : Bytes n :=
  Bytes.ofFn fun k =>
    if k.val < 16 * blocks then streamByte P salt execution seed k else output[k]

/-- Copying the next block, cut at the end of the buffer, fills one more block. -/
theorem filled_up_to_succ (P : Primitives) (salt : Bytes 16) (execution : UInt8) (seed : Bytes 16)
    (output : Bytes n) (i : Nat) (hi : 16 * i < n) :
    (filledUpTo P salt execution seed output i).write (16 * i)
        (((blockDeriver salt execution i).derive P seed).toList.take
          (min (16 * i + 16) n - 16 * i)) =
      filledUpTo P salt execution seed output (i + 1) := by
  apply Bytes.ext_getElem
  intro k hk
  by_cases hhere : 16 * i ≤ k ∧ k < 16 * (i + 1)
  · have hblock : k / 16 = i := by omega
    have hoffset : k % 16 = k - 16 * i := by omega
    rw [Bytes.getElem_write_mem _ hk hhere.1 (by simp; omega)]
    rw [List.getElem_take, Bytes.getElem_toList _ _ (by omega)]
    simp [filledUpTo, hhere.2, streamByte, hblock, hoffset]
  · have hsame : k < 16 * (i + 1) ↔ k < 16 * i := by omega
    rw [Bytes.getElem_write_of_not_mem _ hk (by simp; omega)]
    simp [filledUpTo, hsame]

/-- A generator with enough blocks fills a buffer with the first bytes of the stream. -/
theorem generator_fill_eq (P : Primitives) (salt : Bytes 16) (execution : UInt8)
    (seed : Bytes 16) (output : Bytes n) {count : Nat} (hn : n + 15 < 2 ^ 64)
    (hcount : (n + 15) / 16 ≤ count) :
    (blockGenerator salt execution count).fill P seed output =
      Run.ret (true, stream P salt execution seed n) [] := by
  have hstart : filledUpTo P salt execution seed output 0 = output :=
    Bytes.ext_getElem (fun k hk => by simp [filledUpTo])
  have hend : filledUpTo P salt execution seed output ((n + 15) / 16) =
      stream P salt execution seed n := by
    apply Bytes.ext_getElem
    intro k hk
    have hlt : k < 16 * ((n + 15) / 16) := by omega
    simp [filledUpTo, stream, hlt]
  rw [Generator.fill, checked_add_of_lt hn]
  simp only [Option.map_some]
  rw [if_neg (by simp [blockGenerator]; omega)]
  -- the loop state after `i` blocks has the first `i` blocks written
  nth_rewrite 1 [← hstart]
  rw [Run.foldlM_silent _ (filledUpTo P salt execution seed output)]
  · simp [blockGenerator, Nat.min_eq_right hcount, hend]
  · intro i hi
    have hlt : i < (n + 15) / 16 := by
      rw [List.length_zip, List.length_range] at hi
      omega
    simp only [blockGenerator, List.getElem_zip, List.getElem_map, List.getElem_range]
    rw [slice_of_le (by omega) (by simp; omega), Run.ret_bind,
      copy_from_slice_of_le _ (by omega) (by omega) (by simp; omega)]
    rw [List.drop_zero, Nat.sub_zero, Run.after_nil,
      filled_up_to_succ P salt execution seed output i (by omega)]

/-- A generator with too few blocks leaves the buffer alone. -/
theorem generator_fill_of_lt (P : Primitives) (salt : Bytes 16) (execution : UInt8)
    (seed : Bytes 16) (output : Bytes n) {count : Nat} (hcount : count < (n + 15) / 16) :
    (blockGenerator salt execution count).fill P seed output = Run.ret (false, output) [] := by
  unfold Generator.fill
  by_cases hn : n + 15 < 2 ^ 64
  · rw [checked_add_of_lt hn]
    dsimp only [Option.map_some]
    rw [if_pos (by simpa [blockGenerator] using hcount)]
    rfl
  · rw [checkedAdd, if_neg hn]
    rfl

/-- `Generator::new` refuses more than `2^16` blocks. -/
theorem generator_new_of_lt (salt : Bytes 16) (execution : UInt8) {outputLen : Nat}
    (h : 2 ^ 20 < outputLen) :
    ∃ branch, Generator.new salt execution outputLen = Run.halt (.none branch) := by
  unfold Generator.new
  by_cases hlength : outputLen + 15 < 2 ^ 64
  · refine ⟨.generatorBlockCount, ?_⟩
    rw [checked_add_of_lt hlength, Run.of_option_some, Run.ret_bind, Run.after_nil]
    dsimp only
    rw [Run.require_of_not (by omega), Run.halt_bind]
  · refine ⟨.generatorLength, ?_⟩
    rw [checkedAdd, if_neg hlength, Run.of_option_none, Run.halt_bind]

/-- `prg::fill` writes the first bytes of the stream, up to `2^20` of them. -/
theorem prg_fill_eq (P : Primitives) (salt : Bytes 16) (execution : UInt8) (seed : Bytes 16)
    (output : Bytes n) (hn : n ≤ 2 ^ 20) :
    prgFill P salt execution seed output =
      Run.ret (true, stream P salt execution seed n) [] := by
  rw [prgFill, generator_new_eq salt execution hn, Run.attempt_ret, Run.ret_bind, Run.after_nil]
  exact generator_fill_eq P salt execution seed output (by omega) (le_refl _)

/-- `prg::fill` leaves a longer buffer alone. -/
theorem prg_fill_of_lt (P : Primitives) (salt : Bytes 16) (execution : UInt8) (seed : Bytes 16)
    (output : Bytes n) (hn : 2 ^ 20 < n) :
    prgFill P salt execution seed output = Run.ret (false, output) [] := by
  obtain ⟨branch, hnew⟩ := generator_new_of_lt salt execution hn
  rw [prgFill, hnew, Run.attempt_halt_none, Run.ret_bind]
  rfl

/-! ## The law of the stream -/

/-- A call that fills a buffer with the first bytes of a stream under a condition, and otherwise
reports a failure and leaves the buffer alone. -/
def FillsWhen (condition : Prop) (whole : Bytes 1048576) (output : Bytes n)
    (run : Exec (Bool × Bytes n)) : Prop :=
  (condition → ∃ filled : Bytes n, filled.toList = whole.toList.take n ∧
    run.outcome = .ok (true, filled)) ∧
  (¬ condition → run.outcome = .ok (false, output))

/-- The first bytes of the whole stream. -/
theorem stream_prefix (P : Primitives) (salt : Bytes 16) (execution : UInt8) (seed : Bytes 16)
    (h : n ≤ 1048576) :
    (stream P salt execution seed n).toList =
      (stream P salt execution seed 1048576).toList.take n := by
  apply List.ext_getElem
  · rw [Bytes.length_toList, List.length_take, Bytes.length_toList, Nat.min_eq_left h]
  · intro i hi _
    rw [Bytes.length_toList] at hi
    rw [List.getElem_take, Bytes.getElem_toList _ _ hi, Bytes.getElem_toList _ _ (by omega)]
    simp only [stream, Bytes.getElem_ofFn]

/-- A salt, an execution and a seed determine a stream of `2^20` bytes. Both ways to fill a buffer
write its first bytes, and fail exactly when the buffer is longer than their capacity. -/
theorem prg_stream_law (P : Primitives) (salt : Bytes 16) (execution : UInt8) (seed : Bytes 16) :
    ∃ whole : Bytes 1048576,
      (∀ i (h : i < 1048576), whole[i] = (SeedDeriver.derive P
        ⟨tweakSalt salt 3 execution (UInt16.ofNat (i / 16))⟩ seed)[i % 16]) ∧
      (∀ n (output : Bytes n),
        FillsWhen (n ≤ 1048576) whole output (prgFill P salt execution seed output)) ∧
      ∀ m ≤ 1048576, ∃ generator,
        (Generator.new salt execution m).outcome = .ok generator ∧
        ∀ n (output : Bytes n), FillsWhen ((n + 15) / 16 ≤ (m + 15) / 16) whole output
          (generator.fill P seed output) := by
  refine ⟨stream P salt execution seed 1048576, ?_, ?_, ?_⟩
  · intro i h
    rw [stream, Bytes.getElem_ofFn]
    rfl
  · intro n output
    constructor
    · intro hn
      rw [prg_fill_eq P salt execution seed output hn]
      exact ⟨_, stream_prefix P salt execution seed hn, rfl⟩
    · intro hn
      rw [prg_fill_of_lt P salt execution seed output (by omega)]
      rfl
  · intro m hm
    refine ⟨blockGenerator salt execution ((m + 15) / 16), ?_, ?_⟩
    · rw [generator_new_eq salt execution hm]
      rfl
    · intro n output
      constructor
      · intro hn
        rw [generator_fill_eq P salt execution seed output (by omega) hn]
        exact ⟨_, stream_prefix P salt execution seed (by omega), rfl⟩
      · intro hn
        rw [generator_fill_of_lt P salt execution seed output (by omega)]
        rfl

end Mqom
