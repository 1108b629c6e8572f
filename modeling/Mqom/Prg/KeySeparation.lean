import Mqom.Field.Packing
import Mqom.Library.CorrelatedTree
import Mqom.Prg.Stream

/-!
# The AES keys under one salt

A key is the salt with a tag and an index added to its first three bytes. The tag of an execution
holds one of four selectors in its low bits. The second key of a seed commitment is made by
flipping a bit of the first one, and that gives the selector that nothing else uses.
-/

namespace Mqom

open Rust Library

/-- What a key is used for. -/
inductive KeyRole where
  | firstCommitment
  | secondCommitment
  | treeLevel (depthIndex : UInt16)
  | generatorBlock (blockIndex : UInt16)
  deriving DecidableEq

/-- The selector of a role. -/
def KeyRole.selector : KeyRole → UInt8
  | .firstCommitment => 0
  | .secondCommitment => 1
  | .treeLevel _ => 2
  | .generatorBlock _ => 3

/-- The index of a role. -/
def KeyRole.index : KeyRole → UInt16
  | .firstCommitment => 0
  | .secondCommitment => 0
  | .treeLevel depthIndex => depthIndex
  | .generatorBlock blockIndex => blockIndex

/-- The keys that `SeedCommitter::new`, the walks through the tree and `Generator::new` build
under a salt, with their roles. -/
inductive BuiltKey (salt : Bytes 16) (execution : UInt8) : KeyRole → Bytes 16 → Prop where
  | firstCommitment :
      BuiltKey salt execution .firstCommitment (SeedCommitter.new salt execution).first.key
  | secondCommitment :
      BuiltKey salt execution .secondCommitment (SeedCommitter.new salt execution).second.key
  | treeLevel (depthIndex : UInt16) :
      BuiltKey salt execution (.treeLevel depthIndex) (levelDeriver salt execution depthIndex).key
  | generatorBlock {outputLen : Nat} {generator : Generator} {deriver : SeedDeriver}
      (blockIndex : UInt16)
      (hnew : (Generator.new salt execution outputLen).outcome = .ok generator)
      (hblock : generator.blocks[blockIndex.toNat]? = some deriver) :
      BuiltKey salt execution (.generatorBlock blockIndex) deriver.key

/-- Two roles with the same selector and index are the same. -/
theorem KeyRole.eq_of_selector {role role' : KeyRole} (hselector : role.selector = role'.selector)
    (hindex : role.index = role'.index) : role = role' := by
  cases role <;> cases role' <;> simp_all [KeyRole.selector, KeyRole.index]

/-- There are four selectors. -/
theorem KeyRole.selector_lt (role : KeyRole) : role.selector.toNat < 4 := by
  cases role <;> simp [KeyRole.selector]

/-! ## The tweak -/

section Tweak

variable {salt salt' : Bytes 16} {selector selector' execution execution' : UInt8}
variable {index index' : UInt16}

/-- The tag is added to the first byte. -/
theorem tweak_byte_zero {h : 0 < 16} :
    (tweakSalt salt selector execution index)[0] = salt[0] ^^^ (selector + execution * 4) := by
  simp [tweakSalt]

/-- The low byte of the index is added to the second. -/
theorem tweak_byte_one {h : 1 < 16} :
    (tweakSalt salt selector execution index)[1] =
      salt[1] ^^^ (u16ToLeBytes index)[(0 : Fin 2)] := by
  simp [tweakSalt]

/-- The high byte of the index is added to the third. -/
theorem tweak_byte_two {h : 2 < 16} :
    (tweakSalt salt selector execution index)[2] =
      salt[2] ^^^ (u16ToLeBytes index)[(1 : Fin 2)] := by
  simp [tweakSalt]

/-- The other bytes are those of the salt. -/
theorem tweak_byte_rest {i : Nat} (hi : i < 16) (h : 3 ≤ i) :
    (tweakSalt salt selector execution index)[i] = salt[i] := by
  simp [tweakSalt, show 0 ≠ i by omega, show 1 ≠ i by omega, show 2 ≠ i by omega]

/-- Under one salt a tweak determines its tag and its index. -/
theorem tweak_parts (h : tweakSalt salt selector execution index =
    tweakSalt salt selector' execution' index') :
    selector + execution * 4 = selector' + execution' * 4 ∧ index = index' := by
  have hbyte : ∀ i (hi : i < 16), (tweakSalt salt selector execution index)[i] =
      (tweakSalt salt selector' execution' index')[i] := fun i hi => by rw [h]
  have htag := hbyte 0 (by omega)
  have hlow := hbyte 1 (by omega)
  have hhigh := hbyte 2 (by omega)
  rw [tweak_byte_zero, tweak_byte_zero, UInt8.xor_right_inj] at htag
  rw [tweak_byte_one, tweak_byte_one, UInt8.xor_right_inj] at hlow
  rw [tweak_byte_two, tweak_byte_two, UInt8.xor_right_inj] at hhigh
  refine ⟨htag, u16_to_le_bytes_injective (Bytes.ext_getElem fun i hi => ?_)⟩
  obtain rfl | rfl : i = 0 ∨ i = 1 := by omega
  · exact hlow
  · exact hhigh

/-- Under one tag and index a tweak determines the salt. -/
theorem tweak_salt_injective (h : tweakSalt salt selector execution index =
    tweakSalt salt' selector execution index) : salt = salt' := by
  apply Bytes.ext_getElem
  intro i hi
  have hbyte : (tweakSalt salt selector execution index)[i] =
      (tweakSalt salt' selector execution index)[i] := by rw [h]
  rcases Nat.lt_or_ge i 3 with hlt | hge
  · obtain rfl | rfl | rfl : i = 0 ∨ i = 1 ∨ i = 2 := by omega
    · rwa [tweak_byte_zero, tweak_byte_zero, UInt8.xor_left_inj] at hbyte
    · rwa [tweak_byte_one, tweak_byte_one, UInt8.xor_left_inj] at hbyte
    · rwa [tweak_byte_two, tweak_byte_two, UInt8.xor_left_inj] at hbyte
  · rwa [tweak_byte_rest hi hge, tweak_byte_rest hi hge] at hbyte

/-- The tag of one of the first 64 executions determines the selector and the execution. -/
theorem tag_injective (hselector : selector.toNat < 4) (hselector' : selector'.toNat < 4)
    (hexecution : execution < 64) (hexecution' : execution' < 64)
    (h : selector + execution * 4 = selector' + execution' * 4) :
    selector = selector' ∧ execution = execution' := by
  rw [UInt8.lt_iff_toNat_lt] at hexecution hexecution'
  have hvalue := congrArg UInt8.toNat h
  simp only [UInt8.toNat_add, UInt8.toNat_mul, UInt8.reduceToNat] at hvalue hexecution hexecution'
  constructor <;> apply UInt8.toNat_inj.mp <;> omega

end Tweak

/-! ## Separation -/

/-- The second key of a seed commitment is the tweak with selector 1. -/
theorem second_key_eq (salt : Bytes 16) (execution : UInt8) :
    (SeedCommitter.new salt execution).second.key = tweakSalt salt 1 execution 0 := by
  -- the tag with selector 0 is even
  have hflip : (0 + execution * 4) ^^^ 1 = 1 + execution * 4 := by
    have hneighbour := xor_one_div_mod (execution.toNat * 4 % 2 ^ 8)
    apply UInt8.toNat_inj.mp
    simp only [UInt8.zero_add, UInt8.toNat_xor, UInt8.toNat_add, UInt8.toNat_mul,
      UInt8.reduceToNat]
    omega
  apply Bytes.ext_getElem
  intro i hi
  simp only [SeedCommitter.new, Bytes.getElem_set]
  by_cases hzero : 0 = i
  · subst hzero
    rw [if_pos rfl, tweak_byte_zero, tweak_byte_zero, UInt8.xor_assoc, hflip]
  · rw [if_neg hzero]
    simp [tweakSalt, hzero]

/-- A built key is the tweak with the selector and the index of its role. -/
theorem BuiltKey.eq_tweak {salt : Bytes 16} {execution : UInt8} {role : KeyRole} {key : Bytes 16}
    (h : BuiltKey salt execution role key) :
    key = tweakSalt salt role.selector execution role.index := by
  cases h with
  | firstCommitment => rfl
  | secondCommitment => exact second_key_eq salt execution
  | treeLevel depthIndex => rfl
  | @generatorBlock outputLen generator deriver blockIndex hnew hblock =>
      rcases Nat.lt_or_ge (2 ^ 20) outputLen with hlong | hfits
      · obtain ⟨branch, hhalt⟩ := generator_new_of_lt salt execution hlong
        rw [hhalt] at hnew
        exact nomatch hnew
      · rw [generator_new_eq salt execution hfits] at hnew
        cases hnew
        obtain ⟨hlt, hderiver⟩ := List.getElem?_eq_some_iff.mp hblock
        simp only [blockGenerator, List.getElem_map, List.getElem_range] at hderiver
        rw [← hderiver]
        simp only [blockDeriver, UInt16.ofNat_toNat]
        rfl

/-- Under one salt, the keys of the first 64 executions with different roles, executions or
indices are different. For one role, execution and index, different salts give different keys. -/
theorem key_separation {salt : Bytes 16} {execution execution' : UInt8}
    (hexecution : execution < 64) (hexecution' : execution' < 64) {role role' : KeyRole}
    {key key' : Bytes 16} (h : BuiltKey salt execution role key)
    (h' : BuiltKey salt execution' role' key') :
    (key = key' → role = role' ∧ execution = execution') ∧
    ∀ salt' key'', BuiltKey salt' execution role key'' → key = key'' → salt = salt' := by
  constructor
  · intro heq
    rw [h.eq_tweak, h'.eq_tweak] at heq
    obtain ⟨htag, hindex⟩ := tweak_parts heq
    obtain ⟨hselector, hsame⟩ := tag_injective role.selector_lt role'.selector_lt hexecution
      hexecution' htag
    exact ⟨KeyRole.eq_of_selector hselector hindex, hsame⟩
  · intro salt' key'' h'' heq
    rw [h.eq_tweak, h''.eq_tweak] at heq
    exact tweak_salt_injective heq

/-- The two commitment keys of execution 0 under the zero salt are different. -/
theorem zero_commitment_keys_separate :
    ((SeedCommitter.new 0 0).first.key = (SeedCommitter.new 0 0).second.key →
      KeyRole.firstCommitment = KeyRole.secondCommitment ∧ (0 : UInt8) = 0) ∧
    ∀ salt' key'', BuiltKey salt' 0 .firstCommitment key'' →
      (SeedCommitter.new 0 0).first.key = key'' → 0 = salt' :=
  key_separation (by decide) (by decide) .firstCommitment .secondCommitment

end Mqom
