import Mqom.Library.Counting
import Mqom.Mq.Masking
import Mqom.Verify.Verifier
import Mathlib.Data.FinEnum

/-!
# Uniform challenges

A random oracle answers one string with uniform bytes. Here SHAKE128 is given every answer to the
string that the challenge or the batching coefficients are hashed from, and the answers with some
result are counted.
-/

namespace Mqom

open Rust Params Library

/-! ## Programming an answer -/

/-- The primitives with another answer of SHAKE128 to one string, as far as the answer reaches. -/
def Primitives.program {m : Nat} (P : Primitives) (absorbed : List UInt8) (answer : Bytes m) :
    Primitives where
  aes128 := P.aes128
  shake128 other n :=
    if other = absorbed then
      Bytes.ofFn fun i : Fin n => if h : i.val < m then answer[i.val] else (P.shake128 other n)[i]
    else P.shake128 other n

section Program

variable {m : Nat} (P : Primitives) (answer : Bytes m)

/-- A programmed string has its answer. -/
theorem program_self (absorbed : List UInt8) :
    (P.program absorbed answer).shake128 absorbed m = answer := by
  apply Bytes.ext_getElem
  intro i hi
  simp [Primitives.program]

/-- Another string has the answer it had. -/
theorem program_of_ne {absorbed other : List UInt8} (h : other ≠ absorbed) (n : Nat) :
    (P.program absorbed answer).shake128 other n = P.shake128 other n :=
  if_neg h

/-- A string under another tag keeps its answer. -/
theorem program_of_tag {tag tag' : UInt8} (h : tag ≠ tag') (rest rest' : List UInt8) (n : Nat) :
    (P.program (tag' :: rest') answer).shake128 (tag :: rest) n = P.shake128 (tag :: rest) n :=
  program_of_ne P answer (fun heq => h (List.cons.inj heq).1) n

/-- So does a list of strings of which the first is another tag. -/
theorem program_of_parts {tag tag' : UInt8} (h : tag ≠ tag') (parts : List (List UInt8))
    (rest' : List UInt8) (n : Nat) :
    (P.program (tag' :: rest') answer).shake128 ([tag] :: parts).flatten n =
      P.shake128 ([tag] :: parts).flatten n := by
  rw [List.flatten_cons, List.singleton_append]
  exact program_of_tag P answer h _ rest' n

/-- The equations do not depend on answers under other tags. -/
theorem equation_of_program {tag : UInt8} (h : 0x01 ≠ tag) (rest : List UInt8)
    (masterSeed : Bytes 32) (j : Nat) :
    equationOf (P.program (tag :: rest) answer) masterSeed j = equationOf P masterSeed j := by
  have hseed : (P.program (tag :: rest) answer).shake128 (equationParts masterSeed j).flatten 16 =
      P.shake128 (equationParts masterSeed j).flatten 16 := program_of_tag P answer h _ rest 16
  have hstream : equationStream (P.program (tag :: rest) answer) masterSeed j =
      equationStream P masterSeed j := by
    rw [equationStream, hseed]
    rfl
  rw [equationOf, equationOf, hstream]

end Program

/-! ## Runs under a programmed oracle -/

section Program

variable {m : Nat} (P : Primitives) (tag : UInt8) (rest : List UInt8) (answer : Bytes m)

namespace EvaluateInput

variable (input : EvaluateInput)

/-- The seeds of the leaves do not ask for a programmed hash. -/
theorem leaf_seed_program (e : Fin 12) (j : Nat) :
    input.leafSeed (P.program (tag :: rest) answer) e j = input.leafSeed P e j := by
  have hderive : treeDerive (P.program (tag :: rest) answer) = treeDerive P := rfl
  simp only [leafSeed, forest, hderive]

/-- Their expansions do not either. -/
theorem expanded_program :
    input.expanded (P.program (tag :: rest) answer) = input.expanded P := by
  have hleaf : expandedLeaf (P.program (tag :: rest) answer) = expandedLeaf P := rfl
  funext e j
  rw [expanded, expanded, leaf_seed_program, hleaf]

/-- Their commitments do not either. -/
theorem leaf_commitment_program (e : Fin 12) (j : Nat) :
    input.leafCommitment (P.program (tag :: rest) answer) e j = input.leafCommitment P e j := by
  have hcommitment : SeedCommitter.commitment (P.program (tag :: rest) answer) =
      SeedCommitter.commitment P := rfl
  rw [leafCommitment, leafCommitment, leaf_seed_program, hcommitment]

/-- So the opened values do not depend on it. -/
theorem opened_program :
    input.opened (P.program (tag :: rest) answer) = input.opened P := by
  simp only [opened, evaluated, evaluationAt, adjustedTotal, expanded_program]

/-- The strings of a leaf hash do not depend on it. -/
theorem leaf_parts_program (e : Fin 12) :
    input.leafParts (P.program (tag :: rest) answer) e = input.leafParts P e := by
  simp only [leafParts, leaf_commitment_program]

/-- An execution makes the same calls. -/
theorem execution_calls_program (e : Fin 12) :
    input.executionCalls (P.program (tag :: rest) answer) e = input.executionCalls P e := by
  have hleaf : input.leafCalls (P.program (tag :: rest) answer) e = input.leafCalls P e := by
    funext j
    rw [leafCalls, leafCalls, leaf_seed_program]
  rw [executionCalls, executionCalls, hleaf, leaf_parts_program]

variable {tag}

/-- The first commitment absorbs the same strings when no leaf hash is programmed. -/
theorem overall_parts_program (hleaf : 0x06 ≠ tag) :
    input.overallParts (P.program (tag :: rest) answer) = input.overallParts P := by
  have hhash : ∀ e, input.leafHash (P.program (tag :: rest) answer) e = input.leafHash P e :=
    fun e => by
      rw [leafHash, leafHash, leaf_parts_program, leafParts, List.flatten_cons,
        List.singleton_append, program_of_tag P answer hleaf]
  simp only [overallParts, hhash]

/-- It is the same when it is not programmed either. -/
theorem digest_program (hleaf : 0x06 ≠ tag) (hoverall : 0x07 ≠ tag) :
    input.digest (P.program (tag :: rest) answer) = input.digest P := by
  rw [digest, digest, input.overall_parts_program P rest answer hleaf, overallParts,
    List.cons_append, List.flatten_cons, List.singleton_append, program_of_tag P answer hoverall]

/-- The opening makes the same calls. -/
theorem calls_program (hleaf : 0x06 ≠ tag) :
    input.calls (P.program (tag :: rest) answer) = input.calls P := by
  have hexecutions : input.executionCalls (P.program (tag :: rest) answer) =
      input.executionCalls P := funext (input.execution_calls_program P tag rest answer)
  rw [calls, calls, input.overall_parts_program P rest answer hleaf, hexecutions]

end EvaluateInput

/-! The values of a run of the verifier, when a response is programmed. -/

namespace VerifyInput

variable (input : VerifyInput)

/-- The Fiat-Shamir hash is computed under other tags. -/
theorem hash_program : input.hash (P.program (0x03 :: rest) answer) = input.hash P := by
  rw [hash, hash, fiatShamirParts, fiatShamirParts, messageParts,
    program_of_parts P answer (by decide), program_of_parts P answer (by decide)]

/-- So is the challenge. -/
theorem challenge_program :
    challengeStream (P.program (0x03 :: rest) answer)
        (input.hash (P.program (0x03 :: rest) answer)) input.nonce =
      challengeStream P (input.hash P) input.nonce := by
  rw [hash_program, challengeStream, challengeParts, program_of_parts P answer (by decide)]
  rfl

/-- The opening and its leaves are the same. -/
theorem evaluate_input_program :
    input.evaluateInput (P.program (0x03 :: rest) answer) = input.evaluateInput P := by
  refine EvaluateInput.ext rfl rfl ?_
  show challengeIndices _ 2047 = challengeIndices _ 2047
  rw [challenge_program]

/-- The responses that are recomputed are the same. -/
theorem alpha_zero_program :
    input.alphaZero (P.program (0x03 :: rest) answer) = input.alphaZero P := by
  have hbatching : batchingOf (P.program (0x03 :: rest) answer) input.firstCommitment =
      batchingOf P input.firstCommitment := by
    rw [batchingOf, batchingOf, batchingParts, program_of_parts P answer (by decide)]
  have hequation : ∀ j : Fin 14, equationOf (P.program (0x03 :: rest) answer) input.masterSeed j =
      equationOf P input.masterSeed j :=
    fun j => equation_of_program P answer (by decide) rest input.masterSeed j
  have hsystem : systemOf (P.program (0x03 :: rest) answer) input.firstCommitment input.masterSeed =
      systemOf P input.firstCommitment input.masterSeed := by
    rw [systemOf, systemOf, hbatching]
    exact congrArg (ResponseSystem.mk _) (funext hequation)
  have hindices : input.hiddenIndices (P.program (0x03 :: rest) answer) = input.hiddenIndices P :=
    congrArg EvaluateInput.hiddenIndices (input.evaluate_input_program P rest answer)
  rw [alphaZero, alphaZero, hsystem, hindices, evaluate_input_program,
    EvaluateInput.opened_program]

end VerifyInput

end Program

/-! ## Sizes -/

namespace Rust.Bytes

variable {n : Nat}

/-- The bytes of an array. -/
def equivFunction : Bytes n ≃ (Fin n → UInt8) where
  toFun bytes i := bytes[i]
  invFun := Bytes.ofFn
  left_inv bytes := Bytes.ext_getElem fun i hi => by simp
  right_inv byte := funext fun i => by simp

instance instFinite : Finite (Bytes n) :=
  Finite.of_equiv _ equivFunction.symm

/-- There are `2 ^ (8 * n)` arrays of `n` bytes. -/
theorem card_eq : Nat.card (Bytes n) = 2 ^ (8 * n) := by
  rw [Nat.card_congr equivFunction, Nat.card_fun, Nat.card_eq_fintype_card (α := Fin n),
    Fintype.card_fin, Nat.card_congr (FinEnum.equiv (α := UInt8)), pow_mul]
  simp

/-- Arrays with the same pairs of bytes are equal. -/
theorem eq_of_pairs {k : Nat} (hn : n = k * 2) {left right : Bytes n}
    (h : ∀ j (hj : 2 * j + 1 < n),
      Bytes.pair left[2 * j] left[2 * j + 1] = Bytes.pair right[2 * j] right[2 * j + 1]) :
    left = right := by
  apply Bytes.ext_getElem
  intro i hi
  have hpair := h (i / 2) (by omega)
  rcases Nat.mod_two_eq_zero_or_one i with heven | hodd
  · have hfirst := congrArg (fun bytes : Bytes 2 => bytes[0]) hpair
    simp only [getElem_pair_zero] at hfirst
    simpa only [show 2 * (i / 2) = i by omega] using hfirst
  · have hsecond := congrArg (fun bytes : Bytes 2 => bytes[1]) hpair
    simp only [getElem_pair_one] at hsecond
    simpa only [show 2 * (i / 2) + 1 = i by omega] using hsecond

end Rust.Bytes

/-! ## Challenges -/

/-- The sixteen-bit words of a challenge stream. -/
def challengeWord (stream : Bytes 26) (i : Fin 13) : UInt16 :=
  u16FromLeBytes stream[2 * i.val] stream[2 * i.val + 1]

/-- A word is known from its two bytes and they from it. -/
theorem u16_from_le_bytes_inj {low high low' high' : UInt8}
    (h : u16FromLeBytes low high = u16FromLeBytes low' high') :
    Bytes.pair low high = Bytes.pair low' high' := by
  have hvalue := congrArg UInt16.toNat h
  have hnumber : ∀ low high : UInt8,
      (u16FromLeBytes low high).toNat = low.toNat + 2 ^ 8 * high.toNat := by
    intro low high
    have hhigh : high.toNat * 2 ^ 8 < 2 ^ 16 := by
      have := high.toNat_lt
      omega
    rw [u16FromLeBytes, UInt16.toNat_or, UInt16.toNat_shiftLeft, UInt8.toNat_toUInt16,
      UInt8.toNat_toUInt16]
    show low.toNat ||| (high.toNat <<< 8) % 2 ^ 16 = _
    rw [Nat.shiftLeft_eq, Nat.mod_eq_of_lt hhigh, mul_comm, Nat.or_comm,
      ← Nat.two_pow_add_eq_or_of_lt low.toNat_lt, Nat.add_comm]
  rw [hnumber, hnumber] at hvalue
  have hlow := low.toNat_lt
  have hlow' := low'.toNat_lt
  obtain rfl : low = low' := UInt8.toNat_inj.mp (by omega)
  obtain rfl : high = high' := UInt8.toNat_inj.mp (by omega)
  rfl

/-- The 13 words of a challenge determine it and are free. -/
theorem challenge_word_bijective : Function.Bijective challengeWord := by
  have hinjective : Function.Injective challengeWord := by
    intro stream stream' h
    refine Bytes.eq_of_pairs (k := 13) rfl fun j hj => ?_
    exact u16_from_le_bytes_inj (congrFun h ⟨j, by omega⟩)
  refine bijective_of_card hinjective ?_
  rw [Bytes.card_eq, Nat.card_fun, Nat.card_eq_fintype_card (α := Fin 13), Fintype.card_fin,
    Nat.card_congr (FinEnum.equiv (α := UInt16))]
  simp

/-- The words with given low bits. -/
theorem ncard_masked {m n : Nat} (hsize : m * n = 65536) {v : Nat} (hv : v < n) :
    {word : UInt16 | word.toNat % n = v}.ncard = m := by
  have hword : Function.Bijective UInt16.toFin :=
    ⟨fun _ _ h => UInt16.toFin_inj.mp h, fun i => ⟨UInt16.ofFin i, rfl⟩⟩
  have hcount := ncard_residue (m := m) hv
  rw [hsize] at hcount
  rw [← hcount]
  exact ncard_of_bijective hword fun i => i.val % n = v

/-- The streams whose words lie in given sets. -/
theorem ncard_words (index : Fin 12 → Set UInt16) (grinding : Set UInt16) :
    {stream | (∀ e : Fin 12, challengeWord stream e.castSucc ∈ index e) ∧
      challengeWord stream (Fin.last 12) ∈ grinding}.ncard =
      (∏ e, (index e).ncard) * grinding.ncard := by
  exact (ncard_of_bijective challenge_word_bijective fun word =>
    (∀ e : Fin 12, word e.castSucc ∈ index e) ∧ word (Fin.last 12) ∈ grinding).trans
      (ncard_snoc index grinding)

/-- An index is a word modulo the number of leaves. -/
theorem challenge_index_eq (stream : Bytes 26) (e : Fin 12) :
    (challengeIndices stream 2047)[e].toNat = (challengeWord stream e.castSucc).toNat % 2048 := by
  rw [challengeIndices, getElem_fin, Vector.getElem_ofFn, UInt16.toNat_and]
  exact Nat.and_two_pow_sub_one_eq_mod _ 11

/-- So an index is a leaf. -/
theorem challenge_index_lt (stream : Bytes 26) (e : Fin 12) :
    (challengeIndices stream 2047)[e].toNat < 2048 := by
  rw [challenge_index_eq]
  exact Nat.mod_lt _ (by omega)

/-- The grinding bits are the low byte of the last word. -/
theorem masked_grinding_iff (stream : Bytes 26) :
    maskedGrinding stream = 0 ↔ (challengeWord stream (Fin.last 12)).toNat % 256 = 0 := by
  have hmasked : (maskedGrinding stream).toNat =
      (challengeWord stream (Fin.last 12)).toNat % 256 := by
    rw [maskedGrinding, UInt16.toNat_and]
    exact Nat.and_two_pow_sub_one_eq_mod _ 8
  rw [← hmasked]
  exact UInt16.toNat_inj.symm

/-- Every choice of hidden leaves is the challenge of equally many streams that pass the check of
the grinding bits. -/
theorem ncard_challenges {hiddenIndices : Vector UInt16 12}
    (h : ∀ e : Fin 12, hiddenIndices[e].toNat < 2048) :
    {stream | maskedGrinding stream = 0 ∧
      challengeIndices stream 2047 = hiddenIndices}.ncard = 2 ^ 68 := by
  have hset : {stream | maskedGrinding stream = 0 ∧ challengeIndices stream 2047 = hiddenIndices} =
      {stream | (∀ e : Fin 12, challengeWord stream e.castSucc ∈
          {word : UInt16 | word.toNat % 2048 = hiddenIndices[e].toNat}) ∧
        challengeWord stream (Fin.last 12) ∈ {word : UInt16 | word.toNat % 256 = 0}} := by
    ext stream
    constructor
    · rintro ⟨hgrinding, rfl⟩
      exact ⟨fun e => (challenge_index_eq stream e).symm, (masked_grinding_iff stream).mp hgrinding⟩
    · rintro ⟨hwords, hlast⟩
      refine ⟨(masked_grinding_iff stream).mpr hlast, vector_ext fun e => ?_⟩
      exact UInt16.toNat_inj.mp ((challenge_index_eq stream e).trans (hwords e))
  rw [hset, ncard_words, Finset.prod_congr rfl fun e _ => ncard_masked (m := 32) rfl (h e),
    ncard_masked (m := 256) rfl (by omega)]
  norm_num

/-- One stream in 256 passes the check of the grinding bits. -/
theorem ncard_grinding : {stream | maskedGrinding stream = 0}.ncard = 2 ^ 200 := by
  have hset : {stream | maskedGrinding stream = 0} =
      {stream | (∀ e : Fin 12, challengeWord stream e.castSucc ∈ Set.univ) ∧
        challengeWord stream (Fin.last 12) ∈ {word : UInt16 | word.toNat % 256 = 0}} := by
    ext stream
    exact (masked_grinding_iff stream).trans ⟨fun h => ⟨fun _ => Set.mem_univ _, h⟩, And.right⟩
  rw [hset, ncard_words, ncard_masked (m := 256) rfl (by omega), Set.ncard_univ,
    Nat.card_congr (FinEnum.equiv (α := UInt16))]
  simp

/-- The other streams fail it. -/
theorem ncard_missed : {stream | maskedGrinding stream ≠ 0}.ncard = 255 * 2 ^ 200 := by
  have hset : {stream | maskedGrinding stream ≠ 0} = {stream | maskedGrinding stream = 0}ᶜ := rfl
  have hall := Set.ncard_add_ncard_compl {stream | maskedGrinding stream = 0}
  rw [ncard_grinding, Bytes.card_eq] at hall
  rw [hset]
  omega

/-- SHAKE128 answers of every kind to the string of a challenge. `parse_challenge` returns each
choice of hidden leaves for one in `2^140` of the answers, nothing else, and refuses the others for
their grinding bits. -/
theorem challenge_uniform (P : Primitives) (hash : Bytes 32) (nonce : Bytes 4) :
    (∀ hiddenIndices : Vector UInt16 12, {stream : Bytes 26 |
      (parseChallenge (P.program (challengeParts hash nonce).flatten stream) hash nonce).outcome =
        .ok hiddenIndices}.ncard =
          if ∀ e : Fin 12, hiddenIndices[e].toNat < 2048 then 2 ^ 68 else 0) ∧
    {stream : Bytes 26 |
      (parseChallenge (P.program (challengeParts hash nonce).flatten stream) hash nonce).outcome =
        .error (.none .grinding)}.ncard = 255 * 2 ^ 200 := by
  have hstream : ∀ stream : Bytes 26, challengeStream
      (P.program (challengeParts hash nonce).flatten stream) hash nonce = stream :=
    fun stream => program_self P stream _
  have houtcome : ∀ stream : Bytes 26,
      (parseChallenge (P.program (challengeParts hash nonce).flatten stream) hash nonce).outcome =
        if maskedGrinding stream = 0 then .ok (challengeIndices stream 2047)
        else .error (.none .grinding) := by
    intro stream
    rw [parse_challenge_eq, Run.after_outcome, indicesOf, hstream]
    split <;> rfl
  constructor
  · intro hiddenIndices
    simp only [houtcome]
    have hset : {stream : Bytes 26 | (if maskedGrinding stream = 0 then
        .ok (challengeIndices stream 2047) else .error (.none .grinding) :
          Except (Rust.Halt Branch) _) = .ok hiddenIndices} =
        {stream | maskedGrinding stream = 0 ∧ challengeIndices stream 2047 = hiddenIndices} := by
      ext stream
      by_cases hgrinding : maskedGrinding stream = 0 <;> simp [hgrinding]
    rw [hset]
    split
    · rename_i h
      exact ncard_challenges h
    · rename_i h
      refine (Set.ncard_eq_zero (Set.toFinite _)).mpr (Set.eq_empty_of_forall_notMem ?_)
      rintro stream ⟨_, rfl⟩
      exact h (challenge_index_lt stream)
  · simp only [houtcome]
    have hset : {stream : Bytes 26 | (if maskedGrinding stream = 0 then
        .ok (challengeIndices stream 2047) else .error (.none .grinding) :
          Except (Rust.Halt Branch) _) = .error (.none .grinding)} =
        {stream | maskedGrinding stream ≠ 0} := by
      ext stream
      by_cases hgrinding : maskedGrinding stream = 0 <;> simp [hgrinding]
    rw [hset, ncard_missed]

/-! ## Batching coefficients -/

/-- The batching coefficients in a stream. -/
def batchingFrom (stream : Bytes 224) : Vector (Vector Gf256x2 14) 8 :=
  Vector.ofFn fun component => parsed 14
    (stream.extract (28 * component) 28 (batching_part_le component)) output_elements_le

/-- A programmed batching is read from its answer. -/
theorem batching_of_program (P : Primitives) (firstCommitment : Bytes 32) (stream : Bytes 224) :
    batchingOf (P.program (batchingParts firstCommitment).flatten stream) firstCommitment =
      batchingFrom stream := by
  have hanswer : (P.program (batchingParts firstCommitment).flatten stream).shake128
      (batchingParts firstCommitment).flatten 224 = stream := program_self P stream _
  rw [batchingOf, hanswer, batchingFrom]

/-- Every table of batching coefficients is that of one stream. -/
theorem batching_from_bijective :
    Function.Bijective fun stream (component : Fin 8) (j : Fin 14) =>
      (batchingFrom stream)[component][j] := by
  have hentry : ∀ stream (component : Fin 8) (j : Fin 14), (batchingFrom stream)[component][j] =
      extensionAt (stream.extract (28 * component) 28 (batching_part_le component)) j
        (by omega) := by
    intro stream component j
    simp [batchingFrom]
  refine bijective_of_card ?_ ?_
  · intro stream stream' h
    refine Bytes.eq_of_pairs (k := 112) rfl fun j hj => ?_
    have helement := congrFun (congrFun h ⟨j / 14, by omega⟩) ⟨j % 14, Nat.mod_lt _ (by omega)⟩
    simp only [hentry] at helement
    have hpair := Gf256x2.from_bytes_injective helement
    simp only [Bytes.getElem_extract] at hpair
    simpa only [show 28 * (j / 14) + 2 * (j % 14) = 2 * j by omega,
      show 28 * (j / 14) + (2 * (j % 14) + 1) = 2 * j + 1 by omega] using hpair
  · rw [Bytes.card_eq, Nat.card_fun, Nat.card_fun, Nat.card_eq_fintype_card (α := Gf256x2),
      Gf256x2.card_eq, Nat.card_eq_fintype_card (α := Fin 14), Fintype.card_fin,
      Nat.card_eq_fintype_card (α := Fin 8), Fintype.card_fin, show 65536 = 2 ^ 16 from rfl,
      ← pow_mul, ← pow_mul]

/-- An error in some equation survives the batching, but for one in `2^128` of the streams. -/
theorem ncard_cancelling {error : Fin 14 → Gf256x2} (h : ∃ j, error j ≠ 0) :
    {stream | ∀ component : Fin 8, ∑ j : Fin 14,
      (batchingFrom stream)[component][j] * error j = 0}.ncard = 2 ^ 1664 := by
  have hcount := ncard_weights_mul (C := Fin 8) h
  have hsize : (65536 : Nat) ^ (8 * 14) = 2 ^ 1664 * 65536 ^ 8 := by
    rw [show 65536 = 2 ^ 16 from rfl, ← pow_mul, ← pow_mul, ← pow_add]
  rw [Nat.card_eq_fintype_card, Gf256x2.card_eq, Fintype.card_fin, Fintype.card_fin,
    hsize] at hcount
  rw [ncard_of_bijective batching_from_bijective
    fun weight => ∀ component, ∑ j, weight component j * error j = 0]
  exact Nat.eq_of_mul_eq_mul_right (by omega) hcount

/-- The system of programmed batching coefficients. -/
theorem system_of_program (P : Primitives) (firstCommitment masterSeed : Bytes 32)
    (stream : Bytes 224) :
    systemOf (P.program (batchingParts firstCommitment).flatten stream) firstCommitment masterSeed =
      ⟨batchingFrom stream, fun j => equationOf P masterSeed j⟩ := by
  have hequation : ∀ j : Fin 14, equationOf
      (P.program (batchingParts firstCommitment).flatten stream) masterSeed j =
        equationOf P masterSeed j :=
    fun j => equation_of_program P stream (by decide) _ masterSeed j
  rw [systemOf, batching_of_program]
  exact congrArg (ResponseSystem.mk _) (funext hequation)

/-- A signer whose secret misses the public output in some equation, opened at its own lines and not
at the points zero only. The verifier recomputes its `alpha_zero` for one in `2^128` of the answers
to the string of the batching coefficients. -/
theorem wrong_secret_answers (P : Primitives) (firstCommitment masterSeed : Bytes 32)
    (secret : Vector Gf16 56) (publicOutput : Vector Gf256x2 14) (commitment : SigningCommitment)
    (hiddenIndices : Vector UInt16 12) (opened : OpenedEvaluations)
    (hx : ∀ (e : Fin 12) (i : Fin 56), opened.x[e][i] =
      commitment.xZero[e][i] + evaluationPoint hiddenIndices[e] * (secret[i] : Gf16))
    (hu : ∀ (e : Fin 12) (k : Fin 8), opened.u[e][k] =
      commitment.uZero[e][k] + evaluationPoint hiddenIndices[e] * commitment.uOne[e][k])
    (hpoint : ∃ e : Fin 12, evaluationPoint hiddenIndices[e] ≠ 0)
    (hwrong : ∃ j : Fin 14, (do
      let equation ← expandEquation P masterSeed j
      equation.evaluateBase secret).outcome ≠ .ok publicOutput[j]) :
    {stream : Bytes 224 | ∃ alphaZero alphaOne,
      (computeAlpha (P.program (batchingParts firstCommitment).flatten stream) firstCommitment
        commitment secret masterSeed).outcome = .ok (alphaZero, alphaOne) ∧
      (recomputeAlphaZero (P.program (batchingParts firstCommitment).flatten stream)
        firstCommitment alphaOne hiddenIndices opened masterSeed publicOutput).outcome =
          .ok alphaZero}.ncard = 2 ^ 1664 := by
  obtain ⟨j, hj⟩ := hwrong
  have herror : ∃ j : Fin 14, (equationOf P masterSeed j).valueAt secret + publicOutput[j] ≠ 0 := by
    refine ⟨j, fun hzero => hj ?_⟩
    rw [expand_equation_eq P _ j.isLt, Run.ret_bind, PackedEquation.evaluate_base_eq]
    exact congrArg Except.ok (CharTwo.add_eq_zero.mp hzero)
  rw [← ncard_cancelling herror]
  refine congrArg Set.ncard (Set.ext fun stream => ?_)
  let system : ResponseSystem := ⟨batchingFrom stream, fun j => equationOf P masterSeed j⟩
  -- the verifier is off by the batched error at every point
  have hrecomputed : ∀ (e : Fin 12) (component : Fin 8),
      (system.recomputed (system.alphaOne commitment.masks secret) hiddenIndices opened
        publicOutput)[e][component] = (system.alphaZero commitment.masks)[e][component] +
          evaluationPoint hiddenIndices[e] ^ 2 * ∑ j : Fin 14, (batchingFrom stream)[component][j] *
            ((equationOf P masterSeed j).valueAt secret + publicOutput[j]) := by
    intro e component
    have hx' : ∀ i : Fin 56, opened.x[e][i] = commitment.masks.xZero[e][i] +
        evaluationPoint hiddenIndices[e] * Gf16.toExt secret[i] := fun i => by
      rw [hx e i, Gf16.mul_scalar]
    have hentry := system.recomputed_eq commitment.masks secret hiddenIndices opened publicOutput e
      component hx' (hu e component)
    simp only [ResponseSystem.weight, system] at hentry
    with_reducible exact hentry
  have hiff : system.recomputed (system.alphaOne commitment.masks secret) hiddenIndices opened
      publicOutput = system.alphaZero commitment.masks ↔
        ∀ component : Fin 8, ∑ j : Fin 14, (batchingFrom stream)[component][j] *
          ((equationOf P masterSeed j).valueAt secret + publicOutput[j]) = 0 := by
    constructor
    · intro heq component
      obtain ⟨e, he⟩ := hpoint
      have hentry := hrecomputed e component
      rw [heq, left_eq_add] at hentry
      exact (mul_eq_zero.mp hentry).resolve_left (pow_ne_zero 2 he)
    · intro hzero
      refine vector_ext fun e => vector_ext fun component => ?_
      rw [hrecomputed, hzero component, mul_zero, add_zero]
  rw [Set.mem_ofPred_eq, Set.mem_ofPred_eq, ← hiff]
  simp only [compute_alpha_eq, recompute_alpha_zero_eq, system_of_program, Run.ret_outcome,
    Except.ok.injEq, Prod.mk.injEq]
  constructor
  · rintro ⟨alphaZero, alphaOne, ⟨rfl, rfl⟩, hzero⟩
    exact hzero
  · intro hzero
    exact ⟨_, _, ⟨rfl, rfl⟩, hzero⟩

/-- A secret of ones for an output of ones under equations of zeros. -/
theorem sample_wrong_secret_answers :
    {stream : Bytes 224 | ∃ alphaZero alphaOne,
      (computeAlpha (zeroPrimitives.program (batchingParts 0).flatten stream) 0 zeroCommitment
        (Vector.replicate 56 1) 0).outcome = .ok (alphaZero, alphaOne) ∧
      (recomputeAlphaZero (zeroPrimitives.program (batchingParts 0).flatten stream) 0 alphaOne
        (Vector.replicate 12 5) sampleOpened 0 (Vector.replicate 14 1)).outcome =
          .ok alphaZero}.ncard = 2 ^ 1664 :=
  wrong_secret_answers zeroPrimitives 0 0 (Vector.replicate 56 1) (Vector.replicate 14 1)
    zeroCommitment (Vector.replicate 12 5) sampleOpened
    (fun e i => by simp [sampleOpened, zeroCommitment])
    (fun e k => by simp [sampleOpened, zeroCommitment])
    ⟨0, by rw [getElem_fin, Vector.getElem_replicate]; decide⟩
    ⟨0, by
      rw [expand_equation_eq zeroPrimitives 0 (by omega), Run.ret_bind,
        PackedEquation.evaluate_base_eq, zero_value_at]
      simp⟩

end Mqom
