import Mqom.Sign.Challenge
import Mqom.Verify.Oracle

/-!
# How long the search takes

The answers of SHAKE128 to the strings of the nonces decide where `sample_challenge` stops. A nonce
is accepted for one in 256 of the answers, so that the search takes a geometric number of rounds,
and the hidden indices that it returns are uniform however long it took.
-/

namespace Mqom

open Rust Params Library

/-! ## Where the search stops -/

section Outcome

variable (P : Primitives) (hash : Bytes 32)

/-- The search returns a nonce when it accepts this one and none before it. -/
theorem sample_challenge_ok_iff {hiddenIndices : Vector UInt16 12} {nonce : Bytes 4} :
    (sampleChallenge P hash).outcome = .ok (hiddenIndices, nonce) ↔
      (∀ value < nonceValue nonce, ¬ nonceAccepted P hash (nonceOf value)) ∧
        nonceAccepted P hash nonce ∧ indicesOf P hash nonce = hiddenIndices := by
  have hsearch := sample_from_cases P hash (2 ^ 32) 0
  rw [← sample_challenge_eq] at hsearch
  simp only [Nat.zero_add] at hsearch
  rcases hsearch with ⟨k, hk, haccepted, hearlier, hrun⟩ | ⟨hnone, hrun⟩
  · rw [hrun, Run.ret_outcome]
    constructor
    · intro hfound
      obtain ⟨rfl, rfl⟩ := Prod.ext_iff.mp (Except.ok.inj hfound)
      rw [nonce_value_of hk]
      exact ⟨hearlier, haccepted, rfl⟩
    · rintro ⟨hmissed, hnonce, rfl⟩
      have hle : nonceValue nonce ≤ k := by
        by_contra hlt
        exact hmissed k (not_le.mp hlt) haccepted
      have hge : k ≤ nonceValue nonce := by
        by_contra hlt
        refine hearlier _ (not_le.mp hlt) ?_
        rwa [nonce_of_value]
      rw [← le_antisymm hle hge, nonce_of_value]
  · rw [hrun]
    constructor
    · intro hfound
      exact nomatch hfound
    · rintro ⟨_, hnonce, _⟩
      refine absurd ?_ (hnone _ (nonce_value_lt nonce))
      rwa [nonce_of_value]

/-- The search goes past a nonce when it accepts none up to it. -/
theorem search_passes_iff (nonce : Bytes 4) :
    (∀ hiddenIndices other, (sampleChallenge P hash).outcome = .ok (hiddenIndices, other) →
        nonceValue nonce < nonceValue other) ↔
      ∀ value ≤ nonceValue nonce, ¬ nonceAccepted P hash (nonceOf value) := by
  constructor
  · intro hpasses value hvalue haccepted
    -- the first accepted nonce is returned
    have hsome : ∃ value, nonceAccepted P hash (nonceOf value) := ⟨value, haccepted⟩
    have hle : Nat.find hsome ≤ value := Nat.find_min' hsome haccepted
    have hlt : Nat.find hsome < 2 ^ 32 := by
      have := nonce_value_lt nonce
      omega
    have hlater := hpasses _ _ ((sample_challenge_ok_iff P hash).mpr ⟨fun smaller hsmaller => by
      rw [nonce_value_of hlt] at hsmaller
      exact Nat.find_min hsome hsmaller, Nat.find_spec hsome, rfl⟩)
    rw [nonce_value_of hlt] at hlater
    omega
  · intro hnone hiddenIndices other hfound
    obtain ⟨_, haccepted, _⟩ := (sample_challenge_ok_iff P hash).mp hfound
    by_contra hle
    refine hnone _ (not_lt.mp hle) ?_
    rwa [nonce_of_value]

end Outcome

/-! ## Answers to the first nonces -/

/-- The primitives with other answers of SHAKE128 to the strings of the first nonces. -/
def Primitives.programSearch {n : Nat} (P : Primitives) (hash : Bytes 32)
    (answers : Fin n → Bytes 26) : Primitives where
  aes128 := P.aes128
  shake128 absorbed length :=
    match tryInto 4 (absorbed.drop 33) with
    | some nonce =>
        if h : nonceValue nonce < n then
          (P.program (challengeParts hash nonce).flatten
            (answers ⟨nonceValue nonce, h⟩)).shake128 absorbed length
        else P.shake128 absorbed length
    | none => P.shake128 absorbed length

section Answers

variable {n : Nat} (P : Primitives) (hash : Bytes 32) (answers : Fin n → Bytes 26)

/-- A programmed nonce has the answer that it is given. -/
theorem program_search_stream {value : Nat} (h : value < n) (hvalue : value < 2 ^ 32) :
    challengeStream (P.programSearch hash answers) hash (nonceOf value) = answers ⟨value, h⟩ := by
  have hlength : ([0x05] ++ hash.toList).length = 33 := by simp
  have hstring : (challengeParts hash (nonceOf value)).flatten =
      ([0x05] ++ hash.toList) ++ (nonceOf value).toList := by
    simp [challengeParts]
  have hdrop : (challengeParts hash (nonceOf value)).flatten.drop 33 =
      (nonceOf value).toList := by
    rw [hstring, ← hlength, List.drop_left]
  have hnonce : nonceValue (nonceOf value) < n := by rwa [nonce_value_of hvalue]
  have hanswer : challengeStream (P.programSearch hash answers) hash (nonceOf value) =
      answers ⟨nonceValue (nonceOf value), hnonce⟩ := by
    rw [challengeStream, Primitives.programSearch]
    dsimp only
    rw [hdrop, try_into_toList]
    dsimp only
    rw [dif_pos hnonce, program_self]
  rw [hanswer]
  exact congrArg answers (Fin.ext (nonce_value_of hvalue))

/-- It is accepted exactly when this answer has the grinding zeros. -/
theorem program_search_accepted {value : Nat} (h : value < n) (hvalue : value < 2 ^ 32) :
    nonceAccepted (P.programSearch hash answers) hash (nonceOf value) ↔
      maskedGrinding (answers ⟨value, h⟩) = 0 := by
  rw [nonceAccepted, program_search_stream P hash answers h hvalue]

end Answers

/-- The search is geometric. It returns a nonce with given hidden leaves for `255 * 2^200` answers
of SHAKE128 to the string of each nonce before it and `2^68` answers to its own, and it goes past
the nonce for `255 * 2^200` answers to each string. -/
theorem search_geometric (P : Primitives) (hash : Bytes 32) (nonce : Bytes 4) :
    (∀ hiddenIndices : Vector UInt16 12, {answers : Fin (nonceValue nonce + 1) → Bytes 26 |
      (sampleChallenge (P.programSearch hash answers) hash).outcome =
        .ok (hiddenIndices, nonce)}.ncard =
          (255 * 2 ^ 200) ^ nonceValue nonce *
            if ∀ e : Fin 12, hiddenIndices[e].toNat < 2048 then 2 ^ 68 else 0) ∧
    {answers : Fin (nonceValue nonce + 1) → Bytes 26 | ∀ hiddenIndices other,
      (sampleChallenge (P.programSearch hash answers) hash).outcome =
        .ok (hiddenIndices, other) → nonceValue nonce < nonceValue other}.ncard =
          (255 * 2 ^ 200) ^ (nonceValue nonce + 1) := by
  have hnonce := nonce_value_lt nonce
  have haccepted : ∀ (answers : Fin (nonceValue nonce + 1) → Bytes 26)
      (i : Fin (nonceValue nonce + 1)),
      nonceAccepted (P.programSearch hash answers) hash (nonceOf i) ↔
        maskedGrinding (answers i) = 0 :=
    fun answers i => program_search_accepted P hash answers i.isLt (by omega)
  constructor
  · intro hiddenIndices
    have hset : {answers : Fin (nonceValue nonce + 1) → Bytes 26 |
        (sampleChallenge (P.programSearch hash answers) hash).outcome =
          .ok (hiddenIndices, nonce)} =
        {answers | (∀ i : Fin (nonceValue nonce),
            answers i.castSucc ∈ {stream | maskedGrinding stream ≠ 0}) ∧
          answers (Fin.last _) ∈ {stream | maskedGrinding stream = 0 ∧
            challengeIndices stream 2047 = hiddenIndices}} := by
      ext answers
      have hlast := haccepted answers (Fin.last _)
      have hstream := program_search_stream P hash answers (Nat.lt_succ_self _) hnonce
      rw [Fin.val_last, nonce_of_value] at hlast
      rw [nonce_of_value] at hstream
      rw [Set.mem_ofPred_eq, sample_challenge_ok_iff, hlast, indicesOf, hstream]
      refine and_congr_left fun _ => ?_
      rw [Fin.forall_iff]
      exact forall₂_congr fun value hvalue =>
        not_congr (haccepted answers (Fin.castSucc ⟨value, hvalue⟩))
    rw [hset, ncard_snoc, Finset.prod_const, Finset.card_univ, Fintype.card_fin, ncard_missed]
    refine congrArg _ ?_
    split
    · rename_i h
      exact ncard_challenges h
    · rename_i h
      refine (Set.ncard_eq_zero (Set.toFinite _)).mpr (Set.eq_empty_of_forall_notMem ?_)
      rintro stream ⟨_, rfl⟩
      exact h (challenge_index_lt stream)
  · have hset : {answers : Fin (nonceValue nonce + 1) → Bytes 26 | ∀ hiddenIndices other,
        (sampleChallenge (P.programSearch hash answers) hash).outcome =
          .ok (hiddenIndices, other) → nonceValue nonce < nonceValue other} =
        {answers | ∀ i, answers i ∈ {stream | maskedGrinding stream ≠ 0}} := by
      ext answers
      rw [Set.mem_ofPred_eq, search_passes_iff]
      constructor
      · exact fun h i => mt (haccepted answers i).mpr (h i (Nat.lt_succ_iff.mp i.isLt))
      · exact fun h value hvalue =>
          mt (haccepted answers ⟨value, Nat.lt_succ_iff.mpr hvalue⟩).mp (h _)
    rw [hset, ncard_functions, Finset.prod_const, Finset.card_univ, Fintype.card_fin, ncard_missed]

end Mqom
