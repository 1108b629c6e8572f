import Mqom.Model.Sign
import Mqom.Verify.Verifier

/-!
# The challenge search

`sample_challenge` tries the nonces in the order of their values and stops at the first one that
`parse_challenge` accepts.
-/

namespace Mqom

open Rust Params Library

/-! ## Nonces -/

/-- The value of a little-endian nonce. -/
def nonceValue (nonce : Bytes 4) : Nat :=
  nonce[0].toNat + 2 ^ 8 * nonce[1].toNat + 2 ^ 16 * nonce[2].toNat + 2 ^ 24 * nonce[3].toNat

/-- A nonce has 32 bits. -/
theorem nonce_value_lt (nonce : Bytes 4) : nonceValue nonce < 2 ^ 32 := by
  have h0 := nonce[0].toNat_lt
  have h1 := nonce[1].toNat_lt
  have h2 := nonce[2].toNat_lt
  have h3 := nonce[3].toNat_lt
  unfold nonceValue
  omega

/-- The nonce with a value. -/
def nonceOf (value : Nat) : Bytes 4 :=
  u32ToLeBytes (UInt32.ofNat value)

/-- The bytes of a value below `2^32`. -/
theorem nonce_of_bytes {value : Nat} (h : value < 2 ^ 32) :
    (nonceOf value)[0].toNat = value % 2 ^ 8 ∧
    (nonceOf value)[1].toNat = value / 2 ^ 8 % 2 ^ 8 ∧
    (nonceOf value)[2].toNat = value / 2 ^ 16 % 2 ^ 8 ∧
    (nonceOf value)[3].toNat = value / 2 ^ 24 % 2 ^ 8 := by
  refine ⟨?_, ?_, ?_, ?_⟩ <;>
    simp [nonceOf, u32ToLeBytes, Bytes.getElem_eq_toList, Nat.shiftRight_eq_div_pow] <;> omega

/-- Every number of 32 bits is the value of its nonce. -/
theorem nonce_value_of {value : Nat} (h : value < 2 ^ 32) : nonceValue (nonceOf value) = value := by
  obtain ⟨h0, h1, h2, h3⟩ := nonce_of_bytes h
  unfold nonceValue
  rw [h0, h1, h2, h3]
  omega

/-- A nonce is determined by its value. -/
theorem nonce_of_value (nonce : Bytes 4) : nonceOf (nonceValue nonce) = nonce := by
  obtain ⟨h0, h1, h2, h3⟩ := nonce_of_bytes (nonce_value_lt nonce)
  have hb0 := nonce[0].toNat_lt
  have hb1 := nonce[1].toNat_lt
  have hb2 := nonce[2].toNat_lt
  have hb3 := nonce[3].toNat_lt
  unfold nonceValue at h0 h1 h2 h3
  apply Bytes.ext_getElem
  intro i hi
  obtain rfl | rfl | rfl | rfl : i = 0 ∨ i = 1 ∨ i = 2 ∨ i = 3 := by omega
  all_goals
    apply UInt8.toNat_inj.mp
    unfold nonceValue
    omega

/-! ## The search -/

section Search

variable (P : Primitives) (hash : Bytes 32)

/-- Whether the grinding bits of a nonce are zero. -/
def nonceAccepted (nonce : Bytes 4) : Prop :=
  maskedGrinding (challengeStream P hash nonce) = 0

instance (nonce : Bytes 4) : Decidable (nonceAccepted P hash nonce) :=
  inferInstanceAs (Decidable (maskedGrinding _ = 0))

/-- The calls of a search that tries some nonces. -/
def searchCalls (start count : Nat) : List Call :=
  (List.range' start count).map fun value =>
    .shake128 .challenge (challengeParts hash (nonceOf value))

/-- One round of the search. -/
theorem sample_from_succ (remaining start : Nat) :
    sampleFrom P hash 2047 (remaining + 1) (UInt32.ofNat start) =
      (if nonceAccepted P hash (nonceOf start) then
        Run.ret (indicesOf P hash (nonceOf start), nonceOf start) []
      else sampleFrom P hash 2047 remaining (UInt32.ofNat (start + 1))).after
        (searchCalls hash start 1) := by
  rw [sampleFrom, shake128_eq, Run.ret_bind, UInt32.ofNat_add]
  rfl

/-- The search finds the first accepted nonce, or fails when none is accepted. -/
theorem sample_from_cases (remaining start : Nat) :
    (∃ k < remaining, nonceAccepted P hash (nonceOf (start + k)) ∧
      (∀ j < k, ¬ nonceAccepted P hash (nonceOf (start + j))) ∧
      sampleFrom P hash 2047 remaining (UInt32.ofNat start) =
        Run.ret (indicesOf P hash (nonceOf (start + k)), nonceOf (start + k))
          (searchCalls hash start (k + 1))) ∨
    ((∀ k < remaining, ¬ nonceAccepted P hash (nonceOf (start + k))) ∧
      sampleFrom P hash 2047 remaining (UInt32.ofNat start) =
        (Run.halt (.none .nonceSearch)).after (searchCalls hash start remaining)) := by
  induction remaining generalizing start with
  | zero => exact Or.inr ⟨by omega, rfl⟩
  | succ remaining ih =>
      rw [sample_from_succ]
      by_cases hfirst : nonceAccepted P hash (nonceOf start)
      · rw [if_pos hfirst]
        exact Or.inl ⟨0, by omega, hfirst, by omega, rfl⟩
      rw [if_neg hfirst]
      have hcalls : ∀ count, searchCalls hash start 1 ++ searchCalls hash (start + 1) count =
          searchCalls hash start (count + 1) := fun count => rfl
      have hnext : ∀ k, start + 1 + k = start + (k + 1) := by omega
      -- the rest of the search starts at the next nonce
      rcases ih (start + 1) with ⟨k, hk, haccepted, hearlier, hrun⟩ | ⟨hnone, hrun⟩
      · refine Or.inl ⟨k + 1, by omega, by rwa [← hnext], ?_, ?_⟩
        · intro j hj
          cases j with
          | zero => exact hfirst
          | succ j =>
              rw [← hnext]
              exact hearlier j (by omega)
        · rw [hrun, Run.after_ret, hcalls, hnext]
      · refine Or.inr ⟨?_, ?_⟩
        · intro k hk
          cases k with
          | zero => exact hfirst
          | succ k =>
              rw [← hnext]
              exact hnone k (by omega)
        · rw [hrun, Run.after_after, hcalls]

/-- `sample_challenge` is the search over all nonces. -/
theorem sample_challenge_eq :
    sampleChallenge P hash = sampleFrom P hash 2047 (2 ^ 32) (UInt32.ofNat 0) := by
  unfold sampleChallenge
  rw [u16_try_from_of_lt (by decide), Run.of_option_some, Run.ret_bind, Run.after_nil]
  rfl

/-- `parse_challenge` returns the indices of the accepted nonces. -/
theorem parse_challenge_of_accepted {nonce : Bytes 4} (h : nonceAccepted P hash nonce) :
    (parseChallenge P hash nonce).outcome = .ok (indicesOf P hash nonce) := by
  rw [parse_challenge_eq]
  unfold nonceAccepted at h
  rw [if_pos h]
  rfl

/-- A challenge without the grinding zeros is refused. -/
theorem parse_challenge_of_not_accepted {nonce : Bytes 4} (h : ¬ nonceAccepted P hash nonce) :
    (parseChallenge P hash nonce).outcome = .error (.none .grinding) := by
  rw [parse_challenge_eq]
  unfold nonceAccepted at h
  rw [if_neg h]
  rfl

/-- `sample_challenge` returns what `parse_challenge` returns for the first nonce that it accepts,
and `None` exactly when it accepts none. -/
theorem sample_challenge_first :
    (∀ indices nonce, (sampleChallenge P hash).outcome = .ok (indices, nonce) →
      (parseChallenge P hash nonce).outcome = .ok indices ∧
      (∀ e : Fin 12, indices[e].toNat < 2048) ∧
      ∀ other, nonceValue other < nonceValue nonce →
        ∃ branch, (parseChallenge P hash other).outcome = .error (.none branch)) ∧
    ((∃ branch, (sampleChallenge P hash).outcome = .error (.none branch)) ↔
      ∀ nonce, ∃ branch, (parseChallenge P hash nonce).outcome = .error (.none branch)) := by
  rw [sample_challenge_eq]
  rcases sample_from_cases P hash (2 ^ 32) 0 with ⟨k, hk, haccepted, hearlier, hrun⟩ | ⟨hnone, hrun⟩
  · rw [hrun, Nat.zero_add, Run.ret_outcome]
    rw [Nat.zero_add] at haccepted
    have hparse := parse_challenge_of_accepted P hash haccepted
    constructor
    · intro indices nonce hfound
      obtain ⟨rfl, rfl⟩ := Prod.ext_iff.mp (Except.ok.inj hfound)
      refine ⟨hparse, indices_of_lt P hash _, ?_⟩
      intro other hsmaller
      rw [nonce_value_of hk] at hsmaller
      have hother := hearlier _ hsmaller
      rw [Nat.zero_add, nonce_of_value] at hother
      exact ⟨.grinding, parse_challenge_of_not_accepted P hash hother⟩
    · constructor
      · rintro ⟨branch, hbranch⟩
        exact nomatch hbranch
      · intro hall
        obtain ⟨branch, hbranch⟩ := hall (nonceOf k)
        rw [hparse] at hbranch
        exact nomatch hbranch
  · rw [hrun]
    constructor
    · intro indices nonce hfound
      exact nomatch hfound
    · constructor
      · intro _ nonce
        have hother := hnone _ (nonce_value_lt nonce)
        rw [Nat.zero_add, nonce_of_value] at hother
        exact ⟨.grinding, parse_challenge_of_not_accepted P hash hother⟩
      · intro _
        exact ⟨.nonceSearch, rfl⟩

end Search

end Mqom
