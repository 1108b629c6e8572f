/-!
# Parameters of the profile

The constants of `params.rs` for `MQOM2-L1-gf16-short-r5`, written as the source computes them.
Types use their values.
-/

namespace Mqom.Params

/-- `SECURITY_BITS`. -/
@[simp] def securityBits : Nat := 128
/-- `SEED_SIZE`. -/
@[simp] def seedSize : Nat := securityBits / 8
/-- `SALT_SIZE`. -/
@[simp] def saltSize : Nat := securityBits / 8
/-- `DIGEST_SIZE`. -/
@[simp] def digestSize : Nat := 2 * securityBits / 8
/-- `MQ_N`, the number of variables. -/
@[simp] def mqN : Nat := 56
/-- `MQ_M`, the number of equations over the base field. -/
@[simp] def mqM : Nat := 56
/-- `BASE_FIELD_BITS`. -/
@[simp] def baseFieldBits : Nat := 4
/-- `EXT_FIELD_BITS`. -/
@[simp] def extFieldBits : Nat := 16
/-- `MU`, the degree of the extension field over the base field. -/
@[simp] def mu : Nat := extFieldBits / baseFieldBits
/-- `TAU`, the number of executions. -/
@[simp] def tau : Nat := 12
/-- `NB_EVALS_LOG`. -/
@[simp] def nbEvalsLog : Nat := 11
/-- `NB_EVALS`, the number of leaves of an execution. -/
@[simp] def nbEvals : Nat := 1 <<< nbEvalsLog
/-- `GRINDING_BITS`. -/
@[simp] def grindingBits : Nat := 8
/-- `ETA`, the number of batched polynomials of an execution. -/
@[simp] def eta : Nat := securityBits / extFieldBits
/-- `PUBLIC_KEY_SIZE`. -/
@[simp] def publicKeySize : Nat := 2 * seedSize + (mqM / mu) * extFieldBits / 8
/-- `SECRET_KEY_SIZE`. -/
@[simp] def secretKeySize : Nat := publicKeySize + mqN * baseFieldBits / 8
/-- `OPENING_SIZE`. -/
@[simp] def openingSize : Nat :=
  tau * (mqN * baseFieldBits / 8 - seedSize + nbEvalsLog * seedSize + digestSize)
/-- `SIGNATURE_SIZE`. -/
@[simp] def signatureSize : Nat :=
  4 + tau * (eta * mu) * baseFieldBits / 8 + saltSize + 2 * digestSize + openingSize

example : publicKeySize = 60 ∧ secretKeySize = 88 ∧ openingSize = 2640 ∧
    signatureSize = 2916 := by decide

/-! ## Bounds

The parts that several modules cut out of the same array lie inside it. -/

/-- The bounds of the seed in an expanded leaf. -/
theorem leaf_seed_le : 0 + 16 ≤ 44 := by omega

/-- The bounds of the bytes behind the seed that belong to the base vector. -/
theorem leaf_tail_le : 16 + 12 ≤ 44 := by omega

/-- The bounds of the base vector in an expanded leaf. -/
theorem leaf_base_le : 0 + 28 ≤ 44 := by omega

/-- The bounds of the masks in an expanded leaf. -/
theorem leaf_mask_le : 28 + 16 ≤ 44 := by omega

/-- The bounds of the delta in the packed secret. -/
theorem secret_delta_le : 0 + 16 ≤ 28 := by omega

/-- The bounds of the rest of the packed secret. -/
theorem secret_tail_le : 16 + 12 ≤ 28 := by omega

/-- The packed secret holds the 56 elements of the secret vector. -/
theorem secret_elements_le : (56 + 1) / 2 ≤ 28 := by omega

/-- The bounds of the 16 bytes of an execution. -/
theorem execution_part_le (e : Fin 12) : 16 * e.val + 16 ≤ 192 := by omega

/-- They hold eight elements. -/
theorem execution_elements_le : 8 * 2 ≤ 16 := by omega

/-- The bounds of the coefficients of a component. -/
theorem batching_part_le (component : Fin 8) : 28 * component.val + 28 ≤ 224 := by omega

/-- The public output holds 14 elements. -/
theorem output_elements_le : 14 * 2 ≤ 28 := by omega

/-- The bounds of the public key in a secret key. -/
theorem key_public_le : 0 + 60 ≤ 88 := by omega

/-- The bounds of the packed secret in a secret key. -/
theorem key_secret_le : 60 + 28 ≤ 88 := by omega

/-- The bounds of the seed in a public key. -/
theorem public_seed_le : 0 + 32 ≤ 60 := by omega

/-- The bounds of the output in a public key. -/
theorem public_output_le : 32 + 28 ≤ 60 := by omega

/-- The bounds of the path of an execution in an opening. -/
theorem opening_path_le (e : Fin 12) : e.val * 176 + 176 ≤ 2640 := by omega

/-- The bounds of the partial deltas in an opening. -/
theorem opening_deltas_le : 2496 + 144 ≤ 2640 := by omega

/-- The bounds of the salt in a signature. -/
theorem signature_salt_le : 0 + 16 ≤ 2916 := by omega

/-- The bounds of the first commitment in a signature. -/
theorem first_commitment_le : 16 + 32 ≤ 2916 := by omega

/-- The bounds of the second commitment in a signature. -/
theorem second_commitment_le : 48 + 32 ≤ 2916 := by omega

/-- The bounds of the opening in a signature. -/
theorem signature_opening_le : 272 + 2640 ≤ 2916 := by omega

/-- The bounds of the partial delta of an execution in a signature. -/
theorem signature_delta_le (e : Fin 12) : 272 + (2496 + e.val * 12) + 12 ≤ 2916 := by omega

/-- The bounds of the nonce in a signature. -/
theorem signature_nonce_le : 2912 + 4 ≤ 2916 := by omega

end Mqom.Params
