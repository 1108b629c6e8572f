import Mqom.Blc.Opening
import Mqom.Blc.Walks

/-!
# What an opening discloses

An opening is made of sibling paths, commitments and corrections. The paths and the leaves other
than the hidden ones determine each other, so two signers that share a salt send the same opening
exactly when their trees agree outside the hidden leaves, the hidden leaves have one commitment and
the corrections are the same. Of a hidden leaf an opening has nothing but its commitment.
-/

namespace Mqom

open Rust Params Library

/-! ## Leaves of a commitment -/

/-- A leaf of the tree of an execution. -/
def SigningCommitment.leaf (P : Primitives) (commitment : SigningCommitment) (e : Fin 12)
    (j : Nat) : Option (Bytes 16) :=
  (fullyExpandTree P commitment.salt commitment.rootSeeds[e] commitment.delta
    (executionByte e)).outcome.toOption.bind fun nodes => nodes[nbEvals + j]?

/-- The commitment to a leaf of the tree of an execution. -/
def SigningCommitment.leafCommitment (P : Primitives) (commitment : SigningCommitment) (e : Fin 12)
    (j : Nat) : Option (Bytes 32) :=
  (commitment.leaf P e j).bind fun leaf =>
    ((SeedCommitter.new commitment.salt (executionByte e)).commit P leaf).outcome.toOption

/-! ## Paths and leaves -/

section Paths

variable (P : Primitives) (salt : Bytes 16) (execution : UInt8)

/-- The path that `opening_path` writes for a leaf of a tree. -/
def pathOfTree (rootSeed delta : Bytes 16) (hiddenIndex : Nat) : Bytes 176 :=
  pathOf fun k => treeNode P salt execution rootSeed delta (sibling (2048 + hiddenIndex) k)

/-- The paths of two trees are the same when the other leaves are. -/
theorem path_of_tree_eq_iff (rootSeed delta rootSeed' delta' : Bytes 16) {hiddenIndex : Nat}
    (h : hiddenIndex < 2048) :
    pathOfTree P salt execution rootSeed delta hiddenIndex =
        pathOfTree P salt execution rootSeed' delta' hiddenIndex ↔
      ∀ j < 2048, j ≠ hiddenIndex →
        treeNode P salt execution rootSeed delta (2048 + j) =
          treeNode P salt execution rootSeed' delta' (2048 + j) := by
  have hleaf : ∀ seed label : Bytes 16, ∀ j < 2048, j ≠ hiddenIndex →
      (forest P salt execution 0 (pathOfTree P salt execution seed label hiddenIndex) hiddenIndex
        (2048 + j)).getD 0 = treeNode P salt execution seed label (2048 + j) :=
    fun seed label j hj hne => forest_leaf_of_tree P salt execution 0 h seed label hj hne
  constructor
  · intro hpath j hj hne
    rw [← hleaf rootSeed delta j hj hne, hpath, hleaf rootSeed' delta' j hj hne]
  · intro hsame
    refine path_eq_of_forest P salt execution 0 _ h fun j hj => ?_
    by_cases hne : j = hiddenIndex
    · rw [hne, forest_hidden P salt execution 0 _ h, forest_hidden P salt execution 0 _ h]
    · rw [hleaf rootSeed delta j hj hne, hleaf rootSeed' delta' j hj hne, hsame j hj hne]

end Paths

/-! ## Openings -/

/-- Openings with the same bytes have the same parts. -/
theorem OpeningParts.encode_injective : Function.Injective OpeningParts.encode := by
  intro parts other h
  rw [← parts.decode_encode, h, other.decode_encode]

namespace CommitInput

variable (P : Primitives) (input : CommitInput)

/-- A leaf of the returned state is the leaf that was committed to. -/
theorem commitment_leaf (e : Fin 12) {j : Nat} (hj : j < 2048) :
    (input.commitment P).leaf P e j = some (input.leafSeed P e j) := by
  rw [SigningCommitment.leaf, fully_expand_tree_eq]
  exact table_leaf P input.salt (executionByte e) _ _ hj

/-- Its commitment is the one that was hashed. -/
theorem commitment_leaf_commitment (e : Fin 12) {j : Nat} (hj : j < 2048) :
    (input.commitment P).leafCommitment P e j = some (input.leafCommitment P e j) := by
  rw [SigningCommitment.leafCommitment, commitment_leaf P input e hj]
  rfl

/-- The partial deltas stand in the returned state. -/
theorem commitment_partial_delta (e : Fin 12) :
    (input.commitment P).partialDeltas[e] = input.partialDelta P e := by
  simp [commitment]

/-- The parts of two openings are the same when what they disclose is. -/
theorem opening_parts_eq_iff (input' : CommitInput) (hsalt : input'.salt = input.salt)
    (hiddenIndices : Vector UInt16 12) (h : ∀ e : Fin 12, hiddenIndices[e].toNat < 2048) :
    input.openingParts P hiddenIndices = input'.openingParts P hiddenIndices ↔
      ∀ e : Fin 12,
        (∀ j < 2048, j ≠ hiddenIndices[e].toNat → input.leafSeed P e j = input'.leafSeed P e j) ∧
        input.leafCommitment P e hiddenIndices[e].toNat =
          input'.leafCommitment P e hiddenIndices[e].toNat ∧
        input.partialDelta P e = input'.partialDelta P e := by
  have hpath : ∀ e : Fin 12,
      (input.openingParts P hiddenIndices).paths e = (input'.openingParts P hiddenIndices).paths e ↔
        ∀ j < 2048, j ≠ hiddenIndices[e].toNat →
          input.leafSeed P e j = input'.leafSeed P e j := by
    intro e
    have hiff := path_of_tree_eq_iff P input.salt (executionByte e) (input.rootSeeds P)[e]
      input.delta (input'.rootSeeds P)[e] input'.delta (h e)
    rw [openingParts, openingParts, hsalt]
    simp only [leafSeed, hsalt]
    exact hiff
  constructor
  · intro heq e
    exact ⟨(hpath e).mp (congrArg (fun parts => parts.paths e) heq),
      congrArg (fun parts => parts.hiddenCommitments e) heq,
      congrArg (fun parts => parts.partialDeltas e) heq⟩
  · intro hsame
    exact OpeningParts.ext (funext fun e => (hpath e).mpr (hsame e).1)
      (funext fun e => (hsame e).2.1) (funext fun e => (hsame e).2.2)

end CommitInput

/-- Two openings of commitments under one salt at the same indices are equal exactly when an index
is refused, or the trees agree at all leaves but the hidden ones, the hidden leaves have the same
commitments and the partial deltas are the same. -/
theorem openings_eq_iff (P : Primitives) (salt masterSeed masterSeed' : Bytes 16)
    (secret secret' : Vector Gf16 56) (hiddenIndices : Vector UInt16 12) :
    ∃ c c', (commit P masterSeed salt secret).outcome = .ok c ∧
      (commit P masterSeed' salt secret').outcome = .ok c' ∧
      ((c.openAt P hiddenIndices).outcome = (c'.openAt P hiddenIndices).outcome ↔
        (∃ e : Fin 12, nbEvals ≤ hiddenIndices[e].toNat) ∨
        ∀ e : Fin 12,
          (∀ j < nbEvals, j ≠ hiddenIndices[e].toNat → c.leaf P e j = c'.leaf P e j) ∧
          c.leafCommitment P e hiddenIndices[e].toNat =
            c'.leafCommitment P e hiddenIndices[e].toNat ∧
          c.partialDeltas[e] = c'.partialDeltas[e]) := by
  let input : CommitInput := ⟨masterSeed, salt, secret⟩
  let input' : CommitInput := ⟨masterSeed', salt, secret'⟩
  refine ⟨input.commitment P, input'.commitment P, congrArg Run.outcome (input.commit_eq P),
    congrArg Run.outcome (input'.commit_eq P), ?_⟩
  by_cases h : ∀ e : Fin 12, hiddenIndices[e].toNat < 2048
  · rw [input.open_at_eq P hiddenIndices h, input'.open_at_eq P hiddenIndices h, Run.ret_outcome,
      Run.ret_outcome, Except.ok.injEq, OpeningParts.encode_injective.eq_iff,
      input.opening_parts_eq_iff P input' rfl hiddenIndices h, or_iff_right]
    · refine forall_congr' fun e => ?_
      rw [input.commitment_leaf_commitment P e (h e), input'.commitment_leaf_commitment P e (h e),
        input.commitment_partial_delta, input'.commitment_partial_delta, Option.some.injEq]
      refine and_congr_left fun _ => forall_congr' fun j => forall_congr' fun hj => ?_
      rw [input.commitment_leaf P e hj, input'.commitment_leaf P e hj, Option.some.injEq]
    · rintro ⟨e, hge⟩
      exact absurd (h e) (Nat.not_lt.mpr hge)
  · obtain ⟨e, hge⟩ := not_forall.mp h
    have hrefused : ∃ e : Fin 12, nbEvals ≤ hiddenIndices[e].toNat := ⟨e, Nat.not_lt.mp hge⟩
    rw [input.open_at_of_not_lt P hiddenIndices hge, input'.open_at_of_not_lt P hiddenIndices hge]
    exact ⟨fun _ => Or.inl hrefused, fun _ => rfl⟩

end Mqom
