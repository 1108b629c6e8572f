import Mqom.Blc.Binding

/-!
# Binding of the signer

The first commitment stands for the whole state of the signer. Two runs of `commit` under one salt
with one commitment have the same secret and the same trees, and `evaluate_opening` accepts no
opening of a commitment but the one that `open` returns, unless the calls contain a collision.
-/

namespace Mqom

open Rust Params Library

namespace CommitInput

/-! ## The calls of one run -/

section Calls

variable (P : Primitives) (input : CommitInput) (e : Fin 12)

/-- The lengths of the strings that a leaf hash absorbs. -/
theorem leaf_parts_lengths :
    (input.leafParts P e).map List.length = 1 :: (List.range 2048).map fun _ => 32 := by
  rw [leafParts, List.map_cons, List.map_map]
  exact congrArg (List.cons 1) (List.map_congr_left fun j _ => Bytes.length_toList _)

/-- The lengths of the strings that the commitment absorbs. -/
theorem overall_parts_lengths :
    (input.overallParts P).map List.length =
      1 :: (List.finRange 12).map (fun _ => 32) ++ (List.finRange 12).map fun _ => 12 := by
  simp only [overallParts, List.map_append, List.map_cons, List.map_map, Function.comp_def,
    Bytes.length_toList, List.length_singleton]

/-- The leaf hash of every execution is among the calls. -/
theorem leaf_hash_mem_calls : .shake128 .leafHash (input.leafParts P e) ∈ input.calls P :=
  List.mem_append_left _ (List.mem_flatMap.mpr
    ⟨e, List.mem_finRange e, List.mem_append_right _ List.mem_cons_self⟩)

/-- So is the commitment. -/
theorem overall_mem_calls : .shake128 .overallCommitment (input.overallParts P) ∈ input.calls P :=
  List.mem_append_right _ List.mem_cons_self

/-- So is the commitment to every seed. -/
theorem commit_mem_calls {j : Nat} (hj : j < 2048) :
    commitCall input.salt (executionByte e) (input.leafSeed P e j) ∈ input.calls P :=
  List.mem_append_left _ (List.mem_flatMap.mpr ⟨e, List.mem_finRange e,
    List.mem_append_left _ (List.mem_map.mpr ⟨j, List.mem_range.mpr hj, rfl⟩)⟩)

end Calls

/-! ## Two runs with the same root seeds -/

section Roots

variable {P : Primitives} {first second : CommitInput} (hsalt : first.salt = second.salt)
variable (hsecret : first.secret = second.secret)
variable (hroots : first.rootSeeds P = second.rootSeeds P)
include hsalt hsecret hroots

/-- The root seeds and the secret determine the trees. -/
theorem leaf_seed_of_roots : first.leafSeed P = second.leafSeed P := by
  funext e j
  rw [leafSeed, leafSeed, hsalt, hroots, delta, delta, serializedSecret, serializedSecret, hsecret]

/-- They determine the expanded leaves. -/
theorem expanded_of_roots : first.expanded P = second.expanded P := by
  funext e j
  rw [expanded, expanded, hsalt, leaf_seed_of_roots hsalt hsecret hroots]

/-- They determine the partial deltas. -/
theorem partial_delta_of_roots : first.partialDelta P = second.partialDelta P := by
  funext e
  rw [partialDelta, partialDelta, total, total, expanded_of_roots hsalt hsecret hroots,
    serializedSecret, serializedSecret, hsecret]

/-- They determine the strings that the leaf hashes absorb. -/
theorem leaf_parts_of_roots : first.leafParts P = second.leafParts P := by
  funext e
  simp only [leafParts, leafCommitment, hsalt, leaf_seed_of_roots hsalt hsecret hroots]

/-- They determine what the executions compute. -/
theorem committed_of_roots : first.committed P = second.committed P := by
  funext e
  rw [committed, committed, expanded_of_roots hsalt hsecret hroots,
    leaf_parts_of_roots hsalt hsecret hroots, partial_delta_of_roots hsalt hsecret hroots, total,
    total, expanded_of_roots hsalt hsecret hroots]

/-- They determine the string that the commitment absorbs. -/
theorem overall_parts_of_roots : first.overallParts P = second.overallParts P := by
  rw [overallParts, overallParts, committed_of_roots hsalt hsecret hroots,
    partial_delta_of_roots hsalt hsecret hroots]

/-- They determine the state of the signer. -/
theorem commitment_of_roots : first.commitment P = second.commitment P := by
  have hdelta : first.delta = second.delta := by
    rw [delta, delta, serializedSecret, serializedSecret, hsecret]
  rw [commitment, commitment, overall_parts_of_roots hsalt hsecret hroots,
    committed_of_roots hsalt hsecret hroots, hsalt, hdelta, hroots,
    partial_delta_of_roots hsalt hsecret hroots]

/-- They determine the calls of `commit`. -/
theorem calls_of_roots : first.calls P = second.calls P := by
  have hexecution : first.executionCalls P = second.executionCalls P := by
    funext e
    rw [executionCalls, executionCalls, leaf_parts_of_roots hsalt hsecret hroots, hsalt,
      leaf_seed_of_roots hsalt hsecret hroots]
  rw [calls, calls, hexecution, overall_parts_of_roots hsalt hsecret hroots]

end Roots

/-! ## Two runs with one commitment -/

section Agreement

variable {P : Primitives} {calls : Set Call} {first second : CommitInput}
variable (hdigests : NoDigestCollision P [.leafHash, .overallCommitment] calls)
variable (hfirst : ∀ call ∈ first.calls P, call ∈ calls)
variable (hsecond : ∀ call ∈ second.calls P, call ∈ calls)
variable (hcommitment : (first.commitment P).commitment = (second.commitment P).commitment)
include hdigests hfirst hsecond hcommitment

/-- The commitment stands for the strings that it is computed from. -/
theorem overall_parts_agree : first.overallParts P = second.overallParts P :=
  hdigests.parts_eq (List.mem_cons_of_mem _ List.mem_cons_self)
    (hfirst _ (first.overall_mem_calls P)) (hsecond _ (second.overall_mem_calls P))
    (by rw [first.overall_parts_lengths, second.overall_parts_lengths]) hcommitment

/-- Both runs have the same partial deltas. -/
theorem partial_delta_agree (e : Fin 12) : first.partialDelta P e = second.partialDelta P e := by
  have hparts := overall_parts_agree hdigests hfirst hsecond hcommitment
  have hdeltas := List.append_inj_right' hparts (by simp)
  exact Bytes.toList_injective (List.map_inj_left.mp hdeltas e (List.mem_finRange e))

/-- Both runs commit to the same leaf commitments. -/
theorem leaf_commitment_agree (e : Fin 12) {j : Nat} (hj : j < 2048) :
    first.leafCommitment P e j = second.leafCommitment P e j := by
  have hoverall := overall_parts_agree hdigests hfirst hsecond hcommitment
  have hhashes := (List.cons.inj (List.append_inj_left' hoverall (by simp))).2
  have hhash := Bytes.toList_injective (List.map_inj_left.mp hhashes e (List.mem_finRange e))
  have hparts := hdigests.parts_eq List.mem_cons_self
    (hfirst _ (first.leaf_hash_mem_calls P e)) (hsecond _ (second.leaf_hash_mem_calls P e))
    (by rw [first.leaf_parts_lengths, second.leaf_parts_lengths]) hhash
  exact Bytes.toList_injective
    (List.map_inj_left.mp (List.cons.inj hparts).2 j (List.mem_range.mpr hj))

variable (hseeds : NoSeedCollision P first.salt calls) (hsalt : first.salt = second.salt)
include hseeds hsalt

/-- Both runs have the same leaf seeds. -/
theorem leaf_seed_agree (e : Fin 12) {j : Nat} (hj : j < 2048) :
    first.leafSeed P e j = second.leafSeed P e j := by
  have hleaf := leaf_commitment_agree hdigests hfirst hsecond hcommitment e hj
  rw [leafCommitment, leafCommitment, ← hsalt] at hleaf
  have hcall := hsecond _ (second.commit_mem_calls P e hj)
  rw [← hsalt] at hcall
  exact hseeds e _ _ (hfirst _ (first.commit_mem_calls P e hj)) hcall hleaf

/-- The trees agree from the leaves upwards. -/
theorem tree_agree (e : Fin 12) {i : Nat} (hpos : 1 ≤ i) (hi : i < 4096) :
    treeNode P first.salt (executionByte e) (first.rootSeeds P)[e] first.delta i =
      treeNode P second.salt (executionByte e) (second.rootSeeds P)[e] second.delta i := by
  have hlt : i < 2 ^ (11 + 1) := hi
  refine node_eq_of_leaves _ _ (fun i hlo hhi => ?_) hpos hlt
  have hleaf := leaf_seed_agree hdigests hfirst hsecond hcommitment hseeds hsalt e
    (show i - 2048 < 2048 by omega)
  rw [leafSeed, leafSeed, show 2048 + (i - 2048) = i by omega] at hleaf
  exact hleaf

/-- Both runs have the same root seeds. -/
theorem root_seeds_agree : first.rootSeeds P = second.rootSeeds P := by
  refine vector_ext fun e => ?_
  have hroot := tree_agree hdigests hfirst hsecond hcommitment hseeds hsalt e
    (show 1 ≤ 2 * 1 by omega) (by omega)
  rw [tree_node_left _ _ _ _ _ (le_refl 1), tree_node_left _ _ _ _ _ (le_refl 1)] at hroot
  exact hroot

/-- The delta of the trees and the partial deltas are the secret. -/
theorem secret_agree : first.secret = second.secret := by
  have hdelta : first.delta = second.delta := by
    have hnode := tree_agree hdigests hfirst hsecond hcommitment hseeds hsalt 0 (le_refl 1)
      (by omega)
    rw [treeNode, treeNode, node_one, node_one] at hnode
    exact hnode
  have htotal : first.total P 0 = second.total P 0 := by
    refine Finset.sum_congr rfl fun j hj => ?_
    rw [expanded, expanded, hsalt,
      leaf_seed_agree hdigests hfirst hsecond hcommitment hseeds hsalt 0 (Finset.mem_range.mp hj)]
  have htail : first.serializedSecret.extract 16 12 secret_tail_le =
      second.serializedSecret.extract 16 12 secret_tail_le := by
    have hpartial := partial_delta_agree hdigests hfirst hsecond hcommitment 0
    rw [partialDelta, partialDelta, htotal] at hpartial
    exact add_right_cancel hpartial
  have hserialized : first.serializedSecret = second.serializedSecret :=
    Bytes.eq_of_extract 16 12 rfl hdelta htail
  refine Vector.ext fun i hi => ?_
  rw [← nibble_packed first.secret i hi (show i / 2 < 28 by omega),
    ← nibble_packed second.secret i hi (show i / 2 < 28 by omega)]
  simp only [serializedSecret] at hserialized
  rw [hserialized]

/-- Both runs return the same state. -/
theorem commitment_agree : first.commitment P = second.commitment P :=
  commitment_of_roots hsalt (secret_agree hdigests hfirst hsecond hcommitment hseeds hsalt)
    (root_seeds_agree hdigests hfirst hsecond hcommitment hseeds hsalt)

end Agreement

/-! ## The opening of a commitment -/

section Opening

variable (P : Primitives) (input : CommitInput) (hiddenIndices : Vector UInt16 12)
variable (h : ∀ e : Fin 12, hiddenIndices[e].toNat < 2048)

/-- The verifier hashes the leaf commitments of the signer. -/
theorem evaluate_leaf_parts (e : Fin 12) :
    (input.evaluateInput P hiddenIndices h).leafParts P e = input.leafParts P e := by
  refine congrArg (List.cons [0x06]) (List.map_congr_left fun j hj => ?_)
  rw [evaluate_leaf_commitment P input hiddenIndices e h (List.mem_range.mp hj)]

/-- The verifier hashes what the signer hashed, the partial deltas being cut in another way. -/
theorem evaluate_overall_parts :
    ((input.evaluateInput P hiddenIndices h).overallParts P).flatten =
      (input.overallParts P).flatten := by
  have hdeltas : ((List.finRange 12).map fun e => (input.partialDelta P e).toList).flatten =
      ((input.evaluateInput P hiddenIndices h).opening.extract 2496 144
        opening_deltas_le).toList := by
    rw [← partial_deltas_flatten]
    refine congrArg List.flatten (List.map_congr_left fun e _ => ?_)
    rw [← evaluate_partial_delta P input hiddenIndices e h]
    rfl
  rw [EvaluateInput.overallParts, overallParts, List.flatten_append, List.flatten_append, hdeltas,
    List.flatten_singleton]
  simp only [evaluate_leaf_hash]

/-- The evaluation of the opening of a commitment repeats calls of `commit`, but for the way in
which the partial deltas are cut. -/
theorem mem_evaluate_calls {call : Call}
    (hcall : call ∈ (input.evaluateInput P hiddenIndices h).calls P) :
    call ∈ input.calls P ∨ ∃ parts, call = .shake128 .overallCommitment parts ∧
      parts.flatten = (input.overallParts P).flatten := by
  rcases List.mem_append.mp hcall with hexecution | hoverall
  · left
    obtain ⟨e, _, he⟩ := List.mem_flatMap.mp hexecution
    rcases List.mem_append.mp he with hleaf | hhash
    · obtain ⟨j, hj, hleafCall⟩ := List.mem_flatMap.mp hleaf
      rw [EvaluateInput.leafCalls] at hleafCall
      split at hleafCall
      · exact absurd hleafCall List.not_mem_nil
      · rename_i hne
        rw [List.mem_singleton.mp hleafCall,
          evaluate_leaf_seed P input hiddenIndices e h (List.mem_range.mp hj) hne]
        exact input.commit_mem_calls P e (List.mem_range.mp hj)
    · rw [List.mem_singleton.mp hhash, evaluate_leaf_parts]
      exact input.leaf_hash_mem_calls P e
  · right
    exact ⟨_, List.mem_singleton.mp hoverall, input.evaluate_overall_parts P hiddenIndices h⟩

/-- It absorbs what `commit` absorbed. -/
theorem absorbed_by_commit {kind : HashKind} {parts : List (List UInt8)}
    (hcall : .shake128 kind parts ∈ (input.evaluateInput P hiddenIndices h).calls P) :
    ∃ parts', .shake128 kind parts' ∈ input.calls P ∧ parts'.flatten = parts.flatten := by
  rcases input.mem_evaluate_calls P hiddenIndices h hcall with hcommitted | ⟨parts', heq, hparts⟩
  · exact ⟨parts, hcommitted, rfl⟩
  · obtain ⟨rfl, rfl⟩ := Call.shake128.inj heq
    exact ⟨input.overallParts P, input.overall_mem_calls P, hparts.symm⟩

end Opening

end CommitInput

/-! ## Binding -/

/-- Calls that absorb what other calls absorb have no collisions of their own. -/
theorem NoDigestCollision.of_flatten {P : Primitives} {kinds : List HashKind}
    {calls calls' : Set Call} (h : NoDigestCollision P kinds calls)
    (hcalls : ∀ kind ∈ kinds, ∀ parts, .shake128 kind parts ∈ calls' →
      ∃ parts', .shake128 kind parts' ∈ calls ∧ parts'.flatten = parts.flatten) :
    NoDigestCollision P kinds calls' := by
  intro kind hkind kind' hkind' parts parts' hcall hcall' hdigest
  obtain ⟨first, hfirst, hflatten⟩ := hcalls kind hkind parts hcall
  obtain ⟨second, hsecond, hflatten'⟩ := hcalls kind' hkind' parts' hcall'
  rw [← hflatten, ← hflatten'] at hdigest ⊢
  exact h kind hkind kind' hkind' first second hfirst hsecond hdigest

/-- A commitment stands for one secret and one state of the signer: two runs of `commit` under one
salt that return the same commitment had the same secret and return the same masks and seeds, unless
their calls contain a collision. -/
theorem commit_binding (P : Primitives) (salt masterSeed masterSeed' : Bytes 16)
    (secret secret' : Vector Gf16 56) {c c' : SigningCommitment}
    (hc : (commit P masterSeed salt secret).outcome = .ok c)
    (hc' : (commit P masterSeed' salt secret').outcome = .ok c')
    (hcommitment : c.commitment = c'.commitment)
    (hdigests : NoDigestCollision P [.leafHash, .overallCommitment]
      {call | call ∈ (commit P masterSeed salt secret).events ∨
        call ∈ (commit P masterSeed' salt secret').events})
    (hseeds : NoSeedCollision P salt {call | call ∈ (commit P masterSeed salt secret).events ∨
      call ∈ (commit P masterSeed' salt secret').events}) :
    secret = secret' ∧ c = c' := by
  let first : CommitInput := ⟨masterSeed, salt, secret⟩
  let second : CommitInput := ⟨masterSeed', salt, secret'⟩
  have hrun := first.commit_eq P
  have hrun' := second.commit_eq P
  simp only [first, second] at hrun hrun'
  rw [hrun, hrun'] at hdigests hseeds
  obtain rfl : first.commitment P = c := by
    rw [hrun, Run.ret_outcome] at hc
    exact Except.ok.inj hc
  obtain rfl : second.commitment P = c' := by
    rw [hrun', Run.ret_outcome] at hc'
    exact Except.ok.inj hc'
  have hfirst : ∀ call ∈ first.calls P, call ∈ {call | call ∈ first.calls P ∨
      call ∈ second.calls P} := fun call hcall => Or.inl hcall
  have hsecond : ∀ call ∈ second.calls P, call ∈ {call | call ∈ first.calls P ∨
      call ∈ second.calls P} := fun call hcall => Or.inr hcall
  exact ⟨CommitInput.secret_agree hdigests hfirst hsecond hcommitment hseeds rfl,
    CommitInput.commitment_agree hdigests hfirst hsecond hcommitment hseeds rfl⟩

/-- `evaluate_opening` accepts one opening of a commitment at given leaves, the one that `open`
returns, and evaluates the signer's lines with its secret as slope, unless the calls contain a
collision. -/
theorem opening_unique (P : Primitives) (masterSeed salt : Bytes 16) (secret : Vector Gf16 56)
    {c : SigningCommitment} (hc : (commit P masterSeed salt secret).outcome = .ok c)
    {opening : Bytes 2640} {hiddenIndices : Vector UInt16 12} {opened : OpenedEvaluations}
    (haccepted : (evaluateOpening P salt c.commitment opening.toList hiddenIndices).outcome =
      .ok opened)
    (hdigests : NoDigestCollision P [.leafHash, .overallCommitment]
      {call | call ∈ (commit P masterSeed salt secret).events ∨
        call ∈ (evaluateOpening P salt c.commitment opening.toList hiddenIndices).events})
    (hseeds : NoSeedCollision P salt {call | call ∈ (commit P masterSeed salt secret).events ∨
      call ∈ (evaluateOpening P salt c.commitment opening.toList hiddenIndices).events}) :
    (c.openAt P hiddenIndices).outcome = .ok opening ∧
      ∀ e : Fin 12,
        (∀ i : Fin 56, opened.x[e][i] =
          c.xZero[e][i] + evaluationPoint hiddenIndices[e] * (secret[i] : Gf16)) ∧
        ∀ k : Fin 8, opened.u[e][k] =
          c.uZero[e][k] + evaluationPoint hiddenIndices[e] * c.uOne[e][k] := by
  let signer : CommitInput := ⟨masterSeed, salt, secret⟩
  have hlt := hidden_lt_of_accepted haccepted
  let input : EvaluateInput := ⟨salt, opening, hiddenIndices, hlt⟩
  have hrun := signer.commit_eq P
  simp only [signer] at hrun
  have hevents := input.evaluate_opening_events P c.commitment
  simp only [input] at hevents
  rw [hrun, hevents] at hdigests hseeds
  obtain rfl : signer.commitment P = c := by
    rw [hrun, Run.ret_outcome] at hc
    exact Except.ok.inj hc
  have hrevealed : (evaluateOpening P input.salt (signer.commitment P).commitment
      input.opening.toList input.hiddenIndices).outcome = .ok opened := haccepted
  obtain ⟨hdigest, hopened⟩ := EvaluateInput.of_accepted hrevealed
  -- the signer's own opening adds no calls that could collide
  let own : EvaluateInput := signer.evaluateInput P hiddenIndices hlt
  let calls : Set Call := {call | (call ∈ signer.calls P ∨ call ∈ input.calls P) ∨
    call ∈ own.calls P}
  have hdigests' : NoDigestCollision P [.leafHash, .overallCommitment] calls := by
    refine hdigests.of_flatten ?_
    rintro kind _ parts (hcall | hown)
    · exact ⟨parts, hcall, rfl⟩
    · rcases signer.mem_evaluate_calls P hiddenIndices hlt hown with hcall | ⟨parts', hcall, hparts⟩
      · exact ⟨parts, Or.inl hcall, rfl⟩
      · obtain ⟨rfl, rfl⟩ := Call.shake128.inj hcall
        exact ⟨_, Or.inl (signer.overall_mem_calls P), hparts.symm⟩
  have hold : ∀ (e : Fin 12) (seed : Bytes 16), commitCall salt (executionByte e) seed ∈ calls →
      commitCall salt (executionByte e) seed ∈
        {call | call ∈ signer.calls P ∨ call ∈ input.calls P} := by
    rintro e seed (hcall | hown)
    · exact hcall
    · rcases signer.mem_evaluate_calls P hiddenIndices hlt hown with hcall | ⟨parts, hcall, _⟩
      · exact Or.inl hcall
      · cases hcall
  have hseeds' : NoSeedCollision P salt calls := by
    intro e seed seed' hcall hcall' hsame
    exact hseeds e seed seed' (hold e seed hcall) (hold e seed' hcall') hsame
  have hopening : opening = own.opening :=
    opening_agree hdigests' (fun call hcall => Or.inl (Or.inr hcall))
      (fun call hcall => Or.inr hcall)
      (hdigest.trans (signer.evaluate_digest P hiddenIndices hlt).symm) hseeds' rfl rfl
  have hinput : input = own := EvaluateInput.ext rfl hopening rfl
  refine ⟨?_, fun e => ⟨fun i => ?_, fun k => ?_⟩⟩
  · rw [signer.open_at_eq P hiddenIndices hlt, Run.ret_outcome, hopening]
    rfl
  · rw [hopened, hinput, Gf16.mul_scalar]
    exact signer.opened_base P hiddenIndices hlt e i
  · rw [hopened, hinput]
    exact signer.opened_mask P hiddenIndices hlt e k

/-! ## Samples -/

/-- The SHAKE128 calls of `commit`. -/
theorem shake_mem_commit_calls {P : Primitives} {input : CommitInput} {kind : HashKind}
    {parts : List (List UInt8)} (hcall : .shake128 kind parts ∈ input.calls P) :
    (∃ e, kind = .leafHash ∧ parts = input.leafParts P e) ∨
      kind = .overallCommitment ∧ parts = input.overallParts P := by
  rcases List.mem_append.mp hcall with hexecution | hoverall
  · obtain ⟨e, _, he⟩ := List.mem_flatMap.mp hexecution
    rcases List.mem_append.mp he with hleaf | hhash
    · obtain ⟨j, _, hj⟩ := List.mem_map.mp hleaf
      cases hj
    · obtain ⟨rfl, rfl⟩ := Call.shake128.inj (List.mem_singleton.mp hhash)
      exact Or.inl ⟨e, rfl, rfl⟩
  · obtain ⟨rfl, rfl⟩ := Call.shake128.inj (List.mem_singleton.mp hoverall)
    exact Or.inr ⟨rfl, rfl⟩

section OneDeriver

variable {P : Primitives} (hderive : ∀ (deriver deriver' : SeedDeriver) (seed : Bytes 16),
  deriver.derive P seed = deriver'.derive P seed)
variable (input : CommitInput) (e e' : Fin 12)
include hderive

namespace CommitInput

/-- When all derivers agree, the executions have one root seed. -/
theorem root_seeds_of_derive : (input.rootSeeds P)[e] = (input.rootSeeds P)[e'] := by
  have hindex : ∀ (e : Fin 12) (i : Nat), i < 16 → (16 * e.val + i) % 16 = i :=
    fun e i hi => by omega
  rw [rootSeeds, getElem_fin, getElem_fin, Vector.getElem_ofFn, Vector.getElem_ofFn]
  apply Bytes.ext_getElem
  intro i hi
  simp only [stream, streamByte, Bytes.getElem_extract, Bytes.getElem_ofFn, hindex _ i hi]
  rw [hderive]

/-- They have one tree. -/
theorem leaf_seed_of_derive (j : Nat) : input.leafSeed P e j = input.leafSeed P e' j := by
  have htree : ∀ root, treeDerive P input.salt (executionByte e) root =
      treeDerive P input.salt (executionByte e') root := by
    intro root
    funext parentIndex parent
    rw [treeDerive, treeDerive]
    split
    · rfl
    · exact hderive _ _ parent
  rw [leafSeed, leafSeed, treeNode, treeNode, htree, input.root_seeds_of_derive hderive e e']

/-- They commit to one list of leaves. -/
theorem leaf_parts_of_derive : input.leafParts P e = input.leafParts P e' := by
  refine congrArg (List.cons [0x06]) (List.map_congr_left fun j _ => ?_)
  rw [leafCommitment, leafCommitment, input.leaf_seed_of_derive hderive e e' j,
    SeedCommitter.commitment, SeedCommitter.commitment,
    hderive (SeedCommitter.new input.salt (executionByte e)).first
      (SeedCommitter.new input.salt (executionByte e')).first,
    hderive (SeedCommitter.new input.salt (executionByte e)).second
      (SeedCommitter.new input.salt (executionByte e')).second]

/-- The strings that `commit` absorbs can then be told by their tags. -/
theorem no_digest_collision_of_derive (hhash : P.shake128 = samplePrimitives.shake128) :
    NoDigestCollision P [.leafHash, .overallCommitment] {call | call ∈ input.calls P} := by
  refine NoDigestCollision.of_preimage (fun digest =>
    if digest.toList.headD 0 = 0x06 then (input.leafParts P 0).flatten
    else (input.overallParts P).flatten) ?_
  intro kind _ parts hmem
  have hcall : .shake128 kind parts ∈ input.calls P := hmem
  rw [hhash]
  obtain ⟨e, _, rfl⟩ | ⟨_, rfl⟩ := shake_mem_commit_calls hcall
  · have hdigest : samplePrimitives.shake128 (input.leafParts P e).flatten 32 =
        sampleHash [0x06] 32 := by
      rw [leafParts, sample_digest 0x06 (by decide)]
    rw [hdigest, if_pos (by decide), input.leaf_parts_of_derive hderive e 0]
  · have hdigest : samplePrimitives.shake128 (input.overallParts P).flatten 32 =
        sampleHash [0x07] 32 := by
      rw [overallParts, List.cons_append, sample_digest 0x07 (by decide)]
    rw [hdigest, if_neg (by decide)]

end CommitInput

end OneDeriver

/-- The first eight bytes of a seed. -/
def seedHead (seed : Bytes 16) : Bytes 16 :=
  Bytes.ofFn fun i => if i.val < 8 then seed[i] else 0

/-- Cutting a seed is additive. -/
theorem seed_head_add (seed seed' : Bytes 16) :
    seedHead (seed + seed') = seedHead seed + seedHead seed' := by
  apply Bytes.ext_getElem
  intro i hi
  by_cases h : i < 8 <;> simp [seedHead, h]

/-- A seed that has been cut stays as it is. -/
theorem seed_head_head (seed : Bytes 16) : seedHead (seedHead seed) = seedHead seed := by
  apply Bytes.ext_getElem
  intro i hi
  by_cases h : i < 8 <;> simp [seedHead, h]

/-- Primitives whose derivers keep the first eight bytes of the seed. -/
def headPrimitives : Primitives :=
  ⟨fun _ seed => linearOrthomorphism seed + seedHead seed, sampleHash⟩

/-- A deriver cuts the seed. -/
theorem head_derive (deriver : SeedDeriver) (seed : Bytes 16) :
    deriver.derive headPrimitives seed = seedHead seed := by
  show linearOrthomorphism seed + seedHead seed + linearOrthomorphism seed = seedHead seed
  rw [add_right_comm, Bytes.add_self, zero_add]

section Head

variable (input : CommitInput)

/-- Master seeds with the same first bytes have the same root seeds. -/
theorem head_root_seeds {input other : CommitInput}
    (h : seedHead input.masterSeed = seedHead other.masterSeed) :
    input.rootSeeds headPrimitives = other.rootSeeds headPrimitives := by
  have hstream : stream headPrimitives 0 0 input.masterSeed 192 =
      stream headPrimitives 0 0 other.masterSeed 192 := by
    apply Bytes.ext_getElem
    intro i hi
    simp only [stream, streamByte, Bytes.getElem_ofFn, head_derive, h]
  rw [CommitInput.rootSeeds, CommitInput.rootSeeds, hstream]

/-- A root seed is the first bytes of the master seed. -/
theorem head_root_seed (e : Fin 12) :
    (input.rootSeeds headPrimitives)[e] = seedHead input.masterSeed := by
  rw [CommitInput.rootSeeds, getElem_fin, Vector.getElem_ofFn]
  apply Bytes.ext_getElem
  intro i hi
  have hindex : (16 * e.val + i) % 16 = i := by omega
  simp only [stream, streamByte, Bytes.getElem_extract, Bytes.getElem_ofFn, head_derive, hindex]

variable (hdelta : seedHead input.delta = input.delta)
include hdelta

/-- Trees that start with eight bytes stay there. -/
theorem head_tree_node (e : Fin 12) (i : Nat) :
    seedHead (treeNode headPrimitives input.salt (executionByte e)
      (input.rootSeeds headPrimitives)[e] input.delta i) =
        treeNode headPrimitives input.salt (executionByte e)
          (input.rootSeeds headPrimitives)[e] input.delta i := by
  induction i using Nat.strong_induction_on with
  | h i ih =>
      rcases Nat.lt_or_ge i 2 with hlt | htwo
      · rw [treeNode, node, if_pos hlt]
        exact hdelta
      · have hparent := ih (i / 2) (by omega)
        have hderive : ∀ parent, seedHead (treeDerive headPrimitives input.salt (executionByte e)
            (input.rootSeeds headPrimitives)[e] (i / 2) parent) =
              treeDerive headPrimitives input.salt (executionByte e)
                (input.rootSeeds headPrimitives)[e] (i / 2) parent := by
          intro parent
          rw [treeDerive]
          split
          · rw [head_root_seed, seed_head_head]
          · rw [head_derive, seed_head_head]
        rw [treeNode] at hparent ⊢
        rw [node_of_two_le _ _ htwo, child]
        split
        · exact hderive _
        · rw [seed_head_add, hderive, hparent]

/-- The seeds that the signer commits to have no collisions. -/
theorem head_no_seed_collision :
    NoSeedCollision headPrimitives input.salt {call | call ∈ input.calls headPrimitives} := by
  have hhead : ∀ (execution : Fin 12) (seed : Bytes 16),
      commitCall input.salt (executionByte execution) seed ∈ input.calls headPrimitives →
        seedHead seed = seed := by
    intro execution seed hcall
    rcases List.mem_append.mp hcall with hexecution | hoverall
    · obtain ⟨e, _, he⟩ := List.mem_flatMap.mp hexecution
      rcases List.mem_append.mp he with hleaf | hhash
      · obtain ⟨j, _, hj⟩ := List.mem_map.mp hleaf
        rw [← (Call.commitSeed.inj hj).2.2]
        exact head_tree_node input hdelta e (2048 + j)
      · cases List.mem_singleton.mp hhash
    · cases List.mem_singleton.mp hoverall
  intro execution seed seed' hcall hcall' h
  have hfirst := congrArg (fun bytes : Bytes 32 => bytes.extract 0 16 (by omega)) h
  simp only [SeedCommitter.commitment, head_derive] at hfirst
  rw [Bytes.extract_append_left, Bytes.extract_append_left] at hfirst
  rw [← hhead execution seed hcall, ← hhead execution seed' hcall', hfirst]

end Head

/-- A signer with a secret of which only the first eight bytes are not zero. -/
def headSigner (second : Bool) : CommitInput where
  masterSeed := Bytes.ofFn fun i => if i.val < 8 ∨ second then 1 else 0
  salt := 0
  secret := Vector.ofFn fun i => if i.val < 16 then 1 else 0

/-- `commit` of this signer returns its commitment. -/
theorem head_signer_commit (second : Bool) :
    commit headPrimitives (headSigner second).masterSeed 0 (headSigner second).secret =
      Run.ret ((headSigner second).commitment headPrimitives)
        ((headSigner second).calls headPrimitives) :=
  (headSigner second).commit_eq headPrimitives

/-- Both master seeds have the same root seeds. -/
theorem head_signer_roots :
    (headSigner false).rootSeeds headPrimitives = (headSigner true).rootSeeds headPrimitives :=
  head_root_seeds (by decide)

/-- The delta has eight bytes. -/
theorem head_signer_delta (second : Bool) :
    seedHead (headSigner second).delta = (headSigner second).delta := by
  cases second <;> decide

/-- Both runs of `commit` make the same calls. -/
theorem head_signer_calls :
    {call | call ∈ (commit headPrimitives (headSigner false).masterSeed 0
        (headSigner false).secret).events ∨
      call ∈ (commit headPrimitives (headSigner true).masterSeed 0
        (headSigner true).secret).events} =
      {call | call ∈ (headSigner false).calls headPrimitives} := by
  have hcalls : (headSigner false).calls headPrimitives = (headSigner true).calls headPrimitives :=
    CommitInput.calls_of_roots rfl rfl head_signer_roots
  ext call
  rw [Set.mem_ofPred_eq, head_signer_commit, head_signer_commit, Run.ret_events, Run.ret_events,
    ← hcalls, or_self]
  rfl

/-- Two master seeds with one commitment. -/
theorem head_signer_commit_binding :
    (headSigner false).secret = (headSigner true).secret ∧
      (headSigner false).commitment headPrimitives = (headSigner true).commitment headPrimitives :=
  commit_binding headPrimitives 0 (headSigner false).masterSeed (headSigner true).masterSeed _ _
    (congrArg Run.outcome (head_signer_commit false))
    (congrArg Run.outcome (head_signer_commit true))
    (congrArg SigningCommitment.commitment
      (CommitInput.commitment_of_roots rfl rfl head_signer_roots))
    (by
      rw [head_signer_calls]
      exact (headSigner false).no_digest_collision_of_derive
        (fun _ _ _ => by rw [head_derive, head_derive]) rfl)
    (by
      rw [head_signer_calls]
      exact head_no_seed_collision (headSigner false) (head_signer_delta false))

/-- A signer whose seeds, salt and secret are zero. -/
def zeroSigner : CommitInput := ⟨0, 0, Vector.replicate 56 0⟩

/-- `commit` of this signer returns its commitment. -/
theorem zero_signer_commit :
    commit samplePrimitives 0 0 (Vector.replicate 56 0) =
      Run.ret (zeroSigner.commitment samplePrimitives) (zeroSigner.calls samplePrimitives) :=
  zeroSigner.commit_eq samplePrimitives

/-- The calls of `commit` with this signer have no collisions. -/
theorem zero_signer_no_collision :
    NoDigestCollision samplePrimitives [.leafHash, .overallCommitment]
      {call | call ∈ zeroSigner.calls samplePrimitives} :=
  zeroSigner.no_digest_collision_of_derive (fun _ _ _ => by rw [sample_derive, sample_derive]) rfl

/-- The opening of the sample at the leaves 1. -/
def zeroSignerOpening : EvaluateInput :=
  zeroSigner.evaluateInput samplePrimitives (sampleIndices true) (sample_indices_lt true)

/-- The verifier accepts the opening of this signer. -/
theorem zero_signer_evaluate :
    evaluateOpening samplePrimitives 0 (zeroSigner.commitment samplePrimitives).commitment
        zeroSignerOpening.opening.toList (sampleIndices true) =
      Run.ret (zeroSignerOpening.opened samplePrimitives)
        (zeroSignerOpening.calls samplePrimitives) := by
  have hdigest : zeroSignerOpening.digest samplePrimitives =
      (zeroSigner.commitment samplePrimitives).commitment :=
    zeroSigner.evaluate_digest samplePrimitives _ (sample_indices_lt true)
  have hrun := zeroSignerOpening.evaluate_opening_eq samplePrimitives
    (zeroSigner.commitment samplePrimitives).commitment
  rw [if_pos hdigest, Run.after_ret, List.append_nil] at hrun
  exact hrun

/-- The sample accepts its own opening. -/
theorem zero_signer_opening_unique :
    ((zeroSigner.commitment samplePrimitives).openAt samplePrimitives
        (sampleIndices true)).outcome = .ok zeroSignerOpening.opening ∧
      ∀ e : Fin 12,
        (∀ i : Fin 56, (zeroSignerOpening.opened samplePrimitives).x[e][i] =
          (zeroSigner.commitment samplePrimitives).xZero[e][i] +
            evaluationPoint (sampleIndices true)[e] *
              ((Vector.replicate 56 (0 : Gf16))[i] : Gf16)) ∧
        ∀ k : Fin 8, (zeroSignerOpening.opened samplePrimitives).u[e][k] =
          (zeroSigner.commitment samplePrimitives).uZero[e][k] +
            evaluationPoint (sampleIndices true)[e] *
              (zeroSigner.commitment samplePrimitives).uOne[e][k] :=
  opening_unique samplePrimitives 0 0 (Vector.replicate 56 0)
    (congrArg Run.outcome zero_signer_commit) (congrArg Run.outcome zero_signer_evaluate)
    (zero_signer_no_collision.of_flatten fun kind _ parts hcall => by
      rw [zero_signer_commit, zero_signer_evaluate] at hcall
      exact hcall.elim (fun hcommit => ⟨parts, hcommit, rfl⟩)
        (CommitInput.absorbed_by_commit samplePrimitives zeroSigner _ (sample_indices_lt true)))
    (sample_no_seed_collision 0 _)

end Mqom
