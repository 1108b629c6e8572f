import Mqom.Blc.Correctness
import Mathlib.Data.Set.Basic

/-!
# Binding

Openings that `evaluate_opening` accepts for one salt and one commitment agree on every leaf that
two of them reveal, unless the calls of the runs contain a collision. So all of them evaluate the
same lines.
-/

namespace Mqom

open Rust Params Library

/-! ## Collisions among the calls of runs -/

/-- No two different strings that are absorbed at sites of these kinds have one digest. -/
def NoDigestCollision (P : Primitives) (kinds : List HashKind) (calls : Set Call) : Prop :=
  ∀ kind ∈ kinds, ∀ kind' ∈ kinds, ∀ parts parts',
    .shake128 kind parts ∈ calls → .shake128 kind' parts' ∈ calls →
      P.shake128 parts.flatten 32 = P.shake128 parts'.flatten 32 → parts.flatten = parts'.flatten

/-- No two different leaf seeds that are committed for one execution have one commitment. -/
def NoSeedCollision (P : Primitives) (salt : Bytes 16) (calls : Set Call) : Prop :=
  ∀ (execution : Fin 12) (seed seed' : Bytes 16),
    commitCall salt (executionByte execution) seed ∈ calls →
      commitCall salt (executionByte execution) seed' ∈ calls →
        (SeedCommitter.new salt (executionByte execution)).commitment P seed =
          (SeedCommitter.new salt (executionByte execution)).commitment P seed' → seed = seed'

/-- Fewer kinds of calls have fewer collisions. -/
theorem NoDigestCollision.mono {P : Primitives} {kinds kinds' : List HashKind} {calls : Set Call}
    (h : NoDigestCollision P kinds' calls) (hsubset : kinds ⊆ kinds') :
    NoDigestCollision P kinds calls :=
  fun kind hkind kind' hkind' => h kind (hsubset hkind) kind' (hsubset hkind')

/-- Strings that can be told from their digests do not collide. -/
theorem NoDigestCollision.of_preimage {P : Primitives} {kinds : List HashKind} {calls : Set Call}
    (preimage : Bytes 32 → List UInt8)
    (h : ∀ kind ∈ kinds, ∀ parts, .shake128 kind parts ∈ calls →
      parts.flatten = preimage (P.shake128 parts.flatten 32)) :
    NoDigestCollision P kinds calls := by
  intro kind hkind kind' hkind' parts parts' hcall hcall' hdigest
  rw [h kind hkind parts hcall, h kind' hkind' parts' hcall', hdigest]

/-- Strings of the same lengths that have one digest are equal one by one. -/
theorem NoDigestCollision.parts_eq {P : Primitives} {kinds : List HashKind} {calls : Set Call}
    (h : NoDigestCollision P kinds calls) {kind : HashKind} (hkind : kind ∈ kinds)
    {parts parts' : List (List UInt8)} (hcall : .shake128 kind parts ∈ calls)
    (hcall' : .shake128 kind parts' ∈ calls)
    (hlengths : parts.map List.length = parts'.map List.length)
    (hdigest : P.shake128 parts.flatten 32 = P.shake128 parts'.flatten 32) : parts = parts' :=
  List.eq_iff_flatten_eq.mpr
    ⟨h kind hkind kind hkind parts parts' hcall hcall' hdigest, hlengths⟩

/-! ## The calls of one run -/

namespace EvaluateInput

variable (P : Primitives) (input : EvaluateInput) (e : Fin 12)

/-- The lengths of the strings that a leaf hash absorbs. -/
theorem leaf_parts_lengths :
    (input.leafParts P e).map List.length = 1 :: (List.range 2048).map fun _ => 32 := by
  rw [leafParts, List.map_cons, List.map_map]
  exact congrArg (List.cons 1) (List.map_congr_left fun j _ => Bytes.length_toList _)

/-- The lengths of the strings that the first commitment absorbs. -/
theorem overall_parts_lengths :
    (input.overallParts P).map List.length =
      1 :: (List.finRange 12).map (fun _ => 32) ++ [144] := by
  rw [overallParts, List.map_append, List.map_cons, List.map_map, List.map_singleton,
    Bytes.length_toList]
  exact congrArg (fun lengths => 1 :: lengths ++ [144])
    (List.map_congr_left fun e _ => Bytes.length_toList _)

/-- The leaf hash of every execution is among the calls. -/
theorem leaf_hash_mem_calls : .shake128 .leafHash (input.leafParts P e) ∈ input.calls P :=
  List.mem_append_left _ (List.mem_flatMap.mpr
    ⟨e, List.mem_finRange e, List.mem_append_right _ List.mem_cons_self⟩)

/-- So is the first commitment. -/
theorem overall_mem_calls : .shake128 .overallCommitment (input.overallParts P) ∈ input.calls P :=
  List.mem_append_right _ List.mem_cons_self

/-- So is the commitment to every revealed seed. -/
theorem commit_mem_calls {j : Nat} (hj : j < 2048) (hne : j ≠ input.hidden e) :
    commitCall input.salt (executionByte e) (input.leafSeed P e j) ∈ input.calls P := by
  have hleaf : commitCall input.salt (executionByte e) (input.leafSeed P e j) ∈
      input.leafCalls P e j := by
    rw [leafCalls, if_neg hne]
    exact List.mem_cons_self
  exact List.mem_append_left _ (List.mem_flatMap.mpr ⟨e, List.mem_finRange e,
    List.mem_append_left _ (List.mem_flatMap.mpr ⟨j, List.mem_range.mpr hj, hleaf⟩)⟩)

end EvaluateInput

/-! ## Two openings of one commitment -/

section Agreement

variable {P : Primitives} {calls : Set Call} {first second : EvaluateInput}
variable (hdigests : NoDigestCollision P [.leafHash, .overallCommitment] calls)
variable (hfirst : ∀ call ∈ first.calls P, call ∈ calls)
variable (hsecond : ∀ call ∈ second.calls P, call ∈ calls)
variable (hdigest : first.digest P = second.digest P)
include hdigests hfirst hsecond hdigest

/-- The digest stands for the strings that it is computed from. -/
theorem overall_parts_agree : first.overallParts P = second.overallParts P :=
  hdigests.parts_eq (List.mem_cons_of_mem _ List.mem_cons_self)
    (hfirst _ (first.overall_mem_calls P)) (hsecond _ (second.overall_mem_calls P))
    (by rw [first.overall_parts_lengths, second.overall_parts_lengths]) hdigest

/-- Both openings have the same bytes of partial deltas. -/
theorem delta_bytes_agree :
    first.opening.extract 2496 144 opening_deltas_le =
      second.opening.extract 2496 144 opening_deltas_le := by
  have hparts := overall_parts_agree hdigests hfirst hsecond hdigest
  exact Bytes.toList_injective (List.singleton_inj.mp (List.append_inj_right' hparts rfl))

/-- Both openings have the same partial deltas. -/
theorem partial_delta_agree (e : Fin 12) :
    first.parts.partialDeltas e = second.parts.partialDeltas e := by
  have hpart : ∀ input : EvaluateInput, input.parts.partialDeltas e =
      (input.opening.extract 2496 144 (by omega)).extract (e * 12) 12 (by omega) :=
    fun input => (Bytes.extract_extract _ _ _).symm
  rw [hpart, hpart, delta_bytes_agree hdigests hfirst hsecond hdigest]

/-- Both openings have the same leaf hashes. -/
theorem leaf_hash_agree (e : Fin 12) : first.leafHash P e = second.leafHash P e := by
  have hparts := overall_parts_agree hdigests hfirst hsecond hdigest
  have hhashes := (List.cons.inj (List.append_inj_left' hparts rfl)).2
  exact Bytes.toList_injective (List.map_inj_left.mp hhashes e (List.mem_finRange e))

/-- Both openings commit to the same leaf commitments. -/
theorem leaf_commitment_agree (e : Fin 12) {j : Nat} (hj : j < 2048) :
    first.leafCommitment P e j = second.leafCommitment P e j := by
  have hparts := hdigests.parts_eq List.mem_cons_self
    (hfirst _ (first.leaf_hash_mem_calls P e)) (hsecond _ (second.leaf_hash_mem_calls P e))
    (by rw [first.leaf_parts_lengths, second.leaf_parts_lengths])
    (leaf_hash_agree hdigests hfirst hsecond hdigest e)
  exact Bytes.toList_injective
    (List.map_inj_left.mp (List.cons.inj hparts).2 j (List.mem_range.mpr hj))

variable (hseeds : NoSeedCollision P first.salt calls) (hsalt : first.salt = second.salt)
include hseeds hsalt

/-- A leaf that both openings reveal has one seed. -/
theorem leaf_seed_agree (e : Fin 12) {j : Nat} (hj : j < 2048) (hne : j ≠ first.hidden e)
    (hne' : j ≠ second.hidden e) : first.leafSeed P e j = second.leafSeed P e j := by
  have hcommitment := leaf_commitment_agree hdigests hfirst hsecond hdigest e hj
  rw [EvaluateInput.leafCommitment, EvaluateInput.leafCommitment, if_neg hne, if_neg hne',
    ← hsalt] at hcommitment
  have hcall := hsecond _ (second.commit_mem_calls P e hj hne')
  rw [← hsalt] at hcall
  exact hseeds e _ _ (hfirst _ (first.commit_mem_calls P e hj hne)) hcall hcommitment

/-- A leaf that both openings reveal has one expansion. -/
theorem expanded_agree (e : Fin 12) {j : Nat} (hj : j < 2048) (hne : j ≠ first.hidden e)
    (hne' : j ≠ second.hidden e) : first.expanded P e j = second.expanded P e j := by
  rw [EvaluateInput.expanded, EvaluateInput.expanded, if_neg hne, if_neg hne',
    leaf_seed_agree hdigests hfirst hsecond hdigest hseeds hsalt e hj hne hne', hsalt]

/-- Openings of one commitment at the same leaves are equal. -/
theorem opening_agree (hindices : first.hiddenIndices = second.hiddenIndices) :
    first.opening = second.opening := by
  have hhidden : ∀ e, first.hidden e = second.hidden e := fun e => by
    rw [EvaluateInput.hidden, EvaluateInput.hidden, hindices]
  have hparts : first.parts = second.parts := by
    refine OpeningParts.ext (funext fun e => ?_) (funext fun e => ?_) (funext fun e => ?_)
    · -- the leaves of the forests agree, the hidden one being missing in both
      refine path_eq_of_forest P first.salt (executionByte e) 0 _ (first.hidden_lt e)
        fun j hj => ?_
      by_cases hne : j = first.hidden e
      · have hmissing : ∀ path, forest P first.salt (executionByte e) 0 path (first.hidden e)
            (2048 + j) = none := fun path => by
          have hiff := forest_leaf_is_some_iff P first.salt (executionByte e) 0 path
            (first.hidden_lt e) hj
          rw [← Option.not_isSome_iff_eq_none]
          exact fun hsome => hiff.mp hsome hne
        exact congrArg (Option.getD · 0) ((hmissing _).trans (hmissing _).symm)
      · have hseed := leaf_seed_agree hdigests hfirst hsecond hdigest hseeds hsalt e hj hne
          (by rw [← hhidden]; exact hne)
        rw [EvaluateInput.leafSeed, EvaluateInput.leafSeed, ← hsalt, ← hhidden] at hseed
        exact hseed
    · have hlt : first.hidden e < 2048 := first.hidden_lt e
      have hcommitment := leaf_commitment_agree hdigests hfirst hsecond hdigest e hlt
      rw [EvaluateInput.leafCommitment, EvaluateInput.leafCommitment, if_pos rfl,
        if_pos (hhidden e)] at hcommitment
      exact hcommitment
    · exact partial_delta_agree hdigests hfirst hsecond hdigest e
  rw [← OpeningParts.encode_decode first.opening, ← OpeningParts.encode_decode second.opening]
  exact congrArg OpeningParts.encode hparts

end Agreement

/-! ## Lines of openings -/

/-- The sum of the leaves and the partial delta: the bytes of the slopes. -/
def slopeBytes (item : Nat → Bytes 44) (partialDelta : Bytes 12) : Bytes 44 :=
  ∑ j ∈ Finset.range 2048, item j + deltaOffset partialDelta

/-- The slope of the base vector. -/
def baseSlope (item : Nat → Bytes 44) (partialDelta : Bytes 12) : Vector Gf16 56 :=
  unpacked 56 ((slopeBytes item partialDelta).extract 0 28 leaf_base_le) secret_elements_le

namespace EvaluateInput

variable {P : Primitives} {input : EvaluateInput} {e : Fin 12} {item : Nat → Bytes 44}
variable {partialDelta : Bytes 12}

/-- The opened base vector lies on the line of the items that the opening reveals. -/
theorem opened_base_line
    (hitem : ∀ j < 2048, j ≠ input.hidden e → input.expanded P e j = item j)
    (hdelta : input.parts.partialDeltas e = partialDelta) (i : Fin 56) :
    (input.opened P).x[e][i] = weightedSum (baseAt i) item +
      evaluationPoint input.hiddenIndices[e] *
        Gf16.toExt (baseSlope item partialDelta)[i] := by
  have hline := input.evaluation_at_line P e hitem (baseAt i)
  rw [hdelta, ← slopeBytes, base_at_apply, hiddenPoint, hidden, ← evaluation_point_eq,
    getElem_fin] at hline
  simp only [opened, evaluated, getElem_fin, Vector.getElem_ofFn, Fin.eta, baseSlope,
    getElem_unpacked]
  with_reducible exact hline

/-- The opened mask lies on the line of the items that the opening reveals. -/
theorem opened_mask_line
    (hitem : ∀ j < 2048, j ≠ input.hidden e → input.expanded P e j = item j)
    (hdelta : input.parts.partialDeltas e = partialDelta) (k : Fin 8) :
    (input.opened P).u[e][k] = weightedSum (maskAt k) item +
      evaluationPoint input.hiddenIndices[e] * maskAt k (slopeBytes item partialDelta) := by
  have hline := input.evaluation_at_line P e hitem (maskAt k)
  rw [hdelta, ← slopeBytes, hiddenPoint, hidden, ← evaluation_point_eq, getElem_fin] at hline
  simp only [opened, evaluated, getElem_fin, Vector.getElem_ofFn, Fin.eta]
  with_reducible exact hline

end EvaluateInput

/-! ## Families of openings -/

/-- The expansion of a leaf in an opening that reveals it, and zero when none does. -/
noncomputable def revealedLeaf {ι : Type} (P : Primitives) (input : ι → EvaluateInput) (e : Fin 12)
    (j : Nat) : Bytes 44 :=
  open Classical in
  if h : ∃ r, j ≠ (input r).hidden e then (input h.choose).expanded P e j else 0

/-- Every member of a family of openings of one commitment has the revealed leaves. -/
theorem expanded_eq_revealed_leaf {ι : Type} {P : Primitives} {calls : Set Call}
    {input : ι → EvaluateInput} {salt : Bytes 16} {digest : Bytes 32}
    (hdigests : NoDigestCollision P [.leafHash, .overallCommitment] calls)
    (hseeds : NoSeedCollision P salt calls)
    (hcalls : ∀ r, ∀ call ∈ (input r).calls P, call ∈ calls)
    (hdigest : ∀ r, (input r).digest P = digest) (hsalt : ∀ r, (input r).salt = salt) (r : ι)
    (e : Fin 12) {j : Nat} (hj : j < 2048) (hne : j ≠ (input r).hidden e) :
    (input r).expanded P e j = revealedLeaf P input e j := by
  have hrevealed : ∃ r, j ≠ (input r).hidden e := ⟨r, hne⟩
  rw [revealedLeaf, dif_pos hrevealed]
  exact expanded_agree hdigests (hcalls r) (hcalls _) ((hdigest r).trans (hdigest _).symm)
    (by rw [hsalt r]; exact hseeds) ((hsalt r).trans (hsalt _).symm) e hj hne hrevealed.choose_spec

/-- All openings that `evaluate_opening` accepts for one salt and one commitment evaluate one line
in each execution, whose slope for the vector `x` lies in the small field. -/
theorem accepted_openings_on_line {ι : Type} (P : Primitives) (salt : Bytes 16)
    (expected : Bytes 32) (opening : ι → Bytes 2640) (hiddenIndices : ι → Vector UInt16 12)
    (opened : ι → OpenedEvaluations)
    (haccepted : ∀ r, (evaluateOpening P salt expected (opening r).toList
      (hiddenIndices r)).outcome = .ok (opened r))
    (hdigests : NoDigestCollision P [.leafHash, .overallCommitment] {call | ∃ r, call ∈
      (evaluateOpening P salt expected (opening r).toList (hiddenIndices r)).events})
    (hseeds : NoSeedCollision P salt {call | ∃ r, call ∈
      (evaluateOpening P salt expected (opening r).toList (hiddenIndices r)).events})
    (e : Fin 12) :
    ∃ (xZero : Vector Gf256x2 56) (secret : Vector Gf16 56) (uZero uOne : Vector Gf256x2 8), ∀ r,
      (∀ i : Fin 56, (opened r).x[e][i] =
        xZero[i] + evaluationPoint (hiddenIndices r)[e] * (secret[i] : Gf16)) ∧
      ∀ k : Fin 8, (opened r).u[e][k] =
        uZero[k] + evaluationPoint (hiddenIndices r)[e] * uOne[k] := by
  let input : ι → EvaluateInput := fun r =>
    ⟨salt, opening r, hiddenIndices r, hidden_lt_of_accepted (haccepted r)⟩
  have hopened : ∀ r, (input r).digest P = expected ∧ opened r = (input r).opened P :=
    fun r => EvaluateInput.of_accepted (haccepted r)
  have hcalls : ∀ r, ∀ call ∈ (input r).calls P, call ∈ {call | ∃ r, call ∈
      (evaluateOpening P salt expected (opening r).toList (hiddenIndices r)).events} :=
    fun r call hcall => ⟨r, by rwa [(input r).evaluate_opening_events P expected]⟩
  -- the leaves and the partial delta that all runs share
  have hleaves := fun r j (hj : j < 2048) (hne : j ≠ (input r).hidden e) =>
    expanded_eq_revealed_leaf hdigests hseeds hcalls (fun r => (hopened r).1) (fun _ => rfl) r e
      hj hne
  have hdeltas : ∀ r r', (input r).parts.partialDeltas e = (input r').parts.partialDeltas e :=
    fun r r' => partial_delta_agree hdigests (hcalls r) (hcalls r')
      ((hopened r).1.trans (hopened r').1.symm) e
  have hdelta : ∃ partialDelta, ∀ r, (input r).parts.partialDeltas e = partialDelta := by
    by_cases hinhabited : Nonempty ι
    · obtain ⟨r₀⟩ := hinhabited
      exact ⟨_, fun r => hdeltas r r₀⟩
    · exact ⟨0, fun r => absurd ⟨r⟩ hinhabited⟩
  obtain ⟨partialDelta, hdelta⟩ := hdelta
  refine ⟨Vector.ofFn fun i => weightedSum (baseAt i) (revealedLeaf P input e),
    baseSlope (revealedLeaf P input e) partialDelta,
    Vector.ofFn fun k => weightedSum (maskAt k) (revealedLeaf P input e),
    Vector.ofFn fun k => maskAt k (slopeBytes (revealedLeaf P input e) partialDelta),
    fun r => ⟨fun i => ?_, fun k => ?_⟩⟩
  · rw [(hopened r).2, EvaluateInput.opened_base_line (hleaves r) (hdelta r) i, Gf16.mul_scalar,
      getElem_fin (Vector.ofFn _), Vector.getElem_ofFn]
  · rw [(hopened r).2, EvaluateInput.opened_mask_line (hleaves r) (hdelta r) k,
      getElem_fin (Vector.ofFn _), Vector.getElem_ofFn, getElem_fin (Vector.ofFn _),
      Vector.getElem_ofFn]

/-! ## A sample -/

/-- A hash that repeats the first absorbed byte, or the first byte of the nonce in the challenge.
The byte of the grinding bits is zero. -/
def sampleHash (absorbed : List UInt8) (n : Nat) : Bytes n :=
  Bytes.ofFn fun i =>
    if i.val = 24 then 0
    else match absorbed with
      | 0x05 :: rest => rest.getD 32 0
      | first :: _ => first
      | [] => 0

/-- Primitives under which the openings of zeros have no collisions. -/
def samplePrimitives : Primitives := ⟨fun _ _ => 0, sampleHash⟩

/-- Without AES a deriver is the orthomorphism. -/
theorem sample_derive (deriver : SeedDeriver) (seed : Bytes 16) :
    deriver.derive samplePrimitives seed = linearOrthomorphism seed :=
  zero_add (linearOrthomorphism seed)

/-- The orthomorphism is injective. -/
theorem linear_orthomorphism_injective : Function.Injective linearOrthomorphism := by
  intro seed seed' h
  have hlow := congrArg (fun bytes : Bytes 16 => bytes.extract 8 8 (by omega)) h
  have hhigh := congrArg (fun bytes : Bytes 16 => bytes.extract 0 8 (by omega)) h
  simp only [linearOrthomorphism, Bytes.extract_append_right, Bytes.extract_append_left]
    at hlow hhigh
  rw [hlow] at hhigh
  exact Bytes.eq_of_extract 8 8 rfl hlow (add_right_cancel hhigh)

/-- So no two seeds have one commitment. -/
theorem sample_no_seed_collision (salt : Bytes 16) (calls : Set Call) :
    NoSeedCollision samplePrimitives salt calls := by
  intro execution seed seed' _ _ h
  have hfirst := congrArg (fun bytes : Bytes 32 => bytes.extract 0 16 (by omega)) h
  simp only [SeedCommitter.commitment, sample_derive] at hfirst
  rw [Bytes.extract_append_left, Bytes.extract_append_left] at hfirst
  exact linear_orthomorphism_injective hfirst

/-- The opening of zeros at some leaves. -/
def zeroOpening (salt : Bytes 16) (hiddenIndices : Vector UInt16 12)
    (h : ∀ e : Fin 12, hiddenIndices[e].toNat < 2048) : EvaluateInput :=
  ⟨salt, 0, hiddenIndices, h⟩

section Zero

variable (salt : Bytes 16) (hiddenIndices : Vector UInt16 12)
variable (h : ∀ e : Fin 12, hiddenIndices[e].toNat < 2048) (e : Fin 12)

/-- The tree of a zero root and a zero delta holds zeros. -/
theorem sample_tree_node (i : Nat) :
    treeNode samplePrimitives salt (executionByte e) 0 0 i = 0 := by
  induction i using Nat.strong_induction_on with
  | h i ih =>
      rcases Nat.lt_or_ge i 2 with hlt | htwo
      · rw [treeNode, node, if_pos hlt]
      · have hparent := ih (i / 2) (by omega)
        have hderive : treeDerive samplePrimitives salt (executionByte e) 0 (i / 2) 0 = 0 := by
          rw [treeDerive]
          split
          · rfl
          · exact sample_derive _ 0
        rw [treeNode] at hparent ⊢
        rw [node_of_two_le _ _ htwo, hparent, child, hderive, add_zero, ite_self]

/-- The revealed seeds are zero. -/
theorem zero_leaf_seed {j : Nat} (hj : j < 2048) (hne : j ≠ hiddenIndices[e].toNat) :
    (zeroOpening salt hiddenIndices h).leafSeed samplePrimitives e j = 0 := by
  have hpath : (zeroOpening salt hiddenIndices h).parts.paths e = pathOf fun k =>
      treeNode samplePrimitives salt (executionByte e) 0 0
        (sibling (2048 + hiddenIndices[e].toNat) k) := by
    apply Bytes.ext_getElem
    intro k hk
    have hzero : (zeroOpening salt hiddenIndices h).parts.paths e = 0 :=
      Bytes.extract_zero (e * 176) 176 (by omega)
    simp [sample_tree_node, pathOf, hzero]
  rw [EvaluateInput.leafSeed, hpath]
  exact (forest_leaf_of_tree samplePrimitives salt (executionByte e) 0 (h e) 0 0 hj hne).trans
    (sample_tree_node salt e _)

/-- All leaf commitments are zero. -/
theorem zero_leaf_commitment {j : Nat} (hj : j < 2048) :
    (zeroOpening salt hiddenIndices h).leafCommitment samplePrimitives e j = 0 := by
  rw [EvaluateInput.leafCommitment]
  split
  · exact Bytes.extract_zero (2112 + e * 32) 32 (by omega)
  · rename_i hne
    rw [zero_leaf_seed salt hiddenIndices h e hj hne, SeedCommitter.commitment, sample_derive,
      sample_derive]
    rfl

/-- The revealed leaves expand to zeros. -/
theorem zero_expanded {j : Nat} (hj : j < 2048) :
    (zeroOpening salt hiddenIndices h).expanded samplePrimitives e j = 0 := by
  rw [EvaluateInput.expanded]
  split
  · rfl
  · rename_i hne
    have hblock : ∀ deriver : SeedDeriver, deriver.derive samplePrimitives 0 = 0 :=
      fun deriver => sample_derive deriver 0
    have hstream : stream samplePrimitives salt (executionByte e) 0 28 = 0 := by
      apply Bytes.ext_getElem
      intro i hi
      simp only [stream, streamByte, hblock, Bytes.getElem_ofFn, Bytes.getElem_zero]
    rw [zero_leaf_seed salt hiddenIndices h e hj hne]
    exact congrArg (Bytes.append 0) hstream

/-- All evaluations are zero. -/
theorem zero_evaluation_at (read : Bytes 44 →+ Gf256x2) :
    (zeroOpening salt hiddenIndices h).evaluationAt samplePrimitives e read = 0 := by
  have hdelta : (zeroOpening salt hiddenIndices h).parts.partialDeltas e = 0 :=
    Bytes.extract_zero (2496 + e * 12) 12 (by omega)
  have hexpanded : ∀ j ∈ Finset.range 2048,
      (zeroOpening salt hiddenIndices h).expanded samplePrimitives e j = 0 :=
    fun j hj => zero_expanded salt hiddenIndices h e (Finset.mem_range.mp hj)
  have hoffset : deltaOffset 0 = 0 := rfl
  rw [EvaluateInput.evaluationAt, EvaluateInput.adjustedTotal, weightedSum,
    Finset.sum_eq_zero hexpanded, hdelta, hoffset, add_zero, map_zero, mul_zero, add_zero]
  refine Finset.sum_eq_zero fun j hj => ?_
  rw [hexpanded j hj, map_zero, mul_zero]

/-- The opened values are zero. -/
theorem zero_opened :
    (zeroOpening salt hiddenIndices h).opened samplePrimitives =
      ⟨Vector.replicate 12 (Vector.replicate 56 0),
        Vector.replicate 12 (Vector.replicate 8 0)⟩ := by
  simp only [EvaluateInput.opened, EvaluateInput.evaluated, zero_evaluation_at]
  refine congrArg₂ OpenedEvaluations.mk (vector_ext fun e => vector_ext fun i => ?_)
    (vector_ext fun e => vector_ext fun i => ?_) <;> simp

/-- The strings of a leaf hash are a tag and zeros. -/
theorem zero_leaf_parts :
    (zeroOpening salt hiddenIndices h).leafParts samplePrimitives e =
      [0x06] :: (List.range 2048).map fun _ => (0 : Bytes 32).toList := by
  refine congrArg (List.cons [0x06]) (List.map_congr_left fun j hj => ?_)
  rw [zero_leaf_commitment salt hiddenIndices h e (List.mem_range.mp hj)]

/-- The hash of strings of which the first is a tag byte. -/
theorem sample_digest (tag : UInt8) (htag : tag ≠ 0x05) (parts : List (List UInt8)) (n : Nat) :
    samplePrimitives.shake128 ([tag] :: parts).flatten n = sampleHash [tag] n := by
  rw [List.flatten_cons, List.singleton_append]
  apply Bytes.ext_getElem
  intro i hi
  simp only [samplePrimitives, sampleHash, Bytes.getElem_ofFn]

/-- The leaf hashes repeat their tag. -/
theorem zero_leaf_hash :
    (zeroOpening salt hiddenIndices h).leafHash samplePrimitives e = sampleHash [0x06] 32 := by
  rw [EvaluateInput.leafHash, EvaluateInput.leafParts, sample_digest 0x06 (by decide)]

/-- The strings of the first commitment are a tag, these hashes and zeros. -/
theorem zero_overall_parts :
    (zeroOpening salt hiddenIndices h).overallParts samplePrimitives =
      [0x07] :: (List.finRange 12).map (fun _ => (sampleHash [0x06] 32).toList) ++
        [(0 : Bytes 144).toList] := by
  have hdeltas : (zeroOpening salt hiddenIndices h).opening.extract 2496 144 (by omega) = 0 :=
    Bytes.extract_zero 2496 144 (by omega)
  rw [EvaluateInput.overallParts, hdeltas]
  simp only [zero_leaf_hash]

/-- The first commitment repeats its tag. -/
theorem zero_digest :
    (zeroOpening salt hiddenIndices h).digest samplePrimitives = sampleHash [0x07] 32 := by
  rw [EvaluateInput.digest, EvaluateInput.overallParts, List.cons_append,
    sample_digest 0x07 (by decide)]

/-- The strings that the openings of zeros absorb, by the first byte of the digest. -/
def samplePreimage (digest : Bytes 32) : List UInt8 :=
  if digest[0] = 0x06 then
    ([0x06] :: (List.range 2048).map fun _ => (0 : Bytes 32).toList).flatten
  else ([0x07] :: (List.finRange 12).map (fun _ => (sampleHash [0x06] 32).toList) ++
    [(0 : Bytes 144).toList]).flatten

/-- The string of a leaf hash can be told from the hash. -/
theorem zero_leaf_preimage :
    ((zeroOpening salt hiddenIndices h).leafParts samplePrimitives e).flatten =
      samplePreimage ((zeroOpening salt hiddenIndices h).leafHash samplePrimitives e) := by
  rw [zero_leaf_hash, zero_leaf_parts, samplePreimage, if_pos (by decide)]

/-- So can the string of the first commitment. -/
theorem zero_overall_preimage :
    ((zeroOpening salt hiddenIndices h).overallParts samplePrimitives).flatten =
      samplePreimage ((zeroOpening salt hiddenIndices h).digest samplePrimitives) := by
  rw [zero_digest, zero_overall_parts, samplePreimage, if_neg (by decide)]

/-- The SHAKE128 calls of an opening. -/
theorem shake_mem_calls {P : Primitives} {input : EvaluateInput} {kind : HashKind}
    {parts : List (List UInt8)} (hcall : .shake128 kind parts ∈ input.calls P) :
    (∃ e, kind = .leafHash ∧ parts = input.leafParts P e) ∨
      kind = .overallCommitment ∧ parts = input.overallParts P := by
  rcases List.mem_append.mp hcall with hexecution | hoverall
  · obtain ⟨e, _, he⟩ := List.mem_flatMap.mp hexecution
    rcases List.mem_append.mp he with hleaf | hhash
    · obtain ⟨j, _, hj⟩ := List.mem_flatMap.mp hleaf
      rw [EvaluateInput.leafCalls] at hj
      split at hj
      · exact absurd hj List.not_mem_nil
      · cases List.mem_singleton.mp hj
    · obtain ⟨rfl, rfl⟩ := Call.shake128.inj (List.mem_singleton.mp hhash)
      exact Or.inl ⟨e, rfl, rfl⟩
  · obtain ⟨rfl, rfl⟩ := Call.shake128.inj (List.mem_singleton.mp hoverall)
    exact Or.inr ⟨rfl, rfl⟩

/-- The openings of zeros absorb nothing else. -/
theorem zero_preimage {kind : HashKind} {parts : List (List UInt8)}
    (hcall : .shake128 kind parts ∈ (zeroOpening salt hiddenIndices h).calls samplePrimitives) :
    parts.flatten = samplePreimage (samplePrimitives.shake128 parts.flatten 32) := by
  obtain ⟨e, rfl, rfl⟩ | ⟨rfl, rfl⟩ := shake_mem_calls hcall
  · exact zero_leaf_preimage salt hiddenIndices h e
  · exact zero_overall_preimage salt hiddenIndices h

end Zero

/-- The hidden indices of two openings of zeros. -/
def sampleIndices (second : Bool) : Vector UInt16 12 :=
  Vector.replicate 12 (if second then 1 else 0)

/-- The hidden indices are leaves. -/
theorem sample_indices_lt (second : Bool) (e : Fin 12) :
    (sampleIndices second)[e].toNat < 2048 := by
  cases second <;> simp [sampleIndices]

/-- Both openings are accepted. -/
theorem sample_opening_accepted (second : Bool) :
    (evaluateOpening samplePrimitives 0 (sampleHash [0x07] 32) (0 : Bytes 2640).toList
      (sampleIndices second)).outcome =
        .ok ((zeroOpening 0 _ (sample_indices_lt second)).opened samplePrimitives) := by
  have haccepted := (zeroOpening 0 _ (sample_indices_lt second)).evaluate_opening_eq
    samplePrimitives (sampleHash [0x07] 32)
  rw [if_pos (zero_digest 0 _ (sample_indices_lt second))] at haccepted
  exact congrArg Run.outcome haccepted

/-- The two runs have no collisions of digests. -/
theorem sample_no_digest_collision :
    NoDigestCollision samplePrimitives [.leafHash, .overallCommitment] {call | ∃ second, call ∈
      (evaluateOpening samplePrimitives 0 (sampleHash [0x07] 32) (0 : Bytes 2640).toList
        (sampleIndices second)).events} := by
  refine NoDigestCollision.of_preimage samplePreimage ?_
  rintro kind _ parts ⟨second, hcall⟩
  have hevents := (zeroOpening 0 _ (sample_indices_lt second)).evaluate_opening_events
    samplePrimitives (sampleHash [0x07] 32)
  rw [show (evaluateOpening samplePrimitives 0 (sampleHash [0x07] 32) (0 : Bytes 2640).toList
    (sampleIndices second)).events = _ from hevents] at hcall
  exact zero_preimage 0 _ _ hcall

/-- Two openings of zeros at different leaves. -/
theorem zero_openings_on_line :
    ∃ (xZero : Vector Gf256x2 56) (secret : Vector Gf16 56) (uZero uOne : Vector Gf256x2 8),
      ∀ second,
      (∀ i : Fin 56,
        ((zeroOpening 0 _ (sample_indices_lt second)).opened samplePrimitives).x[0][i] =
        xZero[i] + evaluationPoint (sampleIndices second)[0] * (secret[i] : Gf16)) ∧
      ∀ k : Fin 8, ((zeroOpening 0 _ (sample_indices_lt second)).opened samplePrimitives).u[0][k] =
        uZero[k] + evaluationPoint (sampleIndices second)[0] * uOne[k] :=
  accepted_openings_on_line samplePrimitives 0 (sampleHash [0x07] 32) (fun _ => 0) sampleIndices _
    sample_opening_accepted sample_no_digest_collision (sample_no_seed_collision 0 _) 0

end Mqom
