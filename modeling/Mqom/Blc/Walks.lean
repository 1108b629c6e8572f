import Mqom.Blc.Forest
import Mqom.Library.Sums

/-!
# The walks as a whole

What the three walks through the tree have to do with each other, and what the partial expansion
does with a path that need not come from any tree.
-/

namespace Mqom

open Rust Params Library

/-- The XOR of a list of seeds. -/
def xorAll (seeds : List (Bytes 16)) : Bytes 16 :=
  seeds.foldl (· ^^^ ·) 0

/-- The XOR of seeds is their sum. -/
theorem xor_all_eq (seeds : List (Bytes 16)) : xorAll seeds = seeds.sum := by
  have hsum := foldl_add_eq_sum id seeds 0
  rw [zero_add, List.map_id] at hsum
  exact hsum

/-- An entry of a table that is in bounds. -/
theorem table_at {α : Type} {n : Nat} (entry : Nat → α) {i : Nat} (h : i < n) :
    (tableOf n entry)[i]? = some (entry i) := by
  rw [Vector.getElem?_eq_getElem h]
  simp [tableOf]

section Walks

variable (P : Primitives) (salt : Bytes 16) (execution : UInt8)

/-- The leaves of the full tree. -/
theorem table_leaf (rootSeed delta : Bytes 16) {j : Nat} (hj : j < 2048) :
    (tableOf 4096 (expandedUpTo P salt execution rootSeed delta 2048))[2048 + j]? =
      some (treeNode P salt execution rootSeed delta (2048 + j)) := by
  rw [table_at _ (by omega), expandedUpTo, if_pos (by omega)]

/-- A leaf that is in bounds. -/
theorem leaf_list_at (label : Nat → Bytes 16) {j : Nat} (hj : j < 2048) :
    (leafList label)[j]? = some (label (2048 + j)) := by
  rw [List.getElem?_eq_getElem (by simpa using hj), getElem_leaf_list]

/-- The hidden leaf of a forest is missing. -/
theorem forest_hidden (rootSeed : Bytes 16) (path : Bytes 176) {hiddenIndex : Nat}
    (h : hiddenIndex < 2048) :
    forest P salt execution rootSeed path hiddenIndex (2048 + hiddenIndex) = none := by
  have hiff := forest_leaf_is_some_iff P salt execution rootSeed path h h
  rw [← Option.not_isSome_iff_eq_none, hiff]
  exact fun hne => hne rfl

/-- The three walks agree. `opening_path` returns the hidden leaf of the full tree, the partial
expansion of the path it writes has the other leaves and zero in its place, and the leaves of the
full tree add up to the delta. -/
theorem tree_walks_agree (rootSeed delta : Bytes 16) {hiddenIndex : Nat} (h : hiddenIndex < 2048)
    (buffer : Bytes 176) :
    ∃ nodes leaf path leaves,
      (fullyExpandTree P salt rootSeed delta execution).outcome = .ok nodes ∧
      (openingPath P salt rootSeed delta execution hiddenIndex buffer).outcome =
        .ok (leaf, path) ∧
      (partiallyExpandTree P salt path.toList execution hiddenIndex).outcome = .ok leaves ∧
      nodes[2048 + hiddenIndex]? = some leaf ∧ leaves.length = 2048 ∧
      (∀ j < 2048, j ≠ hiddenIndex → leaves[j]? = nodes[2048 + j]?) ∧
      leaves[hiddenIndex]? = some 0 ∧
      xorAll ((nodes.toList.drop 2048).take 2048) = delta := by
  refine ⟨_, _, _, _, congrArg Run.outcome (fully_expand_tree_eq P salt execution rootSeed delta),
    congrArg Run.outcome (opening_path_eq P salt execution rootSeed delta h buffer),
    congrArg Run.outcome (partially_expand_tree_eq P salt execution rootSeed _ h),
    ?_, ?_, ?_, ?_, ?_⟩
  · rw [table_leaf P salt execution rootSeed delta h]
  · exact length_leaf_list _
  · intro j hj hne
    rw [table_leaf P salt execution rootSeed delta hj, leaf_list_at _ hj,
      forest_leaf_of_tree P salt execution rootSeed h rootSeed delta hj hne]
  · have hnone : forest P salt execution rootSeed (pathOf fun k =>
        treeNode P salt execution rootSeed delta (sibling (2048 + hiddenIndex) k))
        hiddenIndex (2048 + hiddenIndex) = none := forest_hidden P salt execution rootSeed _ h
    rw [leaf_list_at _ h, hnone]
    rfl
  · rw [expanded_leaves, xor_all_eq, leafList, sum_map_range]
    exact sum_tree_leaves P salt execution rootSeed delta

/-- The tree that `partially_expand_tree` has before it expands a level. -/
def partialTreeBefore (path : List UInt8) (hiddenIndex level : Nat) : Exec PartialTree := do
  let (tree, _) ← (chunksExact 16 path).foldlM placeSibling
    ((Vector.replicate 4096 0, Vector.replicate 4096 false), nbEvals + hiddenIndex)
  (rangeOf 1 level).foldlM (fun tree depth => do
    let depthIndex ← Run.ofOption .treeDepth (u16TryFrom (depth - 1))
    let deriver := levelDeriver salt execution depthIndex
    (rangeOf (1 <<< depth) (1 <<< (depth + 1))).foldlM (expandPresent P deriver) tree) tree

/-- `partially_expand_tree` expands all levels and takes the leaves. -/
theorem partially_expand_tree_levels (path : List UInt8) (hiddenIndex : Nat) :
    partiallyExpandTree P salt path execution hiddenIndex = (do
      Run.require .treeArguments
        (path.length = Blc.pathSizePerExecution ∧ hiddenIndex < nbEvals)
      let (nodes, present) ← partialTreeBefore P salt execution path hiddenIndex nbEvalsLog
      let leavesPresent ← slice present.toList nbEvals 4096
      Run.require .treePresence
        (∀ pair ∈ leavesPresent.zipIdx, pair.1 ≠ (pair.2 == hiddenIndex))
      pure ((nodes.toList.drop nbEvals).take nbEvals)) := by
  simp only [partiallyExpandTree, partialTreeBefore, bind_assoc]

variable (path : Bytes 176) {hiddenIndex : Nat} (h : hiddenIndex < 2048)
include h

/-- Before each level the tree is the forest of the path down to this level. -/
theorem partial_tree_before_eq (rootSeed : Bytes 16) {level : Nat} (hlo : 1 ≤ level)
    (hhi : level ≤ 11) :
    partialTreeBefore P salt execution path.toList hiddenIndex level =
      Run.ret (treeOf (forestUpTo P salt execution rootSeed path hiddenIndex (2 ^ level))) [] := by
  rw [partialTreeBefore, place_siblings_eq path h, Run.ret_bind]
  dsimp only
  rw [forest_up_to_start P salt execution rootSeed path h,
    expand_levels_eq P salt execution rootSeed path h hlo hhi]
  rfl

/-- A level keeps the seeds that the path has placed. The children of the nodes that it expands
are other nodes. -/
theorem level_keeps_path {level : Nat} (hlo : 1 ≤ level) (hhi : level ≤ 11) :
    ∃ nodes present,
      (partialTreeBefore P salt execution path.toList hiddenIndex level).outcome =
        .ok (nodes, present) ∧
      ∀ k (hk : k < 11),
        nodes[sibling (2048 + hiddenIndex) k]? = some (path.extract (16 * k) 16 (by omega)) ∧
        ∀ p, 2 ^ level ≤ p → p < 2 ^ (level + 1) → present[p]? = some true →
          sibling (2048 + hiddenIndex) k ≠ 2 * p ∧ sibling (2048 + hiddenIndex) k ≠ 2 * p + 1 := by
  have hleaf : 2 ^ 11 ≤ 2048 + hiddenIndex := by omega
  have hleaf' : 2048 + hiddenIndex < 2 ^ (11 + 1) := by omega
  have hlevel : 2 ^ (level + 1) ≤ 2 ^ 12 := Nat.pow_le_pow_right (by omega) (by omega)
  refine ⟨_, _, congrArg Run.outcome (partial_tree_before_eq P salt execution path h 0 hlo hhi), ?_⟩
  intro k hk
  have hplaced : place (2048 + hiddenIndex) (pathSeed path) 11 (sibling (2048 + hiddenIndex) k) =
      some (pathSeed path k) := place_sibling hleaf hleaf' _ hk (le_refl 11)
  have hsibling : sibling (2048 + hiddenIndex) k < 2 ^ (11 - k + 1) :=
    (sibling_bounds hleaf hleaf' hk).2
  have hpow : 2 ^ (11 - k + 1) ≤ 2 ^ 12 := Nat.pow_le_pow_right (by omega) (by omega)
  constructor
  · have hlabel : forestUpTo P salt execution 0 path hiddenIndex (2 ^ level)
        (sibling (2048 + hiddenIndex) k) = some (pathSeed path k) := by
      rw [forestUpTo]
      split
      · exact known_sibling hleaf hleaf' hk
      · exact hplaced
    rw [table_at _ (by omega), hlabel, ← path_seed_of_lt path hk]
    rfl
  · intro p _ hp hpresent
    -- an expanded node is known, and the children of known nodes are not placed
    rw [table_at _ (by omega), forestUpTo, if_pos (by rw [pow_succ] at hp; omega)] at hpresent
    have hknown := Option.some.inj hpresent
    constructor <;> intro hchild <;> rw [hchild] at hplaced
    · rw [not_placed_of_known hleaf hleaf'
        (by rw [show 2 * p / 2 = p by omega]; exact hknown)] at hplaced
      cases hplaced
    · rw [not_placed_of_known hleaf hleaf'
        (by rw [show (2 * p + 1) / 2 = p by omega]; exact hknown)] at hplaced
      cases hplaced

/-- The leaves below a sibling, as a block of the leaves of the tree. -/
theorem sum_below_block (rootSeed : Bytes 16) {k : Nat} (hk : k < 11) :
    ∑ j ∈ (Finset.range 2048).filter
        (fun j => (2048 + j) / 2 ^ k = sibling (2048 + hiddenIndex) k),
      (forest P salt execution rootSeed path hiddenIndex (2048 + j)).getD 0 =
        path.extract (16 * k) 16 (by omega) := by
  have hleaf : 2 ^ 11 ≤ 2048 + hiddenIndex := by omega
  have hleaf' : 2048 + hiddenIndex < 2 ^ (11 + 1) := by omega
  have hbelow : ∑ j ∈ Finset.range (2 ^ k), (forest P salt execution rootSeed path hiddenIndex
      (sibling (2048 + hiddenIndex) k * 2 ^ k + j)).getD 0 = pathSeed path k :=
    sum_below_sibling hleaf hleaf' hk
  rw [← path_seed_of_lt path hk, ← hbelow]
  have hbounds : ∀ j < 2 ^ k, 2 ^ 11 ≤ sibling (2048 + hiddenIndex) k * 2 ^ k + j ∧
      sibling (2048 + hiddenIndex) k * 2 ^ k + j < 2 ^ (11 + 1) :=
    fun j hj => sibling_leaf_bounds hleaf hleaf' hk hj
  have hpos : 0 < 2 ^ k := by positivity
  generalize sibling (2048 + hiddenIndex) k = block at hbounds
  generalize 2 ^ k = width at hbounds hpos
  -- the leaves of the block are numbered from its start on
  refine Finset.sum_nbij' (fun j => 2048 + j - block * width) (fun j => block * width + j - 2048)
    ?_ ?_ ?_ ?_ ?_
  · intro j hj
    obtain ⟨_, hblock⟩ := Finset.mem_filter.mp hj
    have hdiv := Nat.div_add_mod (2048 + j) width
    have hmod := Nat.mod_lt (2048 + j) hpos
    rw [hblock, Nat.mul_comm] at hdiv
    exact Finset.mem_range.mpr (by omega)
  · intro j hj
    have hlt := Finset.mem_range.mp hj
    have hbound := hbounds j hlt
    refine Finset.mem_filter.mpr ⟨Finset.mem_range.mpr (by omega), ?_⟩
    rw [show 2048 + (block * width + j - 2048) = j + block * width by omega,
      Nat.add_mul_div_right _ _ hpos, Nat.div_eq_of_lt hlt, Nat.zero_add]
  · intro j hj
    obtain ⟨_, hblock⟩ := Finset.mem_filter.mp hj
    have hdiv := Nat.div_mul_le_self (2048 + j) width
    rw [hblock] at hdiv
    omega
  · intro j hj
    have hbound := hbounds j (Finset.mem_range.mp hj)
    omega
  · intro j hj
    obtain ⟨_, hblock⟩ := Finset.mem_filter.mp hj
    have hdiv := Nat.div_mul_le_self (2048 + j) width
    rw [hblock] at hdiv
    rw [show block * width + (2048 + j - block * width) = 2048 + j by omega]

/-- The partial expansion succeeds on every path. The leaves below a sibling add up to the seed
that the path has for it, no level overwrites such a seed, and so the leaves determine the path. -/
theorem partial_expansion_binds_path :
    ∃ leaves, (partiallyExpandTree P salt path.toList execution hiddenIndex).outcome = .ok leaves ∧
      leaves.length = 2048 ∧ leaves[hiddenIndex]? = some 0 ∧
      (∀ k (hk : k < 11),
        xorAll (((List.range 2048).filter fun j =>
          (2048 + j) / 2 ^ k = ((2048 + hiddenIndex) / 2 ^ k) ^^^ 1).map fun j => leaves.getD j 0) =
            path.extract (16 * k) 16 (by omega)) ∧
      (∀ level, 1 ≤ level → level ≤ 11 → ∃ nodes present,
        (partialTreeBefore P salt execution path.toList hiddenIndex level).outcome =
          .ok (nodes, present) ∧
        ∀ k (hk : k < 11),
          nodes[((2048 + hiddenIndex) / 2 ^ k) ^^^ 1]? =
            some (path.extract (16 * k) 16 (by omega)) ∧
          ∀ p, 2 ^ level ≤ p → p < 2 ^ (level + 1) → present[p]? = some true →
            ((2048 + hiddenIndex) / 2 ^ k) ^^^ 1 ≠ 2 * p ∧
            ((2048 + hiddenIndex) / 2 ^ k) ^^^ 1 ≠ 2 * p + 1) ∧
      ∀ path' : Bytes 176,
        (partiallyExpandTree P salt path'.toList execution hiddenIndex).outcome = .ok leaves →
        path' = path := by
  have hexpand := partially_expand_tree_eq P salt execution 0 path h
  have hleaf : ∀ j < 2048, (leafList fun i =>
      (forest P salt execution 0 path hiddenIndex i).getD 0).getD j 0 =
        (forest P salt execution 0 path hiddenIndex (2048 + j)).getD 0 := by
    intro j hj
    rw [List.getD_eq_getElem?_getD, leaf_list_at _ hj, Option.getD_some]
  refine ⟨_, congrArg Run.outcome hexpand, length_leaf_list _, ?_, ?_, ?_, ?_⟩
  · rw [leaf_list_at _ h, forest_hidden P salt execution 0 path h]
    rfl
  · intro k hk
    rw [xor_all_eq, sum_map_filter_range,
      ← sum_below_block P salt execution path h 0 hk]
    refine Finset.sum_congr rfl (fun j hj => ?_)
    exact hleaf j (Finset.mem_range.mp (Finset.mem_filter.mp hj).1)
  · intro level hlo hhi
    exact level_keeps_path P salt execution path h hlo hhi
  · intro path' hpath'
    rw [partially_expand_tree_eq P salt execution 0 path' h, Run.ret_outcome] at hpath'
    -- the seeds of a path are sums of blocks of leaves
    have hlists := Except.ok.inj hpath'
    refine path_eq_of_forest P salt execution 0 path' h (fun j hj => ?_)
    have hentry := congrArg (fun leaves : List (Bytes 16) => leaves[j]?) hlists
    simp only [leaf_list_at _ hj] at hentry
    exact Option.some.inj hentry

end Walks

/-- Leaf 5 of the tree of the zero root seed, with a block cipher that is constantly zero. -/
theorem zero_tree_walks_agree :
    ∃ nodes leaf path leaves,
      (fullyExpandTree ⟨fun _ _ => 0, fun _ _ => 0⟩ 0 0 0 0).outcome = .ok nodes ∧
      (openingPath ⟨fun _ _ => 0, fun _ _ => 0⟩ 0 0 0 0 5 (0 : Bytes 176)).outcome =
        .ok (leaf, path) ∧
      (partiallyExpandTree ⟨fun _ _ => 0, fun _ _ => 0⟩ 0 path.toList 0 5).outcome = .ok leaves ∧
      nodes[2048 + 5]? = some leaf ∧ leaves.length = 2048 ∧
      (∀ j < 2048, j ≠ 5 → leaves[j]? = nodes[2048 + j]?) ∧ leaves[5]? = some 0 ∧
      xorAll ((nodes.toList.drop 2048).take 2048) = 0 :=
  tree_walks_agree ⟨fun _ _ => 0, fun _ _ => 0⟩ 0 0 0 0 (by omega) 0

/-- The zero path, with leaf 5 hidden. -/
theorem zero_path_expands :
    ∃ leaves, (partiallyExpandTree ⟨fun _ _ => 0, fun _ _ => 0⟩ 0 (0 : Bytes 176).toList 0
      5).outcome = .ok leaves ∧ leaves.length = 2048 ∧ leaves[5]? = some 0 := by
  obtain ⟨leaves, hrun, hlength, hhidden, _⟩ :=
    partial_expansion_binds_path ⟨fun _ _ => 0, fun _ _ => 0⟩ 0 0 0 (show 5 < 2048 by omega)
  exact ⟨leaves, hrun, hlength, hhidden⟩

end Mqom
