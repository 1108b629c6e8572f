import Mqom.Library.CorrelatedTree
import Mqom.Model.Blc
import Mathlib.Data.Nat.Log

/-!
# The three walks through the seed tree

The tree of an execution is a correlated tree of height 11. `fully_expand_tree` computes its
labels, `opening_path` the label of one leaf and of the siblings on the way to it, and
`partially_expand_tree` the forest that grows from any path.
-/

namespace Mqom

open Rust Params Library

/-- The derivation of a left child. The root has the root seed as its left child, and the other
levels derive under a key of their own. -/
def treeDerive (P : Primitives) (salt : Bytes 16) (execution : UInt8) (rootSeed : Bytes 16)
    (parentIndex : Nat) (parent : Bytes 16) : Bytes 16 :=
  if parentIndex < 2 then rootSeed
  else (levelDeriver salt execution (UInt16.ofNat (Nat.log2 parentIndex - 1))).derive P parent

/-- The label of a node of the tree of a root seed and a delta. -/
def treeNode (P : Primitives) (salt : Bytes 16) (execution : UInt8) (rootSeed delta : Bytes 16) :
    Nat → Bytes 16 :=
  node (treeDerive P salt execution rootSeed) delta

/-- The leaves among the labels of a tree. -/
def leafList (label : Nat → Bytes 16) : List (Bytes 16) :=
  (List.range 2048).map fun j => label (2048 + j)

/-- There are 2048 leaves. -/
@[simp] theorem length_leaf_list (label : Nat → Bytes 16) : (leafList label).length = 2048 := by
  simp [leafList]

/-- The leaves are the nodes from 2048 on. -/
theorem getElem_leaf_list (label : Nat → Bytes 16) (j : Nat) (h : j < (leafList label).length) :
    (leafList label)[j] = label (2048 + j) := by
  simp [leafList]

/-- The leaves of a table of labels. -/
theorem slice_leaves {α : Type} (label : Nat → α) :
    ((tableOf 4096 label).toList.drop 2048).take 2048 =
      (List.range 2048).map fun j => label (2048 + j) := by
  rw [toList_table]
  apply List.ext_getElem
  · rw [List.length_take, List.length_drop, List.length_map, List.length_range, List.length_map,
      List.length_range]
    rfl
  · intro j _ _
    simp

/-- A loop over a range of indices. -/
theorem foldlM_range_of {σ : Type} {step : σ → Nat → Exec σ} (lo hi : Nat) (state : Nat → σ)
    (hle : lo ≤ hi)
    (hstep : ∀ i, lo ≤ i → i < hi → step (state i) i = Run.ret (state (i + 1)) []) :
    (rangeOf lo hi).foldlM step (state lo) = Run.ret (state hi) [] := by
  have hloop := Run.foldlM_silent (rangeOf lo hi) (fun i => state (lo + i)) (fun i h => by
    rw [rangeOf, List.length_range'] at h
    simp only [rangeOf, List.getElem_range', one_mul]
    exact hstep (lo + i) (by omega) (by omega))
  simp only [rangeOf, List.length_range', Nat.add_zero] at hloop
  rw [rangeOf, hloop, Nat.add_sub_cancel' hle]

/-- The deriver of a level derives the left children of its nodes. -/
theorem derive_level (P : Primitives) (salt : Bytes 16) (execution : UInt8) (rootSeed : Bytes 16)
    {depth p : Nat} (hdepth : 1 ≤ depth) (hlo : 2 ^ depth ≤ p) (hhi : p < 2 ^ (depth + 1))
    (parent : Bytes 16) :
    (levelDeriver salt execution (UInt16.ofNat (depth - 1))).derive P parent =
      treeDerive P salt execution rootSeed p parent := by
  have htwo : 2 ^ 1 ≤ 2 ^ depth := Nat.pow_le_pow_right (by omega) hdepth
  have hlog : Nat.log2 p = depth := (Nat.log2_eq_iff (by omega)).mpr ⟨hlo, hhi⟩
  rw [treeDerive, if_neg (by omega), hlog]

/-! ## The full expansion -/

section Full

variable (P : Primitives) (salt : Bytes 16) (execution : UInt8) (rootSeed delta : Bytes 16)

/-- The labels that have been computed once the children of the nodes below `p` have been. -/
def expandedUpTo (p i : Nat) : Bytes 16 :=
  if 2 ≤ i ∧ i < 2 * p then treeNode P salt execution rootSeed delta i else 0

/-- The left child of a node is derived. -/
theorem tree_node_left {p : Nat} (hp : 1 ≤ p) :
    treeNode P salt execution rootSeed delta (2 * p) =
      treeDerive P salt execution rootSeed p (treeNode P salt execution rootSeed delta p) := by
  rw [treeNode, node_of_two_le _ _ (by omega), child_two_mul, show 2 * p / 2 = p by omega]

/-- The right child of a node is the sum of the left child and the node. -/
theorem tree_node_right {p : Nat} (hp : 1 ≤ p) :
    treeNode P salt execution rootSeed delta (2 * p + 1) =
      treeDerive P salt execution rootSeed p (treeNode P salt execution rootSeed delta p) +
        treeNode P salt execution rootSeed delta p := by
  rw [treeNode, node_of_two_le _ _ (by omega), child_two_mul_add_one,
    show (2 * p + 1) / 2 = p by omega]

/-- The loop over the parents of a level computes the labels of their children. -/
theorem expand_parent_eq {depth p : Nat} (hdepth : 1 ≤ depth) (hlo : 2 ^ depth ≤ p)
    (hhi : p < 2 ^ (depth + 1)) (hp : p < 2048) :
    expandParent P (levelDeriver salt execution (UInt16.ofNat (depth - 1)))
        (tableOf 4096 (expandedUpTo P salt execution rootSeed delta p)) p =
      Run.ret (tableOf 4096 (expandedUpTo P salt execution rootSeed delta (p + 1))) [] := by
  have htwo : 2 ^ 1 ≤ 2 ^ depth := Nat.pow_le_pow_right (by omega) hdepth
  have hparent : expandedUpTo P salt execution rootSeed delta p p =
      treeNode P salt execution rootSeed delta p := if_pos (by omega)
  rw [expandParent, index_table _ (by omega), Run.ret_bind]
  dsimp only
  rw [set_index_table _ (by omega), Run.ret_bind, set_index_table _ (by omega), hparent,
    derive_level P salt execution rootSeed hdepth hlo hhi]
  refine congrArg (fun label => Run.ret (tableOf 4096 label) []) (funext fun i => ?_)
  by_cases hright : i = 2 * p + 1
  · rw [hright, Function.update_self, expandedUpTo, if_pos (by omega),
      tree_node_right P salt execution rootSeed delta (by omega), Bytes.xor_eq_add]
  rw [Function.update_of_ne hright]
  by_cases hleft : i = 2 * p
  · rw [hleft, Function.update_self, expandedUpTo, if_pos (by omega),
      tree_node_left P salt execution rootSeed delta (by omega)]
  · have hsame : 2 ≤ i ∧ i < 2 * (p + 1) ↔ 2 ≤ i ∧ i < 2 * p := by omega
    rw [Function.update_of_ne hleft, expandedUpTo, expandedUpTo]
    simp only [hsame]

/-- The children of the root are the root seed and its sum with the delta. -/
theorem expanded_start {hleft : 2 < 4096} {hright : 3 < 4096} :
    ((Vector.replicate 4096 (0 : Bytes 16)).set 2 rootSeed).set 3 (rootSeed ^^^ delta) =
      tableOf 4096 (expandedUpTo P salt execution rootSeed delta 2) := by
  rw [replicate_eq_table, set_table _ (by omega), set_table _ (by omega)]
  refine congrArg (tableOf 4096) (funext fun i => ?_)
  have hroot : treeNode P salt execution rootSeed delta 1 = delta := node_one _ _
  by_cases hright : i = 2 * 1 + 1
  · rw [hright, Function.update_self, expandedUpTo, if_pos (by omega),
      tree_node_right P salt execution rootSeed delta (le_refl 1), hroot]
    rfl
  rw [Function.update_of_ne hright]
  by_cases hleft : i = 2 * 1
  · rw [hleft, Function.update_self, expandedUpTo, if_pos (by omega),
      tree_node_left P salt execution rootSeed delta (le_refl 1)]
    rfl
  · rw [Function.update_of_ne hleft, expandedUpTo, if_neg (by omega)]

/-- `fully_expand_tree` computes every label. -/
theorem fully_expand_tree_eq :
    fullyExpandTree P salt rootSeed delta execution =
      Run.ret (tableOf 4096 (expandedUpTo P salt execution rootSeed delta 2048)) [] := by
  have hlevel : ∀ depth, 1 ≤ depth → depth < 11 →
      (rangeOf (1 <<< depth) (1 <<< (depth + 1))).foldlM
        (expandParent P (levelDeriver salt execution (UInt16.ofNat (depth - 1))))
        (tableOf 4096 (expandedUpTo P salt execution rootSeed delta (2 ^ depth))) =
      Run.ret (tableOf 4096 (expandedUpTo P salt execution rootSeed delta (2 ^ (depth + 1))))
        [] := by
    intro depth hdepth hlt
    have hpow : 2 ^ (depth + 1) ≤ 2 ^ 11 := Nat.pow_le_pow_right (by omega) hlt
    rw [Nat.one_shiftLeft, Nat.one_shiftLeft]
    -- before parent `p` of the level, the children of all smaller parents are labelled
    apply foldlM_range_of (2 ^ depth) (2 ^ (depth + 1))
      (fun p => tableOf 4096 (expandedUpTo P salt execution rootSeed delta p))
      (Nat.pow_le_pow_right (by omega) (Nat.le_succ depth))
    intro p hlo hhi
    exact expand_parent_eq P salt execution rootSeed delta hdepth hlo hhi (by omega)
  rw [fullyExpandTree]
  dsimp only
  rw [expanded_start P salt execution]
  apply foldlM_range_of 1 nbEvalsLog
    (fun depth => tableOf 4096 (expandedUpTo P salt execution rootSeed delta (2 ^ depth)))
    (by decide)
  intro depth hdepth hlt
  rw [u16_try_from_of_lt (by simp at hlt; omega), Run.expect_some, Run.ret_bind, Run.after_nil]
  exact hlevel depth hdepth hlt

/-- The leaves that `commit` takes from the full tree. -/
theorem expanded_leaves :
    ((tableOf 4096 (expandedUpTo P salt execution rootSeed delta 2048)).toList.drop 2048).take
        2048 =
      leafList (treeNode P salt execution rootSeed delta) := by
  rw [slice_leaves, leafList]
  refine List.map_congr_left (fun j hj => ?_)
  have hlt := List.mem_range.mp hj
  exact if_pos (by omega)

/-- The leaves of a full tree add up to the delta. -/
theorem sum_tree_leaves :
    ∑ j ∈ Finset.range 2048, treeNode P salt execution rootSeed delta (2048 + j) = delta :=
  sum_leaves (treeDerive P salt execution rootSeed) delta 11

end Full

/-! ## The path to a leaf -/

/-- The bytes of a sibling path. -/
def pathOf (seeds : Nat → Bytes 16) : Bytes 176 :=
  Bytes.ofFn fun i => (seeds (i / 16))[i.val % 16]

/-- A path buffer into which the siblings of the upper levels have been written. -/
def pathUpTo (path : Bytes 176) (seeds : Nat → Bytes 16) (depth : Nat) : Bytes 176 :=
  Bytes.ofFn fun i => if 11 - depth ≤ i.val / 16 then (seeds (i / 16))[i.val % 16] else path[i]

/-- Each level writes one seed of the path, from its end. -/
theorem path_up_to_succ (path : Bytes 176) (seeds : Nat → Bytes 16) {depth : Nat}
    (h : depth < 11) :
    (pathUpTo path seeds depth).write ((10 - depth) * 16) (seeds (10 - depth)).toList =
      pathUpTo path seeds (depth + 1) := by
  apply Bytes.ext_getElem
  intro k hk
  by_cases hhere : k / 16 = 10 - depth
  · have hoffset : k - (10 - depth) * 16 = k % 16 := by omega
    have hlevel : 11 - (depth + 1) ≤ 10 - depth := by omega
    rw [Bytes.getElem_write_mem _ hk (by omega) (by simp; omega),
      Bytes.getElem_toList _ _ (by omega)]
    simp only [pathUpTo, Bytes.getElem_ofFn, hhere, hoffset, if_pos hlevel]
  · have hsame : 11 - (depth + 1) ≤ k / 16 ↔ 11 - depth ≤ k / 16 := by omega
    rw [Bytes.getElem_write_of_not_mem _ hk (by simp; omega)]
    simp only [pathUpTo, Bytes.getElem_ofFn, hsame]

section Path

variable (P : Primitives) (salt : Bytes 16) (execution : UInt8) (rootSeed delta : Bytes 16)

/-- The children of an ancestor are the next ancestor and its sibling, in the order of their
parity. -/
theorem tree_node_ancestor (leaf k : Nat) :
    (if ancestor leaf k % 2 = 0 then
      (treeNode P salt execution rootSeed delta (2 * ancestor leaf (k + 1)),
        treeNode P salt execution rootSeed delta (2 * ancestor leaf (k + 1) + 1))
    else
      (treeNode P salt execution rootSeed delta (2 * ancestor leaf (k + 1) + 1),
        treeNode P salt execution rootSeed delta (2 * ancestor leaf (k + 1)))) =
      (treeNode P salt execution rootSeed delta (ancestor leaf k),
        treeNode P salt execution rootSeed delta (sibling leaf k)) := by
  have hsibling := xor_one_div_mod (ancestor leaf k)
  rw [ancestor_succ, sibling]
  split
  · congr 2 <;> omega
  · congr 2 <;> omega

/-- `opening_path` rejects the indices that are not leaves. -/
theorem opening_path_of_not_lt {n : Nat} (path : Bytes n) (hiddenIndex : Nat)
    (h : ¬ hiddenIndex < 2048) :
    openingPath P salt rootSeed delta execution hiddenIndex path =
      Run.halt (.none .pathArguments) := by
  rw [openingPath, Run.require_of_not (fun hargs => h (by simpa using hargs.1)), Run.halt_bind]

variable {hiddenIndex : Nat} (h : hiddenIndex < 2048)
include h

/-- The left child on a level is the one of the ancestor. -/
theorem opening_left_eq {depth : Nat} (hdepth : depth < 11) :
    openingLeft P salt rootSeed execution
        (treeNode P salt execution rootSeed delta (ancestor (2048 + hiddenIndex) (11 - depth)))
        depth =
      Run.ret (treeNode P salt execution rootSeed delta
        (2 * ancestor (2048 + hiddenIndex) (11 - depth))) [] := by
  have hbounds : 2 ^ (11 - (11 - depth)) ≤ ancestor (2048 + hiddenIndex) (11 - depth) ∧
      ancestor (2048 + hiddenIndex) (11 - depth) < 2 ^ (11 - (11 - depth) + 1) :=
    ancestor_bounds (by omega) (by omega) (by omega)
  rw [show 11 - (11 - depth) = depth by omega] at hbounds
  have hpos : 1 ≤ 2 ^ depth := Nat.one_le_two_pow
  rw [openingLeft, tree_node_left P salt execution rootSeed delta (by omega)]
  by_cases hzero : depth = 0
  · rw [if_pos hzero, treeDerive, if_pos (by rw [hzero] at hbounds ⊢; omega)]
    rfl
  · rw [if_neg hzero, u16_try_from_of_lt (by omega), Run.of_option_some, Run.ret_bind,
      derive_level P salt execution rootSeed (by omega) hbounds.1 hbounds.2]
    rfl

/-- One level of `opening_path`: the next ancestor, and the label of its sibling written into the
path. -/
theorem opening_step_eq (path : Bytes 176) {depth : Nat} (hdepth : depth < 11) :
    openingStep P salt rootSeed execution (2048 + hiddenIndex)
        (treeNode P salt execution rootSeed delta (ancestor (2048 + hiddenIndex) (11 - depth)),
          pathUpTo path (fun k => treeNode P salt execution rootSeed delta
            (sibling (2048 + hiddenIndex) k)) depth) depth =
      Run.ret (treeNode P salt execution rootSeed delta
          (ancestor (2048 + hiddenIndex) (11 - (depth + 1))),
        pathUpTo path (fun k => treeNode P salt execution rootSeed delta
          (sibling (2048 + hiddenIndex) k)) (depth + 1)) [] := by
  have hparent : 1 ≤ ancestor (2048 + hiddenIndex) (11 - depth) := by
    have hbounds : 2 ^ (11 - (11 - depth)) ≤ ancestor (2048 + hiddenIndex) (11 - depth) ∧
        ancestor (2048 + hiddenIndex) (11 - depth) < 2 ^ (11 - (11 - depth) + 1) :=
      ancestor_bounds (by omega) (by omega) (by omega)
    exact le_trans Nat.one_le_two_pow hbounds.1
  -- the right child is the left one plus the parent
  have hright : treeNode P salt execution rootSeed delta
        (2 * ancestor (2048 + hiddenIndex) (11 - depth)) ^^^
      treeNode P salt execution rootSeed delta (ancestor (2048 + hiddenIndex) (11 - depth)) =
        treeNode P salt execution rootSeed delta
          (2 * ancestor (2048 + hiddenIndex) (11 - depth) + 1) := by
    rw [tree_node_right P salt execution rootSeed delta hparent,
      tree_node_left P salt execution rootSeed delta hparent, Bytes.xor_eq_add]
  -- a bit of the index tells on which side the next ancestor is
  have hbit : (2048 + hiddenIndex) >>> (nbEvalsLog - 1 - depth) &&& 1 =
      ancestor (2048 + hiddenIndex) (10 - depth) % 2 := by
    rw [Nat.and_one_is_mod, Nat.shiftRight_eq_div_pow, ancestor]
    rfl
  have hpair := tree_node_ancestor P salt execution rootSeed delta (2048 + hiddenIndex) (10 - depth)
  rw [show 10 - depth + 1 = 11 - depth by omega] at hpair
  rw [openingStep]
  dsimp only
  rw [opening_left_eq P salt execution rootSeed delta h hdepth, Run.ret_bind, hright, hbit, hpair]
  dsimp only
  rw [copy_from_slice_of_le _ (by simp) (by simp; omega) (by simp; omega), Run.ret_bind,
    show (nbEvalsLog - 1 - depth) * seedSize = (10 - depth) * 16 from rfl,
    path_up_to_succ path _ hdepth]
  rw [show 11 - (depth + 1) = 10 - depth by omega]
  rfl

/-- `opening_path` computes the label of the leaf, and writes the labels of the siblings on the
way to it. -/
theorem opening_path_eq (path : Bytes 176) :
    openingPath P salt rootSeed delta execution hiddenIndex path =
      Run.ret (treeNode P salt execution rootSeed delta (2048 + hiddenIndex),
        pathOf fun k => treeNode P salt execution rootSeed delta (sibling (2048 + hiddenIndex) k))
        [] := by
  have hstart : (delta, path) =
      (treeNode P salt execution rootSeed delta (ancestor (2048 + hiddenIndex) (11 - 0)),
        pathUpTo path (fun k => treeNode P salt execution rootSeed delta
          (sibling (2048 + hiddenIndex) k)) 0) := by
    have hroot : ancestor (2048 + hiddenIndex) 11 = 1 :=
      ancestor_height (by omega) (by omega)
    refine Prod.ext ?_ (Bytes.ext_getElem fun k hk => ?_)
    · rw [Nat.sub_zero, hroot]
      exact (node_one _ _).symm
    · simp [pathUpTo, show ¬ 11 ≤ k / 16 by omega]
  have hend : pathUpTo path (fun k => treeNode P salt execution rootSeed delta
      (sibling (2048 + hiddenIndex) k)) 11 =
        pathOf fun k => treeNode P salt execution rootSeed delta
          (sibling (2048 + hiddenIndex) k) := by
    apply Bytes.ext_getElem
    intro k hk
    simp [pathUpTo, pathOf]
  rw [openingPath, Run.require_of ⟨by simpa using h, by decide⟩, Run.ret_bind, hstart,
    Run.foldlM_silent (List.range nbEvalsLog) (fun depth =>
      (treeNode P salt execution rootSeed delta (ancestor (2048 + hiddenIndex) (11 - depth)),
        pathUpTo path (fun k => treeNode P salt execution rootSeed delta
          (sibling (2048 + hiddenIndex) k)) depth))]
  · rw [List.length_range, show nbEvalsLog = 11 from rfl, Nat.sub_self, ancestor_zero, hend]
    rfl
  · intro depth hdepth
    rw [List.getElem_range]
    exact opening_step_eq P salt execution rootSeed delta h path (by simpa using hdepth)

/-- `opening_path` on a path slice, which has the length of a path. -/
theorem opening_path_slice {n : Nat} (path : Bytes n) (hn : n = 176) :
    ∃ written : Bytes n, openingPath P salt rootSeed delta execution hiddenIndex path =
        Run.ret (treeNode P salt execution rootSeed delta (2048 + hiddenIndex), written) [] ∧
      written.toList = (pathOf fun k =>
        treeNode P salt execution rootSeed delta (sibling (2048 + hiddenIndex) k)).toList := by
  subst hn
  exact ⟨_, opening_path_eq P salt execution rootSeed delta h path, rfl⟩

end Path

end Mqom
