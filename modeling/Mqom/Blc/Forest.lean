import Mqom.Blc.Tree

/-!
# The partial expansion of a path

`partially_expand_tree` places the seeds of a path at the siblings on the way to the hidden leaf
and expands them level by level. For any path the result is the forest of the placed seeds: every
leaf but the hidden one is known, and no level overwrites a placed seed.
-/

namespace Mqom

open Rust Params Library

/-- The seed of a path on some level, counted from the leaves. -/
def pathSeed (path : Bytes 176) (k : Nat) : Bytes 16 :=
  if h : k < 11 then path.extract (16 * k) 16 (by omega) else 0

/-- A seed of the path is a part of its bytes. -/
theorem path_seed_of_lt (path : Bytes 176) {k : Nat} (h : k < 11) :
    pathSeed path k = path.extract (16 * k) 16 (by omega) := dif_pos h

/-- A path is determined by its seeds. -/
theorem path_eq_of_seeds {path path' : Bytes 176}
    (h : ∀ k < 11, pathSeed path k = pathSeed path' k) : path = path' := by
  apply Bytes.ext_getElem
  intro i hi
  have hseed := h (i / 16) (by omega)
  rw [path_seed_of_lt _ (by omega), path_seed_of_lt _ (by omega)] at hseed
  have hbyte := congrArg (fun seed : Bytes 16 => seed[i % 16]) hseed
  simpa [show 16 * (i / 16) + i % 16 = i by omega] using hbyte

/-- The seeds of a path that was written from its labels. -/
theorem path_seed_path_of (seeds : Nat → Bytes 16) {k : Nat} (h : k < 11) :
    pathSeed (pathOf seeds) k = seeds k := by
  rw [path_seed_of_lt _ h]
  apply Bytes.ext_getElem
  intro i hi
  simp only [pathOf, Bytes.getElem_extract, Bytes.getElem_ofFn]
  have hlevel : (16 * k + i) / 16 = k := by omega
  have hoffset : (16 * k + i) % 16 = i := by omega
  simp only [hlevel, hoffset]

/-- The chunks of a path are its seeds. -/
theorem chunks_exact_path (path : Bytes 176) {k : Nat}
    (h : k < (chunksExact 16 path.toList).length) :
    tryInto 16 (chunksExact 16 path.toList)[k] = some (pathSeed path k) := by
  have hlt : k < 11 := by simpa [chunksExact] using h
  rw [path_seed_of_lt _ hlt, ← try_into_toList (path.extract (16 * k) 16 (by omega))]
  simp [chunksExact, Bytes.toList_extract, Nat.mul_comm 16 k]

/-- The forest that grows from a path. -/
def forest (P : Primitives) (salt : Bytes 16) (execution : UInt8) (rootSeed : Bytes 16)
    (path : Bytes 176) (hiddenIndex : Nat) : Nat → Option (Bytes 16) :=
  known (treeDerive P salt execution rootSeed) (place (2048 + hiddenIndex) (pathSeed path) 11)

/-- A partial tree with these labels. -/
def treeOf (label : Nat → Option (Bytes 16)) : PartialTree :=
  (tableOf 4096 fun i => (label i).getD 0, tableOf 4096 fun i => (label i).isSome)

/-- Placing a label sets a node. -/
theorem update_get_d (label : Nat → Option (Bytes 16)) (i : Nat) (seed : Bytes 16) :
    (Function.update (fun i => (label i).getD 0) i seed) =
      fun j => (Function.update label i (some seed) j).getD 0 := by
  funext j
  by_cases h : j = i
  · subst h
    simp
  · simp [h]

/-- Placing a label marks a node as present. -/
theorem update_is_some (label : Nat → Option (Bytes 16)) (i : Nat) (seed : Bytes 16) :
    (Function.update (fun i => (label i).isSome) i true) =
      fun j => (Function.update label i (some seed) j).isSome := by
  funext j
  by_cases h : j = i
  · subst h
    simp
  · simp [h]

/-- An entry of a list with positions is the entry at its position. -/
theorem mem_zip_idx_range {α : Type} {n : Nat} {label : Nat → α} {pair : α × Nat}
    (hpair : pair ∈ ((List.range n).map label).zipIdx) :
    pair.2 < n ∧ pair.1 = label pair.2 := by
  obtain ⟨hlt, heq⟩ := List.mem_zipIdx' hpair
  simp only [List.length_map, List.length_range] at hlt
  exact ⟨hlt, by simpa using heq⟩

/-! ## Placing the path -/

section Place

variable (path : Bytes 176) {hiddenIndex : Nat} (h : hiddenIndex < 2048)
include h

/-- The first loop places one seed at the sibling of each ancestor. -/
theorem place_siblings_eq :
    (chunksExact 16 path.toList).foldlM placeSibling
        ((Vector.replicate 4096 0, Vector.replicate 4096 false), nbEvals + hiddenIndex) =
      (Run.ret (treeOf (place (2048 + hiddenIndex) (pathSeed path) 11),
        ancestor (2048 + hiddenIndex) 11) [] : Exec (PartialTree × Nat)) := by
  have hstart : (((Vector.replicate 4096 0, Vector.replicate 4096 false), nbEvals + hiddenIndex) :
      PartialTree × Nat) =
        (treeOf (place (2048 + hiddenIndex) (pathSeed path) 0),
          ancestor (2048 + hiddenIndex) 0) := by
    rw [replicate_eq_table, replicate_eq_table, ancestor_zero]
    rfl
  rw [hstart, Run.foldlM_silent (chunksExact 16 path.toList) (fun k =>
    (treeOf (place (2048 + hiddenIndex) (pathSeed path) k), ancestor (2048 + hiddenIndex) k))]
  · simp [chunksExact]
  · intro k hk
    have hlt : k < 11 := by simpa [chunksExact] using hk
    have hsibling : sibling (2048 + hiddenIndex) k < 2 ^ (11 - k + 1) :=
      (sibling_bounds (by omega) (by omega) hlt).2
    have hpow : 2 ^ (11 - k + 1) ≤ 2 ^ 12 := Nat.pow_le_pow_right (by omega) (by omega)
    rw [placeSibling]
    dsimp only [treeOf]
    rw [chunks_exact_path path hk, Run.expect_some, Run.ret_bind,
      show ancestor (2048 + hiddenIndex) k ^^^ 1 = sibling (2048 + hiddenIndex) k from rfl,
      set_index_table _ (by omega), Run.ret_bind, set_index_table _ (by omega), Run.ret_bind,
      update_get_d, update_is_some _ _ (pathSeed path k), ancestor_succ]
    rfl

end Place

/-! ## Expanding the forest -/

section Expand

variable (P : Primitives) (salt : Bytes 16) (execution : UInt8) (rootSeed : Bytes 16)
variable (path : Bytes 176) {hiddenIndex : Nat} (h : hiddenIndex < 2048)

/-- The labels that are known once the children of the nodes below `p` have been expanded. -/
def forestUpTo (hiddenIndex p i : Nat) : Option (Bytes 16) :=
  if i < 2 * p then forest P salt execution rootSeed path hiddenIndex i
  else place (2048 + hiddenIndex) (pathSeed path) 11 i

include h

/-- A known parent labels its children. They are not placed by the path, so nothing is lost. -/
theorem forest_up_to_succ_some {p : Nat} (hp : 1 ≤ p) {parent : Bytes 16}
    (hparent : forest P salt execution rootSeed path hiddenIndex p = some parent) :
    Function.update (Function.update (forestUpTo P salt execution rootSeed path hiddenIndex p)
        (2 * p) (some (treeDerive P salt execution rootSeed p parent)))
        (2 * p + 1) (some (treeDerive P salt execution rootSeed p parent + parent)) =
      forestUpTo P salt execution rootSeed path hiddenIndex (p + 1) := by
  have hleaf : 2 ^ 11 ≤ 2048 + hiddenIndex := by omega
  have hleaf' : 2048 + hiddenIndex < 2 ^ (11 + 1) := by omega
  funext i
  -- the two children of the parent are new, all other labels stay
  by_cases hright : i = 2 * p + 1
  · have hchild := known_child hleaf hleaf' (i := 2 * p + 1) (by omega)
      (by rw [show (2 * p + 1) / 2 = p by omega]; exact hparent)
    rw [child_two_mul_add_one] at hchild
    rw [hright, Function.update_self, forestUpTo, if_pos (by omega)]
    exact hchild.symm
  rw [Function.update_of_ne hright]
  by_cases hleft : i = 2 * p
  · have hchild := known_child hleaf hleaf' (i := 2 * p) (by omega)
      (by rw [show 2 * p / 2 = p by omega]; exact hparent)
    rw [child_two_mul] at hchild
    rw [hleft, Function.update_self, forestUpTo, if_pos (by omega)]
    exact hchild.symm
  · have hsame : i < 2 * (p + 1) ↔ i < 2 * p := by omega
    rw [Function.update_of_ne hleft, forestUpTo, forestUpTo]
    simp only [hsame]

omit h in
/-- An unknown parent leaves its children as the path placed them. -/
theorem forest_up_to_succ_none {p : Nat} (hp : 1 ≤ p)
    (hparent : forest P salt execution rootSeed path hiddenIndex p = none) :
    forestUpTo P salt execution rootSeed path hiddenIndex p =
      forestUpTo P salt execution rootSeed path hiddenIndex (p + 1) := by
  funext i
  rw [forestUpTo, forestUpTo]
  by_cases hchild : i / 2 = p
  · rw [if_neg (by omega), if_pos (by omega), forest]
    cases hplaced : place (2048 + hiddenIndex) (pathSeed path) 11 i with
    | some seed => rw [known_of_placed _ _ hplaced]
    | none =>
        rw [known_of_not_placed _ _ hplaced (by omega), hchild]
        rw [forest] at hparent
        rw [hparent]
        rfl
  · have hsame : i < 2 * (p + 1) ↔ i < 2 * p := by omega
    simp only [hsame]

/-- The loop over the parents of a level expands the known ones. -/
theorem expand_present_eq {depth p : Nat} (hdepth : 1 ≤ depth) (hlo : 2 ^ depth ≤ p)
    (hhi : p < 2 ^ (depth + 1)) (hp : p < 2048) :
    expandPresent P (levelDeriver salt execution (UInt16.ofNat (depth - 1)))
        (treeOf (forestUpTo P salt execution rootSeed path hiddenIndex p)) p =
      Run.ret (treeOf (forestUpTo P salt execution rootSeed path hiddenIndex (p + 1))) [] := by
  have hpos : 1 ≤ p := le_trans Nat.one_le_two_pow hlo
  have hat : forestUpTo P salt execution rootSeed path hiddenIndex p p =
      forest P salt execution rootSeed path hiddenIndex p := if_pos (by omega)
  rw [expandPresent]
  dsimp only [treeOf]
  rw [index_table _ (by omega), Run.ret_bind, hat]
  cases hparent : forest P salt execution rootSeed path hiddenIndex p with
  | none =>
      rw [forest_up_to_succ_none P salt execution rootSeed path hpos hparent]
      rfl
  | some parent =>
      rw [Option.isSome_some, if_neg (by decide), index_table _ (by omega), Run.ret_bind, hat,
        hparent, Option.getD_some,
        derive_level P salt execution rootSeed hdepth hlo hhi]
      rw [set_index_table _ (by omega), Run.ret_bind, set_index_table _ (by omega), Run.ret_bind,
        set_index_table _ (by omega), Run.ret_bind, set_index_table _ (by omega), Run.ret_bind,
        update_get_d, update_get_d,
        update_is_some _ _ (treeDerive P salt execution rootSeed p parent),
        update_is_some _ _ (treeDerive P salt execution rootSeed p parent + parent),
        Bytes.xor_eq_add,
        forest_up_to_succ_some P salt execution rootSeed path h hpos hparent]
      rfl

/-- Before the first level the known labels are those that the path placed. -/
theorem forest_up_to_start :
    place (2048 + hiddenIndex) (pathSeed path) 11 =
      forestUpTo P salt execution rootSeed path hiddenIndex (2 ^ 1) := by
  have hleaf : 2 ^ 11 ≤ 2048 + hiddenIndex := by omega
  have hleaf' : 2048 + hiddenIndex < 2 ^ (11 + 1) := by omega
  have hplace : place (2048 + hiddenIndex) (pathSeed path) 11 =
      forestUpTo P salt execution rootSeed path hiddenIndex 1 := by
    funext i
    rw [forestUpTo]
    split
    · rename_i hi
      cases hplaced : place (2048 + hiddenIndex) (pathSeed path) 11 i with
      | some seed => exact (known_of_placed _ _ hplaced).symm
      | none => exact (known_of_lt_two _ _ hplaced hi).symm
    · rfl
  have hroot : forest P salt execution rootSeed path hiddenIndex
      (ancestor (2048 + hiddenIndex) 11) = none := known_ancestor hleaf hleaf' (le_refl 11)
  rw [ancestor_height hleaf hleaf'] at hroot
  exact hplace.trans
    (forest_up_to_succ_none P salt execution rootSeed path (le_refl 1) hroot)

/-- The levels of the second loop expand the forest level by level. -/
theorem expand_levels_eq {levels : Nat} (hlo : 1 ≤ levels) (hhi : levels ≤ 11) :
    (rangeOf 1 levels).foldlM (fun tree depth => do
      let depthIndex ← Run.ofOption .treeDepth (u16TryFrom (depth - 1))
      let deriver := levelDeriver salt execution depthIndex
      (rangeOf (1 <<< depth) (1 <<< (depth + 1))).foldlM (expandPresent P deriver) tree)
      (treeOf (forestUpTo P salt execution rootSeed path hiddenIndex (2 ^ 1))) =
        Run.ret (treeOf (forestUpTo P salt execution rootSeed path hiddenIndex (2 ^ levels)))
          [] := by
  apply foldlM_range_of 1 levels
    (fun depth => treeOf (forestUpTo P salt execution rootSeed path hiddenIndex (2 ^ depth))) hlo
  intro depth hdepth hlt
  have hpow : 2 ^ (depth + 1) ≤ 2 ^ 11 := Nat.pow_le_pow_right (by omega) (by omega)
  rw [u16_try_from_of_lt (by omega), Run.of_option_some, Run.ret_bind,
    Run.after_nil, Nat.one_shiftLeft, Nat.one_shiftLeft]
  apply foldlM_range_of (2 ^ depth) (2 ^ (depth + 1))
    (fun p => treeOf (forestUpTo P salt execution rootSeed path hiddenIndex p))
    (Nat.pow_le_pow_right (by omega) (Nat.le_succ depth))
  intro p hlo hhi
  exact expand_present_eq P salt execution rootSeed path h hdepth hlo hhi (by omega)

/-- Of the leaves of the forest exactly the hidden one is missing. -/
theorem forest_leaf_is_some_iff {j : Nat} (hj : j < 2048) :
    (forest P salt execution rootSeed path hiddenIndex (2048 + j)).isSome ↔ j ≠ hiddenIndex := by
  have hleaf : 2 ^ 11 ≤ 2048 + hiddenIndex := by omega
  have hleaf' : 2048 + hiddenIndex < 2 ^ (11 + 1) := by omega
  rw [forest, known_leaf_isSome_iff hleaf hleaf' (by omega) (by omega)]
  omega

/-- `partially_expand_tree` succeeds on every path, and its leaves are those of the forest, the
hidden one being zero. -/
theorem partially_expand_tree_eq :
    partiallyExpandTree P salt path.toList execution hiddenIndex =
      Run.ret (leafList fun i => (forest P salt execution rootSeed path hiddenIndex i).getD 0)
        [] := by
  have hleaves : ∀ j < 2048, forestUpTo P salt execution rootSeed path hiddenIndex (2 ^ 11)
      (2048 + j) = forest P salt execution rootSeed path hiddenIndex (2048 + j) :=
    fun j hj => if_pos (by omega)
  -- the check of the presence bits passes, since only the hidden leaf is missing
  have hpresent : ∀ pair ∈ ((List.range 2048).map fun j =>
      (forestUpTo P salt execution rootSeed path hiddenIndex (2 ^ 11) (2048 + j)).isSome).zipIdx,
      pair.1 ≠ (pair.2 == hiddenIndex) := by
    intro pair hpair heq
    obtain ⟨hlt, hlabel⟩ := mem_zip_idx_range hpair
    have hiff := forest_leaf_is_some_iff P salt execution rootSeed path h hlt
    rw [← hleaves _ hlt, ← hlabel, heq, beq_iff_eq] at hiff
    exact iff_not_self hiff
  rw [partiallyExpandTree, Run.require_of ⟨by simp, by simpa using h⟩, Run.ret_bind,
    place_siblings_eq path h, Run.ret_bind]
  dsimp only
  rw [forest_up_to_start P salt execution rootSeed path h,
    show nbEvalsLog = 11 from rfl,
    expand_levels_eq P salt execution rootSeed path h (by omega : 1 ≤ 11) (by omega), Run.ret_bind]
  dsimp only [treeOf]
  rw [slice_vector _ (by decide) (by decide), Run.ret_bind,
    show 4096 - nbEvals = 2048 from rfl, show nbEvals = 2048 from rfl, slice_leaves,
    Run.require_of hpresent, Run.ret_bind, slice_leaves, leafList]
  refine congrArg (fun leaves => Run.ret leaves []) (List.map_congr_left fun j hj => ?_)
  rw [hleaves j (List.mem_range.mp hj)]

/-- A path is determined by the leaves of its forest. -/
theorem path_eq_of_forest {path' : Bytes 176}
    (hleaves : ∀ j < 2048,
      (forest P salt execution rootSeed path hiddenIndex (2048 + j)).getD 0 =
        (forest P salt execution rootSeed path' hiddenIndex (2048 + j)).getD 0) :
    path = path' := by
  have hleaf : 2 ^ 11 ≤ 2048 + hiddenIndex := by omega
  have hleaf' : 2048 + hiddenIndex < 2 ^ (11 + 1) := by omega
  have hall : ∀ i, 2 ^ 11 ≤ i → i < 2 ^ (11 + 1) →
      (forest P salt execution rootSeed path hiddenIndex i).getD 0 =
        (forest P salt execution rootSeed path' hiddenIndex i).getD 0 := by
    intro i hlo hhi
    have hleaf := hleaves (i - 2048) (by omega)
    rwa [show 2048 + (i - 2048) = i by omega] at hleaf
  exact path_eq_of_seeds (fun k hk => path_eq_of_leaves hleaf hleaf' hall hk)

/-- The forest does not depend on the root seed. -/
theorem forest_root_seed (rootSeed' : Bytes 16) :
    forest P salt execution rootSeed path hiddenIndex =
      forest P salt execution rootSeed' path hiddenIndex := by
  have hleaf : 2 ^ 11 ≤ 2048 + hiddenIndex := by omega
  have hleaf' : 2048 + hiddenIndex < 2 ^ (11 + 1) := by omega
  funext i
  refine known_congr hleaf hleaf' (fun p hp => ?_) i
  funext parent
  rw [treeDerive, treeDerive, if_neg (by omega), if_neg (by omega)]

/-- The forest of the path that `opening_path` writes has the leaves of the tree. -/
theorem forest_leaf_of_tree (treeSeed delta : Bytes 16) {j : Nat} (hj : j < 2048)
    (hne : j ≠ hiddenIndex) :
    (forest P salt execution rootSeed
      (pathOf fun k => treeNode P salt execution treeSeed delta (sibling (2048 + hiddenIndex) k))
      hiddenIndex (2048 + j)).getD 0 = treeNode P salt execution treeSeed delta (2048 + j) := by
  have hleaf : 2 ^ 11 ≤ 2048 + hiddenIndex := by omega
  have hleaf' : 2048 + hiddenIndex < 2 ^ (11 + 1) := by omega
  rw [forest_root_seed P salt execution rootSeed _ h treeSeed]
  obtain ⟨seed, hseed⟩ := Option.isSome_iff_exists.mp
    ((forest_leaf_is_some_iff P salt execution treeSeed _ h hj).mpr hne)
  rw [hseed, Option.getD_some]
  exact known_honest hleaf hleaf' (fun k hk => path_seed_path_of
    (fun k => treeNode P salt execution treeSeed delta (sibling (2048 + hiddenIndex) k)) hk) hseed

end Expand

end Mqom
