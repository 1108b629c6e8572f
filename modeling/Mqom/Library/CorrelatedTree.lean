import Mathlib.Algebra.BigOperators.Group.Finset.Basic
import Mathlib.Algebra.Field.ZMod
import Mathlib.Algebra.Module.ZMod
import Mathlib.Algebra.Order.Group.Nat
import Mathlib.Data.Nat.Bitwise
import Mathlib.Tactic.Ring

/-!
# Correlated binary trees

A binary tree whose nodes are numbered like a heap, with labels from a group in which every
element is its own inverse. A left child has a label derived from the one of its parent, and the
labels of both children add up to the label of the parent. So the leaves below a node add up to
its label, and the labels of the siblings on the way to one leaf determine every other leaf.
-/

namespace Mqom.Library

variable {G : Type}

/-! ## Sibling paths -/

/-- The ancestor of a leaf, some levels up. -/
def ancestor (leaf k : Nat) : Nat := leaf / 2 ^ k

/-- The sibling of that ancestor. -/
def sibling (leaf k : Nat) : Nat := ancestor leaf k ^^^ 1

/-- The labels of a path placed at the siblings, the lowest first. -/
def place (leaf : Nat) (path : Nat → G) : Nat → Nat → Option G
  | 0 => fun _ => none
  | k + 1 => Function.update (place leaf path k) (sibling leaf k) (some (path k))

/-- The neighbour of a number shares its half and has the other parity. -/
theorem xor_one_div_mod (i : Nat) : (i ^^^ 1) / 2 = i / 2 ∧ (i ^^^ 1) % 2 = (i + 1) % 2 := by
  constructor
  · rw [Nat.xor_div_two, Nat.xor_zero]
  · rw [Nat.xor_mod_two_eq]

/-- A leaf is its own ancestor of order zero. -/
theorem ancestor_zero (leaf : Nat) : ancestor leaf 0 = leaf := by
  simp [ancestor]

/-- The next ancestor is the parent. -/
theorem ancestor_succ (leaf k : Nat) : ancestor leaf (k + 1) = ancestor leaf k / 2 := by
  rw [ancestor, ancestor, Nat.div_div_eq_div_mul, Nat.pow_succ]

/-- A sibling has the parent of the ancestor. -/
theorem sibling_div_two (leaf k : Nat) : sibling leaf k / 2 = ancestor leaf (k + 1) := by
  rw [ancestor_succ]
  exact (xor_one_div_mod _).1

/-- A sibling is not the ancestor that it stands beside. -/
theorem sibling_ne_ancestor (leaf k : Nat) : sibling leaf k ≠ ancestor leaf k := by
  have h := (xor_one_div_mod (ancestor leaf k)).2
  intro heq
  rw [sibling] at heq
  omega

section

variable {height leaf : Nat} (hlo : 2 ^ height ≤ leaf) (hhi : leaf < 2 ^ (height + 1))
include hlo hhi

/-- An ancestor lies on its own level. -/
theorem ancestor_bounds {k : Nat} (hk : k ≤ height) :
    2 ^ (height - k) ≤ ancestor leaf k ∧ ancestor leaf k < 2 ^ (height - k + 1) := by
  have hpow : 2 ^ (height - k) * 2 ^ k = 2 ^ height := by
    rw [← pow_add, Nat.sub_add_cancel hk]
  have hpow' : 2 ^ (height - k + 1) * 2 ^ k = 2 ^ (height + 1) := by
    rw [pow_succ, pow_succ, ← hpow]
    ring
  constructor
  · rw [ancestor, Nat.le_div_iff_mul_le (by positivity), hpow]
    exact hlo
  · rw [ancestor, Nat.div_lt_iff_lt_mul (by positivity), hpow']
    exact hhi

/-- The last ancestor is the root. -/
theorem ancestor_height : ancestor leaf height = 1 := by
  have h := ancestor_bounds hlo hhi (le_refl height)
  simp only [Nat.sub_self] at h
  omega

/-- A sibling lies on the level of its ancestor. -/
theorem sibling_bounds {k : Nat} (hk : k < height) :
    2 ^ (height - k) ≤ sibling leaf k ∧ sibling leaf k < 2 ^ (height - k + 1) := by
  have h := ancestor_bounds hlo hhi (Nat.le_of_lt hk)
  have hhalf := (xor_one_div_mod (ancestor leaf k)).1
  have hpow : 2 ^ (height - k) = 2 * 2 ^ (height - k - 1) := by
    rw [← pow_succ']
    congr 1
    omega
  have hpow' : 2 ^ (height - k + 1) = 2 * 2 ^ (height - k) := by ring
  unfold sibling
  constructor <;> omega

/-- The leaves below a sibling are leaves of the tree. -/
theorem sibling_leaf_bounds {k j : Nat} (hk : k < height) (hj : j < 2 ^ k) :
    2 ^ height ≤ sibling leaf k * 2 ^ k + j ∧
      sibling leaf k * 2 ^ k + j < 2 ^ (height + 1) := by
  obtain ⟨hlow, hhigh⟩ := sibling_bounds hlo hhi hk
  have hpow : 2 ^ height = 2 ^ (height - k) * 2 ^ k := by
    rw [← pow_add, Nat.sub_add_cancel (Nat.le_of_lt hk)]
  have hpow' : 2 ^ (height + 1) = 2 ^ (height - k + 1) * 2 ^ k := by
    rw [pow_succ, pow_succ, hpow]
    ring
  have hlow' := Nat.mul_le_mul_right (2 ^ k) hlow
  have hhigh' := Nat.mul_le_mul_right (2 ^ k) (Nat.succ_le_of_lt hhigh)
  rw [Nat.succ_mul] at hhigh'
  omega

/-- Siblings on different levels are different nodes. -/
theorem sibling_ne_sibling {k l : Nat} (hkl : k < l) (hl : l < height) :
    sibling leaf k ≠ sibling leaf l := by
  have hk := (sibling_bounds hlo hhi (lt_trans hkl hl)).1
  have hl' := (sibling_bounds hlo hhi hl).2
  have hpow : 2 ^ (height - l + 1) ≤ 2 ^ (height - k) :=
    Nat.pow_le_pow_right (by omega) (by omega)
  omega

/-- A sibling is not an ancestor. -/
theorem sibling_ne_ancestor' {k l : Nat} (hk : k < height) (hl : l ≤ height) :
    sibling leaf k ≠ ancestor leaf l := by
  by_cases hkl : k = l
  · rw [hkl]
    exact sibling_ne_ancestor leaf l
  · have hs := sibling_bounds hlo hhi hk
    have ha := ancestor_bounds hlo hhi hl
    rcases Nat.lt_or_gt_of_ne hkl with hlt | hgt
    · have hpow : 2 ^ (height - l + 1) ≤ 2 ^ (height - k) :=
        Nat.pow_le_pow_right (by omega) (by omega)
      omega
    · have hpow : 2 ^ (height - k + 1) ≤ 2 ^ (height - l) :=
        Nat.pow_le_pow_right (by omega) (by omega)
      omega

/-- The labels of a path are placed at the siblings. -/
theorem place_sibling (path : Nat → G) {k m : Nat} (hk : k < m) (hm : m ≤ height) :
    place leaf path m (sibling leaf k) = some (path k) := by
  induction m with
  | zero => omega
  | succ m ih =>
      by_cases hkm : k = m
      · rw [place, hkm, Function.update_self]
      · rw [place, Function.update_of_ne (sibling_ne_sibling hlo hhi (by omega) (by omega))]
        exact ih (by omega) (by omega)

end

/-- Nothing is placed elsewhere. -/
theorem place_of_ne {leaf i m : Nat} (path : Nat → G) (h : ∀ k < m, i ≠ sibling leaf k) :
    place leaf path m i = none := by
  induction m with
  | zero => rfl
  | succ m ih =>
      rw [place, Function.update_of_ne (h m (Nat.lt_succ_self m))]
      exact ih (fun k hk => h k (by omega))

/-! ## Labels -/

variable [AddCommGroup G]

/-- The label of node `i` whose parent has label `parent`. -/
def child (derive : Nat → G → G) (parent : G) (i : Nat) : G :=
  if i % 2 = 0 then derive (i / 2) parent else derive (i / 2) parent + parent

/-- The label of a node of the tree that grows from the label of node 1. -/
def node (derive : Nat → G → G) (root : G) (i : Nat) : G :=
  if i < 2 then root else child derive (node derive root (i / 2)) i

/-- The label of a node of the forest that grows from the placed labels. -/
def known (derive : Nat → G → G) (placed : Nat → Option G) (i : Nat) : Option G :=
  match placed i with
  | some label => some label
  | none => if i < 2 then none else (known derive placed (i / 2)).map fun parent =>
      child derive parent i

section

variable (derive : Nat → G → G) (root : G) (placed : Nat → Option G)

/-- The left child is derived. -/
theorem child_two_mul (parent : G) (i : Nat) :
    child derive parent (2 * i) = derive i parent := by
  rw [child, if_pos (by omega), show 2 * i / 2 = i by omega]

/-- The right child is the sum of the left child and the parent. -/
theorem child_two_mul_add_one (parent : G) (i : Nat) :
    child derive parent (2 * i + 1) = derive i parent + parent := by
  rw [child, if_neg (by omega), show (2 * i + 1) / 2 = i by omega]

/-- Node 1 has the label of the root. -/
theorem node_one : node derive root 1 = root := by
  rw [node, if_pos (by omega)]

/-- Every other node has the label of a child of its parent. -/
theorem node_of_two_le {i : Nat} (h : 2 ≤ i) :
    node derive root i = child derive (node derive root (i / 2)) i := by
  rw [node, if_neg (by omega)]

/-- A placed label is known. -/
theorem known_of_placed {i : Nat} {label : G} (h : placed i = some label) :
    known derive placed i = some label := by
  rw [known, h]

/-- A label that is not placed is known when the label of the parent is. -/
theorem known_of_not_placed {i : Nat} (h : placed i = none) (hi : 2 ≤ i) :
    known derive placed i =
      (known derive placed (i / 2)).map fun parent => child derive parent i := by
  rw [known, h]
  exact if_neg (by omega)

/-- Above the placed labels nothing is known. -/
theorem known_of_lt_two {i : Nat} (h : placed i = none) (hi : i < 2) :
    known derive placed i = none := by
  rw [known, h]
  exact if_pos hi

/-! ## Sums over subtrees -/

/-- When the labels of the children add up to the label of the parent everywhere below a node, the
labels of one level below it add up to its own. -/
theorem sum_subtree (label : Nat → G) (inside : Nat → Prop)
    (hclosed : ∀ i, inside i → inside (2 * i) ∧ inside (2 * i + 1))
    (hlabel : ∀ i, inside i → label (2 * i) + label (2 * i + 1) = label i)
    {i : Nat} (hi : inside i) (k : Nat) :
    ∑ j ∈ Finset.range (2 ^ k), label (i * 2 ^ k + j) = label i := by
  induction k generalizing i with
  | zero => simp
  | succ k ih =>
      obtain ⟨hleft, hright⟩ := hclosed i hi
      rw [show 2 ^ (k + 1) = 2 ^ k + 2 ^ k by ring, Finset.sum_range_add, ← hlabel i hi,
        ← ih hleft, ← ih hright]
      congr 1
      · refine Finset.sum_congr rfl (fun j _ => ?_)
        congr 1
        ring
      · refine Finset.sum_congr rfl (fun j _ => ?_)
        congr 1
        ring

variable [Module (ZMod 2) G]

/-- The labels of two children add up to the label of the parent. -/
theorem child_add_child (parent : G) (i : Nat) :
    child derive parent (2 * i) + child derive parent (2 * i + 1) = parent := by
  rw [child_two_mul, child_two_mul_add_one, ← add_assoc, ZModModule.add_self, zero_add]

/-- The leaves of a tree add up to its root. -/
theorem sum_leaves (height : Nat) :
    ∑ j ∈ Finset.range (2 ^ height), node derive root (2 ^ height + j) = root := by
  have hsum := sum_subtree (node derive root) (fun i => 1 ≤ i)
    (fun i hi => ⟨by omega, by omega⟩)
    (fun i hi => by
      rw [node_of_two_le derive root (i := 2 * i) (by omega),
        node_of_two_le derive root (i := 2 * i + 1) (by omega),
        show 2 * i / 2 = i by omega, show (2 * i + 1) / 2 = i by omega, child_add_child])
    (le_refl 1) height
  rwa [node_one, one_mul] at hsum

/-- The labels of the children of a node add up to its own. -/
theorem node_add_node {i : Nat} (hi : 1 ≤ i) :
    node derive root (2 * i) + node derive root (2 * i + 1) = node derive root i := by
  rw [node_of_two_le derive root (i := 2 * i) (by omega),
    node_of_two_le derive root (i := 2 * i + 1) (by omega),
    show 2 * i / 2 = i by omega, show (2 * i + 1) / 2 = i by omega, child_add_child]

/-- Trees with the same leaves have the same labels, whatever they were derived with. -/
theorem node_eq_of_leaves {derive' : Nat → G → G} {root' : G} {height : Nat}
    (hleaves : ∀ i, 2 ^ height ≤ i → i < 2 ^ (height + 1) →
      node derive root i = node derive' root' i) {i : Nat} (hpos : 1 ≤ i)
    (hi : i < 2 ^ (height + 1)) : node derive root i = node derive' root' i := by
  obtain ⟨distance, hdistance⟩ : ∃ distance, 2 ^ (height + 1) - i = distance := ⟨_, rfl⟩
  induction distance using Nat.strong_induction_on generalizing i with
  | h distance ih =>
      rcases Nat.lt_or_ge i (2 ^ height) with hinner | hleaf
      · -- the children are nearer to the end of the tree
        have hpow : 2 ^ (height + 1) = 2 * 2 ^ height := by rw [pow_succ, mul_comm]
        rw [← node_add_node derive root hpos, ← node_add_node derive' root' hpos,
          ih (2 ^ (height + 1) - 2 * i) (by omega) (by omega) (by omega) rfl,
          ih (2 ^ (height + 1) - (2 * i + 1)) (by omega) (by omega) (by omega) rfl]
      · exact hleaves i hleaf hi

end

/-! ## The forest of a sibling path -/

section

variable {derive : Nat → G → G} {path : Nat → G} {height leaf : Nat}
variable (hlo : 2 ^ height ≤ leaf) (hhi : leaf < 2 ^ (height + 1))
include hlo hhi

/-- The label of a sibling is the one of the path. -/
theorem known_sibling {k : Nat} (hk : k < height) :
    known derive (place leaf path height) (sibling leaf k) = some (path k) :=
  known_of_placed derive _ (place_sibling hlo hhi path hk (le_refl height))

/-- No ancestor of the leaf, nor the leaf itself, is known. -/
theorem known_ancestor {k : Nat} (hk : k ≤ height) :
    known derive (place leaf path height) (ancestor leaf k) = none := by
  have hplaced : ∀ l ≤ height, place leaf path height (ancestor leaf l) = none := fun l hl =>
    place_of_ne path (fun m hm => (sibling_ne_ancestor' hlo hhi hm hl).symm)
  induction hk using Nat.decreasingInduction with
  | self =>
      apply known_of_lt_two derive _ (hplaced height (le_refl height))
      rw [ancestor_height hlo hhi]
      decide
  | of_succ k hk ih =>
      have hbound := (ancestor_bounds hlo hhi (Nat.le_of_lt hk)).1
      have hpow : 2 ^ 1 ≤ 2 ^ (height - k) := Nat.pow_le_pow_right (by omega) (by omega)
      rw [known_of_not_placed derive _ (hplaced k (Nat.le_of_lt hk)) (by omega), ← ancestor_succ,
        ih]
      rfl

/-- The children of a known node are not placed by the path. -/
theorem not_placed_of_known {i : Nat}
    (hi : (known derive (place leaf path height) (i / 2)).isSome) :
    place leaf path height i = none := by
  refine place_of_ne path (fun k hk heq => ?_)
  rw [heq, sibling_div_two, known_ancestor hlo hhi hk] at hi
  exact Bool.false_ne_true hi

/-- The children of a known node are known. -/
theorem known_child {i : Nat} {label : G} (hi : 2 ≤ i)
    (h : known derive (place leaf path height) (i / 2) = some label) :
    known derive (place leaf path height) i = some (child derive label i) := by
  have hplaced := not_placed_of_known hlo hhi (i := i) (by rw [h]; rfl)
  rw [known_of_not_placed derive _ hplaced hi, h]
  rfl

/-- Every node except the ancestors of the leaf is known. -/
theorem known_isSome {i : Nat} (hpos : 1 ≤ i) (hi : i < 2 ^ (height + 1))
    (hne : ∀ k ≤ height, i ≠ ancestor leaf k) :
    (known derive (place leaf path height) i).isSome := by
  induction i using Nat.strong_induction_on with
  | h i ih =>
      have htwo : 2 ≤ i := by
        have hroot := hne height (le_refl height)
        rw [ancestor_height hlo hhi] at hroot
        omega
      by_cases hparent : ∃ k ≤ height, i / 2 = ancestor leaf k
      · obtain ⟨k, hk, heq⟩ := hparent
        cases k with
        | zero =>
            -- a child of the leaf lies below the tree
            rw [ancestor_zero] at heq
            rw [pow_succ] at hi
            omega
        | succ k =>
            have hneighbour := hne k (Nat.le_of_lt hk)
            have hxor := xor_one_div_mod (ancestor leaf k)
            rw [ancestor_succ] at heq
            have hsibling : i = sibling leaf k := by
              rw [sibling]
              omega
            rw [hsibling, known_sibling hlo hhi hk]
            rfl
      · push Not at hparent
        obtain ⟨label, hlabel⟩ := Option.isSome_iff_exists.mp
          (ih (i / 2) (by omega) (by omega) (by omega) hparent)
        rw [known_child hlo hhi htwo hlabel]
        rfl

/-- Of the leaves exactly the one of the path is missing. -/
theorem known_leaf_isSome_iff {i : Nat} (hi : 2 ^ height ≤ i) (hi' : i < 2 ^ (height + 1)) :
    (known derive (place leaf path height) i).isSome ↔ i ≠ leaf := by
  constructor
  · intro h heq
    have hnone : known derive (place leaf path height) (ancestor leaf 0) = none :=
      known_ancestor hlo hhi (Nat.zero_le height)
    rw [ancestor_zero] at hnone
    rw [heq, hnone] at h
    exact Bool.false_ne_true h
  · intro hne
    refine known_isSome hlo hhi (le_trans Nat.one_le_two_pow hi) hi' (fun k hk heq => ?_)
    have hbound := (ancestor_bounds hlo hhi hk).2
    cases k with
    | zero => exact hne (by rw [heq, ancestor_zero])
    | succ k =>
        have hpow : 2 ^ (height - (k + 1) + 1) ≤ 2 ^ height :=
          Nat.pow_le_pow_right (by omega) (by omega)
        omega

/-- With the siblings of a tree on its path, the forest agrees with the tree. -/
theorem known_honest {root : G} (hpath : ∀ k < height, path k = node derive root (sibling leaf k))
    {i : Nat} {label : G} (h : known derive (place leaf path height) i = some label) :
    label = node derive root i := by
  induction i using Nat.strong_induction_on generalizing label with
  | h i ih =>
      by_cases hplaced : ∃ k < height, i = sibling leaf k
      · obtain ⟨k, hk, rfl⟩ := hplaced
        rw [known_sibling hlo hhi hk] at h
        rw [← hpath k hk]
        exact (Option.some.inj h).symm
      · push Not at hplaced
        have hnone := place_of_ne path hplaced
        by_cases htwo : 2 ≤ i
        · rw [known_of_not_placed derive _ hnone htwo] at h
          obtain ⟨parent, hparent, rfl⟩ := Option.map_eq_some_iff.mp h
          rw [node_of_two_le derive root htwo, ← ih (i / 2) (by omega) hparent]
        · rw [known_of_lt_two derive _ hnone (by omega)] at h
          exact absurd h (by simp)

/-- The derivation at the root does not enter the forest. -/
theorem known_congr {derive' : Nat → G → G} (hderive : ∀ p, 2 ≤ p → derive p = derive' p)
    (i : Nat) :
    known derive (place leaf path height) i = known derive' (place leaf path height) i := by
  induction i using Nat.strong_induction_on with
  | h i ih =>
      cases hplaced : place leaf path height i with
      | some label => rw [known_of_placed derive _ hplaced, known_of_placed derive' _ hplaced]
      | none =>
          rcases Nat.lt_or_ge i 2 with hlt | htwo
          · rw [known_of_lt_two derive _ hplaced hlt, known_of_lt_two derive' _ hplaced hlt]
          rw [known_of_not_placed derive _ hplaced htwo, known_of_not_placed derive' _ hplaced htwo,
            ih (i / 2) (by omega)]
          rcases Nat.lt_or_ge (i / 2) 2 with hroot | hparent
          · have hnone : known derive' (place leaf path height) (ancestor leaf height) = none :=
              known_ancestor hlo hhi (le_refl height)
            rw [ancestor_height hlo hhi] at hnone
            rw [show i / 2 = 1 by omega, hnone]
            rfl
          · simp only [child, hderive _ hparent]

variable [Module (ZMod 2) G]

/-- The leaves below a sibling add up to the label that the path gives it. -/
theorem sum_below_sibling {k : Nat} (hk : k < height) :
    ∑ j ∈ Finset.range (2 ^ k),
      (known derive (place leaf path height) (sibling leaf k * 2 ^ k + j)).getD 0 = path k := by
  have hpos : 1 ≤ sibling leaf k := le_trans Nat.one_le_two_pow (sibling_bounds hlo hhi hk).1
  have hchildren : ∀ i, 1 ≤ i ∧ (known derive (place leaf path height) i).isSome →
      ∃ label, known derive (place leaf path height) i = some label ∧
        known derive (place leaf path height) (2 * i) = some (child derive label (2 * i)) ∧
        known derive (place leaf path height) (2 * i + 1) =
          some (child derive label (2 * i + 1)) := by
    rintro i ⟨hi, hsome⟩
    obtain ⟨label, hlabel⟩ := Option.isSome_iff_exists.mp hsome
    refine ⟨label, hlabel, known_child hlo hhi (by omega) ?_, known_child hlo hhi (by omega) ?_⟩
    · rwa [show 2 * i / 2 = i by omega]
    · rwa [show (2 * i + 1) / 2 = i by omega]
  have hsum := sum_subtree
    (fun i => (known derive (place leaf path height) i).getD 0)
    (fun i => 1 ≤ i ∧ (known derive (place leaf path height) i).isSome)
    (fun i hi => by
      obtain ⟨label, _, hleft, hright⟩ := hchildren i hi
      exact ⟨⟨by omega, by rw [hleft]; rfl⟩, ⟨by omega, by rw [hright]; rfl⟩⟩)
    (fun i hi => by
      obtain ⟨label, hlabel, hleft, hright⟩ := hchildren i hi
      simp only [hlabel, hleft, hright, Option.getD_some]
      exact child_add_child derive label i)
    (i := sibling leaf k) ⟨hpos, by rw [known_sibling hlo hhi hk]; rfl⟩ k
  rwa [known_sibling hlo hhi hk] at hsum

/-- A path is determined by the leaves of its forest. -/
theorem path_eq_of_leaves {path' : Nat → G}
    (hleaves : ∀ i, 2 ^ height ≤ i → i < 2 ^ (height + 1) →
      (known derive (place leaf path height) i).getD 0 =
        (known derive (place leaf path' height) i).getD 0)
    {k : Nat} (hk : k < height) : path k = path' k := by
  have hsum : ∑ j ∈ Finset.range (2 ^ k),
      (known derive (place leaf path height) (sibling leaf k * 2 ^ k + j)).getD 0 = path k :=
    sum_below_sibling hlo hhi hk
  have hsum' : ∑ j ∈ Finset.range (2 ^ k),
      (known derive (place leaf path' height) (sibling leaf k * 2 ^ k + j)).getD 0 = path' k :=
    sum_below_sibling hlo hhi hk
  rw [← hsum, ← hsum']
  refine Finset.sum_congr rfl (fun j hj => ?_)
  obtain ⟨hleft, hright⟩ := sibling_leaf_bounds hlo hhi hk (Finset.mem_range.mp hj)
  exact hleaves _ hleft hright

end

end Mqom.Library
