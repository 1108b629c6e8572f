import Mathlib.Algebra.BigOperators.Fin
import Mathlib.Data.Set.Card.Arithmetic
import Mathlib.GroupTheory.Index
import Mathlib.Logic.Equiv.Fin.Basic
import Mathlib.SetTheory.Cardinal.Finite

/-!
# Counting

Sizes of sets of finite functions, of kernels, and of sets that are cut into the fibers of a map.
The last section bounds what can be answered in a game of two rounds: a set of pairs that has few
seconds for all but a few firsts.
-/

namespace Mqom.Library

/-! ## Functions -/

/-- The functions with values in given sets. -/
theorem ncard_functions {ι : Type} [Fintype ι] {α : ι → Type} (t : ∀ i, Set (α i)) :
    {f : ∀ i, α i | ∀ i, f i ∈ t i}.ncard = ∏ i, (t i).ncard := by
  rw [← Nat.card_coe_set_eq]
  calc Nat.card {f : ∀ i, α i // ∀ i, f i ∈ t i}
      = Nat.card (∀ i, t i) := Nat.card_congr Equiv.subtypePiEquivPi
    _ = ∏ i, (t i).ncard := Nat.card_pi

/-- The sequences of which the last entry has a set of its own. -/
theorem ncard_snoc {α : Type} {n : Nat} (front : Fin n → Set α) (last : Set α) :
    {f : Fin (n + 1) → α | (∀ i : Fin n, f i.castSucc ∈ front i) ∧ f (Fin.last n) ∈ last}.ncard =
      (∏ i, (front i).ncard) * last.ncard := by
  let entry : Fin (n + 1) → Set α := Fin.snoc front last
  have hset : {f : Fin (n + 1) → α | (∀ i : Fin n, f i.castSucc ∈ front i) ∧
      f (Fin.last n) ∈ last} = {f | ∀ i, f i ∈ entry i} := by
    ext f
    have hsplit := Fin.forall_fin_succ' (P := fun i => f i ∈ entry i)
    simp only [entry, Fin.snoc_castSucc, Fin.snoc_last] at hsplit
    exact hsplit.symm
  rw [hset, ncard_functions, Fin.prod_univ_castSucc]
  simp only [entry, Fin.snoc_castSucc, Fin.snoc_last]

/-- A bijection does not change how many values have a property. -/
theorem ncard_of_bijective {α β : Type} {f : α → β} (hf : Function.Bijective f) (p : β → Prop) :
    {x | p (f x)}.ncard = {y | p y}.ncard := by
  have himage : f '' {x | p (f x)} = {y | p y} := by
    refine Set.Subset.antisymm ?_ fun y hy => ?_
    · rintro _ ⟨x, hx, rfl⟩
      exact hx
    · obtain ⟨x, rfl⟩ := hf.surjective y
      exact ⟨x, hy, rfl⟩
  rw [← himage, Set.ncard_image_of_injective _ hf.injective]

/-- An injective map to a set of the same size is a bijection. -/
theorem bijective_of_card {α β : Type} [Finite β] {f : α → β} (hf : Function.Injective f)
    (hcard : Nat.card α = Nat.card β) : Function.Bijective f :=
  hf.bijective_of_nat_card_le hcard.ge

/-! ## Kernels -/

section Kernel

variable {A B : Type} [AddCommGroup A] [AddCommGroup B]

/-- The zeros of a surjective homomorphism. -/
theorem ncard_zeros_mul (f : A →+ B) (hf : Function.Surjective f) :
    {x | f x = 0}.ncard * Nat.card B = Nat.card A := by
  have hindex : f.ker.index = Nat.card B := by
    rw [AddSubgroup.index_ker, AddMonoidHom.range_eq_top.mpr hf]
    exact Nat.card_congr AddSubgroup.topEquiv.toEquiv
  have hzeros : {x | f x = 0}.ncard = Nat.card f.ker := rfl
  rw [hzeros, ← hindex]
  exact f.ker.card_mul_index

variable {K J : Type} [CommRing K] [IsDomain K] [Finite K] [Fintype J]

/-- The weighted sum of values of which one is not zero takes every value. -/
theorem weighted_sum_surjective {v : J → K} {j : J} (hj : v j ≠ 0) :
    Function.Surjective fun w : J → K => ∑ i, w i * v i := by
  classical
  intro y
  have hsurjective : Function.Surjective fun x : K => x * v j :=
    Finite.surjective_of_injective (mul_left_injective₀ hj)
  obtain ⟨x, hx⟩ := hsurjective y
  refine ⟨Pi.single j x, ?_⟩
  show ∑ i, (Pi.single j x : J → K) i * v i = y
  rw [Finset.sum_eq_single j]
  · rw [Pi.single_eq_same]
    exact hx
  · intro i _ hne
    rw [Pi.single_eq_of_ne hne, zero_mul]
  · intro h
    exact absurd (Finset.mem_univ j) h

/-- Several weighted sums of values that are not all zero vanish together for one in so many
weights as there are tuples of sums. -/
theorem ncard_weights_mul {C : Type} [Fintype C] {v : J → K} (hv : ∃ j, v j ≠ 0) :
    {w : C → J → K | ∀ c, ∑ j, w c j * v j = 0}.ncard * Nat.card K ^ Fintype.card C =
      Nat.card K ^ (Fintype.card C * Fintype.card J) := by
  obtain ⟨j, hj⟩ := hv
  let f : (C → J → K) →+ (C → K) :=
    { toFun := fun w c => ∑ j, w c j * v j
      map_zero' := funext fun c => by simp
      map_add' := fun w w' => funext fun c => by simp [add_mul, Finset.sum_add_distrib] }
  have hf : Function.Surjective f := by
    intro y
    choose w hw using fun c => weighted_sum_surjective hj (y c)
    exact ⟨w, funext hw⟩
  have hzeros : {w : C → J → K | ∀ c, ∑ j, w c j * v j = 0} = {w | f w = 0} :=
    Set.ext fun w => funext_iff.symm
  have hcount := ncard_zeros_mul f hf
  rw [Nat.card_fun, Nat.card_fun, Nat.card_fun, Nat.card_eq_fintype_card (α := C),
    Nat.card_eq_fintype_card (α := J), ← pow_mul, mul_comm (Fintype.card J)] at hcount
  rw [hzeros]
  exact hcount

end Kernel

/-! ## Fibers -/

section Fibers

variable {α β : Type} [Finite α]

/-- A set whose image and whose fibers are small is small. -/
theorem ncard_le_of_fibers (f : α → β) {s : Set α} {t : Set β} (ht : t.Finite)
    (hmaps : ∀ x ∈ s, f x ∈ t) {d : Nat} (hfiber : ∀ y, {x ∈ s | f x = y}.ncard ≤ d) :
    s.ncard ≤ d * t.ncard := by
  classical
  have hs : s.Finite := s.toFinite
  rw [Set.ncard_eq_toFinset_card s hs, Set.ncard_eq_toFinset_card t ht]
  refine Finset.card_le_mul_card_image_of_maps_to (f := f)
    (fun x hx => by simpa using hmaps x (by simpa using hx)) d fun y _ => ?_
  have hset : {x ∈ s | f x = y}.ncard = (hs.toFinset.filter fun x => f x = y).card := by
    rw [← Set.ncard_coe_finset]
    exact congrArg Set.ncard (Set.ext fun x => by simp)
  rw [← hset]
  exact hfiber y

/-- A set of points whose coordinates take few values, and of which few have the same coordinates,
is small. -/
theorem ncard_le_of_coordinates {ι κ : Type} [Fintype ι] [Finite κ] (f : α → ι → κ) {s : Set α}
    {c d : Nat} (hcoordinate : ∀ i, ((fun x => f x i) '' s).ncard ≤ c)
    (hfiber : ∀ y, {x ∈ s | f x = y}.ncard ≤ d) :
    s.ncard ≤ d * c ^ Fintype.card ι := by
  let t : Set (ι → κ) := {y | ∀ i, y i ∈ (fun x => f x i) '' s}
  have hmaps : ∀ x ∈ s, f x ∈ t := fun x hx i => ⟨x, hx, rfl⟩
  have ht : t.ncard ≤ c ^ Fintype.card ι := by
    rw [ncard_functions fun i => (fun x => f x i) '' s, ← Finset.card_univ]
    exact Finset.prod_le_pow_card _ _ _ fun i _ => hcoordinate i
  calc s.ncard ≤ d * t.ncard := ncard_le_of_fibers f t.toFinite hmaps hfiber
    _ ≤ d * c ^ Fintype.card ι := Nat.mul_le_mul_left d ht

/-- A map that takes several values on a set takes different ones at as many points of the set. -/
theorem exists_points_of_lt_ncard (f : α → β) {s : Set α} {n : Nat} (h : n < (f '' s).ncard) :
    ∃ point : Fin (n + 1) → α, (∀ k, point k ∈ s) ∧ Function.Injective fun k => f (point k) := by
  classical
  let _ : Fintype (f '' s) := Fintype.ofFinite _
  have hcard : Fintype.card (Fin (n + 1)) ≤ Fintype.card (f '' s) := by
    rw [Fintype.card_fin, ← Nat.card_eq_fintype_card]
    exact h
  obtain ⟨value⟩ := Function.Embedding.nonempty_of_card_le hcard
  choose point hmem hvalue using fun k => (value k).property
  refine ⟨point, hmem, fun k l hkl => value.injective (Subtype.ext ?_)⟩
  rw [← hvalue k, ← hvalue l]
  exact hkl

variable [Finite β]

/-- Two rounds. A set of pairs is small when few firsts are bad and every other first has few
seconds. -/
theorem ncard_le_of_rounds {s : Set (α × β)} {bad : Set α} {c d : Nat} (hbad : bad.ncard ≤ d)
    (hgood : ∀ x ∉ bad, {y | (x, y) ∈ s}.ncard ≤ c) :
    s.ncard ≤ Nat.card β * d + c * Nat.card α := by
  have hfiber : ∀ (t : Set (α × β)) (x : α),
      {p ∈ t | p.1 = x}.ncard = {y | (x, y) ∈ t}.ncard := by
    intro t x
    have himage : {p ∈ t | p.1 = x} = Prod.mk x '' {y | (x, y) ∈ t} := by
      refine Set.Subset.antisymm ?_ ?_
      · rintro ⟨_, y⟩ ⟨hp, rfl⟩
        exact ⟨y, hp, rfl⟩
      · rintro _ ⟨y, hy, rfl⟩
        exact ⟨hy, rfl⟩
    rw [himage, Set.ncard_image_of_injective _ (Prod.mk_right_injective x)]
  -- the pairs with a bad first, and the others
  have hfirst : {p ∈ s | p.1 ∈ bad}.ncard ≤ Nat.card β * bad.ncard := by
    refine ncard_le_of_fibers Prod.fst bad.toFinite (fun p hp => hp.2) fun x => ?_
    rw [hfiber, ← Set.ncard_univ]
    exact Set.ncard_le_ncard (Set.subset_univ _)
  have hrest : {p ∈ s | p.1 ∉ bad}.ncard ≤ c * Nat.card α := by
    rw [← Set.ncard_univ α]
    refine ncard_le_of_fibers Prod.fst Set.finite_univ (fun p _ => Set.mem_univ _) fun x => ?_
    rw [hfiber]
    by_cases hx : x ∈ bad
    · have hempty : {y | (x, y) ∈ {p ∈ s | p.1 ∉ bad}} = ∅ :=
        Set.eq_empty_of_forall_notMem fun y hy => hy.2 hx
      rw [hempty, Set.ncard_empty]
      exact Nat.zero_le c
    · exact (Set.ncard_le_ncard fun y hy => hy.1).trans (hgood x hx)
  have hunion : s = {p ∈ s | p.1 ∈ bad} ∪ {p ∈ s | p.1 ∉ bad} := by
    ext p
    by_cases hp : p.1 ∈ bad <;> simp [hp]
  calc s.ncard = ({p ∈ s | p.1 ∈ bad} ∪ {p ∈ s | p.1 ∉ bad}).ncard := congrArg Set.ncard hunion
    _ ≤ {p ∈ s | p.1 ∈ bad}.ncard + {p ∈ s | p.1 ∉ bad}.ncard := Set.ncard_union_le _ _
    _ ≤ Nat.card β * d + c * Nat.card α :=
        Nat.add_le_add (hfirst.trans (Nat.mul_le_mul_left _ hbad)) hrest

end Fibers

/-! ## Residues -/

/-- The values below a product of two factors with one residue of the second. -/
theorem ncard_residue {m n v : Nat} (hv : v < n) :
    {x : Fin (m * n) | x.val % n = v}.ncard = m := by
  let f : Fin m → Fin (m * n) := fun i => finProdFinEquiv (i, ⟨v, hv⟩)
  have hf : Function.Injective f := fun i i' h =>
    (Prod.ext_iff.mp (finProdFinEquiv.injective h)).1
  have himage : {x : Fin (m * n) | x.val % n = v} = f '' Set.univ := by
    ext x
    obtain ⟨⟨i, j⟩, rfl⟩ := finProdFinEquiv.surjective x
    have hmod : (finProdFinEquiv (i, j)).val % n = j.val := by
      rw [finProdFinEquiv_apply_val, Nat.add_mul_mod_self_left, Nat.mod_eq_of_lt j.isLt]
    constructor
    · intro h
      have hj : j = ⟨v, hv⟩ := Fin.ext (hmod.symm.trans h)
      exact ⟨i, Set.mem_univ i, by rw [hj]⟩
    · rintro ⟨i', _, h⟩
      obtain ⟨_, hj⟩ := Prod.ext_iff.mp (finProdFinEquiv.injective h)
      show (finProdFinEquiv (i, j)).val % n = v
      exact hmod.trans (congrArg Fin.val hj).symm
  rw [himage, Set.ncard_image_of_injective _ hf, Set.ncard_univ, Nat.card_eq_fintype_card,
    Fintype.card_fin]

end Mqom.Library
