import Mathlib.Algebra.BigOperators.Fin

/-!
# Loops that add up values
-/

namespace Mqom.Library

variable {α M : Type} [AddCommMonoid M] {n : Nat}

/-- A loop that adds is a sum. -/
theorem foldl_add_eq_sum (f : α → M) (items : List α) (start : M) :
    items.foldl (fun sum item => sum + f item) start = start + (items.map f).sum := by
  induction items generalizing start with
  | nil => simp
  | cons item rest ih => rw [List.foldl_cons, ih, List.map_cons, List.sum_cons, add_assoc]

/-- The sum of a list over a range is the sum over the range. -/
theorem sum_map_range (f : Nat → M) (count : Nat) :
    ((List.range count).map f).sum = ∑ j ∈ Finset.range count, f j := by
  induction count with
  | zero => rfl
  | succ count ih =>
      rw [List.range_succ, List.map_append, List.sum_append, ih, Finset.sum_range_succ]
      simp

/-- The same for the numbers of the range that pass a test. -/
theorem sum_map_filter_range (f : Nat → M) (keep : Nat → Prop) [DecidablePred keep] (count : Nat) :
    (((List.range count).filter fun j => keep j).map f).sum =
      ∑ j ∈ (Finset.range count).filter keep, f j := by
  induction count with
  | zero => rfl
  | succ count ih =>
      rw [List.range_succ, List.filter_append, List.map_append, List.sum_append, ih,
        Finset.range_add_one, Finset.filter_insert]
      by_cases hkeep : keep count
      · rw [if_pos hkeep, Finset.sum_insert (by simp), add_comm]
        simp [hkeep]
      · rw [if_neg hkeep]
        simp [hkeep]

/-- A loop that adds up a value for each index computes the sum. -/
theorem foldl_fin_range_eq_sum (f : Fin n → M) (start : M) :
    (List.finRange n).foldl (fun sum i => sum + f i) start = start + ∑ i, f i := by
  rw [foldl_add_eq_sum, Fin.sum_univ_def]

/-- The sum of the values at the first indices. -/
def sumUpTo (f : Fin n → M) (count : Nat) : M :=
  ∑ k : Fin n, if k.val < count then f k else 0

/-- Before the first summand the sum is zero. -/
theorem sum_up_to_zero (f : Fin n → M) : sumUpTo f 0 = 0 := by
  simp [sumUpTo]

/-- After the last summand it is the whole sum. -/
theorem sum_up_to_all (f : Fin n → M) : sumUpTo f n = ∑ k, f k := by
  simp [sumUpTo]

/-- One more summand is added. -/
theorem sum_up_to_succ (f : Fin n → M) (i : Fin n) :
    sumUpTo f (i + 1) = sumUpTo f i + f i := by
  have hsplit : ∀ k : Fin n, (if k.val < i.val + 1 then f k else 0) =
      (if k.val < i.val then f k else 0) + (if k = i then f k else 0) := by
    intro k
    rcases Nat.lt_trichotomy k.val i.val with h | h | h
    · simp [h, Nat.lt_succ_of_lt h, Fin.ne_of_lt h]
    · simp [Fin.ext h]
    · simp [Nat.not_lt_of_gt h, Nat.not_lt_of_le h, Fin.ne_of_gt h]
  rw [sumUpTo, Finset.sum_congr rfl (fun k _ => hsplit k), Finset.sum_add_distrib,
    Finset.sum_ite_eq' Finset.univ i f, if_pos (Finset.mem_univ i)]
  rfl

end Mqom.Library
