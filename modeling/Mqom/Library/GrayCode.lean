import Mathlib.Algebra.BigOperators.Fin
import Mathlib.Algebra.Module.BigOperators
import Mathlib.Algebra.CharP.Two
import Mathlib.Algebra.Field.ZMod
import Mathlib.Algebra.Module.ZMod
import Mathlib.Data.Nat.Bitwise
import Mathlib.Tactic.Positivity
import Mathlib.Tactic.Ring

/-!
# Gray codes and folding

A cyclic code over `ZMod 2` changes one bit at a time. To add each item of a sequence into the
buckets of the bits of its code word, it is enough to add the running sum of the items into one
bucket after each item: the bucket of the bit that changes there. This module states the fold and
its meaning for any such code, and that the binary-reflected code `n ^^^ (n >>> 1)` is one.
-/

namespace Mqom.Library

/-! ## Folding along a code -/

section Fold

variable {K V W : Type} [DecidableEq K] [AddCommGroup V] [AddCommGroup W]

/-- The sum of the first items. -/
def runningSum (item : Nat → V) : Nat → V
  | 0 => 0
  | n + 1 => runningSum item n + item n

/-- The buckets after the first items: item `n` adds the running sum that includes it to the
bucket of `flip n`. -/
def folding (flip : Nat → K) (item : Nat → V) : Nat → K → V
  | 0, _ => 0
  | n + 1, k =>
    if k = flip n then folding flip item n k + runningSum item (n + 1)
    else folding flip item n k

/-- The running sum is the sum of the items so far. -/
theorem running_sum_eq (item : Nat → V) (n : Nat) :
    runningSum item n = ∑ j ∈ Finset.range n, item j := by
  induction n with
  | zero => rfl
  | succ n ih => rw [runningSum, ih, Finset.sum_range_succ]

variable [Module (ZMod 2) V] [Module (ZMod 2) W]

/-- After `n` items a bucket holds the items before which its bit differs from its value after
item `n`. -/
theorem folding_eq_sum {flip : Nat → K} {code : Nat → K → ZMod 2} (item : Nat → V) (n : Nat) (k : K)
    (hcode : ∀ j < n, code (j + 1) k = code j k + if k = flip j then 1 else 0) :
    folding flip item n k = ∑ j ∈ Finset.range n, (code j k + code n k) • item j := by
  induction n with
  | zero => rfl
  | succ n ih =>
      have hfirst := ih (fun j hj => hcode j (by omega))
      -- item `n` itself does not count yet, since its bit does not differ from itself
      have hlast : ∑ j ∈ Finset.range n, (code j k + code n k) • item j =
          ∑ j ∈ Finset.range (n + 1), (code j k + code n k) • item j := by
        rw [Finset.sum_range_succ, CharTwo.add_self_eq_zero, zero_smul, add_zero]
      rw [folding, hfirst, running_sum_eq, hcode n (by omega), hlast]
      by_cases hk : k = flip n
      · rw [if_pos hk, if_pos hk, ← Finset.sum_add_distrib]
        refine Finset.sum_congr rfl (fun j _ => ?_)
        rw [← add_assoc, add_smul _ (1 : ZMod 2), one_smul]
      · rw [if_neg hk, if_neg hk, add_zero]

/-- After a whole cycle a bucket holds the items whose code word has its bit set. -/
theorem folding_cycle {flip : Nat → K} {code : Nat → K → ZMod 2} (item : Nat → V) (n : Nat) (k : K)
    (hcode : ∀ j < n, code (j + 1) k = code j k + if k = flip j then 1 else 0)
    (hcycle : code n k = 0) :
    folding flip item n k = ∑ j ∈ Finset.range n, code j k • item j := by
  simp [folding_eq_sum item n k hcode, hcycle]

/-- Weighing the buckets of a whole cycle weighs every item with the sum of the weights of the
bits of its code word. -/
theorem sum_folding_cycle [Fintype K] {flip : Nat → K} {code : Nat → K → ZMod 2} (item : Nat → V)
    {n : Nat} (weigh : K → V →+ W)
    (hcode : ∀ j < n, ∀ k, code (j + 1) k = code j k + if k = flip j then 1 else 0)
    (hcycle : ∀ k, code n k = 0) :
    ∑ k, weigh k (folding flip item n k) =
      ∑ j ∈ Finset.range n, ∑ k, code j k • weigh k (item j) := by
  rw [Finset.sum_comm]
  refine Finset.sum_congr rfl (fun k _ => ?_)
  rw [folding_cycle item n k (fun j hj => hcode j hj k) (hcycle k), map_sum]
  exact Finset.sum_congr rfl (fun j _ => ZMod.map_smul (weigh k) (code j k) (item j))

end Fold

/-! ## Bits -/

/-- A bit of a number, as an element of `ZMod 2`. -/
def bit (n k : Nat) : ZMod 2 :=
  if n.testBit k then 1 else 0

/-- Zero has no bits. -/
@[simp] theorem bit_zero (k : Nat) : bit 0 k = 0 := by
  simp [bit]

/-- Bits are added without carry. -/
theorem bit_xor (m n k : Nat) : bit (m ^^^ n) k = bit m k + bit n k := by
  unfold bit
  rw [Nat.testBit_xor]
  cases m.testBit k <;> cases n.testBit k <;> rfl

/-- A power of two has one bit. -/
theorem bit_two_pow (t k : Nat) : bit (2 ^ t) k = if k = t then 1 else 0 := by
  simp [bit, Nat.testBit_two_pow, eq_comm]

/-- A number of `w` bits below its highest bit. -/
theorem mod_xor_top {n w : Nat} (h : n < 2 ^ (w + 1)) :
    (n % 2 ^ w) ^^^ (if n.testBit w then 2 ^ w else 0) = n := by
  apply Nat.eq_of_testBit_eq
  intro i
  have hhigh : w + 1 ≤ i → n.testBit i = false := fun hi =>
    Nat.testBit_lt_two_pow (Nat.lt_of_lt_of_le h (Nat.pow_le_pow_right (by omega) hi))
  rw [Nat.testBit_xor, Nat.testBit_mod_two_pow]
  rcases Nat.lt_trichotomy i w with hi | hi | hi
  · split <;> simp [hi, Nat.ne_of_gt hi]
  · subst hi
    split <;> simp_all
  · rw [hhigh hi]
    split <;> simp [Nat.not_lt_of_gt hi, Nat.ne_of_lt hi]

/-- A map that turns XOR into addition is determined by its values at the powers of two. -/
theorem sum_bits {V : Type} [AddCommGroup V] [Module (ZMod 2) V] {f : Nat → V}
    (hadd : ∀ a b, f (a ^^^ b) = f a + f b) {n w : Nat} (h : n < 2 ^ w) :
    ∑ k : Fin w, bit n k • f (2 ^ k.val) = f n := by
  have hzero : f 0 = 0 := by
    have h := hadd 0 0
    rw [Nat.xor_self] at h
    exact left_eq_add.mp h
  induction w generalizing n with
  | zero =>
      have hn : n = 0 := by simpa using h
      rw [hn, hzero]
      rfl
  | succ w ih =>
      have hlow : ∑ k : Fin w, bit n k • f (2 ^ k.val) = f (n % 2 ^ w) := by
        rw [← ih (Nat.mod_lt n (by positivity))]
        refine Finset.sum_congr rfl (fun k _ => ?_)
        rw [bit, bit, Nat.testBit_mod_two_pow, decide_eq_true k.isLt, Bool.true_and]
      calc ∑ k : Fin (w + 1), bit n k • f (2 ^ k.val)
          = ∑ k : Fin w, bit n k • f (2 ^ k.val) + bit n w • f (2 ^ w) :=
            Fin.sum_univ_castSucc _
        _ = f (n % 2 ^ w) + f (if n.testBit w then 2 ^ w else 0) := by
            rw [hlow, bit]
            split <;> simp [hzero]
        _ = f n := by rw [← hadd, mod_xor_top h]

/-! ## The binary-reflected code -/

/-- The binary-reflected Gray code. -/
def gray (n : Nat) : Nat :=
  n ^^^ (n >>> 1)

/-- The first code word is zero. -/
@[simp] theorem gray_zero : gray 0 = 0 := rfl

/-- The high bits of a code word are a code word. -/
theorem gray_div_two (n : Nat) : gray n / 2 = gray (n / 2) := by
  simp only [gray, Nat.shiftRight_one, Nat.xor_div_two]

/-- The last bit of a code word is the sum of the last two bits of the number. -/
theorem gray_mod_two (n : Nat) : gray n % 2 = (n + n / 2) % 2 := by
  simp only [gray, Nat.shiftRight_one, Nat.xor_mod_two_eq]

/-- The code words of small numbers are small. -/
theorem gray_lt_two_pow {n w : Nat} (h : n < 2 ^ w) : gray n < 2 ^ w :=
  Nat.xor_lt_two_pow h (Nat.lt_of_le_of_lt (Nat.shiftRight_le n 1) h)

/-- Neighbouring code words differ in one bit. The step from an even number changes bit 0, and the
step from an odd one changes a bit above it as the step from its half does. -/
theorem gray_succ (n : Nat) : ∃ t, gray n ^^^ gray (n + 1) = 2 ^ t := by
  induction n using Nat.strong_induction_on with
  | h n ih =>
      have hhalf := Nat.xor_div_two (a := gray n) (b := gray (n + 1))
      have hparity := Nat.xor_mod_two_eq (m := gray n) (n := gray (n + 1))
      have hlow := gray_mod_two n
      have hlow' := gray_mod_two (n + 1)
      rw [gray_div_two, gray_div_two] at hhalf
      rcases Nat.even_or_odd' n with ⟨m, hm | hm⟩
      · rw [show (n + 1) / 2 = n / 2 by omega, Nat.xor_self] at hhalf
        exact ⟨0, by omega⟩
      · obtain ⟨t, ht⟩ := ih m (by omega)
        rw [show n / 2 = m by omega, show (n + 1) / 2 = m + 1 by omega, ht] at hhalf
        refine ⟨t + 1, ?_⟩
        rw [Nat.pow_succ]
        omega

/-- The last code word of a width has the highest bit only. -/
theorem gray_last (w : Nat) : gray (2 ^ (w + 1) - 1) = 2 ^ w := by
  induction w with
  | zero => rfl
  | succ w ih =>
      have hhalf := gray_div_two (2 ^ (w + 1 + 1) - 1)
      have hlow := gray_mod_two (2 ^ (w + 1 + 1) - 1)
      have hpow : 2 ^ (w + 1 + 1) = 2 * 2 ^ (w + 1) := by ring
      have hpow' : 2 ^ (w + 1) = 2 * 2 ^ w := by ring
      have hpos : 0 < 2 ^ w := by positivity
      rw [show (2 ^ (w + 1 + 1) - 1) / 2 = 2 ^ (w + 1) - 1 by omega, ih] at hhalf
      omega

/-- The code is injective: a number is determined by its code word. -/
theorem gray_injective : Function.Injective gray := by
  intro m n h
  induction m using Nat.strong_induction_on generalizing n with
  | h m ih =>
      by_cases hm : m = 0
      · rw [hm, gray_zero] at h
        have hn : n = n >>> 1 := Nat.xor_eq_zero_iff.mp h.symm
        rw [Nat.shiftRight_one] at hn
        omega
      · have hhalf : m / 2 = n / 2 :=
          ih (m / 2) (by omega) (by rw [← gray_div_two, ← gray_div_two, h])
        have hlow := gray_mod_two m
        rw [h, gray_mod_two] at hlow
        omega

/-! ## The cycle of a width -/

/-- The code words of width `w`, and `0` again after the last one. -/
def grayCycle (w n : Nat) : Nat :=
  if n < 2 ^ w then gray n else 0

/-- Within the cycle the code is the Gray code. -/
theorem gray_cycle_of_lt {w n : Nat} (h : n < 2 ^ w) : grayCycle w n = gray n := if_pos h

/-- The cycle ends where it began. -/
@[simp] theorem gray_cycle_end (w : Nat) : grayCycle w (2 ^ w) = 0 := if_neg (lt_irrefl _)

/-- All words of the cycle are small. -/
theorem gray_cycle_lt (w n : Nat) : grayCycle w n < 2 ^ w := by
  unfold grayCycle
  split
  · exact gray_lt_two_pow (by assumption)
  · positivity

/-- Every step of the cycle, the one back to `0` included, changes one bit of the width. -/
theorem gray_cycle_succ {w n : Nat} (h : n < 2 ^ (w + 1)) :
    ∃ t < w + 1, grayCycle (w + 1) n ^^^ grayCycle (w + 1) (n + 1) = 2 ^ t := by
  have hbound := Nat.xor_lt_two_pow (gray_cycle_lt (w + 1) n) (gray_cycle_lt (w + 1) (n + 1))
  obtain ⟨t, ht⟩ : ∃ t, grayCycle (w + 1) n ^^^ grayCycle (w + 1) (n + 1) = 2 ^ t := by
    rw [gray_cycle_of_lt h]
    by_cases hnext : n + 1 < 2 ^ (w + 1)
    · rw [gray_cycle_of_lt hnext]
      exact gray_succ n
    · have hlast : n = 2 ^ (w + 1) - 1 := by omega
      rw [grayCycle, if_neg hnext, Nat.xor_zero, hlast]
      exact ⟨w, gray_last w⟩
  rw [ht] at hbound
  exact ⟨t, (Nat.pow_lt_pow_iff_right (by omega)).mp hbound, ht⟩

/-- When two neighbouring words differ in bit `t`, their bits do exactly there. -/
theorem bit_gray_cycle_succ {w n t : Nat}
    (h : grayCycle w n ^^^ grayCycle w (n + 1) = 2 ^ t) (k : Nat) :
    bit (grayCycle w (n + 1)) k = bit (grayCycle w n) k + if k = t then 1 else 0 := by
  rw [← bit_two_pow, ← bit_xor, ← h, Nat.xor_xor_cancel_left]

end Mqom.Library
