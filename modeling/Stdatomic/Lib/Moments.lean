/-
  Stdatomic.Lib.Moments — the mean of a finite series and its squared distances from it,
  computed from two sums.

  The sums may be taken of the distances from any value (`shifted`), from 0 as from a guess
  of the mean: the sum of the squares without the square of the sum is the same. So it is not
  negative, and 0 just for a constant series (`spread_eq_zero_iff`).
-/

import Mathlib.Algebra.BigOperators.Field
import Mathlib.Algebra.Order.BigOperators.Ring.Finset
import Mathlib.Algebra.Order.Field.Basic
import Mathlib.Tactic.FieldSimp
import Mathlib.Tactic.Ring

namespace Moments

universe u v

variable {ι : Type u} {K : Type v} [Fintype ι]

section
variable [Field K]

def mean (x : ι → K) : K := (∑ i, x i) / Fintype.card ι

def spread (x : ι → K) : K := ∑ i, (x i - mean x) ^ 2

variable {x : ι → K}

theorem sum_sub_const (x : ι → K) (c : K) : ∑ i, (x i - c) = ∑ i, x i - Fintype.card ι * c := by
  rw [Finset.sum_sub_distrib, Finset.sum_const, Finset.card_univ, nsmul_eq_mul]

theorem sum_sq_sub_const (x : ι → K) (c : K) :
    ∑ i, (x i - c) ^ 2 = ∑ i, x i ^ 2 - 2 * c * ∑ i, x i + Fintype.card ι * c ^ 2 := by
  have hterm : ∀ i, (x i - c) ^ 2 = x i ^ 2 - 2 * c * x i + c ^ 2 := fun i => by ring
  simp only [hterm, Finset.sum_add_distrib, Finset.sum_sub_distrib, ← Finset.mul_sum, Finset.sum_const,
    Finset.card_univ, nsmul_eq_mul]

/-- The sum of the squares without the square of the sum does not depend on where distances are taken from. -/
theorem sq_sub_sq (hn : (Fintype.card ι : K) ≠ 0) (c : K) :
    ∑ i, (x i - c) ^ 2 - (∑ i, (x i - c)) ^ 2 / Fintype.card ι =
      ∑ i, x i ^ 2 - (∑ i, x i) ^ 2 / Fintype.card ι := by
  rw [sum_sub_const, sum_sq_sub_const]
  field_simp
  ring

theorem sum_sub_mean (hn : (Fintype.card ι : K) ≠ 0) : ∑ i, (x i - mean x) = 0 := by
  rw [sum_sub_const, mean, mul_div_cancel₀ _ hn, sub_self]

theorem shifted (hn : (Fintype.card ι : K) ≠ 0) (c : K) :
    ∑ i, (x i - c) ^ 2 - (∑ i, (x i - c)) ^ 2 / Fintype.card ι = spread x := by
  have hmean := sq_sub_sq (x := x) hn (mean x)
  rw [sum_sub_mean hn, zero_pow two_ne_zero, zero_div, sub_zero] at hmean
  rw [sq_sub_sq hn, ← hmean]
  rfl

end

section
variable [Field K] [LinearOrder K] [IsStrictOrderedRing K] {x : ι → K}

theorem spread_nonneg (x : ι → K) : 0 ≤ spread x := Finset.sum_nonneg fun _ _ => sq_nonneg _

variable [Nonempty ι]

theorem card_ne_zero : (Fintype.card ι : K) ≠ 0 := Nat.cast_ne_zero.mpr Fintype.card_ne_zero

theorem spread_eq_zero_iff : spread x = 0 ↔ ∀ i j, x i = x j := by
  constructor
  · intro h i j
    have heq : ∀ i, x i = mean x := by
      intro i
      have hi := (Finset.sum_eq_zero_iff_of_nonneg fun i _ => sq_nonneg (x i - mean x)).mp h i (Finset.mem_univ i)
      exact sub_eq_zero.mp (sq_eq_zero_iff.mp hi)
    rw [heq i, heq j]
  · intro h
    obtain ⟨i⟩ := ‹Nonempty ι›
    have hmean : mean x = x i := by
      rw [mean, Finset.sum_congr rfl fun j _ => h j i, Finset.sum_const, Finset.card_univ, nsmul_eq_mul,
        mul_div_cancel_left₀ _ card_ne_zero]
    exact Finset.sum_eq_zero fun j _ => by rw [hmean, h j i, sub_self, zero_pow two_ne_zero]

theorem le_mean {c : K} (h : ∀ i, c ≤ x i) : c ≤ mean x := by
  have hpos : (0 : K) < Fintype.card ι := Nat.cast_pos.mpr Fintype.card_pos
  rw [mean, le_div_iff₀ hpos, mul_comm, ← nsmul_eq_mul, ← Finset.card_univ]
  exact Finset.card_nsmul_le_sum _ _ _ fun i _ => h i

theorem mean_le {c : K} (h : ∀ i, x i ≤ c) : mean x ≤ c := by
  have hpos : (0 : K) < Fintype.card ι := Nat.cast_pos.mpr Fintype.card_pos
  rw [mean, div_le_iff₀ hpos, mul_comm, ← nsmul_eq_mul, ← Finset.card_univ]
  exact Finset.sum_le_card_nsmul _ _ _ fun i _ => h i

end

end Moments
