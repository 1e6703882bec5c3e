/-
  Stdatomic.Lib.Count — counting the members of a finite family by a test on their
  values, for states in which each of finitely many threads has a value of its own.

  - `count_update`: what changing one member's value does to a count; a step of one
    thread changes every count by at most one.
  - `count_le_of`, `count_lt_of`: comparing the counts of two families.
  - `sum_change`, `sum_update`: what changing one member's value does to a sum.
  - `sum_update_lt`, `sum_update_eq`: lowering one member's measure lowers the sum, keeping it keeps the sum.
  - `count_pos`, `count_le_card`, `count_lt`, `count_mono`: bounds.
  - `eq_of_count_le_one`: a count of at most one singles its member out.
-/

import Mathlib.Data.Fintype.Card
import Mathlib.Algebra.Order.BigOperators.Group.Finset

namespace Family

universe u v

variable {ι : Type u} {β : Type v} [Fintype ι]

def count (p : β → Bool) (f : ι → β) : ℕ := (Finset.univ.filter fun i => p (f i) = true).card

variable {p q : β → Bool} {f : ι → β}

theorem count_pos : 0 < count p f ↔ ∃ i, p (f i) = true := by
  simp [count, Finset.card_pos, Finset.Nonempty]

theorem count_eq_zero : count p f = 0 ↔ ∀ i, p (f i) = false := by
  simp [count, Finset.filter_eq_empty_iff]

theorem count_le_card : count p f ≤ Fintype.card ι := Finset.card_filter_le _ _

theorem count_lt {i : ι} (h : p (f i) = false) : count p f < Fintype.card ι :=
  Finset.card_lt_univ_of_notMem (x := i) (by simp [h])

theorem count_mono (h : ∀ b, p b = true → q b = true) : count p f ≤ count q f :=
  Finset.card_le_card fun i hi => by
    simp only [Finset.mem_filter, Finset.mem_univ, true_and] at hi ⊢
    exact h _ hi

theorem eq_of_count_le_one (h : count p f ≤ 1) {i j : ι} (hi : p (f i) = true) (hj : p (f j) = true) : i = j :=
  Finset.card_le_one.mp h i (by simp [hi]) j (by simp [hj])

theorem count_update [DecidableEq ι] (i : ι) (v : β) :
    count p (Function.update f i v) + (p (f i)).toNat = count p f + (p v).toNat := by
  -- both counts agree away from `i`
  have split : ∀ g : ι → β, count p g = (p (g i)).toNat + ((Finset.univ.erase i).filter fun j => p (g j) = true).card := by
    intro g
    rw [count, ← Finset.insert_erase (Finset.mem_univ i), Finset.filter_insert]
    cases hi : p (g i) <;> simp [add_comm]
  have away : (Finset.univ.erase i).filter (fun j => p (Function.update f i v j) = true) =
      (Finset.univ.erase i).filter fun j => p (f j) = true := by
    refine Finset.filter_congr fun j hj => ?_
    rw [Function.update_of_ne (Finset.ne_of_mem_erase hj)]
  rw [split f, split (Function.update f i v), away, Function.update_self]
  omega

theorem count_update_eq [DecidableEq ι] {i : ι} {v : β} (h : p v = p (f i)) :
    count p (Function.update f i v) = count p f := by
  have := count_update (p := p) (f := f) i v
  rw [h] at this
  omega

/-- Fewer members pass if none passes anew. -/
theorem count_le_of {g : ι → β} (h : ∀ i, p (g i) = true → p (f i) = true) : count p g ≤ count p f :=
  Finset.card_le_card fun i hi => by
    simp only [Finset.mem_filter, Finset.mem_univ, true_and] at hi ⊢
    exact h i hi

theorem count_lt_of {g : ι → β} (h : ∀ i, p (g i) = true → p (f i) = true) {i : ι} (hi : p (f i) = true)
    (hi' : p (g i) = false) : count p g < count p f := by
  refine Finset.card_lt_card (Finset.ssubset_iff_of_subset (fun j hj => ?_) |>.mpr ⟨i, by simpa using hi, by simp [hi']⟩)
  simp only [Finset.mem_filter, Finset.mem_univ, true_and] at hj ⊢
  exact h j hj

theorem sum_change {M : Type*} [AddCommMonoid M] {m n : ι → M} (i : ι) (h : ∀ j, j ≠ i → n j = m j) :
    ∑ j, n j + m i = ∑ j, m j + n i := by
  classical
  have hsplit : ∀ k : ι → M, ∑ j, k j = ∑ j ∈ Finset.univ.erase i, k j + k i :=
    fun k => (Finset.sum_erase_add _ _ (Finset.mem_univ i)).symm
  have haway : ∑ j ∈ Finset.univ.erase i, n j = ∑ j ∈ Finset.univ.erase i, m j :=
    Finset.sum_congr rfl fun j hj => h j (Finset.ne_of_mem_erase hj)
  rw [hsplit m, hsplit n, haway, add_right_comm]

theorem sum_update [DecidableEq ι] {M : Type*} [AddCommMonoid M] {m : β → M} (i : ι) (v : β) :
    ∑ j, m (Function.update f i v j) + m (f i) = ∑ j, m (f j) + m v := by
  have h := sum_change (m := fun j => m (f j)) (n := fun j => m (Function.update f i v j)) i fun j hj => by
    rw [Function.update_of_ne hj]
  rwa [Function.update_self] at h

theorem sum_update_lt [DecidableEq ι] {M : Type*} [AddCommMonoid M] [PartialOrder M] [IsOrderedCancelAddMonoid M]
    {m : β → M} {i : ι} {v : β} (h : m v < m (f i)) : ∑ j, m (Function.update f i v j) < ∑ j, m (f j) := by
  refine Finset.sum_lt_sum (fun j _ => ?_) ⟨i, Finset.mem_univ i, by simpa using h⟩
  by_cases e : j = i
  · subst e; simpa using h.le
  · rw [Function.update_of_ne e]

theorem sum_update_eq [DecidableEq ι] {M : Type*} [AddCommMonoid M] {m : β → M} {i : ι} {v : β} (h : m v = m (f i)) :
    ∑ j, m (Function.update f i v j) = ∑ j, m (f j) := by
  refine Finset.sum_congr rfl fun j _ => ?_
  by_cases e : j = i
  · subst e; simpa using h
  · rw [Function.update_of_ne e]

end Family
