/-
  Stdatomic.Lib.Extremes — the sum, minimum and maximum of a series kept in one loop, from
  any seeds.

  The loop ends with the sum, and with the smaller (larger) of its seed and the smallest
  (largest) element (`run_lo`, `run_hi`), so a seed shows unless it lies between the two
  (`trim_iff`). The sum without both extremes lies between as many times the smallest and
  the largest element as are left (`le_trim`, `trim_le`).
-/

import Mathlib.Algebra.BigOperators.Fin
import Mathlib.Algebra.Order.BigOperators.Group.Finset
import Mathlib.Order.Bounds.Basic

namespace Extremes

universe u v

variable {K : Type u}

structure Acc (K : Type u) where
  sum : K
  lo : K
  hi : K
  deriving DecidableEq, Repr

def Acc.add [Add K] [LinearOrder K] (a : Acc K) (x : K) : Acc K :=
  ⟨a.sum + x, if x < a.lo then x else a.lo, if a.hi < x then x else a.hi⟩

def run [Add K] [LinearOrder K] (a : Acc K) (l : List K) : Acc K := l.foldl Acc.add a

section
variable [AddCommMonoid K] [LinearOrder K] {a : Acc K} {l : List K}

theorem run_sum : (run a l).sum = a.sum + l.sum := by
  induction l generalizing a with
  | nil => simp [run]
  | cons x l ih =>
    have h : (run a (x :: l)).sum = (run (a.add x) l).sum := rfl
    rw [h, ih, List.sum_cons, Acc.add, add_assoc]

theorem le_run_lo {c : K} : c ≤ (run a l).lo ↔ c ≤ a.lo ∧ ∀ x ∈ l, c ≤ x := by
  induction l generalizing a with
  | nil => simp [run]
  | cons x l ih =>
    have h : (run a (x :: l)).lo = (run (a.add x) l).lo := rfl
    have hmin : (a.add x).lo = min x a.lo := min_def_lt x a.lo |>.symm
    rw [h, ih, hmin, le_min_iff, List.forall_mem_cons]
    exact ⟨fun h => ⟨h.1.2, h.1.1, h.2⟩, fun h => ⟨⟨h.2.1, h.1⟩, h.2.2⟩⟩

theorem run_hi_le {c : K} : (run a l).hi ≤ c ↔ a.hi ≤ c ∧ ∀ x ∈ l, x ≤ c := by
  induction l generalizing a with
  | nil => simp [run]
  | cons x l ih =>
    have h : (run a (x :: l)).hi = (run (a.add x) l).hi := rfl
    have hmax : (a.add x).hi = max a.hi x := max_def_lt a.hi x |>.symm
    rw [h, ih, hmax, max_le_iff, List.forall_mem_cons, and_assoc]

/-- The smaller of the seed and the smallest element. -/
theorem run_lo {m : K} (hm : IsLeast {x | x ∈ l} m) : (run a l).lo = min a.lo m := by
  refine eq_of_forall_le_iff fun c => ?_
  rw [le_run_lo, le_min_iff]
  exact and_congr_right fun _ => ⟨fun h => h m hm.1, fun h x hx => le_trans h (hm.2 hx)⟩

/-- The larger of the seed and the largest element. -/
theorem run_hi {m : K} (hm : IsGreatest {x | x ∈ l} m) : (run a l).hi = max a.hi m := by
  refine eq_of_forall_ge_iff fun c => ?_
  rw [run_hi_le, max_le_iff]
  exact and_congr_right fun _ => ⟨fun h => h m hm.1, fun h x hx => le_trans (hm.2 hx) h⟩

end

section
variable [AddCommGroup K] [LinearOrder K] [IsOrderedAddMonoid K]

/-- Seeding both extremes with `s` takes off the smallest and the largest element if and only if `s` lies between. -/
theorem trim_iff {s m M : K} (hmM : m ≤ M) : min s m + max s M = m + M ↔ m ≤ s ∧ s ≤ M := by
  constructor
  · intro h
    rcases lt_or_ge s m with hlt | hle
    · rw [min_eq_left (le_of_lt hlt), max_eq_right (le_trans (le_of_lt hlt) hmM)] at h
      exact absurd (add_right_cancel h) (ne_of_lt hlt)
    · rcases lt_or_ge M s with hgt | hge
      · rw [min_eq_right hle, max_eq_left (le_of_lt hgt)] at h
        exact absurd (add_left_cancel h).symm (ne_of_lt hgt)
      · exact ⟨hle, hge⟩
  · rintro ⟨hle, hge⟩
    rw [min_eq_right hle, max_eq_right hge]

variable {ι : Type v} [Fintype ι] {x : ι → K} {m M : K}

theorem le_trim [DecidableEq ι] (hm : IsLeast (Set.range x) m) (hM : IsGreatest (Set.range x) M)
    (hn : 2 ≤ Fintype.card ι) : (Fintype.card ι - 2) • m ≤ ∑ i, x i - m - M := by
  obtain ⟨i, hi⟩ := hM.1
  have hrest : (Fintype.card ι - 1) • m ≤ ∑ j ∈ Finset.univ.erase i, x j := by
    have h := Finset.card_nsmul_le_sum (Finset.univ.erase i) x m fun j _ => hm.2 ⟨j, rfl⟩
    rwa [Finset.card_erase_of_mem (Finset.mem_univ i), Finset.card_univ] at h
  have hsum := Finset.add_sum_erase Finset.univ x (Finset.mem_univ i)
  have hcard : Fintype.card ι - 1 = Fintype.card ι - 2 + 1 := by omega
  rw [hcard, succ_nsmul] at hrest
  rw [← hsum, hi, sub_right_comm, add_sub_cancel_left]
  exact le_sub_right_of_add_le hrest

theorem trim_le [DecidableEq ι] (hm : IsLeast (Set.range x) m) (hM : IsGreatest (Set.range x) M)
    (hn : 2 ≤ Fintype.card ι) : ∑ i, x i - m - M ≤ (Fintype.card ι - 2) • M := by
  obtain ⟨i, hi⟩ := hm.1
  have hrest : ∑ j ∈ Finset.univ.erase i, x j ≤ (Fintype.card ι - 1) • M := by
    have h := Finset.sum_le_card_nsmul (Finset.univ.erase i) x M fun j _ => hM.2 ⟨j, rfl⟩
    rwa [Finset.card_erase_of_mem (Finset.mem_univ i), Finset.card_univ] at h
  have hsum := Finset.add_sum_erase Finset.univ x (Finset.mem_univ i)
  have hcard : Fintype.card ι - 1 = Fintype.card ι - 2 + 1 := by omega
  rw [hcard, succ_nsmul] at hrest
  rw [← hsum, hi, add_sub_cancel_left]
  exact sub_le_iff_le_add.mpr hrest

end

end Extremes
