/-
  Stdatomic.Calibrate.Means — the means that `atomic_calibrate` computes from its rounds,
  with exact arithmetic.

  One loop keeps the sum, the minimum and the maximum of each of the three series; then
  each mean leaves the two extremes out. The extremes of `futex_time` and of `spin_time`
  start from the first element of their own series, those of `wake_time` from
  `futex_time[0]`. So its mean leaves out `futex_time[0]` instead of an extreme of its own,
  unless that value lies within the series (`means_trim_iff`).
-/

import Stdatomic.Calibrate.Elapsed
import Stdatomic.Lib.Extremes
import Mathlib.Data.Fintype.Lattice

namespace Stdatomic.Calibrate

open Extremes

abbrev Series := Fin iterJ → ℚ

def first : Fin iterJ := ⟨0, by decide⟩

structure Loop where
  f : Acc ℚ
  w : Acc ℚ
  s : Acc ℚ

structure Means where
  futexWaitFailMean : ℚ
  futexWakeMean : ℚ
  spinMean : ℚ
  deriving DecidableEq, Repr

section
variable (futexTime wakeTime spinTime : Series)

/-- Before the loop; `wmin` and `wmax` are `futex_time[0]`. -/
def seeds : Loop where
  f := ⟨0, futexTime first, futexTime first⟩
  w := ⟨0, futexTime first, futexTime first⟩
  s := ⟨0, spinTime first, spinTime first⟩

def body (l : Loop) (j : Fin iterJ) : Loop := ⟨l.f.add (futexTime j), l.w.add (wakeTime j), l.s.add (spinTime j)⟩

/-- `(ft1-fmin-fmax)/(iterJ-2)`. -/
def meanOf (a : Acc ℚ) : ℚ := (a.sum - a.lo - a.hi) / (iterJ - 2)

def means : Means :=
  let l := (List.finRange iterJ).foldl (body futexTime wakeTime spinTime) (seeds futexTime spinTime)
  ⟨meanOf l.f, meanOf l.w, meanOf l.s⟩

/-! ## Trimmed means -/

/-- `y` is the mean of `x` without its smallest and largest element, and lies between them. -/
def IsTrimmedMean (x : Series) (y : ℚ) : Prop :=
  ∀ m M, IsLeast (Set.range x) m → IsGreatest (Set.range x) M →
    y = (∑ j, x j - m - M) / (iterJ - 2) ∧ m ≤ y ∧ y ≤ M

structure MeansTrim : Prop where
  futex : IsTrimmedMean futexTime (means futexTime wakeTime spinTime).futexWaitFailMean
  wake : IsTrimmedMean wakeTime (means futexTime wakeTime spinTime).futexWakeMean
  spin : IsTrimmedMean spinTime (means futexTime wakeTime spinTime).spinMean

def Within (v : ℚ) (x : Series) : Prop := (∃ j, x j ≤ v) ∧ ∃ j, v ≤ x j

end

section
variable {futexTime wakeTime spinTime : Series}

/-- The three accumulators do not meet. -/
theorem loop_eq (l : List (Fin iterJ)) (k : Loop) : l.foldl (body futexTime wakeTime spinTime) k =
    ⟨run k.f (l.map futexTime), run k.w (l.map wakeTime), run k.s (l.map spinTime)⟩ := by
  induction l generalizing k with
  | nil => rfl
  | cons j l ih =>
    rw [List.foldl_cons, ih]
    rfl

/-- The mean with both extremes seeded by `v`. -/
def seededMean (v : ℚ) (x : Series) : ℚ := meanOf (run ⟨0, v, v⟩ ((List.finRange iterJ).map x))

theorem means_eq : means futexTime wakeTime spinTime =
    ⟨seededMean (futexTime first) futexTime, seededMean (futexTime first) wakeTime,
      seededMean (spinTime first) spinTime⟩ := by
  unfold means
  rw [loop_eq]
  rfl

theorem exists_extremes (x : Series) : ∃ m M, IsLeast (Set.range x) m ∧ IsGreatest (Set.range x) M := by
  have : Nonempty (Fin iterJ) := ⟨first⟩
  obtain ⟨i, hi⟩ := Finite.exists_min x
  obtain ⟨j, hj⟩ := Finite.exists_max x
  exact ⟨x i, x j, ⟨⟨i, rfl⟩, by rintro _ ⟨k, rfl⟩; exact hi k⟩, ⟨⟨j, rfl⟩, by rintro _ ⟨k, rfl⟩; exact hj k⟩⟩

variable {x : Series} {v m M : ℚ}

theorem mem_map_finRange : {y | y ∈ (List.finRange iterJ).map x} = Set.range x := by
  ext y
  simp

theorem seededMean_eq (hm : IsLeast (Set.range x) m) (hM : IsGreatest (Set.range x) M) :
    seededMean v x = (∑ j, x j - min v m - max v M) / (iterJ - 2) := by
  rw [seededMean, meanOf, run_sum, run_lo (mem_map_finRange ▸ hm), run_hi (mem_map_finRange ▸ hM), zero_add,
    ← List.ofFn_eq_map, List.sum_ofFn]

theorem iterJ_sub_two : (iterJ : ℚ) - 2 = 8 := by
  unfold iterJ
  norm_num

theorem within_iff (hm : IsLeast (Set.range x) m) (hM : IsGreatest (Set.range x) M) :
    Within v x ↔ m ≤ v ∧ v ≤ M := by
  obtain ⟨i, hi⟩ := hm.1
  obtain ⟨j, hj⟩ := hM.1
  constructor
  · rintro ⟨⟨k, hk⟩, ⟨l, hl⟩⟩
    exact ⟨le_trans (hm.2 ⟨k, rfl⟩) hk, le_trans hl (hM.2 ⟨l, rfl⟩)⟩
  · rintro ⟨hl, hr⟩
    exact ⟨⟨i, by rw [hi]; exact hl⟩, ⟨j, by rw [hj]; exact hr⟩⟩

/-- A seeded mean is the trimmed mean just if the seed lies within the series. -/
theorem seededMean_iff : IsTrimmedMean x (seededMean v x) ↔ Within v x := by
  obtain ⟨m, M, hm, hM⟩ := exists_extremes x
  have h8 := iterJ_sub_two
  have hmM : m ≤ M := hm.2 hM.1
  have hsub : ∀ p q : ℚ, ∑ j, x j - p - q = ∑ j, x j - (p + q) := fun p q => sub_sub _ p q
  rw [within_iff hm hM, ← trim_iff hmM]
  constructor
  · intro h
    have heq := (h m M hm hM).1
    rw [seededMean_eq hm hM, h8, div_left_inj' (by norm_num), hsub, hsub, sub_right_inj] at heq
    exact heq
  · intro h m' M' hm' hM'
    obtain rfl : m' = m := hm'.unique hm
    obtain rfl : M' = M := hM'.unique hM
    have heq : seededMean v x = (∑ j, x j - m' - M') / (iterJ - 2) := by
      rw [seededMean_eq hm' hM', hsub, hsub, h]
    have hn : 2 ≤ Fintype.card (Fin iterJ) := by decide
    have hlo := le_trim hm' hM' hn
    have hhi := trim_le hm' hM' hn
    have hcard : Fintype.card (Fin iterJ) - 2 = 8 := by decide
    rw [hcard, nsmul_eq_mul] at hlo hhi
    push_cast at hlo hhi
    refine ⟨heq, ?_, ?_⟩
    · rw [heq, h8, le_div_iff₀ (by norm_num)]
      linarith
    · rw [heq, h8, div_le_iff₀ (by norm_num)]
      linarith

theorem within_self (x : Series) (j : Fin iterJ) : Within (x j) x := ⟨⟨j, le_refl _⟩, ⟨j, le_refl _⟩⟩

/-- A trimmed mean does not depend on the order of the rounds. -/
theorem trimmedMean_perm {x : Series} {σ : Equiv.Perm (Fin iterJ)} {y z : ℚ} (hy : IsTrimmedMean x y)
    (hz : IsTrimmedMean (fun j => x (σ j)) z) : z = y := by
  obtain ⟨m, M, hm, hM⟩ := exists_extremes x
  have hrange : Set.range (fun j => x (σ j)) = Set.range x := σ.surjective.range_comp x
  have hsum : ∑ j, x (σ j) = ∑ j, x j := Equiv.sum_comp σ x
  rw [(hy m M hm hM).1, (hz m M (hrange ▸ hm) (hrange ▸ hM)).1, hsum]

end

/-- For all series: the means are the trimmed means of their own series if and only if `futex_time[0]` lies within
    `wake_time`; those of `futex_time` and `spin_time` always are. Where they are, they depend
    neither on the order of the rounds nor on the other series. -/
theorem means_trim_iff (futexTime wakeTime spinTime : Series) :
    (MeansTrim futexTime wakeTime spinTime ↔ Within (futexTime first) wakeTime) ∧
    IsTrimmedMean futexTime (means futexTime wakeTime spinTime).futexWaitFailMean ∧
    IsTrimmedMean spinTime (means futexTime wakeTime spinTime).spinMean ∧
    ∀ (futexTime' wakeTime' spinTime' : Series) (σ : Equiv.Perm (Fin iterJ)),
      (means (fun j => futexTime (σ j)) wakeTime' spinTime').futexWaitFailMean =
        (means futexTime wakeTime spinTime).futexWaitFailMean ∧
      (means futexTime' wakeTime' fun j => spinTime (σ j)).spinMean = (means futexTime wakeTime spinTime).spinMean ∧
      (Within (futexTime first) wakeTime → Within (futexTime' first) wakeTime →
        (means futexTime' (fun j => wakeTime (σ j)) spinTime').futexWakeMean =
          (means futexTime wakeTime spinTime).futexWakeMean) := by
  have hself : ∀ x : Series, IsTrimmedMean x (seededMean (x first) x) := fun x => seededMean_iff.mpr (within_self x first)
  refine ⟨⟨fun h => ?_, fun h => ?_⟩, ?_, ?_, fun futexTime' wakeTime' spinTime' σ => ⟨?_, ?_, fun h h' => ?_⟩⟩
  · have hw := h.wake
    rw [means_eq] at hw
    exact seededMean_iff.mp hw
  · refine ⟨?_, ?_, ?_⟩ <;> rw [means_eq]
    · exact hself futexTime
    · exact seededMean_iff.mpr h
    · exact hself spinTime
  · rw [means_eq]
    exact hself futexTime
  · rw [means_eq]
    exact hself spinTime
  · rw [means_eq, means_eq]
    exact trimmedMean_perm (hself futexTime) (hself fun j => futexTime (σ j))
  · rw [means_eq, means_eq]
    exact trimmedMean_perm (hself spinTime) (hself fun j => spinTime (σ j))
  · have hw : Within (futexTime' first) fun j => wakeTime (σ j) := by
      obtain ⟨⟨i, hi⟩, ⟨j, hj⟩⟩ := h'
      exact ⟨⟨σ.symm i, by simpa using hi⟩, ⟨σ.symm j, by simpa using hj⟩⟩
    rw [means_eq, means_eq]
    exact trimmedMean_perm (seededMean_iff.mpr h) (seededMean_iff.mpr hw)

/-- With all waits taking 5, wakes that all take 1 have the mean 1/2. -/
theorem wake_seeded_wrong : ¬ MeansTrim (fun _ => 5) (fun _ => 1) (fun _ => 1) := by
  intro h
  obtain ⟨-, ⟨j, hj⟩⟩ := (seededMean_iff (v := 5)).mp (means_eq ▸ h.wake)
  exact absurd hj (by norm_num)

end Stdatomic.Calibrate
