/-
  Stdatomic.Calibrate.Spins — what `atomic_calibrate` computes from its means:
  `spins_max`, and the deviations it prints, with exact arithmetic.

  The estimate divides by the mean of a round of spinning, which can be 0. The quotient is
  then infinite, and falls under the bounds as any other, or no number, if the mean of
  `futex_time` is 0 as well: both comparisons fail, and its conversion to `unsigned` is
  undefined. Otherwise `spins_max` is from 5 to 100 (`calibrated_spins`).

  The deviations are taken from the means, with a correction for these not being the means
  of all values. So they are right for any value in their place, and `wake_time` has the
  right one even if its mean is not (`deviations_right`).
-/

import Stdatomic.Calibrate.Means
import Stdatomic.Lib.Moments
import Mathlib.Data.Rat.Floor
import Mathlib.Tactic.NormNum

namespace Stdatomic.Calibrate

/-! ## The estimate -/

/-- A quotient of `double`s but for rounding. -/
inductive Quotient where
  | fin (q : ℚ)
  | inf (neg : Bool)
  | nan
  deriving DecidableEq

def Quotient.of (a b : ℚ) : Quotient := if b ≠ 0 then .fin (a / b) else if a = 0 then .nan else .inf (a < 0)

/-- `e < c`; nothing compares with no number. -/
def Quotient.below (c : ℚ) : Quotient → Bool
  | .fin q => q < c
  | .inf neg => neg
  | .nan => false

def Quotient.above (c : ℚ) : Quotient → Bool
  | .fin q => c < q
  | .inf neg => !neg
  | .nan => false

def Quotient.toUnsigned : Quotient → Option ℕ
  | .fin q => if -1 < q ∧ q < 2 ^ 32 then some ⌊q⌋₊ else none
  | _ => none

def factor : ℚ := 21 / 10

def estimate (m : Means) : Quotient := .of (m.futexWaitFailMean * factor) m.spinMean

def spinsOf (e : Quotient) : Option ℕ :=
  if e.below 5 then some 5 else if e.above 100 then some 100 else e.toUnsigned

def spinsMax (futexTime wakeTime spinTime : Series) : Option ℕ := spinsOf (estimate (means futexTime wakeTime spinTime))

theorem spinsOf_fin (q : ℚ) : spinsOf (.fin q) = some (max 5 (min 100 ⌊q⌋₊)) := by
  simp only [spinsOf, Quotient.below, Quotient.above, Quotient.toUnsigned, decide_eq_true_eq]
  split
  · rename_i hlt
    have hfloor : ⌊q⌋₊ < 5 := by
      rcases lt_or_ge q 0 with hneg | hpos
      · rw [Nat.floor_of_nonpos hneg.le]
        decide
      · exact (Nat.floor_lt hpos).mpr (by exact_mod_cast hlt)
    rw [max_eq_left (by omega)]
  · rename_i hlt
    have h5 : 5 ≤ ⌊q⌋₊ := Nat.le_floor (by exact_mod_cast not_lt.mp hlt)
    split
    · rename_i hgt
      have h100 : 100 ≤ ⌊q⌋₊ := Nat.le_floor (by exact_mod_cast hgt.le)
      rw [min_eq_left h100]
      rfl
    · rename_i hgt
      have hle : ⌊q⌋₊ ≤ 100 := Nat.floor_le_of_le (by exact_mod_cast not_lt.mp hgt)
      have hrange : -1 < q ∧ q < 2 ^ 32 :=
        ⟨lt_of_lt_of_le (by norm_num) (not_lt.mp hlt), lt_of_le_of_lt (not_lt.mp hgt) (by norm_num)⟩
      rw [if_pos hrange, min_eq_right hle, max_eq_right h5]

theorem spinsOf_cases (e : Quotient) : e = .nan ∧ spinsOf e = none ∨ ∃ k, spinsOf e = some k ∧ 5 ≤ k ∧ k ≤ 100 := by
  cases e with
  | nan => exact Or.inl ⟨rfl, rfl⟩
  | inf neg =>
    refine Or.inr ?_
    cases neg
    · exact ⟨100, rfl, by decide⟩
    · exact ⟨5, rfl, by decide⟩
  | fin q => exact Or.inr ⟨_, spinsOf_fin q, le_max_left _ _, max_le (by decide) (min_le_left _ _)⟩

theorem estimate_nan {m : Means} : estimate m = .nan ↔ m.futexWaitFailMean = 0 ∧ m.spinMean = 0 := by
  unfold estimate Quotient.of
  have hfactor : factor ≠ 0 := by
    unfold factor
    norm_num
  by_cases hs : m.spinMean = 0
  · by_cases hf : m.futexWaitFailMean = 0
    · simp [hs, hf]
    · simp [hs, hf, hfactor]
  · simp [hs]

/-! ## Units of time -/

theorem seededMean_scale {c : ℚ} (hc : 0 < c) (v : ℚ) (x : Series) :
    seededMean (c * v) (fun j => c * x j) = c * seededMean v x := by
  obtain ⟨m, M, hm, hM⟩ := exists_extremes x
  have hmono : Monotone fun y : ℚ => c * y := fun a b h => mul_le_mul_of_nonneg_left h hc.le
  have hrange : Set.range (fun j => c * x j) = (fun y : ℚ => c * y) '' Set.range x := Set.range_comp (c * ·) x
  have hm' : IsLeast (Set.range fun j => c * x j) (c * m) := hrange ▸ hmono.map_isLeast hm
  have hM' : IsGreatest (Set.range fun j => c * x j) (c * M) := hrange ▸ hmono.map_isGreatest hM
  rw [seededMean_eq hm' hM', seededMean_eq hm hM, ← Finset.mul_sum, ← mul_min_of_nonneg _ _ hc.le,
    ← mul_max_of_nonneg _ _ hc.le]
  ring

theorem estimate_scale {c : ℚ} (hc : 0 < c) (futexTime wakeTime spinTime : Series) :
    estimate (means (fun j => c * futexTime j) (fun j => c * wakeTime j) fun j => c * spinTime j) =
      estimate (means futexTime wakeTime spinTime) := by
  have hne : c ≠ 0 := hc.ne'
  simp only [means_eq, estimate, seededMean_scale hc, Quotient.of, mul_assoc, mul_eq_zero, hne, ne_eq, true_and,
    false_or, mul_div_mul_left _ _ hne, mul_neg_iff, hc, hc.not_gt, false_and, or_false]

/-- For all times that are measured: `spins_max` has no defined value just if both means are 0; otherwise it is from 5
    to 100, and the estimate cut to these bounds if the mean of a round of spinning is not 0. It depends neither on the unit
    of time nor on the times of the wakes. -/
theorem calibrated_spins (futexTime wakeTime spinTime : Series) :
    (spinsMax futexTime wakeTime spinTime = none ↔ (means futexTime wakeTime spinTime).futexWaitFailMean = 0 ∧
      (means futexTime wakeTime spinTime).spinMean = 0) ∧
    (∀ k, spinsMax futexTime wakeTime spinTime = some k → 5 ≤ k ∧ k ≤ 100) ∧
    ((means futexTime wakeTime spinTime).spinMean ≠ 0 → spinsMax futexTime wakeTime spinTime =
      some (max 5 (min 100 ⌊(means futexTime wakeTime spinTime).futexWaitFailMean * factor /
        (means futexTime wakeTime spinTime).spinMean⌋₊))) ∧
    (∀ c > 0, spinsMax (fun j => c * futexTime j) (fun j => c * wakeTime j) (fun j => c * spinTime j) =
      spinsMax futexTime wakeTime spinTime) ∧
    ∀ wakeTime', spinsMax futexTime wakeTime' spinTime = spinsMax futexTime wakeTime spinTime := by
  have hcases := spinsOf_cases (estimate (means futexTime wakeTime spinTime))
  refine ⟨?_, fun k hk => ?_, fun hs => ?_, fun c hc => ?_, fun wakeTime' => ?_⟩
  · rw [← estimate_nan]
    rcases hcases with ⟨hnan, hnone⟩ | ⟨k, hk, -⟩
    · exact iff_of_true hnone hnan
    · refine iff_of_false (fun hnone => ?_) fun hnan => ?_
      · rw [spinsMax, hk] at hnone
        cases hnone
      · rw [hnan] at hk
        cases hk
  · rcases hcases with ⟨-, hnone⟩ | ⟨k', hk', hbounds⟩
    · rw [spinsMax, hnone] at hk
      cases hk
    · rw [spinsMax, hk'] at hk
      rw [← Option.some.inj hk]
      exact hbounds
  · rw [spinsMax, estimate, Quotient.of, if_pos hs, spinsOf_fin]
  · exact congrArg spinsOf (estimate_scale hc futexTime wakeTime spinTime)
  · have hmeans : ∀ w, estimate (means futexTime w spinTime) =
        .of (seededMean (futexTime first) futexTime * factor) (seededMean (spinTime first) spinTime) :=
      fun w => by rw [means_eq]; rfl
    rw [spinsMax, spinsMax, hmeans, hmeans]

/-- With waits that take 5 and rounds of spinning that take 1, the lock spins ten times. -/
theorem calibrated_ten : spinsMax (fun _ => 5) (fun _ => 1) (fun _ => 1) = some 10 := by
  obtain ⟨-, -, hfin, -⟩ := calibrated_spins (fun _ => 5) (fun _ => 1) fun _ => 1
  rw [hfin (by decide +kernel)]
  decide +kernel

/-! ## The deviations -/

structure Sums where
  s1 : ℚ
  s2 : ℚ

def Sums.add (a : Sums) (d : ℚ) : Sums := ⟨a.s1 + d, a.s2 + d * d⟩

structure SumLoop where
  f : Sums
  w : Sums
  s : Sums

structure Deviations where
  futexWaitFail : ℚ
  futexWake : ℚ
  spin : ℚ
  deriving DecidableEq, Repr

section
variable (futexTime wakeTime spinTime : Series)

def sumBody (m : Means) (l : SumLoop) (j : Fin iterJ) : SumLoop :=
  ⟨l.f.add (futexTime j - m.futexWaitFailMean), l.w.add (wakeTime j - m.futexWakeMean), l.s.add (spinTime j - m.spinMean)⟩

/-- `(ft2 - (ft1*ft1)/iterJ)/(iterJ-1)`. -/
def devOf (a : Sums) : ℚ := (a.s2 - a.s1 * a.s1 / iterJ) / (iterJ - 1)

def deviationsFrom (m : Means) : Deviations :=
  let l := (List.finRange iterJ).foldl (sumBody futexTime wakeTime spinTime m) ⟨⟨0, 0⟩, ⟨0, 0⟩, ⟨0, 0⟩⟩
  ⟨devOf l.f, devOf l.w, devOf l.s⟩

def deviations : Deviations := deviationsFrom futexTime wakeTime spinTime (means futexTime wakeTime spinTime)

def sampleVariance (x : Series) : ℚ := Moments.spread x / (iterJ - 1)

variable {futexTime wakeTime spinTime}

theorem sums_eq (l : List ℚ) (a : Sums) :
    l.foldl Sums.add a = ⟨a.s1 + l.sum, a.s2 + (l.map fun d => d * d).sum⟩ := by
  induction l generalizing a with
  | nil => simp
  | cons d l ih =>
    rw [List.foldl_cons, ih]
    simp only [Sums.add, List.sum_cons, List.map_cons, add_assoc]

theorem sumLoop_eq (m : Means) (l : List (Fin iterJ)) (k : SumLoop) :
    l.foldl (sumBody futexTime wakeTime spinTime m) k =
      ⟨(l.map fun j => futexTime j - m.futexWaitFailMean).foldl Sums.add k.f,
        (l.map fun j => wakeTime j - m.futexWakeMean).foldl Sums.add k.w,
        (l.map fun j => spinTime j - m.spinMean).foldl Sums.add k.s⟩ := by
  induction l generalizing k with
  | nil => rfl
  | cons j l ih =>
    rw [List.foldl_cons, ih]
    rfl

/-- Whatever the distances are taken from, the correction leaves the variance. -/
theorem devOf_eq (x : Series) (c : ℚ) :
    devOf (((List.finRange iterJ).map fun j => x j - c).foldl Sums.add ⟨0, 0⟩) = sampleVariance x := by
  have hn : (Fintype.card (Fin iterJ) : ℚ) ≠ 0 := by
    rw [Fintype.card_fin]
    unfold iterJ
    norm_num
  have hshift := Moments.shifted (x := x) hn c
  rw [Fintype.card_fin] at hshift
  have hsum : ((List.finRange iterJ).map fun j => x j - c).sum = ∑ j, (x j - c) := by
    rw [← List.ofFn_eq_map, List.sum_ofFn]
  have hsq : (((List.finRange iterJ).map fun j => x j - c).map fun d => d * d).sum = ∑ j, (x j - c) ^ 2 := by
    rw [List.map_map, ← List.ofFn_eq_map, List.sum_ofFn]
    exact Finset.sum_congr rfl fun j _ => (sq (x j - c)).symm
  rw [sums_eq, devOf, sampleVariance, ← hshift, zero_add, zero_add, hsum, hsq, ← sq]

theorem deviationsFrom_eq (m : Means) : deviationsFrom futexTime wakeTime spinTime m =
    ⟨sampleVariance futexTime, sampleVariance wakeTime, sampleVariance spinTime⟩ := by
  unfold deviationsFrom
  rw [sumLoop_eq]
  simp only [devOf_eq]

end

/-- For all times: the square root of each deviation is of the variance of its own series, whatever the distances are taken
    from; this is not negative, and 0 just if the series is constant. -/
theorem deviations_right (futexTime wakeTime spinTime : Series) :
    (∀ m, deviationsFrom futexTime wakeTime spinTime m =
      ⟨sampleVariance futexTime, sampleVariance wakeTime, sampleVariance spinTime⟩) ∧
    deviations futexTime wakeTime spinTime =
      ⟨sampleVariance futexTime, sampleVariance wakeTime, sampleVariance spinTime⟩ ∧
    ∀ x : Series, 0 ≤ sampleVariance x ∧ (sampleVariance x = 0 ↔ ∀ i j, x i = x j) := by
  have hpos : (0 : ℚ) < iterJ - 1 := by
    unfold iterJ
    norm_num
  have hne : Nonempty (Fin iterJ) := ⟨first⟩
  refine ⟨deviationsFrom_eq, deviationsFrom_eq _, fun x => ⟨div_nonneg (Moments.spread_nonneg x) hpos.le, ?_⟩⟩
  rw [sampleVariance, div_eq_zero_iff, or_iff_left hpos.ne', Moments.spread_eq_zero_iff]

end Stdatomic.Calibrate
