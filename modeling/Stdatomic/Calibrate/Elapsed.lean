/-
  Stdatomic.Calibrate.Elapsed — `timespecdiff` and the measuring rounds of
  `atomic_calibrate` (`atomic_futex_lock.c`), with exact arithmetic.

  The clock is what the calls of `clock_gettime` return, one after the other
  (`Clock`): the first is `all_start`, and every round makes six more, around its
  three measuring loops (`round`).

  Where the nanoseconds of the end are fewer than those of the start, `timespecdiff` adds
  their distance and takes off a second, where it would have to take off the distance
  only; both are the same if the distance is half a second (`timespecdiff_iff`). So the
  recorded times are elapsed times if and only if no loop ends in such a way
  (`calibration_measures_iff`).
-/

import Mathlib.Algebra.Order.Field.Rat
import Mathlib.Tactic.Linarith
import Mathlib.Tactic.Ring

namespace Stdatomic.Calibrate

structure Timespec where
  tvSec : ℤ
  tvNsec : ℤ
  deriving DecidableEq, Repr

namespace Timespec

def Normal (t : Timespec) : Prop := 0 ≤ t.tvNsec ∧ t.tvNsec < 1000000000

def NotAfter (s t : Timespec) : Prop := s.tvSec < t.tvSec ∨ (s.tvSec = t.tvSec ∧ s.tvNsec ≤ t.tvNsec)

end Timespec

/-- The readings, normalised and not decreasing. -/
structure Clock where
  read : ℕ → Timespec
  normal : ∀ n, (read n).Normal
  mono : ∀ n, (read n).NotAfter (read (n + 1))

def nano : ℚ := 1 / 1000000000

def timespecdiff (tend start : Timespec) : ℚ :=
  let ret : ℚ := tend.tvSec - start.tvSec
  if tend.tvNsec ≥ start.tvNsec then ret + (tend.tvNsec - start.tvNsec) * nano
  else ret + ((start.tvNsec - tend.tvNsec) * nano - 1)

/-! ## The measuring rounds -/

def iterI : ℕ := 1000

def iterJ : ℕ := 10

structure Times where
  futexTime : ℚ
  wakeTime : ℚ
  spinTime : ℚ
  deriving DecidableEq, Repr

def round (clock : Clock) (n : ℕ) : Times × ℕ :=
  let futexStart := clock.read n
  let futexEnd := clock.read (n + 1)
  let wakeStart := clock.read (n + 2)
  let wakeEnd := clock.read (n + 3)
  let spinStart := clock.read (n + 4)
  let spinEnd := clock.read (n + 5)
  (⟨timespecdiff futexEnd futexStart / iterI, timespecdiff wakeEnd wakeStart / iterI,
    timespecdiff spinEnd spinStart / iterI⟩, n + 6)

def rounds (clock : Clock) (n : ℕ) : ℕ → List Times
  | 0 => []
  | k + 1 =>
    let r := round clock n
    r.1 :: rounds clock r.2 k

/-- `futex_time`, `wake_time` and `spin_time`; the first reading is `all_start`. -/
def measured (clock : Clock) : List Times := rounds clock 1 iterJ

/-! ## Elapsed time -/

def elapsed (tend start : Timespec) : ℚ := (tend.tvSec - start.tvSec) + (tend.tvNsec - start.tvNsec) * nano

def roundElapsed (clock : Clock) (j : ℕ) : Times :=
  ⟨elapsed (clock.read (6 * j + 2)) (clock.read (6 * j + 1)) / iterI,
    elapsed (clock.read (6 * j + 4)) (clock.read (6 * j + 3)) / iterI,
    elapsed (clock.read (6 * j + 6)) (clock.read (6 * j + 5)) / iterI⟩

/-- Nothing has to be borrowed from the seconds, or half a second. -/
def Straight (tend start : Timespec) : Prop :=
  start.tvNsec ≤ tend.tvNsec ∨ start.tvNsec - tend.tvNsec = 500000000

instance (tend start : Timespec) : Decidable (Straight tend start) := inferInstanceAs (Decidable (_ ∨ _))

theorem timespecdiff_iff {tend start : Timespec} :
    timespecdiff tend start = elapsed tend start ↔ Straight tend start := by
  unfold timespecdiff elapsed Straight
  split
  · rename_i hle
    exact ⟨fun _ => Or.inl hle, fun _ => rfl⟩
  · rename_i hlt
    have hlt' : ¬ start.tvNsec ≤ tend.tvNsec := hlt
    rw [or_iff_right hlt']
    constructor
    · intro h
      have hq : ((start.tvNsec - tend.tvNsec : ℤ) : ℚ) = (500000000 : ℤ) := by
        unfold nano at h
        push_cast
        linarith
      exact_mod_cast hq
    · intro h
      have hq : (start.tvNsec : ℚ) - tend.tvNsec = 500000000 := by exact_mod_cast congrArg (Int.cast (R := ℚ)) h
      unfold nano
      linarith

theorem elapsed_add (t s r : Timespec) : elapsed t s + elapsed s r = elapsed t r := by
  unfold elapsed
  ring

theorem elapsed_nonneg {t s : Timespec} (ht : t.Normal) (hs : s.Normal) (h : s.NotAfter t) : 0 ≤ elapsed t s := by
  have hns : s.tvSec * 1000000000 + s.tvNsec ≤ t.tvSec * 1000000000 + t.tvNsec := by
    obtain ⟨ht0, ht1⟩ := ht
    obtain ⟨hs0, hs1⟩ := hs
    unfold Timespec.NotAfter at h
    omega
  have hq : (s.tvSec : ℚ) * 1000000000 + s.tvNsec ≤ t.tvSec * 1000000000 + t.tvNsec := by exact_mod_cast hns
  unfold elapsed nano
  linarith

theorem notAfter_trans {r s t : Timespec} (h : r.NotAfter s) (h' : s.NotAfter t) : r.NotAfter t := by
  unfold Timespec.NotAfter at *
  omega

theorem notAfter_of_le (clock : Clock) {i j : ℕ} (h : i ≤ j) : (clock.read i).NotAfter (clock.read j) := by
  induction j, h using Nat.le_induction with
  | base => exact Or.inr ⟨rfl, Int.le_refl _⟩
  | succ j _ ih => exact notAfter_trans ih (clock.mono j)

theorem round_snd (clock : Clock) (n : ℕ) : (round clock n).2 = n + 6 := rfl

theorem rounds_get (clock : Clock) {j k : ℕ} (n : ℕ) (h : j < k) :
    (rounds clock n k)[j]? = some (round clock (n + 6 * j)).1 := by
  induction k generalizing n j with
  | zero => omega
  | succ k ih =>
    cases j with
    | zero => rfl
    | succ j =>
      have hn : n + 6 + 6 * j = n + 6 * (j + 1) := by omega
      rw [rounds, List.getElem?_cons_succ, ih (round clock n).2 (by omega), round_snd, hn]

theorem measured_get (clock : Clock) {j : ℕ} (h : j < iterJ) :
    (measured clock)[j]? = some (round clock (6 * j + 1)).1 := by
  rw [measured, rounds_get clock 1 h, Nat.add_comm]

/-- `timespecdiff` is the time between any two readings, adds up and is not negative; every round records the
    elapsed times of its loops. -/
structure Measures (clock : Clock) : Prop where
  diff : ∀ i j, i ≤ j → timespecdiff (clock.read j) (clock.read i) = elapsed (clock.read j) (clock.read i)
  add : ∀ i j k, i ≤ j → j ≤ k → timespecdiff (clock.read k) (clock.read j) + timespecdiff (clock.read j) (clock.read i) =
    timespecdiff (clock.read k) (clock.read i)
  nonneg : ∀ i j, i ≤ j → 0 ≤ timespecdiff (clock.read j) (clock.read i)
  recorded : ∀ j < iterJ, (measured clock)[j]? = some (roundElapsed clock j)

def RoundStraight (clock : Clock) (j : ℕ) : Prop :=
  Straight (clock.read (6 * j + 2)) (clock.read (6 * j + 1)) ∧ Straight (clock.read (6 * j + 4)) (clock.read (6 * j + 3)) ∧
    Straight (clock.read (6 * j + 6)) (clock.read (6 * j + 5))

theorem recorded_iff (clock : Clock) {j : ℕ} (h : j < iterJ) :
    (measured clock)[j]? = some (roundElapsed clock j) ↔ RoundStraight clock j := by
  have hne : (iterI : ℚ) ≠ 0 := by
    unfold iterI
    norm_num
  rw [measured_get clock h, Option.some.injEq, round, roundElapsed, Times.mk.injEq, div_left_inj' hne, div_left_inj' hne,
    div_left_inj' hne, timespecdiff_iff, timespecdiff_iff, timespecdiff_iff]
  exact Iff.rfl

/-- For every clock: two readings give the time between them, a round the times of its loops, and the
    calibration measures time throughout, if and only if nothing but half a second has to be borrowed. -/
theorem calibration_measures_iff (clock : Clock) :
    (∀ i j, timespecdiff (clock.read j) (clock.read i) = elapsed (clock.read j) (clock.read i) ↔
      Straight (clock.read j) (clock.read i)) ∧
    (∀ j < iterJ, (measured clock)[j]? = some (roundElapsed clock j) ↔ RoundStraight clock j) ∧
    (Measures clock ↔ ∀ i j, i ≤ j → Straight (clock.read j) (clock.read i)) := by
  refine ⟨fun i j => timespecdiff_iff, fun j hj => recorded_iff clock hj, fun h i j hij => ?_, fun h => ?_⟩
  · exact timespecdiff_iff.mp (h.diff i j hij)
  · have hdiff : ∀ i j, i ≤ j → timespecdiff (clock.read j) (clock.read i) = elapsed (clock.read j) (clock.read i) :=
      fun i j hij => timespecdiff_iff.mpr (h i j hij)
    refine ⟨hdiff, fun i j k hij hjk => ?_, fun i j hij => ?_, fun j hj => ?_⟩
    · rw [hdiff j k hjk, hdiff i j hij, hdiff i k (Nat.le_trans hij hjk), elapsed_add]
    · rw [hdiff i j hij]
      exact elapsed_nonneg (clock.normal j) (clock.normal i) (notAfter_of_le clock hij)
    · exact (recorded_iff clock hj).mpr ⟨h _ _ (by omega), h _ _ (by omega), h _ _ (by omega)⟩

/-- A clock that goes on by 0.2 s from 0.9 s. -/
def crossing : Clock where
  read n := if n = 0 then ⟨0, 900000000⟩ else ⟨1, 100000000⟩
  normal n := by
    unfold Timespec.Normal
    split <;> decide
  mono n := by
    unfold Timespec.NotAfter
    cases n with
    | zero => decide
    | succ n => simp

/-- From 0.9 s to 1.1 s there are 0.8 s. -/
theorem crossing_wrong : ¬ Measures crossing := by
  intro h
  have hs := timespecdiff_iff.mp (h.diff 0 1 (by decide))
  exact absurd hs (by decide)

end Stdatomic.Calibrate
