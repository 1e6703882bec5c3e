/-
  Stdatomic.Calibrate.Loops — the measuring loops of `atomic_calibrate`, on a word of its
  own.

  The loops are to time operations that fail: a `FUTEX_WAIT` that does not find `val`, and a
  compare-exchange computed as in the real loops. A `FUTEX_WAIT` that finds `val` has no
  timeout and nobody to wake it, so the calibration stops there (`asleep`). A compare-exchange that
  succeeds goes back to the label (`SHORTCUT0`, `SHORTCUT1`), twice at most: it writes a value
  that the next attempt does not expect (`shortcut_two`). The comment says that it never
  triggers. With `val` 0 before each iteration, that is so just if the word is not 2^31-1,
  and the calibration sleeps just if it is 0 (`loops_mispredict`); it is 42.
-/

import Stdatomic.Futex.Lock
import Stdatomic.Calibrate.Elapsed

namespace Stdatomic.Calibrate

open Futex (Unsigned contrib)

/-- `loc` and `val`, and what has been done so far. -/
structure Meter where
  loc : Unsigned
  val : Unsigned
  waits : ℕ
  tries : ℕ
  deriving DecidableEq, Repr

/-- Why a loop does not come to its end. -/
inductive Stop where
  /-- In a `FUTEX_WAIT` that found `val`. -/
  | asleep
  /-- It has gone back too often. -/
  | fuel
  deriving DecidableEq, Repr

/-- `FUTEX_WAIT` on `loc` with `val`. -/
def futexWait (m : Meter) : Except Stop Meter :=
  if m.loc = m.val then .error .asleep else .ok { m with waits := m.waits + 1 }

/-- The compare-exchange, with `des` and `val` changed as in the real loop. -/
def tryOnce (m : Meter) : Bool × Meter :=
  let des := m.val - 1
  let r := compareExchange m.loc (m.val - contrib) des
  (r.ok, { m with loc := r.obj, val := r.expected, tries := m.tries + 1 })

/-- From the label to the end of the iteration, going back at most `fuel` times. -/
def shortcut (before : Meter → Except Stop Meter) : ℕ → Meter → Except Stop Meter
  | 0, _ => .error .fuel
  | fuel + 1, m => (before m).bind fun m =>
    let r := tryOnce m
    if r.1 then shortcut before fuel r.2 else .ok { r.2 with val := 0 }

def loop (before : Meter → Except Stop Meter) (fuel : ℕ) : ℕ → Meter → Except Stop Meter
  | 0, m => .ok m
  | n + 1, m => (shortcut before fuel m).bind (loop before fuel n)

/-- The measuring loops of a round, with `FUTEX_WAIT` and of spinning. -/
def measureRound (fuel n : ℕ) (m : Meter) : Except Stop Meter := (loop futexWait fuel n m).bind (loop .ok fuel n)

def measureRounds (fuel n : ℕ) : ℕ → Meter → Except Stop Meter
  | 0, m => .ok m
  | k + 1, m => (measureRound fuel n m).bind (measureRounds fuel n k)

def fresh (loc : Unsigned) : Meter := ⟨loc, 0, 0, 0⟩

section
variable {before : Meter → Except Stop Meter} {d : ℕ} {m : Meter} {fuel n k : ℕ}

/-- Where the word is not `val`, what comes before an attempt adds `d` waits. -/
def Passes (before : Meter → Except Stop Meter) (d : ℕ) : Prop :=
  ∀ m, m.loc ≠ m.val → before m = .ok { m with waits := m.waits + d }

theorem futexWait_passes : Passes futexWait 1 := fun _ h => if_neg h

theorem ok_passes : Passes .ok 0 := fun _ _ => rfl

theorem tryOnce_fails (h : m.loc ≠ m.val - contrib) :
    tryOnce m = (false, { m with val := m.loc, tries := m.tries + 1 }) := by
  simp only [tryOnce, compareExchange_ne h]

theorem tryOnce_succeeds (h : m.loc = m.val - contrib) :
    tryOnce m = (true, { m with loc := m.val - 1, val := m.val - contrib, tries := m.tries + 1 }) := by
  simp only [tryOnce, h, compareExchange_eq]

theorem shortcut_one (hb : Passes before d) (hv : m.loc ≠ m.val) (h : m.loc ≠ m.val - contrib) :
    shortcut before (fuel + 1) m = .ok ⟨m.loc, 0, m.waits + d, m.tries + 1⟩ := by
  have hne : ({ m with waits := m.waits + d } : Meter).loc ≠ m.val - contrib := h
  rw [shortcut, hb m hv, Except.bind, tryOnce_fails hne]
  rfl

theorem contrib_ne (v : Unsigned) : v - contrib ≠ v ∧ v - 1 ≠ v - contrib ∧ v - 1 ≠ v - contrib - contrib := by
  have hc : contrib = 2147483649#32 := by decide
  rw [hc]
  refine ⟨?_, ?_, ?_⟩ <;> bv_omega

theorem shortcut_two (hb : Passes before d) (h : m.loc = m.val - contrib) :
    shortcut before (fuel + 2) m = .ok ⟨m.val - 1, 0, m.waits + d + d, m.tries + 2⟩ := by
  obtain ⟨hval, hnext, hnext'⟩ := contrib_ne m.val
  have heq : ({ m with waits := m.waits + d } : Meter).loc = m.val - contrib := h
  have hone : shortcut before (fuel + 1) ⟨m.val - 1, m.val - contrib, m.waits + d, m.tries + 1⟩ = _ :=
    shortcut_one hb hnext hnext'
  rw [shortcut, hb m (by rwa [h]), Except.bind, tryOnce_succeeds heq]
  exact hone

theorem expected_zero : (0 : Unsigned) - contrib = 2147483647 := by decide

theorem loop_fails (hb : Passes before d) (m : Meter) (hval : m.val = 0) (h0 : m.loc ≠ 0) (hloc : m.loc ≠ 2147483647) :
    loop before (fuel + 1) n m = .ok ⟨m.loc, 0, m.waits + n * d, m.tries + n⟩ := by
  induction n generalizing m with
  | zero =>
    cases m
    cases hval
    simp [loop]
  | succ n ih =>
    have hne : m.loc ≠ m.val - contrib := by rwa [hval, expected_zero]
    rw [loop, shortcut_one hb (by rwa [hval]) hne, Except.bind, ih ⟨_, _, _, _⟩ rfl h0 hloc, Nat.succ_mul]
    congr 2
    · exact (Nat.add_assoc ..).trans (congrArg _ (Nat.add_comm ..))
    · exact (Nat.add_assoc ..).trans (congrArg _ (Nat.add_comm ..))

theorem measureRounds_eq (m : Meter) (hval : m.val = 0) (h0 : m.loc ≠ 0) (hloc : m.loc ≠ 2147483647) :
    measureRounds (fuel + 1) n k m = .ok ⟨m.loc, 0, m.waits + k * n, m.tries + 2 * (k * n)⟩ := by
  induction k generalizing m with
  | zero =>
    cases m
    cases hval
    simp [measureRounds]
  | succ k ih =>
    rw [measureRounds, measureRound, loop_fails futexWait_passes m hval h0 hloc, Except.bind,
      loop_fails ok_passes ⟨_, _, _, _⟩ rfl h0 hloc, Except.bind, ih ⟨_, _, _, _⟩ rfl h0 hloc, Nat.succ_mul k]
    dsimp only
    congr 2 <;> omega

/-- A word with which the first attempt succeeds costs one attempt and one wait more, and is left at -1. -/
theorem measureRounds_shortcut : measureRounds (fuel + 2) (n + 1) (k + 1) (fresh 2147483647) =
    .ok ⟨-1, 0, (k + 1) * (n + 1) + 1, 2 * ((k + 1) * (n + 1)) + 1⟩ := by
  have hsucc : (fresh 2147483647).loc = (fresh 2147483647).val - contrib := expected_zero.symm
  have h0 : (-1 : Unsigned) ≠ 0 := by decide
  have hloc : (-1 : Unsigned) ≠ 2147483647 := by decide
  have hfirst : shortcut futexWait (fuel + 2) (fresh 2147483647) = .ok ⟨-1, 0, 2, 2⟩ := shortcut_two futexWait_passes hsucc
  rw [measureRounds, measureRound, loop, hfirst, Except.bind, loop_fails futexWait_passes ⟨_, _, _, _⟩ rfl h0 hloc, Except.bind,
    loop_fails ok_passes ⟨_, _, _, _⟩ rfl h0 hloc, Except.bind, measureRounds_eq ⟨_, _, _, _⟩ rfl h0 hloc, Nat.succ_mul k]
  dsimp only
  congr 2 <;> omega

/-- A word of 0 is what the first wait looks for. -/
theorem measureRounds_asleep : measureRounds (fuel + 1) (n + 1) (k + 1) (fresh 0) = .error .asleep := by
  simp [measureRounds, measureRound, loop, shortcut, futexWait, fresh, Except.bind]

end

/-- For any word, any number of rounds and iterations: with the word 0 the first `FUTEX_WAIT` sleeps; with any other
    the loops come to an end. They make one attempt in each iteration, and none succeeds, just if the word is not 2^31-1,
    and then the word is left and each iteration of the first loop waits once. With 2^31-1 the first attempt
    succeeds, and no other. -/
theorem loops_mispredict (loc : Unsigned) (fuel n k : ℕ) (hn : 1 ≤ n) (hk : 1 ≤ k) :
    (loc = 0 → measureRounds (fuel + 2) n k (fresh loc) = .error .asleep) ∧
    (loc ≠ 0 → ∃ m, measureRounds (fuel + 2) n k (fresh loc) = .ok m ∧ m.val = 0 ∧
      (m.tries = 2 * (k * n) ↔ loc ≠ 2147483647) ∧ (loc ≠ 2147483647 → m.loc = loc ∧ m.waits = k * n) ∧
      (loc = 2147483647 → m.loc = -1 ∧ m.waits = k * n + 1 ∧ m.tries = 2 * (k * n) + 1)) := by
  obtain ⟨n, rfl⟩ : ∃ i, n = i + 1 := ⟨n - 1, by omega⟩
  obtain ⟨k, rfl⟩ : ∃ i, k = i + 1 := ⟨k - 1, by omega⟩
  refine ⟨fun h => h ▸ measureRounds_asleep, fun h0 => ?_⟩
  by_cases h : loc = 2147483647
  · subst h
    exact ⟨_, measureRounds_shortcut, rfl, iff_of_false (Nat.succ_ne_self _) fun h => h rfl, fun h => absurd rfl h,
      fun _ => ⟨rfl, rfl, rfl⟩⟩
  · have heq : measureRounds (fuel + 2) (n + 1) (k + 1) (fresh loc) = .ok _ := measureRounds_eq _ rfl h0 h
    exact ⟨_, heq, rfl, iff_of_true (Nat.zero_add _) h, fun _ => ⟨rfl, Nat.zero_add _⟩, fun e => absurd e h⟩

def calibrationWord : Unsigned := 42

theorem calibration_word : ∃ m, measureRounds 2 iterI iterJ (fresh calibrationWord) = .ok m ∧ m.waits = 10000 ∧
    m.tries = 20000 := by
  obtain ⟨m, hm, -, htries, hrest, -⟩ := (loops_mispredict calibrationWord 0 iterI iterJ (by decide) (by decide)).2
    (by decide)
  exact ⟨m, hm, (hrest (by decide)).2, htries.mpr (by decide)⟩

end Stdatomic.Calibrate
