/-
  Stdatomic.Locks.Flag — the operations of `atomic_flag.h` in both back ends, and the
  FLAG and FLAG_ONLY strategies of `atomic_generic.c`, for any value that the compiler
  may have for `__GCC_ATOMIC_TEST_AND_SET_TRUEVAL` (`SetValue`).

  A flag is a byte. The member of `atomic_flag` is a `_Bool`, so a set value stored there
  leaves 1. The compare-exchange back end expects the flag clear and negates
  the result. The `__sync` back end compares the old byte with the set value, and
  FLAG_ONLY so compares the truth value of `__atomic_test_and_set`: both are 0 or 1, so
  with another set value the flag is never seen set, and the lock is always
  taken (`flag_excludes_iff`).
-/

import Stdatomic.Atomics
import Stdatomic.Lib.SpinLock

namespace Stdatomic.Locks

open SpinLock

abbrev FlagByte := BitVec 8

/-- `__GCC_ATOMIC_TEST_AND_SET_TRUEVAL`. -/
structure SetValue where
  val : FlagByte
  ne : val ≠ 0

/-- What a value leaves in a `_Bool`. -/
def toBool (v : FlagByte) : FlagByte := if v = 0 then 0 else 1

def lnot (v : FlagByte) : FlagByte := if v = 0 then 1 else 0

/-- `sync` with `__ATOMIC_FORCE_SYNC`. -/
inductive BackEnd where
  | cas
  | sync
  deriving DecidableEq, Repr

section
variable (tv : SetValue)

def atomicFlagTestAndSetExplicit : BackEnd → FlagByte → FlagByte × Bool
  | .cas, f =>
    let r := compareExchange f (toBool (lnot tv.val)) (toBool tv.val)
    (r.obj, !r.ok)
  | .sync, f => (toBool tv.val, decide (f = tv.val))

def atomicFlagClearExplicit : BackEnd → FlagByte
  | .cas => toBool (lnot tv.val)
  | .sync => 0

def flagLock (b : BackEnd) : Alg FlagByte MemoryOrder MemoryOrder where
  free := 0
  enter mo := mo
  attempt mo f :=
    let r := atomicFlagTestAndSetExplicit tv b f
    (r.1, if r.2 then some mo else none)
  release _ _ := (atomicFlagClearExplicit tv b, false)

/-- `__atomic_test_and_set`: it stores the set value, and returns as a truth value whether it was set. -/
def atomicTestAndSet (f : FlagByte) : FlagByte × FlagByte := (tv.val, if f ≠ 0 then 1 else 0)

def flagOnlyLock : Alg FlagByte MemoryOrder MemoryOrder where
  free := 0
  enter mo := mo
  attempt mo f :=
    let r := atomicTestAndSet tv f
    (r.1, if r.2 = tv.val then some mo else none)
  release _ _ := (0, false)

end

inductive Strategy where
  | flag (b : BackEnd)
  | flagOnly
  deriving DecidableEq, Repr

def lockOf (tv : SetValue) : Strategy → Alg FlagByte MemoryOrder MemoryOrder
  | .flag b => flagLock tv b
  | .flagOnly => flagOnlyLock tv

/-! ## What flags are for -/

inductive FlagStep where
  | testAndSet
  | clear
  deriving DecidableEq, Repr

/-- A flag that was clear at first, after the steps of all threads; the latest comes first. -/
def flagAfter (tv : SetValue) (b : BackEnd) : List FlagStep → FlagByte
  | [] => 0
  | .testAndSet :: l => (atomicFlagTestAndSetExplicit tv b (flagAfter tv b l)).1
  | .clear :: _ => atomicFlagClearExplicit tv b

/-- The flag was set and not cleared since. -/
def isSet : List FlagStep → Bool
  | .testAndSet :: _ => true
  | _ => false

/-- A test-and-set tells whether the flag was set; with any threads and any interleaving at most one
    of them holds the lock, the flag is clear while none does, and a clear flag lets the next one in. -/
structure Excludes (tv : SetValue) (v : Strategy) : Prop where
  result : ∀ b, v = .flag b → ∀ l, (atomicFlagTestAndSetExplicit tv b (flagAfter tv b l)).2 = isSet l
  one : ∀ (ι : Type) [DecidableEq ι] s, (sys (lockOf tv v) ι).Reach s →
    ∀ t u, s.pc t = .held → s.pc u = .held → t = u
  cleared : ∀ (ι : Type) [DecidableEq ι] s, (sys (lockOf tv v) ι).Reach s → (∀ t, s.pc t ≠ .held) → s.word = 0
  admits : ∀ (ι : Type) [DecidableEq ι] s, (sys (lockOf tv v) ι).Reach s → s.word = 0 →
    ∀ t k, s.pc t = .trying k → ∃ s', step (lockOf tv v) s (.attempt t) = some s' ∧ s'.pc t = .held

section
variable {tv : SetValue} {v : Strategy}

def setByte (tv : SetValue) : Strategy → FlagByte
  | .flag _ => 1
  | .flagOnly => tv.val

theorem toBool_set : toBool tv.val = 1 := if_neg tv.ne

theorem toBool_clear : toBool (lnot tv.val) = 0 := by
  rw [lnot, if_neg tv.ne]
  rfl

theorem lockOf_free : (lockOf tv v).free = 0 := by
  cases v <;> rfl

/-- A test-and-set of a clear flag sets it, and finds it clear. -/
theorem attempt_clear (mo : MemoryOrder) : (lockOf tv v).attempt mo 0 = (setByte tv v, none) := by
  have hne : (0 : FlagByte) ≠ tv.val := Ne.symm tv.ne
  rcases v with (_ | _) | _
  · simp [lockOf, flagLock, atomicFlagTestAndSetExplicit, toBool_set, toBool_clear, setByte]
  · simp only [lockOf, flagLock, atomicFlagTestAndSetExplicit, toBool_set, setByte, hne, decide_false]
    rfl
  · simp only [lockOf, flagOnlyLock, atomicTestAndSet, setByte, ne_eq, not_true_eq_false, if_false, hne]

/-- A test-and-set of a set flag leaves it; it is seen as set with the set value 1, or by the compare-exchange. -/
theorem attempt_set (mo : MemoryOrder) : (lockOf tv v).attempt mo (setByte tv v) =
    (setByte tv v, if v = .flag .cas ∨ tv.val = 1 then some mo else none) := by
  have h10 : (1 : FlagByte) ≠ 0 := by decide
  rcases v with (_ | _) | _
  · simp only [lockOf, flagLock, atomicFlagTestAndSetExplicit, toBool_set, toBool_clear, setByte,
      compareExchange_ne h10, true_or, if_true]
    rfl
  · simp only [lockOf, flagLock, atomicFlagTestAndSetExplicit, toBool_set, setByte, eq_comm (a := (1 : FlagByte))]
    simp
  · simp only [lockOf, flagOnlyLock, atomicTestAndSet, setByte, ne_eq, tv.ne, not_false_eq_true, if_true,
      eq_comm (a := (1 : FlagByte))]
    simp

theorem lock_sound (h : v = .flag .cas ∨ tv.val = 1) : Sound (lockOf tv v) (setByte tv v) where
  ne := by
    rw [lockOf_free]
    cases v with
    | flag b => exact show (1 : FlagByte) ≠ 0 by decide
    | flagOnly => exact tv.ne
  take mo := by rw [lockOf_free, attempt_clear]
  fail mo := ⟨mo, by rw [attempt_set, if_pos h]⟩
  release mo := by
    rcases v with (_ | _) | _
    · simp [lockOf, flagLock, atomicFlagClearExplicit, toBool_clear]
    · rfl
    · rfl

/-- The flag is 1 while it is set, in either back end. -/
theorem flagAfter_eq {b : BackEnd} (l : List FlagStep) : flagAfter tv b l = if isSet l then 1 else 0 := by
  induction l with
  | nil => rfl
  | cons e l ih =>
    cases e with
    | clear => cases b <;> simp [flagAfter, isSet, atomicFlagClearExplicit, toBool_clear]
    | testAndSet =>
      -- setting a flag leaves it set, whatever it was
      have hset : (atomicFlagTestAndSetExplicit tv b (flagAfter tv b l)).1 = 1 := by
        rw [ih]
        cases b with
        | cas => cases isSet l <;> simp [atomicFlagTestAndSetExplicit, toBool_set, toBool_clear, compareExchange]
        | sync => exact toBool_set
      exact hset

theorem cas_result (l : List FlagStep) : (atomicFlagTestAndSetExplicit tv .cas (flagAfter tv .cas l)).2 = isSet l := by
  rw [flagAfter_eq]
  cases isSet l <;> simp [atomicFlagTestAndSetExplicit, toBool_clear, compareExchange]

theorem sync_result (h : tv.val = 1) (l : List FlagStep) :
    (atomicFlagTestAndSetExplicit tv .sync (flagAfter tv .sync l)).2 = isSet l := by
  rw [flagAfter_eq]
  cases isSet l <;> simp [atomicFlagTestAndSetExplicit, h]

end

/-- For every set value: flags and the locks built on them exclude if and only if they are those of the FLAG
    strategy over the compare-exchange, or the set value is 1. -/
theorem flag_excludes_iff (tv : SetValue) (v : Strategy) : Excludes tv v ↔ v = .flag .cas ∨ tv.val = 1 := by
  constructor
  · intro h
    by_contra hn
    -- a second thread does not see the flag that the first one set
    have hfirst : (lockOf tv v).attempt .seqCst 0 = (setByte tv v, none) := attempt_clear .seqCst
    have hsecond : (lockOf tv v).attempt .seqCst (setByte tv v) = (setByte tv v, none) := by
      rw [attempt_set, if_neg hn]
    have henter : (lockOf tv v).enter .seqCst = .seqCst := by cases v <;> rfl
    obtain ⟨s, hs, h0, h1⟩ := two_holders (L := lockOf tv v) (a := .seqCst) (by rw [lockOf_free, henter]; exact hfirst)
      (by rw [henter]; exact hsecond)
    exact nomatch h.one Bool s hs false true h0 h1
  · intro h
    have hsound := lock_sound h
    refine ⟨?_, fun ι _ s hs => (sound_mutex hsound).one s hs, fun ι _ s hs hn => ?_, fun ι _ s hs hw t k ht => ?_⟩
    · intro b hb l
      subst hb
      rcases h with h | h
      · obtain rfl : b = .cas := by injection h
        exact cas_result l
      · cases b with
        | cas => exact cas_result l
        | sync => exact sync_result h l
    · have hm : IsMutex (lockOf tv v) (setByte tv v) ι := sound_mutex hsound
      rw [← lockOf_free]
      refine (hm.word s hs).resolve_right fun hw => ?_
      obtain ⟨t, ht⟩ := (hm.held s hs).mp hw
      exact hn t ht
    · have hstep : step (lockOf tv v) s (.attempt t) = some ⟨setByte tv v, Function.update s.pc t .held⟩ := by
        simp only [step, ht, hw, attempt_clear, afterAttempt]
      exact ⟨_, hstep, by simp⟩

/-- With the set value 255 the `__sync` back end excludes nobody. -/
theorem sync_excludes_nobody : ¬ Excludes ⟨255, by decide⟩ (.flag .sync) := by
  intro h
  exact absurd (h.result .sync rfl [.testAndSet]) (by decide)

end Stdatomic.Locks
