/-
  Stdatomic.Locks.Spin — the locks of `atomic_generic.c` that spin on an `unsigned`:
  - the futex fast path linked with the slow functions of `lock-repl.c`, as `libatomic.a`
    has them. `__impl_mut_lock` makes one attempt and hands over to `__impl_mut_lock_slow`,
    which repeats it and takes no other argument than the lock;
  - the CMPXCHG strategy.

  Both are sound spin locks (`SpinLock.Sound`), so they are mutexes. The first keeps to two
  of the values of the futex lock: no slow path adds to the word, so the
  `fetch_sub` finds `contrib` and the empty `__impl_mut_unlock_slow` is not called
  (`spin_locks_are_mutexes`).
-/

import Stdatomic.Futex.Lock
import Stdatomic.Lib.SpinLock

namespace Stdatomic.Locks

open SpinLock
open Futex (Unsigned uintMax contrib)

/-! ## The replacement slow path -/

/-- The macro of `lock-repl.c`. -/
def replContrib : Unsigned := uintMax / 2 + 2

/-- The compare-exchange a thread is at: that of `__impl_mut_lock`, or that of `__impl_mut_lock_slow`. -/
inductive Place where
  | fast (mo : MemoryOrder)
  | slow
  deriving DecidableEq, Repr

def replAttempt : Place → Unsigned → Unsigned × Option Place
  | .fast _, w =>
    let r := compareExchange w 0 contrib
    (r.obj, if r.ok then none else some .slow)
  | .slow, w =>
    let r := compareExchange w 0 replContrib
    (r.obj, if r.ok then none else some .slow)

/-- The `fetch_sub`, which returns the word before; the rest is `__impl_mut_unlock_slow`. -/
def replUnlock (_ : MemoryOrder) (w : Unsigned) : Unsigned × Bool := (w - contrib, decide (contrib ≠ w))

def replacement : Alg Unsigned MemoryOrder Place where
  free := 0
  enter := .fast
  attempt := replAttempt
  release := replUnlock

/-! ## CMPXCHG -/

def cmpxchgAttempt (mo : MemoryOrder) (w : Unsigned) : Unsigned × Option MemoryOrder :=
  let r := compareExchange w 0 1
  (r.obj, if r.ok then none else some mo)

def cmpxchg : Alg Unsigned MemoryOrder MemoryOrder where
  free := 0
  enter mo := mo
  attempt := cmpxchgAttempt
  release _ _ := (0, false)

/-! ## Both are sound -/

/-- Both files have one encoding of the held lock. -/
theorem replContrib_eq : replContrib = contrib := rfl

theorem contrib_ne_zero : contrib ≠ 0 := by decide

theorem replacement_sound : Sound replacement contrib where
  ne := contrib_ne_zero
  take k := by cases k <;> simp [replacement, replAttempt, replContrib_eq]
  fail k := by
    refine ⟨.slow, ?_⟩
    cases k <;> simp only [replacement, replAttempt, compareExchange_ne contrib_ne_zero] <;> rfl
  release mo := by simp [replacement, replUnlock]

theorem cmpxchg_sound : Sound cmpxchg 1 where
  ne := by decide
  take mo := by simp [cmpxchg, cmpxchgAttempt]
  fail mo := ⟨mo, by simp only [cmpxchg, cmpxchgAttempt, compareExchange_ne (show (1 : Unsigned) ≠ 0 by decide)]; rfl⟩
  release _ := rfl

/-- Any number of threads, any interleaving: both locks are mutexes, with the word `contrib` (1) while
    the lock is held and 0 otherwise, and whoever unlocks the first finds `contrib` in the word. -/
theorem spin_locks_are_mutexes (ι : Type) [DecidableEq ι] :
    IsMutex replacement contrib ι ∧ IsMutex cmpxchg 1 ι ∧
    ∀ s s' t mo, (sys replacement ι).Reach s → step replacement s (.unlock t mo) = some s' →
      s.word = contrib ∧ s'.word = 0 ∧ s'.pc t = .out := by
  have hmutex : IsMutex replacement contrib ι := sound_mutex replacement_sound
  refine ⟨hmutex, sound_mutex cmpxchg_sound, fun s s' t mo hr hs => ?_⟩
  cases step_moves hs with
  | unlock t mo ht =>
    have hw : s.word = contrib := (hmutex.held s hr).mpr ⟨t, ht⟩
    rw [hw, replacement_sound.release mo]
    exact ⟨rfl, rfl, by simp⟩

end Stdatomic.Locks
