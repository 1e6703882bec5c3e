/-
  Stdatomic.Futex.Refine — the futex lock refines the abstract mutex.

  The step that makes a thread the holder is a take, the `fetch_sub` is a release, and
  every other step leaves the mutex alone. What is proved over the abstract mutex (the
  generic operations are) holds over this lock.
-/

import Stdatomic.Futex.Invariant
import Stdatomic.Lib.Mutex

namespace Stdatomic.Futex

open Family

variable {N : ℕ}

def label (s : St N) (e : Ev N) (s' : St N) : Option (Mutex.Ev (Fin N)) :=
  if holds (s'.pc e.tid) && !holds (s.pc e.tid) then some (.take e.tid)
  else if holds (s.pc e.tid) && !holds (s'.pc e.tid) then some (.release e.tid)
  else none

def Holder (s : St N) (o : Option (Fin N)) : Prop := ∀ t, holds (s.pc t) = true ↔ o = some t

/-- A step makes no other thread the holder, and takes the lock from no other. -/
theorem step_holds_other {sm : Unsigned} {s s' : St N} {e : Ev N} (h : step sm s e = some s') {u : Fin N}
    (hu : u ≠ e.tid) : holds (s'.pc u) = holds (s.pc u) := by
  cases step_moves h with
  | lock t mo => simp [Function.update_of_ne (show u ≠ t from hu)]
  | run t w q => simp [Function.update_of_ne (show u ≠ t from hu)]
  | spurious t q => simp [Function.update_of_ne (show u ≠ t from hu)]
  | unlock t mo => simp [Function.update_of_ne (show u ≠ t from hu)]
  | wakeOne t v l ht hv =>
    by_cases e : u = v
    · subst e; simp [hv, holds]
    · simp [Function.update_of_ne e, Function.update_of_ne (show u ≠ t from hu)]
  | wakeNone t => simp [Function.update_of_ne (show u ≠ t from hu)]

theorem futex_refines_mutex (hN : N ≤ 2 ^ 31 - 1) (sm : Unsigned) :
    Lts.Sys.Sim (sys N sm) (Mutex.sys (Fin N)) Holder label where
  init s h := ⟨none, rfl, fun t => by rw [show s = init from h]; simp [init, holds]⟩
  stutter s e s' o hr hR hs hl := by
    have hsame : holds (s'.pc e.tid) = holds (s.pc e.tid) := by
      unfold label at hl
      cases h1 : holds (s.pc e.tid) <;> cases h2 : holds (s'.pc e.tid) <;> simp [h1, h2] at hl ⊢
    intro u
    by_cases hu : u = e.tid
    · rw [hu, hsame]; exact hR _
    · rw [step_holds_other hs hu]; exact hR u
  step s e s' o b hr hR hs hl := by
    have hone := (inv hN hr).one
    have hone' := (inv hN (.step e hr hs)).one
    unfold label at hl
    cases h1 : holds (s.pc e.tid) <;> cases h2 : holds (s'.pc e.tid) <;> simp [h1, h2] at hl <;> subst hl
    · -- the taker is the only holder now, and was none before
      have hnone : o = none := by
        cases o with
        | none => rfl
        | some u =>
          have hu := (hR u).mpr rfl
          have hne : u ≠ e.tid := by intro e; subst e; rw [h1] at hu; cases hu
          rw [← step_holds_other hs hne] at hu
          exact absurd (eq_of_count_le_one hone' hu h2) hne
      refine ⟨some e.tid, Mutex.step_take.mpr ⟨hnone, rfl⟩, fun u => ⟨fun hu => ?_, fun hu => ?_⟩⟩
      · rw [eq_of_count_le_one hone' hu h2]
      · rw [← Option.some.inj hu]; exact h2
    · refine ⟨none, Mutex.step_release.mpr ⟨(hR _).mp h1, rfl⟩, fun u => ⟨fun hu => ?_, fun hu => by cases hu⟩⟩
      by_cases hne : u = e.tid
      · rw [hne, h2] at hu; cases hu
      · rw [step_holds_other hs hne] at hu
        exact absurd (eq_of_count_le_one hone hu h1) hne

end Stdatomic.Futex
