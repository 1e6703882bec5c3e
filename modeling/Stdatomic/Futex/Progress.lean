/-
  Stdatomic.Futex.Progress — a free lock can be taken by any awake contender.

  A thread inside `__impl_mut_lock` that runs alone while the lock bit is clear
  acquires within three operations, whatever stale value and spin budget it has
  (`free_lock_taken`): a failed compare-exchange refreshes its value, which then has the
  lock bit clear, and either the next guess is right or the thread leaves the loop by the
  `fetch_add` or for `BIT_UNSET`. Its `FUTEX_WAIT` fails, since its value has the lock
  bit set (`Ok`) and the word has not.
-/

import Stdatomic.Futex.Invariant

namespace Stdatomic.Futex

variable {N : ℕ}

/-- A step that `t` takes alone, once inside the lock functions. -/
def Solo (sm : Unsigned) (t : Fin N) (s s' : St N) : Prop :=
  step sm s (.run t) = some s' ∨ step sm s (.spurious t) = some s'

def contends : Pc → Bool
  | .fast _ => true
  | .first _ => true
  | .add _ => true
  | .spin _ => true
  | .wait _ => true
  | .retry _ => true
  | .unset _ => true
  | _ => false

/-- `t` holds the lock within `n` operations of its own, and never sleeps before. -/
def Acquires (sm : Unsigned) (t : Fin N) (n : ℕ) (s : St N) : Prop :=
  Lts.Until (Solo sm t) (fun s => isAsleep (s.pc t) = false) (fun s => s.pc t = .held) n s

theorem solo_run {sm : Unsigned} {t : Fin N} {s : St N} {w : Unsigned} {q : Pc} {n : ℕ}
    (ha : atomic sm s.word (s.pc t) = some (w, q)) (hr : resumeWait (s.pc t) = none)
    (h : Acquires sm t n ⟨w, Function.update s.pc t q⟩) : Acquires sm t (n + 1) s := by
  have hst : step sm s (.run t) = some ⟨w, Function.update s.pc t q⟩ := by simp [step, ha]
  refine .next ?_ ⟨_, Or.inl hst⟩ fun s' hs' => ?_
  · cases hp : s.pc t <;> simp_all [atomic, isAsleep]
  · rcases hs' with h' | h'
    · rw [hst] at h'; cases h'; exact h
    · simp [step, hr] at h'

theorem acquires_cas {sm d : Unsigned} {t : Fin N} {s : St N} (h : casArgs (s.pc t) = some (s.word, d)) :
    Acquires sm t 1 s := by
  have hr : resumeWait (s.pc t) = none := by cases hp : s.pc t <;> simp_all [casArgs, resumeWait]
  exact solo_run (atomic_cas h) hr (.now (by simp))

theorem acquires_add {sm : Unsigned} {t : Fin N} {s : St N} {l : Slow} (hp : s.pc t = .add l)
    (hl : locked (s.word + 1) = false) : Acquires sm t 2 s := by
  have ha : atomic sm s.word (s.pc t) = some (s.word + 1, .unset { l with val := s.word + 1 }) := by
    rw [hp]
    simp only [atomic, BitVec.add_comm 1 s.word, hl, Bool.false_eq_true, if_false]
  exact solo_run ha (by simp [hp, resumeWait]) (acquires_cas (by simp [casArgs]; rfl))

/-- A failed compare-exchange of the loops after the `fetch_add` goes to `BIT_UNSET` with the word. -/
theorem acquires_unset {sm : Unsigned} {t : Fin N} {s : St N} {l : Slow} (hr : resumeWait (s.pc t) = none)
    (ha : atomic sm s.word (s.pc t) = some (s.word, .unset { l with val := s.word })) : Acquires sm t 2 s :=
  solo_run ha hr (acquires_cas (by simp [casArgs]; rfl))

theorem acquires_fast {sm : Unsigned} {t : Fin N} {s : St N} {mo : MemoryOrder} (hf : locked s.word = false)
    (hp : s.pc t = .fast mo) : Acquires sm t 2 s := by
  by_cases e : s.word = 0
  · exact (acquires_cas (d := contrib) (by rw [hp, e]; rfl)).mono (by omega)
  · have ha : atomic sm s.word (s.pc t) = some (s.word, .first ⟨s.word, sm, mo⟩) := by
      rw [hp, atomic_fast_ne e]
    exact solo_run ha (by rw [hp]; rfl) (acquires_cas (by simp [casArgs, guess, hf]; rfl))

theorem acquires_first {sm : Unsigned} {t : Fin N} {s : St N} {l : Slow} (hf : locked s.word = false)
    (hf' : locked (s.word + 1) = false) (hp : s.pc t = .first l) : Acquires sm t 3 s := by
  by_cases e : s.word = (guess l.val).1
  · exact (acquires_cas (d := (guess l.val).2) (by rw [hp, e]; rfl)).mono (by omega)
  have hr : resumeWait (s.pc t) = none := by rw [hp]; rfl
  have ha := @atomic_first_ne sm _ _ e
  rw [← hp] at ha
  split at ha
  · exact solo_run ha hr (acquires_add (Function.update_self ..) hf')
  · exact (solo_run ha hr (acquires_cas (by simp [casArgs, guess, hf]; rfl))).mono (by omega)

theorem acquires_spin {sm : Unsigned} {t : Fin N} {s : St N} {l : Slow} (hf : locked s.word = false)
    (hp : s.pc t = .spin l) : Acquires sm t 2 s := by
  by_cases e : s.word = l.val - contrib
  · exact (acquires_cas (d := l.val - 1) (by rw [hp, e]; rfl)).mono (by omega)
  · exact acquires_unset (l := l) (by rw [hp]; rfl) (by simp [hp, atomic_spin_ne e, hf])

theorem acquires_retry {sm : Unsigned} {t : Fin N} {s : St N} {l : Slow} (hf : locked s.word = false)
    (hp : s.pc t = .retry l) : Acquires sm t 2 s := by
  by_cases e : s.word = l.val - contrib
  · exact (acquires_cas (d := l.val - 1) (by rw [hp, e]; rfl)).mono (by omega)
  · exact acquires_unset (l := l) (by rw [hp]; rfl) (by simp [hp, atomic_retry_ne e, hf])

/-- `FUTEX_WAIT` fails or returns at once: its value has the lock bit set, the word has not. -/
theorem acquires_wait {sm : Unsigned} {t : Fin N} {s : St N} {l : Slow} (hf : locked s.word = false)
    (hok : Ok (s.pc t)) (hp : s.pc t = .wait l) : Acquires sm t 3 s := by
  have hne : s.word ≠ l.val := by
    intro e
    rw [hp] at hok
    have hlt : 2 ^ 31 < l.val.toNat := hok
    rw [e, not_locked_iff] at hf
    omega
  have hrun : step sm s (.run t) = some (goto s t (.retry l)) := by simp [step, hp, atomic, hne, goto]
  have hspu : step sm s (.spurious t) = some (goto s t (.retry l)) := by simp [step, hp, resumeWait]
  refine .next (by rw [hp]; rfl) ⟨_, Or.inl hrun⟩ fun s' hs' => ?_
  obtain rfl : s' = goto s t (.retry l) := by
    rcases hs' with h | h
    · rw [hrun] at h; cases h; rfl
    · rw [hspu] at h; cases h; rfl
  exact acquires_retry hf (Function.update_self ..)

theorem acquires_stale_unset {sm : Unsigned} {t : Fin N} {s : St N} {l : Slow} (hf : locked s.word = false)
    (hp : s.pc t = .unset l) : Acquires sm t 2 s := by
  by_cases e : s.word = l.val
  · exact (acquires_cas (d := l.val ||| lockbit) (by rw [hp, e]; rfl)).mono (by omega)
  · exact acquires_unset (l := l) (by rw [hp]; rfl) (by simp [hp, atomic_unset_ne e, hf])

/-- With the lock bit clear, a thread inside the lock functions that is not asleep and runs
    alone holds the lock within three of its operations and does not sleep before. -/
theorem free_lock_taken (N : ℕ) (hN : N ≤ 2 ^ 31 - 1) (sm : Unsigned) (s : St N) (h : (sys N sm).Reach s)
    (hf : locked s.word = false) (t : Fin N) (ht : contends (s.pc t) = true) : Acquires sm t 3 s := by
  have hi := inv hN h
  cases hp : s.pc t with
  | out | asleep | held | wake => rw [hp] at ht; cases ht
  | fast mo => exact (acquires_fast hf hp).mono (by omega)
  | first l =>
    obtain ⟨-, hadd⟩ := (hi.move (t := t) (q := .add l) trivial (by rw [hp]; rfl) (by rw [hp]; rfl)).add_counts hN
      (Function.update_self ..)
    exact acquires_first hf (hadd.trans hf) hp
  | add l => exact (acquires_add hp ((hi.add_counts hN hp).2.trans hf)).mono (by omega)
  | spin l => exact (acquires_spin hf hp).mono (by omega)
  | wait l => exact acquires_wait hf (hi.ok t) hp
  | retry l => exact (acquires_retry hf hp).mono (by omega)
  | unset l => exact (acquires_stale_unset hf hp).mono (by omega)

/-- The holder has released the lock while thread 1 was on its way to `FUTEX_WAIT`. -/
def stale : St 2 := ⟨1, ![.wake, .wait ⟨0x80000002, 0, .seqCst⟩]⟩

theorem stale_reach : (sys 2 1).Reach stale :=
  reach_of_runEvs [.lock 0 .seqCst, .run 0, .lock 1 .seqCst, .run 1, .run 1, .run 1, .run 1, .unlock 0 .seqCst]
    (by decide)

theorem stale_acquires : Acquires 1 1 3 stale :=
  free_lock_taken 2 (by decide) 1 stale stale_reach (by decide) 1 (by decide)

end Stdatomic.Futex
