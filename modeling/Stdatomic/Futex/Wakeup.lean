/-
  Stdatomic.Futex.Wakeup — no lost wake-up in the futex lock.

  The unlocker releases in its `fetch_sub` and wakes in a separate `FUTEX_WAKE`; a sleeper
  compares the whole word, counter included. A thread falls asleep only while the lock bit
  is set (`atomic_sleeps`), and the wake call is skipped only with no other thread
  registered (`skips_wake_iff`). So whenever the lock bit is clear and a thread sleeps,
  either an unlocker still has its wake call to do, or a registered thread is awake in the
  slow path and will try the lock (`Watched`, kept by every step in `step_watched`).
-/

import Stdatomic.Futex.Invariant

namespace Stdatomic.Futex

open Family

variable {N : ℕ}

def awake : Pc → Bool
  | .spin _ => true
  | .wait _ => true
  | .retry _ => true
  | .unset _ => true
  | _ => false

def isWake : Pc → Bool
  | .wake => true
  | _ => false

/-- A registered thread holds the lock, sleeps, or is awake in the slow path. -/
theorem registered_split (p : Pc) : (registered p).toNat = (holds p).toNat + (isAsleep p).toNat + (awake p).toNat := by
  cases p <;> rfl

/-- With the lock bit clear, sleepers are watched: by an unlocker before its wake call or by
    an awake contender. -/
def Watched (s : St N) : Prop :=
  locked s.word = false → 0 < count isAsleep s.pc → 0 < count isWake s.pc + count awake s.pc

/-- Only `FUTEX_WAIT` puts a thread to sleep, and it compares with a locked value. -/
theorem atomic_sleeps {sm w w' : Unsigned} {p q : Pc} (hp : Ok p) (h : atomic sm w p = some (w', q))
    (hq : isAsleep q = true) : locked w = true ∧ w' = w := by
  obtain ⟨l, rfl⟩ := isAsleep_iff.mp hq
  cases p with
  | wait l' =>
    simp only [atomic, Option.some.injEq, Prod.mk.injEq] at h
    obtain ⟨rfl, h⟩ := h
    split at h
    · rename_i e
      have : 2 ^ 31 < l'.val.toNat := hp
      exact ⟨by rw [e, locked_iff]; omega, rfl⟩
    · cases h
  | _ =>
    simp only [atomic, Option.some.injEq, Prod.mk.injEq, reduceCtorEq] at h
    try
      obtain ⟨-, h⟩ := h
      (repeat' split at h) <;> cases h

theorem atomic_wake {sm w w' : Unsigned} {p q : Pc} (h : atomic sm w p = some (w', q)) :
    isWake p = false ∧ isWake q = false ∧ isAsleep p = false := by
  cases p <;> simp only [atomic, Option.some.injEq, Prod.mk.injEq, reduceCtorEq] at h <;> obtain ⟨-, rfl⟩ := h <;>
    refine ⟨rfl, ?_, rfl⟩ <;> (repeat' split) <;> rfl

/-- The wake call is skipped just when no other thread is registered. -/
theorem Inv.skips_wake_iff {s : St N} (h : Inv s) {t : Fin N} (ht : s.pc t = .held) :
    afterSub s.word = .out ↔ ∀ u, u ≠ t → registered (s.pc u) = false := by
  have hc := contrib_toNat
  have hpos : 0 < count holds s.pc := count_pos.mpr ⟨t, by rw [ht]; rfl⟩
  have hword := h.word
  have hone := h.one
  have h2 := count_update (p := registered) (f := s.pc) t .out
  rw [ht] at h2
  have hrest : count registered (Function.update s.pc t .out) + 1 = count registered s.pc := h2
  have hiff : afterSub s.word = .out ↔ count registered (Function.update s.pc t .out) = 0 := by
    unfold afterSub
    constructor
    · intro e
      split at e
      · cases e
      · rename_i hne
        have := congrArg BitVec.toNat (not_not.mp hne)
        omega
    · intro e
      rw [if_neg]
      exact not_not.mpr (BitVec.eq_of_toNat_eq (by omega))
  rw [hiff, count_eq_zero]
  constructor
  · intro hall u hu
    simpa [Function.update_of_ne hu] using hall u
  · intro hall u
    by_cases e : u = t
    · subst e; simp [registered]
    · simpa [Function.update_of_ne e] using hall u e

theorem watched_of {s : St N} (t : Fin N) (h : isWake (s.pc t) = true ∨ awake (s.pc t) = true) : Watched s := by
  intro _ _
  rcases h with h | h
  · have := count_pos.mpr ⟨t, h⟩; omega
  · have := count_pos.mpr ⟨t, h⟩; omega

theorem watched_of_locked {s : St N} (h : locked s.word = true) : Watched s := by
  intro hf; rw [h] at hf; cases hf

/-- A thread that did not watch and does not fall asleep leaves the watch to the others. -/
theorem Watched.move {s : St N} (h : Watched s) {t : Fin N} {q : Pc} (hq : isAsleep q = false)
    (hw : isWake (s.pc t) = false) (ha : awake (s.pc t) = false) : Watched (goto s t q) := by
  intro hf hsl
  have h1 := count_update (p := isAsleep) (f := s.pc) t q
  have h2 := count_update (p := isWake) (f := s.pc) t q
  have h3 := count_update (p := awake) (f := s.pc) t q
  simp only [hq, hw, ha, Bool.toNat_false] at h1 h2 h3
  simp only [goto] at hsl ⊢
  have := h hf (by omega)
  omega

theorem step_watched {sm : Unsigned} {s s' : St N} {e : Ev N} (hN : N ≤ 2 ^ 31 - 1) (hi : Inv s) (h : Watched s)
    (hs : step sm s e = some s') : Watched s' := by
  have hi' := step_inv hN hi hs
  cases step_moves hs with
  | lock t mo ht => exact h.move rfl (by rw [ht]; rfl) (by rw [ht]; rfl)
  | run t w q ha =>
    by_cases hq : isAsleep q = true
    · obtain ⟨hl, rfl⟩ := atomic_sleeps (hi.ok t) ha hq
      exact watched_of_locked hl
    have hq : isAsleep q = false := by simpa using hq
    cases atomic_effect (hi.ok t) (hi.seen hN) ha with
    | take _ _ => exact watched_of_locked ((hi'.locked_iff_held hN).mpr ⟨t, by simp⟩)
    | enlist l q hp hh hr hok =>
      have hs := registered_split q
      rw [hr, hh, hq] at hs
      exact watched_of t (Or.inr (by simpa using hs.symm))
    | keep q hh hh' hr hok =>
      obtain ⟨hw, -, hsl⟩ := atomic_wake ha
      cases haw : awake (s.pc t) with
      | false => exact h.move hq hw haw
      | true =>
        have hs := registered_split (s.pc t)
        have hs' := registered_split q
        rw [hh, hsl, haw] at hs
        rw [hr, hs, hh', hq] at hs'
        exact watched_of t (Or.inr (by simpa using hs'.symm))
  | spurious t q hq =>
    refine watched_of t (Or.inr ?_)
    cases hp : s.pc t <;> simp only [hp, resumeWait, Option.some.injEq, reduceCtorEq] at hq <;> subst hq <;>
      simp [goto, awake]
  | unlock t mo ht =>
    by_cases hsub : afterSub s.word = .out
    · -- with the wake call skipped, nobody else is registered, hence nobody sleeps
      intro _ hsl
      obtain ⟨u, hu⟩ := count_pos.mp hsl
      have hne : u ≠ t := by intro e; subst e; simp [hsub, isAsleep] at hu
      have hr := (hi.skips_wake_iff ht).mp hsub u hne
      simp only [Function.update_of_ne hne] at hu
      have hs := registered_split (s.pc u)
      rw [hr, hu] at hs
      simp at hs
      omega
    · have hw : afterSub s.word = .wake := by
        unfold afterSub at hsub ⊢; split
        · rfl
        · rename_i hne; exact absurd (if_neg hne) hsub
      exact watched_of t (Or.inl (by simp [hw, isWake]))
  | wakeOne t u l ht hu => exact watched_of u (Or.inr (by simp [goto, awake]))
  | wakeNone t ht hn =>
    intro _ hsl
    obtain ⟨u, hu⟩ := count_pos.mp hsl
    by_cases e : u = t
    · subst e; simp [goto, isAsleep] at hu
    · simp [goto, Function.update_of_ne e, hn u] at hu

theorem watched {sm : Unsigned} (hN : N ≤ 2 ^ 31 - 1) {s : St N} (h : (sys N sm).Reach s) : Watched s := by
  refine h.inv (I := Watched) (fun s h0 => ?_) fun s e s' hr hi hs => step_watched hN (inv hN hr) hi hs
  rw [show s = init from h0]
  intro _ hsl
  have : count isAsleep (init : St N).pc = 0 := count_eq_zero.mpr fun _ => rfl
  omega

theorem isWake_iff {p : Pc} : isWake p = true ↔ p = .wake := by
  cases p <;> simp [isWake]

theorem newly_asleep {f : Fin N → Pc} {t u : Fin N} {q : Pc} (hu : isAsleep (f u) = false)
    (hu' : isAsleep (Function.update f t q u) = true) : isAsleep q = true := by
  by_cases e : u = t
  · subst e; simpa using hu'
  · rw [Function.update_of_ne e, hu] at hu'; cases hu'

/-- A thread falls asleep only by comparing its locked value with the word, which stays. -/
theorem Inv.falls_asleep {sm : Unsigned} {s s' : St N} (hi : Inv s) {e : Ev N} (hs : step sm s e = some s')
    {u : Fin N} (hu : isAsleep (s.pc u) = false) (hu' : isAsleep (s'.pc u) = true) : locked s.word = true ∧ s'.word = s.word := by
  cases step_moves hs with
  | lock t mo ht => cases newly_asleep hu hu'
  | run t w q ha => exact atomic_sleeps (hi.ok t) ha (newly_asleep hu hu')
  | spurious t q hq =>
    have hq' := newly_asleep hu hu'
    cases hp : s.pc t <;> simp only [hp, resumeWait, Option.some.injEq, reduceCtorEq] at hq <;> subst hq <;> cases hq'
  | unlock t mo ht =>
    have hq := newly_asleep hu hu'
    unfold afterSub at hq; split at hq <;> cases hq
  | wakeOne t u' l ht hl =>
    have hout : isAsleep ((goto s t .out).pc u) = false := by
      by_cases e : u = t
      · subst e; simp [goto, isAsleep]
      · simpa [goto, Function.update_of_ne e] using hu
    cases newly_asleep hout hu'
  | wakeNone t ht hn => cases newly_asleep hu hu'

/-- No lost wake-up. A free lock with sleepers has an unlocker before its wake call or an awake
    registered contender; threads fall asleep only while the lock bit is set; an unlocker skips
    its wake call just when nobody else is registered. -/
theorem no_lost_wakeup (N : ℕ) (hN : N ≤ 2 ^ 31 - 1) (sm : Unsigned) (s : St N) (h : (sys N sm).Reach s) :
    (locked s.word = false → (∃ t, isAsleep (s.pc t) = true) →
      (∃ t, s.pc t = .wake) ∨ ∃ t, registered (s.pc t) = true ∧ awake (s.pc t) = true) ∧
    (∀ e s', step sm s e = some s' → ∀ t, isAsleep (s.pc t) = false → isAsleep (s'.pc t) = true →
      locked s.word = true ∧ s'.word = s.word) ∧
    (∀ t mo s', step sm s (.unlock t mo) = some s' →
      (s'.pc t = .out ↔ s.word = contrib) ∧ (s'.pc t = .out ↔ ∀ u, u ≠ t → registered (s.pc u) = false)) := by
  have hi := inv hN h
  refine ⟨fun hf hsl => ?_, fun e s' hs t => hi.falls_asleep hs, fun t mo s' hs => ?_⟩
  · have hw := watched hN h hf (count_pos.mpr hsl)
    by_cases hwk : 0 < count isWake s.pc
    · obtain ⟨t, ht⟩ := count_pos.mp hwk
      exact Or.inl ⟨t, isWake_iff.mp ht⟩
    · obtain ⟨t, ht⟩ : ∃ t, awake (s.pc t) = true := count_pos.mp (by omega)
      exact Or.inr ⟨t, by cases hp : s.pc t <;> simp_all [awake, registered], ht⟩
  · cases step_moves hs with
    | unlock t mo ht =>
      have hout : afterSub s.word = .out ↔ s.word = contrib := by
        unfold afterSub
        split <;> simp_all [eq_comm]
      simp only [Function.update_self]
      exact ⟨hout, hi.skips_wake_iff ht⟩

/-- The holder of `contended` has released the lock and not yet called `FUTEX_WAKE`. -/
def released : St 2 := ⟨1, ![.wake, .asleep ⟨0x80000002, 0, .seqCst⟩]⟩

theorem released_reach : (sys 2 1).Reach released :=
  .step (.unlock 0 .seqCst) contended_reach (show step 1 contended (.unlock 0 .seqCst) = some released by decide)

theorem released_watched :
    (∃ t, released.pc t = .wake) ∨ ∃ t, registered (released.pc t) = true ∧ awake (released.pc t) = true :=
  (no_lost_wakeup 2 (by decide) 1 released released_reach).1 (by decide) ⟨1, by decide⟩

end Stdatomic.Futex
