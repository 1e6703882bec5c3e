/-
  Stdatomic.Futex.Calm — contenders calm down while the lock is held.

  A continuation is calm when the holder `H` takes no step and `FUTEX_WAIT` does not
  return spuriously. The word then keeps its lock bit, so every compare-exchange fails,
  since the value it expects has the bit clear (`atomic_rank`), and only the `fetch_add`
  changes the word (`Drift`). A thread past its `fetch_add` stays registered, so it makes
  one change at most (`adds_once`).

  A thread at `FUTEX_WAIT` has the word of its last compare-exchange as its value
  (`waits_since`): when the call fails, another thread changed the word in between. The
  gaps of a thread's failed calls are disjoint, and so are the changes they are charged
  to (`charged_apart`); all but the first lie within the continuation.

  No calm continuation is infinite: each step lowers (`Drift.remaining_lt`),
  lexicographically, the number of unregistered threads, the number of pending wake
  calls, and the sum of what each thread has left to do on its own (`rank`).
-/

import Stdatomic.Futex.Wakeup
import Mathlib.Data.Prod.Lex

namespace Stdatomic.Futex

open Family

variable {N : ℕ}

/-- A step of a calm continuation. -/
def Calm (H : Fin N) (e : Ev N) : Prop := e.tid ≠ H ∧ ∀ t, e ≠ .spurious t

/-! ## One operation while the lock is held -/

/-- How many operations a thread does by itself while the word stays `w`. Its next
    `fetch_add`, or a wake, ends that. -/
def rank (sm w : Unsigned) : Pc → ℕ
  | .out => 3 + (sm - 1).toNat
  | .fast _ => 2 + (sm - 1).toNat
  | .first l => 1 + (l.spins - 1).toNat
  | .spin l => 2 + (l.spins - 1).toNat
  | .wait l => if w = l.val then 1 else 3
  | .retry _ => 2
  | .unset _ => 3 + (sm - 1).toNat
  | _ => 0

theorem spins_lt {n : Unsigned} (h : n ≠ 0) : (n - 1).toNat < n.toNat := by
  have h0 : n.toNat ≠ 0 := fun e => h (BitVec.eq_of_toNat_eq e)
  rw [BitVec.toNat_sub, show (1 : Unsigned).toNat = 1 from rfl]
  omega

theorem ne_of_locked {w v : Unsigned} (hw : locked w = true) (hv : v.toNat < 2 ^ 31) : w ≠ v := by
  intro e
  subst e
  rw [locked_iff] at hw
  omega

/-- With the lock bit set every operation but the `fetch_add` fails, and gets its thread further. -/
theorem atomic_rank {sm w w' : Unsigned} {p q : Pc} (hp : Ok p) (hw : locked w = true)
    (h : atomic sm w p = some (w', q)) (hadd : ∀ l, p ≠ .add l) : w' = w ∧ rank sm w q < rank sm w p := by
  have fails : ∀ {exp des}, casArgs p = some (exp, des) → w ≠ exp := fun hc => ne_of_locked hw (cas_spec hp hc).2.1
  cases p with
  | out | held | wake | asleep => cases h
  | add l => exact absurd rfl (hadd l)
  | fast mo =>
    rw [atomic_fast_ne (fails rfl)] at h
    cases h
    exact ⟨rfl, by simp only [rank]; omega⟩
  | first l =>
    rw [atomic_first_ne (fails rfl)] at h
    cases h
    refine ⟨rfl, ?_⟩
    split
    · simp only [rank]; omega
    · rename_i hs
      have := spins_lt hs
      simp only [rank]; omega
  | spin l =>
    rw [atomic_spin_ne (fails rfl), hw] at h
    cases h
    refine ⟨rfl, ?_⟩
    simp only [Bool.not_true, Bool.false_eq_true, if_false]
    split
    · simp only [rank, if_true]; omega
    · rename_i hs
      have := spins_lt hs
      simp only [rank]; omega
  | wait l =>
    simp only [atomic, Option.some.injEq, Prod.mk.injEq] at h
    obtain ⟨rfl, rfl⟩ := h
    refine ⟨rfl, ?_⟩
    by_cases e : w = l.val
    · simp only [if_pos e, rank]; omega
    · simp only [if_neg e, rank]; omega
  | retry l =>
    rw [atomic_retry_ne (fails rfl), hw] at h
    cases h
    exact ⟨rfl, by simp only [Bool.not_true, Bool.false_eq_true, if_false, rank, if_true]; omega⟩
  | unset l =>
    rw [atomic_unset_ne (fails rfl), hw] at h
    cases h
    exact ⟨rfl, by simp only [if_true, rank]; omega⟩

/-! ## One calm step -/

/-- A calm step, with the lock held: a `fetch_add`, a wake call, or a step that leaves the word
    and the class of its thread and gets it further. -/
inductive Drift (sm : Unsigned) (s : St N) : Ev N → St N → Prop
  | add (t : Fin N) (l : Slow) (q : Pc) : s.pc t = .add l → registered q = true →
      Drift sm s (.run t) ⟨s.word + 1, Function.update s.pc t q⟩
  | move (e : Ev N) (q : Pc) : holds (s.pc e.tid) = false → registered q = registered (s.pc e.tid) →
      isWake q = isWake (s.pc e.tid) → rank sm s.word q < rank sm s.word (s.pc e.tid) →
      Drift sm s e (goto s e.tid q)
  | wakeOne (t u : Fin N) (l : Slow) : s.pc t = .wake → s.pc u = .asleep l →
      Drift sm s (.wake t (some u)) (goto (goto s t .out) u (.retry l))
  | wakeNone (t : Fin N) : s.pc t = .wake → Drift sm s (.wake t none) (goto s t .out)

theorem calm_drift {sm : Unsigned} {s s' : St N} {e : Ev N} {H : Fin N} (hN : N ≤ 2 ^ 31 - 1) (hi : Inv s)
    (hH : s.pc H = .held) (hc : Calm H e) (hs : step sm s e = some s') : Drift sm s e s' := by
  have hw : locked s.word = true := (hi.locked_iff_held hN).mpr ⟨H, by rw [hH]; rfl⟩
  cases step_moves hs with
  | lock t mo ht =>
    have hlt : rank sm s.word (.fast mo) < rank sm s.word .out := by simp only [rank]; omega
    exact .move (.lock t mo) _ (by simp [Ev.tid, ht, holds]) (by simp [Ev.tid, ht, registered])
      (by simp [Ev.tid, ht, isWake]) (by simpa only [Ev.tid, ht] using hlt)
  | run t w q ha =>
    by_cases hadd : ∃ l, s.pc t = .add l
    · obtain ⟨l, hl⟩ := hadd
      have hq := hl ▸ ha
      simp only [atomic, Option.some.injEq, Prod.mk.injEq] at hq
      obtain ⟨rfl, rfl⟩ := hq
      exact .add t l _ hl (by split <;> rfl)
    · obtain ⟨hw1, hw2, -⟩ := atomic_wake ha
      have hlt := (atomic_rank (hi.ok t) hw ha fun l hl => hadd ⟨l, hl⟩).2
      cases atomic_effect (hi.ok t) (hi.seen hN) ha with
      | take _ hv => exact absurd rfl (ne_of_locked hw hv)
      | enlist l q hl => exact absurd ⟨l, hl⟩ hadd
      | keep q hh _ hr _ => exact .move (.run t) q hh hr (hw2.trans hw1.symm) hlt
  | spurious t q hq => exact absurd rfl (hc.2 t)
  | unlock t mo ht =>
    exact absurd (eq_of_count_le_one hi.one (i := t) (j := H) (by rw [ht]; rfl) (by rw [hH]; rfl)) hc.1
  | wakeOne t u l ht hu => exact .wakeOne t u l ht hu
  | wakeNone t ht _ => exact .wakeNone t ht

theorem update_held {s : St N} {t H : Fin N} {q : Pc} (hH : s.pc H = .held) (ht : holds (s.pc t) = false) :
    Function.update s.pc t q H = .held := by
  have hne : H ≠ t := by intro e; subst e; rw [hH] at ht; cases ht
  rwa [Function.update_of_ne hne]

theorem Drift.held {sm : Unsigned} {s s' : St N} {e : Ev N} {H : Fin N} (h : Drift sm s e s')
    (hH : s.pc H = .held) : s'.pc H = .held := by
  cases h with
  | add t l q ht => exact update_held hH (by rw [ht]; rfl)
  | move e q hh => exact update_held hH hh
  | wakeOne t u l ht hu =>
    have hne : u ≠ t := by intro e; subst e; rw [ht] at hu; cases hu
    exact update_held (s := goto s t .out) (update_held hH (by rw [ht]; rfl))
      (by simp [goto, Function.update_of_ne hne, hu, holds])
  | wakeNone t ht => exact update_held hH (by rw [ht]; rfl)

theorem update_registered {s : St N} {t u : Fin N} {q : Pc} (h : registered (s.pc u) = true)
    (hq : registered (s.pc t) = true → registered q = true) : registered (Function.update s.pc t q u) = true := by
  by_cases e : u = t
  · subst e; simpa using hq h
  · rwa [Function.update_of_ne e]

theorem Drift.stays {sm : Unsigned} {s s' : St N} {e : Ev N} (h : Drift sm s e s') {u : Fin N}
    (hu : registered (s.pc u) = true) : registered (s'.pc u) = true := by
  cases h with
  | add t l q ht hq => exact update_registered hu fun _ => hq
  | move e q _ hr => exact update_registered hu fun ht => hr.trans ht
  | wakeOne t v l ht hv =>
    exact update_registered (s := goto s t .out) (update_registered hu (by rw [ht]; intro h; cases h)) fun _ => rfl
  | wakeNone t ht => exact update_registered hu (by rw [ht]; intro h; cases h)

/-- Only a `fetch_add` changes the word, and it registers its thread. -/
theorem Drift.change {sm : Unsigned} {s s' : St N} {e : Ev N} (h : Drift sm s e s') (hne : s'.word ≠ s.word) :
    ∃ l, e = .run e.tid ∧ s.pc e.tid = .add l ∧ registered (s'.pc e.tid) = true := by
  cases h with
  | add t l q ht hq => exact ⟨l, rfl, ht, by simpa [Ev.tid] using hq⟩
  | move => exact absurd rfl hne
  | wakeOne => exact absurd rfl hne
  | wakeNone => exact absurd rfl hne

/-! ## The measure -/

def unregistered (p : Pc) : Bool := !registered p

/-- What is left to do while the lock is held: threads to register, wake calls to make, and the
    operations of each thread by itself. -/
def remaining (sm : Unsigned) (s : St N) : ℕ ×ₗ ℕ ×ₗ ℕ :=
  toLex (count unregistered s.pc, toLex (count isWake s.pc, ∑ t, rank sm s.word (s.pc t)))

theorem remaining_lt {sm : Unsigned} {s s' : St N} (h1 : count unregistered s'.pc ≤ count unregistered s.pc)
    (h2 : count unregistered s'.pc < count unregistered s.pc ∨ count isWake s'.pc < count isWake s.pc ∨
      count isWake s'.pc = count isWake s.pc ∧ ∑ t, rank sm s'.word (s'.pc t) < ∑ t, rank sm s.word (s.pc t)) :
    remaining sm s' < remaining sm s := by
  simp only [remaining, Prod.Lex.toLex_lt_toLex]
  omega

/-- A wake call leaves its thread outside, unregistered as before. -/
theorem wake_counts {s : St N} {t : Fin N} (ht : s.pc t = .wake) :
    count unregistered (goto s t .out).pc = count unregistered s.pc ∧
      count isWake (goto s t .out).pc + 1 = count isWake s.pc :=
  ⟨count_update_eq (by rw [ht]; rfl), by simpa [ht, isWake] using count_update (p := isWake) (f := s.pc) t .out⟩

theorem Drift.remaining_lt {sm : Unsigned} {s s' : St N} {e : Ev N} (h : Drift sm s e s') :
    remaining sm s' < remaining sm s := by
  cases h with
  | add t l q ht hq =>
    have h1 := count_update (p := unregistered) (f := s.pc) t q
    simp only [show unregistered q = false by simp [unregistered, hq],
      show unregistered (s.pc t) = true by simp [unregistered, ht, registered], Bool.toNat_true, Bool.toNat_false] at h1
    exact Futex.remaining_lt (by simp only; omega) (Or.inl (by simp only; omega))
  | move e q hh hr hk hlt =>
    have h1 := count_update_eq (p := unregistered) (f := s.pc) (i := e.tid) (v := q) (by simp [unregistered, hr])
    exact Futex.remaining_lt h1.le (Or.inr (Or.inr ⟨count_update_eq hk, sum_update_lt hlt⟩))
  | wakeOne t u l ht hu =>
    have hne : u ≠ t := by intro e; subst e; rw [ht] at hu; cases hu
    have hu' : (goto s t .out).pc u = .asleep l := by rw [goto_pc, Function.update_of_ne hne, hu]
    obtain ⟨h1, h2⟩ := wake_counts ht
    have h3 := count_update_eq (p := unregistered) (f := (goto s t .out).pc) (i := u) (v := .retry l)
      (by rw [hu']; rfl)
    have h4 := count_update_eq (p := isWake) (f := (goto s t .out).pc) (i := u) (v := .retry l) (by rw [hu']; rfl)
    exact Futex.remaining_lt (h3.trans h1).le (Or.inr (Or.inl (by rw [goto_pc, h4]; omega)))
  | wakeNone t ht =>
    obtain ⟨h1, h2⟩ := wake_counts ht
    exact Futex.remaining_lt h1.le (Or.inr (Or.inl (by omega)))

/-! ## Calm runs -/

/-- From `a` to `n` the run is calm, and `H` holds the lock at `a`. -/
structure CalmRun (sm : Unsigned) (H : Fin N) (a n : ℕ) (x : ℕ → St N) (e : ℕ → Ev N) : Prop where
  run : (sys N sm).Run n x e
  le : a ≤ n
  held : (x a).pc H = .held
  calm : ∀ i, a ≤ i → i < n → Calm H (e i)

def changes (x : ℕ → St N) (i : ℕ) : Prop := (x (i + 1)).word ≠ (x i).word

instance (x : ℕ → St N) (i : ℕ) : Decidable (changes x i) := inferInstanceAs (Decidable (_ ≠ _))

section
variable {sm : Unsigned} {H t : Fin N} {a n i j : ℕ} {x : ℕ → St N} {e : ℕ → Ev N}

theorem CalmRun.upTo (h : CalmRun sm H a n x e) (hi : a ≤ i) (hn : i ≤ n) : CalmRun sm H a i x e :=
  ⟨⟨h.run.start, fun k hk => h.run.next k (by omega)⟩, hi, h.held, fun k hk hki => h.calm k hk (by omega)⟩

theorem CalmRun.held_at (hN : N ≤ 2 ^ 31 - 1) (h : CalmRun sm H a n x e) : (x n).pc H = .held := by
  obtain ⟨run, le, held, calm⟩ := h
  induction n, le using Nat.le_induction with
  | base => exact held
  | succ n le ih =>
    have hn : (x n).pc H = .held :=
      ih ⟨run.start, fun k hk => run.next k (by omega)⟩ fun k hk hkn => calm k hk (by omega)
    exact (calm_drift hN (inv hN (run.reach n (by omega))) hn (calm n le (by omega)) (run.next n (by omega))).held hn

theorem CalmRun.drift (hN : N ≤ 2 ^ 31 - 1) (h : CalmRun sm H a n x e) (hi : a ≤ i) (hn : i < n) :
    Drift sm (x i) (e i) (x (i + 1)) :=
  calm_drift hN (inv hN (h.run.reach i hn.le)) ((h.upTo hi hn.le).held_at hN) (h.calm i hi hn) (h.run.next i hn)

theorem CalmRun.stays (hN : N ≤ 2 ^ 31 - 1) (h : CalmRun sm H a n x e) (hi : a ≤ i) (hij : i ≤ j) (hj : j ≤ n)
    (hr : registered ((x i).pc t) = true) : registered ((x j).pc t) = true := by
  induction j, hij using Nat.le_induction with
  | base => exact hr
  | succ j hij ih => exact (h.drift hN (hi.trans hij) hj).stays (ih (by omega))

theorem CalmRun.adds_once (hN : N ≤ 2 ^ 31 - 1) (h : CalmRun sm H a n x e) (hi : a ≤ i) (hin : i < n) (hj : a ≤ j)
    (hjn : j < n) (ci : changes x i) (cj : changes x j) (ht : (e i).tid = (e j).tid) : i = j := by
  -- after its `fetch_add` a thread is registered, before it it is not
  have apart : ∀ i j, a ≤ i → i < j → j < n → changes x i → changes x j → (e i).tid ≠ (e j).tid := by
    intro i j hi hij hjn ci cj ht
    obtain ⟨-, -, -, hr⟩ := (h.drift hN hi (hij.trans hjn)).change ci
    obtain ⟨l, -, hl, -⟩ := (h.drift hN (hi.trans hij.le) hjn).change cj
    have := h.stays hN (hi.trans (Nat.le_succ i)) hij hjn.le hr
    rw [ht, hl] at this
    cases this
  rcases lt_trichotomy i j with hij | hij | hij
  · exact absurd ht (apart i j hi hij hjn ci cj)
  · exact hij
  · exact absurd ht.symm (apart j i hj hij hin cj ci)

/-! ## Failed waits -/

def waitFails (w : Unsigned) : Pc → Bool
  | .wait l => w != l.val
  | _ => false

def failsWait (x : ℕ → St N) (e : ℕ → Ev N) (t : Fin N) (i : ℕ) : Prop :=
  e i = .run t ∧ waitFails (x i).word ((x i).pc t) = true

instance : DecidablePred (failsWait x e t) := fun _ => inferInstanceAs (Decidable (_ ∧ _))

def comparesAt (x : ℕ → St N) (e : ℕ → Ev N) (t : Fin N) (i : ℕ) : Prop := e i = .run t ∧ casArgs ((x i).pc t) ≠ none

/-- Step `j` is a change of the word by another thread after the last compare-exchange of `t` before `i`. -/
def Charged (x : ℕ → St N) (e : ℕ → Ev N) (t : Fin N) (i j : ℕ) : Prop :=
  ∃ c, comparesAt x e t c ∧ c < j ∧ j < i ∧ changes x j ∧ (e j).tid ≠ t ∧ ∀ k, c < k → k < i → (e k).tid ≠ t

end

theorem atomic_to_wait {sm w w' : Unsigned} {p : Pc} {l : Slow} (h : atomic sm w p = some (w', .wait l)) :
    casArgs p ≠ none ∧ w' = l.val := by
  cases p with
  | spin l' =>
    refine ⟨by simp [casArgs], ?_⟩
    by_cases e : w = l'.val - contrib
    · rw [e, atomic_cas (d := l'.val - 1) rfl] at h
      cases h
    · rw [atomic_spin_ne e] at h
      simp only [Option.some.injEq, Prod.mk.injEq] at h
      obtain ⟨rfl, h⟩ := h
      (repeat' split at h) <;> cases h
      rfl
  | retry l' =>
    refine ⟨by simp [casArgs], ?_⟩
    by_cases e : w = l'.val - contrib
    · rw [e, atomic_cas (d := l'.val - 1) rfl] at h
      cases h
    · rw [atomic_retry_ne e] at h
      simp only [Option.some.injEq, Prod.mk.injEq] at h
      obtain ⟨rfl, h⟩ := h
      split at h <;> cases h
      rfl
  | _ =>
    simp only [atomic, Option.some.injEq, Prod.mk.injEq, reduceCtorEq] at h
    try
      obtain ⟨-, h⟩ := h
      (repeat' split at h) <;> cases h

theorem update_wait {f : Fin N → Pc} {t u : Fin N} {q : Pc} {l : Slow} (hq : q ≠ .wait l)
    (h : Function.update f u q t = .wait l) : f t = .wait l ∧ u ≠ t := by
  by_cases e : u = t
  · subst e; exact absurd (by simpa using h) hq
  · exact ⟨by rwa [Function.update_of_ne (Ne.symm e)] at h, e⟩

/-- A thread comes to `FUTEX_WAIT` by a compare-exchange, with the word it left. -/
theorem step_to_wait {sm : Unsigned} {s s' : St N} {e : Ev N} (hs : step sm s e = some s') {t : Fin N} {l : Slow}
    (h : s'.pc t = .wait l) :
    (s.pc t = .wait l ∧ e.tid ≠ t) ∨ (e = .run t ∧ casArgs (s.pc t) ≠ none ∧ s'.word = l.val) := by
  cases step_moves hs with
  | lock u mo => exact Or.inl (update_wait (by intro h; cases h) h)
  | run u w q ha =>
    by_cases e : u = t
    · subst e
      obtain rfl : q = .wait l := by simpa using h
      obtain ⟨hc, hw⟩ := atomic_to_wait ha
      exact Or.inr ⟨rfl, hc, hw⟩
    · exact Or.inl ⟨by simpa [Function.update_of_ne (Ne.symm e)] using h, e⟩
  | spurious u q hq =>
    refine Or.inl (update_wait ?_ h)
    intro e
    subst e
    cases hp : s.pc u <;> simp [hp, resumeWait] at hq
  | unlock u mo => exact Or.inl (update_wait (by unfold afterSub; split <;> intro h <;> cases h) h)
  | wakeOne u v l' hu hv => exact Or.inl (update_wait (by intro h; cases h) (update_wait (by intro h; cases h) h).1)
  | wakeNone u => exact Or.inl (update_wait (by intro h; cases h) h)

section
variable {sm : Unsigned} {H t : Fin N} {a n i i' j j' : ℕ} {x : ℕ → St N} {e : ℕ → Ev N}

/-- The value of a thread at `FUTEX_WAIT` is the word its last compare-exchange left. -/
theorem waits_since (h : (sys N sm).Run n x e) (hi : i ≤ n) {l : Slow} (hl : (x i).pc t = .wait l) :
    ∃ c < i, comparesAt x e t c ∧ (x (c + 1)).word = l.val ∧ ∀ k, c < k → k < i → (e k).tid ≠ t := by
  induction i with
  | zero =>
    rw [show x 0 = init from h.start] at hl
    cases hl
  | succ i ih =>
    rcases step_to_wait (h.next i hi) hl with ⟨hl', ht⟩ | ⟨he, hc, hw⟩
    · obtain ⟨c, hci, hc, hw, hk⟩ := ih (by omega) hl'
      refine ⟨c, by omega, hc, hw, fun k hck hki => ?_⟩
      by_cases e : k = i
      · subst e; exact ht
      · exact hk k hck (by omega)
    · exact ⟨i, by omega, ⟨he, hc⟩, hw, fun k hk hk' => by omega⟩

theorem exists_change (hij : i ≤ j) (h : (x i).word ≠ (x j).word) : ∃ k, i ≤ k ∧ k < j ∧ changes x k := by
  induction j, hij using Nat.le_induction with
  | base => exact absurd rfl h
  | succ j hij ih =>
    by_cases hc : changes x j
    · exact ⟨j, hij, by omega, hc⟩
    · obtain ⟨k, hk, hkj, hck⟩ := ih fun e => h (e.trans (not_not.mp hc).symm)
      exact ⟨k, hk, by omega, hck⟩

theorem fails_charged (h : (sys N sm).Run n x e) (hi : i < n) (hf : failsWait x e t i) : ∃ j, Charged x e t i j := by
  obtain ⟨-, hw⟩ := hf
  cases hl : (x i).pc t with
  | wait l =>
    obtain ⟨c, hci, hc, hv, hk⟩ := waits_since h hi.le hl
    have hne : (x i).word ≠ l.val := by simpa [hl, waitFails] using hw
    rw [← hv] at hne
    obtain ⟨j, hcj, hji, hj⟩ := exists_change (by omega) hne.symm
    exact ⟨j, c, hc, by omega, hji, hj, hk j (by omega) hji, hk⟩
  | _ => simp [hl, waitFails] at hw

/-- A thread's failed waits are charged one after the other. -/
theorem charged_apart (hi : failsWait x e t i) (hii' : i < i') (hj' : Charged x e t i' j') : i < j' := by
  obtain ⟨c, hc, hcj, -, -, -, hk⟩ := hj'
  rcases lt_trichotomy c i with h | h | h
  · exact absurd (by rw [hi.1]; rfl) (hk i h hii')
  · subst h
    have hw := hi.2
    cases hp : (x c).pc t with
    | wait l => exact absurd (by rw [hp]; rfl) hc.2
    | _ => simp [hp, waitFails] at hw
  · omega

theorem exists_charge (h : (sys N sm).Run n x e) :
    ∃ charge : ℕ → ℕ, ∀ i, i < n → failsWait x e t i → Charged x e t i (charge i) := by
  have hex : ∀ i, ∃ j, i < n → failsWait x e t i → Charged x e t i j := by
    intro i
    by_cases hc : i < n ∧ failsWait x e t i
    · obtain ⟨j, hj⟩ := fails_charged h hc.1 hc.2
      exact ⟨j, fun _ _ => hj⟩
    · exact ⟨0, fun hn hf => absurd ⟨hn, hf⟩ hc⟩
  exact Classical.skolem.mp hex

theorem charge_inj {charge : ℕ → ℕ} (hc : ∀ i, i < n → failsWait x e t i → Charged x e t i (charge i)) :
    Set.InjOn charge {i | a ≤ i ∧ i < n ∧ failsWait x e t i} := by
  have mono : ∀ i i', i' < n → i < i' → failsWait x e t i → failsWait x e t i' → charge i < charge i' := by
    intro i i' hn hii' hf hf'
    have := charged_apart hf hii' (hc i' hn hf')
    obtain ⟨c, -, -, hji, -⟩ := hc i (by omega) hf
    omega
  rintro i ⟨hi, hn, hf⟩ i' ⟨hi', hn', hf'⟩ heq
  rcases lt_trichotomy i i' with h | h | h
  · have := mono i i' hn' h hf hf'; omega
  · exact h
  · have := mono i' i hn h hf' hf; omega

/-- At most `N - 1` waits of a thread fail: one for a change made before the continuation, and one
    for each thread but itself and the holder. -/
theorem CalmRun.failed_le (hN : N ≤ 2 ^ 31 - 1) (h : CalmRun sm H a n x e) :
    ((Finset.Ico a n).filter (failsWait x e t)).card ≤ N - 1 := by
  by_cases htH : t = H
  · have hnone : (Finset.Ico a n).filter (failsWait x e t) = ∅ := by
      refine Finset.filter_eq_empty_iff.mpr fun i hi hf => ?_
      obtain ⟨hi, hn⟩ := Finset.mem_Ico.mp hi
      have := h.calm i hi hn
      rw [hf.1] at this
      exact this.1 htH
    simp [hnone]
  obtain ⟨charge, hcharge⟩ := exists_charge (t := t) h.run
  have hmem : ∀ {i}, i ∈ (Finset.Ico a n).filter (failsWait x e t) → a ≤ i ∧ i < n ∧ failsWait x e t i := by
    intro i hi
    simpa [and_assoc] using hi
  rw [← Finset.card_filter_add_card_filter_not (fun i => a ≤ charge i)]
  have hin : (((Finset.Ico a n).filter (failsWait x e t)).filter fun i => a ≤ charge i).card ≤ N - 2 := by
    have hcard : ((Finset.univ.erase t).erase H).card = N - 2 := by
      rw [Finset.card_erase_of_mem (by simp [Ne.symm htH]), Finset.card_erase_of_mem (by simp), Finset.card_univ,
        Fintype.card_fin]
      rfl
    rw [← hcard]
    refine Finset.card_le_card_of_injOn (fun i => (e (charge i)).tid) (fun i hi => ?_) fun i hi i' hi' heq => ?_
    · obtain ⟨hi, hai⟩ := Finset.mem_filter.mp hi
      obtain ⟨ha, hn, hf⟩ := hmem hi
      obtain ⟨c, -, -, hji, -, ht, -⟩ := hcharge i hn hf
      simpa [ht] using (h.calm _ hai (hji.trans hn)).1
    · obtain ⟨hi, hai⟩ := Finset.mem_filter.mp hi
      obtain ⟨hi', hai'⟩ := Finset.mem_filter.mp hi'
      obtain ⟨ha, hn, hf⟩ := hmem hi
      obtain ⟨ha', hn', hf'⟩ := hmem hi'
      obtain ⟨c, -, -, hji, hj, -⟩ := hcharge i hn hf
      obtain ⟨c', -, -, hji', hj', -⟩ := hcharge i' hn' hf'
      have hone := h.adds_once hN hai (hji.trans hn) hai' (hji'.trans hn') hj hj' heq
      exact charge_inj hcharge ⟨ha, hn, hf⟩ ⟨ha', hn', hf'⟩ hone
  have hout : (((Finset.Ico a n).filter (failsWait x e t)).filter fun i => ¬ a ≤ charge i).card ≤ 1 := by
    have apart : ∀ {i i'}, a ≤ i → i' < n → failsWait x e t i → failsWait x e t i' → ¬ a ≤ charge i' → ¬ i < i' := by
      intro i i' hi hn hf hf' hout hlt
      have := charged_apart hf hlt (hcharge i' hn hf')
      omega
    refine Finset.card_le_one.mpr fun i hi i' hi' => ?_
    obtain ⟨hi, hout⟩ := Finset.mem_filter.mp hi
    obtain ⟨hi', hout'⟩ := Finset.mem_filter.mp hi'
    obtain ⟨ha, hn, hf⟩ := hmem hi
    obtain ⟨ha', hn', hf'⟩ := hmem hi'
    have h1 := apart ha hn' hf hf' hout'
    have h2 := apart ha' hn hf' hf hout
    omega
  have : t.val < N ∧ H.val < N ∧ t.val ≠ H.val := ⟨t.2, H.2, fun e => htH (Fin.ext e)⟩
  omega

/-- With no calm step left, every thread but the holder sleeps. -/
theorem stuck_asleep {s : St N} (hi : Inv s) (hH : s.pc H = .held)
    (hs : ∀ ev s', Calm H ev → step sm s ev ≠ some s') (ht : t ≠ H) : isAsleep (s.pc t) = true := by
  have stuck : ∀ ev, ev.tid = t → (∀ u, ev ≠ .spurious u) → step sm s ev = none := by
    intro ev he hsp
    exact Option.eq_none_iff_forall_ne_some.mpr fun s' => hs ev s' ⟨by rwa [he], hsp⟩
  have run := stuck (.run t) rfl (by intro u h; cases h)
  cases hp : s.pc t with
  | asleep l => rfl
  | held => exact absurd (eq_of_count_le_one hi.one (i := t) (j := H) (by rw [hp]; rfl) (by rw [hH]; rfl)) ht
  | out =>
    have := stuck (.lock t .seqCst) rfl (by intro u h; cases h)
    simp [step, hp] at this
  | wake =>
    by_cases hex : ∃ u, isAsleep (s.pc u) = true
    · obtain ⟨u, hu⟩ := hex
      have := stuck (.wake t (some u)) rfl (by intro u h; cases h)
      obtain ⟨l, hl⟩ := isAsleep_iff.mp hu
      simp [step, hp, hl, isAsleep, resumeWait] at this
    · have hnone : ∀ u, isAsleep (s.pc u) = false := by simpa using hex
      have := stuck (.wake t none) rfl (by intro u h; cases h)
      simp [step, hp, hnone] at this
  | _ => simp [step, hp, atomic] at run

theorem CalmRun.finite (hN : N ≤ 2 ^ 31 - 1) : ¬ ∀ n, a ≤ n → CalmRun sm H a n x e := by
  intro h
  refine Lts.no_infinite (R := fun s s' => ∃ ev, Drift sm s ev s') (I := fun _ => True) (remaining sm)
    (fun s s' _ hd => ?_) (fun i => x (a + i)) (fun _ => trivial) fun i => ?_
  · obtain ⟨ev, hd⟩ := hd
    exact hd.remaining_lt
  · exact ⟨e (a + i), (h (a + i + 1) (by omega)).drift hN (by omega) (by omega)⟩

end

/-- Contenders calm down while the lock is held. The run comes to a state `x a` in which `H` holds
    the lock; what it does then until any `n`, with no step of `H` and no spurious return:
    each thread changes the word at most once, by its `fetch_add`; a failed wait of a thread is
    charged to a change by another thread since its last compare-exchange, distinct failures to
    distinct changes, and there are at most `N - 1`; when no step is left, every other thread
    sleeps. And it does not go on for ever. -/
theorem contenders_calm_down (N : ℕ) (hN : N ≤ 2 ^ 31 - 1) (sm : Unsigned) (H : Fin N) (a : ℕ) (x : ℕ → St N)
    (e : ℕ → Ev N) :
    (∀ n, CalmRun sm H a n x e →
      (∀ i, a ≤ i → i < n → changes x i → ∃ t l, e i = .run t ∧ (x i).pc t = .add l) ∧
      (∀ t, ((Finset.Ico a n).filter fun i => changes x i ∧ (e i).tid = t).card ≤ 1) ∧
      (∀ t, ∃ charge : ℕ → ℕ, (∀ i, a ≤ i → i < n → failsWait x e t i → Charged x e t i (charge i)) ∧
        Set.InjOn charge {i | a ≤ i ∧ i < n ∧ failsWait x e t i}) ∧
      (∀ t, ((Finset.Ico a n).filter (failsWait x e t)).card ≤ N - 1) ∧
      ((∀ ev s', Calm H ev → step sm (x n) ev ≠ some s') → ∀ t, t ≠ H → isAsleep ((x n).pc t) = true)) ∧
    ¬ ∀ n, a ≤ n → CalmRun sm H a n x e := by
  refine ⟨fun n h => ⟨fun i hi hn hc => ?_, fun t => ?_, fun t => ?_, fun t => h.failed_le hN,
    fun hs t => stuck_asleep (inv hN (h.run.reach n le_rfl)) (h.held_at hN) hs⟩, CalmRun.finite hN⟩
  · obtain ⟨l, he, hl, -⟩ := (h.drift hN hi hn).change hc
    exact ⟨_, l, he, hl⟩
  · refine Finset.card_le_one.mpr fun i hi j hj => ?_
    simp only [Finset.mem_filter, Finset.mem_Ico] at hi hj
    exact h.adds_once hN hi.1.1 hi.1.2 hj.1.1 hj.1.2 hi.2.1 hj.2.1 (hi.2.2.trans hj.2.2.symm)
  · obtain ⟨charge, hcharge⟩ := exists_charge (t := t) h.run
    exact ⟨charge, fun i _ => hcharge i, charge_inj hcharge⟩

/-- Thread 0 takes the lock; thread 1 is on its way to `FUTEX_WAIT` when thread 2 does its
    `fetch_add`, so its first wait fails; then both fall asleep. -/
def calmEvs : List (Ev 3) :=
  [.lock 0 .seqCst, .run 0, .lock 1 .seqCst, .run 1, .run 1, .run 1, .run 1, .lock 2 .seqCst, .run 2, .run 2, .run 2,
    .run 1, .run 1, .run 1, .run 2, .run 2]

def calmState (i : ℕ) : St 3 := (Lts.Sys.runList (step 1) init (calmEvs.take i)).getD init

def calmEv (i : ℕ) : Ev 3 := calmEvs.getD i (.run 0)

theorem calm_run : CalmRun 1 0 2 16 calmState calmEv where
  run := ⟨rfl, show ∀ i < 16, step 1 (calmState i) (calmEv i) = some (calmState (i + 1)) by decide⟩
  le := by decide
  held := by decide
  calm i _ hn := by
    have h : ∀ i < 16, 2 ≤ i → (calmEv i).tid ≠ 0 ∧ ∀ t, calmEv i ≠ .spurious t := by decide
    exact h i hn ‹_›

theorem calm_failed : ((Finset.Ico 2 16).filter (failsWait calmState calmEv 1)).card ≤ 2 :=
  ((contenders_calm_down 3 (by decide) 1 0 2 calmState calmEv).1 16 calm_run).2.2.2.1 1

end Stdatomic.Futex
