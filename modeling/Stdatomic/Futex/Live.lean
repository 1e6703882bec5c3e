/-
  Stdatomic.Futex.Live — the futex lock as a whole goes on, on every schedule.

  Nothing is assumed of the scheduler; only `FUTEX_WAIT` must not return spuriously for
  ever. A step that makes no thread the holder lowers (`descends`), lexicographically, the
  number of holders, of pending wake calls, of steps before the slow path (`ahead`), of contenders
  that are not yet registered, and the sum of what each thread has left to do by itself
  (`toDo`). For a held lock that last part is `rank`, and for a free one `freeRank`: with
  the lock bit clear a compare-exchange that fails refreshes the thread's value, and the next
  one succeeds or something else has changed the word. Each thread has a spin budget of
  its own here, the `spins_max` that it read on its way into the slow path.

  - `takes_go_on`: an infinite run takes the lock infinitely often.
  - `calls_drain`: with no new calls no run is infinite, and where no step is left every
    thread is outside and the word is 0.
-/

import Stdatomic.Futex.Calm
import Stdatomic.Futex.Progress
import Stdatomic.Futex.Refine

namespace Stdatomic.Futex

open Family

variable {N : ℕ}

/-! ## What is left to do -/

def ahead : Pc → ℕ
  | .out => 2
  | .fast _ => 1
  | _ => 0

/-- In `__impl_mut_lock` and not past the `fetch_add`. -/
def unlisted : Pc → Bool
  | .fast _ => true
  | .first _ => true
  | .add _ => true
  | _ => false

/-- How many operations a thread does by itself while the lock is free, the word stays `w`, and
    it neither acquires nor registers. -/
def freeRank (w : Unsigned) : Pc → ℕ
  | .fast _ => 2
  | .first l => if w = (guess l.val).1 then 1 else 2
  | .spin _ => 2
  | .wait _ => 3
  | .retry _ => 2
  | .unset l => if w = l.val then 1 else 2
  | _ => 0

def ranking (sm w : Unsigned) (p : Pc) : ℕ := if locked w then rank sm w p else freeRank w p

/-- What is left to do before a thread acquires. -/
def toDo (sm : Fin N → Unsigned) (s : St N) : ℕ ×ₗ ℕ ×ₗ ℕ ×ₗ ℕ ×ₗ ℕ :=
  toLex (count holds s.pc, toLex (count isWake s.pc, toLex (∑ t, ahead (s.pc t),
    toLex (count unlisted s.pc, ∑ t, ranking (sm t) s.word (s.pc t)))))

theorem guess_free {w : Unsigned} (hw : locked w = false) : (guess w).1 = w := by
  simp [guess, hw]

/-- With the lock bit clear, an operation but the `fetch_add` acquires or gets its thread further. -/
theorem atomic_freeRank {sm w w' : Unsigned} {p q : Pc} (hp : Ok p) (hw : locked w = false)
    (h : atomic sm w p = some (w', q)) (hadd : ∀ l, p ≠ .add l) (hq : holds q = false) :
    freeRank w q < freeRank w p := by
  by_cases hc : ∃ d, casArgs p = some (w, d)
  · obtain ⟨d, hc⟩ := hc
    rw [atomic_cas hc] at h
    cases h
    cases hq
  have fails : ∀ {exp des}, casArgs p = some (exp, des) → w ≠ exp := fun h' e => hc ⟨_, e ▸ h'⟩
  cases p with
  | out | held | wake | asleep => cases h
  | add l => exact absurd rfl (hadd l)
  | fast mo =>
    rw [atomic_fast_ne (fails rfl)] at h
    cases h
    simp only [freeRank, guess_free hw, if_true]
    omega
  | first l =>
    have hne : w ≠ (guess l.val).1 := fails (show casArgs (.first l) = some ((guess l.val).1, (guess l.val).2) from rfl)
    rw [atomic_first_ne hne] at h
    cases h
    split
    · simp only [freeRank, if_neg hne]; omega
    · simp only [freeRank, if_neg hne, guess_free hw, if_true]; omega
  | spin l =>
    rw [atomic_spin_ne (fails rfl), hw] at h
    cases h
    simp only [Bool.not_false, if_true, freeRank]
    omega
  | wait l =>
    have hval : 2 ^ 31 < l.val.toNat := hp
    have hne : w ≠ l.val := by
      rintro rfl
      rw [not_locked_iff] at hw
      omega
    simp only [atomic, if_neg hne, Option.some.injEq, Prod.mk.injEq] at h
    obtain ⟨-, rfl⟩ := h
    simp only [freeRank]
    omega
  | retry l =>
    rw [atomic_retry_ne (fails rfl), hw] at h
    cases h
    simp only [Bool.not_false, if_true, freeRank]
    omega
  | unset l =>
    have hne : w ≠ l.val := fails (show casArgs (.unset l) = some (l.val, l.val ||| lockbit) from rfl)
    rw [atomic_unset_ne hne, hw] at h
    cases h
    simp only [Bool.false_eq_true, if_false, freeRank, if_true, if_neg hne]
    omega

/-! ## One step -/

/-- A thread is outside, not yet registered, registered, or before its wake call. -/
theorem place_split (p : Pc) : (decide (p = .out)).toNat + (unlisted p).toNat + (registered p).toNat + (isWake p).toNat = 1 := by
  cases p <;> rfl

theorem atomic_in {sm w w' : Unsigned} {p q : Pc} (h : atomic sm w p = some (w', q)) : p ≠ .out ∧ q ≠ .out := by
  cases p <;> simp only [atomic, Option.some.injEq, Prod.mk.injEq, reduceCtorEq] at h <;> obtain ⟨-, rfl⟩ := h <;>
    refine ⟨(fun e => by cases e), ?_⟩ <;> (repeat' split) <;> exact fun e => by cases e

/-- An operation does not lead back before the slow path. -/
theorem atomic_ahead {sm w w' : Unsigned} {p q : Pc} (h : atomic sm w p = some (w', q)) : ahead q = 0 := by
  cases p <;> simp only [atomic, Option.some.injEq, Prod.mk.injEq, reduceCtorEq] at h <;> obtain ⟨-, rfl⟩ := h <;>
    (repeat' split) <;> rfl

section
variable {sm sm' : Fin N → Unsigned} {b : Unsigned} {s s' : St N}

theorem toDo_lt (h : count holds s'.pc < count holds s.pc ∨ count holds s'.pc = count holds s.pc ∧
    (count isWake s'.pc < count isWake s.pc ∨ count isWake s'.pc = count isWake s.pc ∧
    (∑ t, ahead (s'.pc t) < ∑ t, ahead (s.pc t) ∨ ∑ t, ahead (s'.pc t) = ∑ t, ahead (s.pc t) ∧
    (count unlisted s'.pc < count unlisted s.pc ∨ count unlisted s'.pc = count unlisted s.pc ∧
    ∑ t, ranking (sm' t) s'.word (s'.pc t) < ∑ t, ranking (sm t) s.word (s.pc t))))) : toDo sm' s' < toDo sm s := by
  simpa only [toDo, Prod.Lex.toLex_lt_toLex] using h

/-- An operation makes its thread the holder, or lowers what is left to do. The thread reads `spins_max` on its way
    from the compare-exchange of `__impl_mut_lock`, and has its budget from then on. -/
theorem run_descends (hN : N ≤ 2 ^ 31 - 1) (hi : Inv s) {t : Fin N} {w : Unsigned} {q : Pc}
    (ha : atomic b s.word (s.pc t) = some (w, q)) (hb : (∃ mo, s.pc t = .fast mo) ∨ b = sm t) :
    (holds (s.pc t) = false ∧ holds q = true) ∨
      toDo (Function.update sm t b) ⟨w, Function.update s.pc t q⟩ < toDo sm s := by
  obtain ⟨hwp, hwq, -⟩ := atomic_wake ha
  obtain ⟨hop, hoq⟩ := atomic_in ha
  have hp := place_split (s.pc t)
  have hq := place_split q
  simp only [hwp, hop, hwq, hoq, decide_false, Bool.toNat_false, add_zero, zero_add] at hp hq
  have hwake := count_update_eq (p := isWake) (f := s.pc) (i := t) (v := q) (hwq.trans hwp.symm)
  by_cases hfast : ∃ mo, s.pc t = .fast mo
  · -- it comes in, or leaves the fast path
    obtain ⟨mo, hmo⟩ := hfast
    cases hh : holds q with
    | true => exact Or.inl ⟨by rw [hmo]; rfl, rfl⟩
    | false =>
      have hholds := count_update_eq (p := holds) (f := s.pc) (i := t) (v := q) (by rw [hh, hmo]; rfl)
      have hlt : ∑ u, ahead (Function.update s.pc t q u) < ∑ u, ahead (s.pc u) :=
        sum_update_lt (by rw [atomic_ahead ha, hmo]; exact Nat.one_pos)
      exact Or.inr (toDo_lt (Or.inr ⟨hholds, Or.inr ⟨hwake, Or.inl hlt⟩⟩))
  obtain rfl : b = sm t := hb.resolve_left hfast
  rw [Function.update_eq_self]
  have hahead : ∑ u, ahead (Function.update s.pc t q u) = ∑ u, ahead (s.pc u) := by
    refine sum_update_eq ?_
    rw [atomic_ahead ha]
    cases hpc : s.pc t with
    | out => exact absurd hpc hop
    | fast mo => exact absurd ⟨mo, hpc⟩ hfast
    | _ => rfl
  cases atomic_effect (hi.ok t) (hi.seen hN) ha with
  | take hh hw => exact Or.inl ⟨hh, rfl⟩
  | enlist l q hl hh hr =>
    have hholds := count_update_eq (p := holds) (f := s.pc) (i := t) (v := q) (hh.trans (by rw [hl]; rfl))
    have hun := count_update (p := unlisted) (f := s.pc) t q
    rw [hr] at hq
    rw [hl] at hun
    simp only [Bool.toNat_true] at hq
    have hlist : (unlisted (.add l)).toNat = 1 := rfl
    exact Or.inr (toDo_lt (Or.inr ⟨hholds, Or.inr ⟨hwake, Or.inr ⟨hahead, Or.inl (by simp only; omega)⟩⟩⟩))
  | keep q hh hh' hr hok =>
    have hholds := count_update_eq (p := holds) (f := s.pc) (i := t) (v := q) (hh'.trans hh.symm)
    have hun := count_update (p := unlisted) (f := s.pc) t q
    rw [hr] at hq
    refine Or.inr (toDo_lt (Or.inr ⟨hholds, Or.inr ⟨hwake, Or.inr ⟨hahead, Or.inr ⟨by simp only; omega, ?_⟩⟩⟩⟩))
    have hadd : ∀ l, s.pc t ≠ .add l := by
      -- the `fetch_add` registers its thread
      intro l hl
      rw [hl] at ha hr
      simp only [atomic, Option.some.injEq, Prod.mk.injEq] at ha
      obtain ⟨-, rfl⟩ := ha
      split at hr <;> cases hr
    have hrank : ranking (sm t) s.word q < ranking (sm t) s.word (s.pc t) := by
      unfold ranking
      cases hl : locked s.word with
      | true => simpa using (atomic_rank (hi.ok t) hl ha hadd).2
      | false => simpa using atomic_freeRank (hi.ok t) hl ha hadd hh'
    refine Finset.sum_lt_sum (fun u _ => ?_) ⟨t, Finset.mem_univ t, by simpa using hrank⟩
    show ranking (sm u) s.word (Function.update s.pc t q u) ≤ ranking (sm u) s.word (s.pc u)
    by_cases e : u = t
    · subst e; simpa using hrank.le
    · rw [Function.update_of_ne e]

variable (sm) in
/-- A step that is no spurious return makes a thread the holder, or lowers what is left to do. -/
theorem descends (hN : N ≤ 2 ^ 31 - 1) (hi : Inv s) {e : Ev N} (he : ∀ t, e ≠ .spurious t)
    (hs : step b s e = some s') (hb : (∃ mo, s.pc e.tid = .fast mo) ∨ b = sm e.tid) :
    (∃ t, holds (s.pc t) = false ∧ holds (s'.pc t) = true) ∨ toDo (Function.update sm e.tid b) s' < toDo sm s := by
  cases step_moves hs with
  | lock t mo ht =>
    have h1 := count_update_eq (p := holds) (f := s.pc) (i := t) (v := .fast mo) (by rw [ht]; rfl)
    have h2 := count_update_eq (p := isWake) (f := s.pc) (i := t) (v := .fast mo) (by rw [ht]; rfl)
    have h3 : ∑ u, ahead (Function.update s.pc t (.fast mo) u) < ∑ u, ahead (s.pc u) :=
      sum_update_lt (by rw [ht]; exact Nat.one_lt_two)
    exact Or.inr (toDo_lt (Or.inr ⟨h1, Or.inr ⟨h2, Or.inl h3⟩⟩))
  | run t w q ha =>
    rcases run_descends hN hi ha hb with ⟨hb, hq⟩ | hlt
    · exact Or.inl ⟨t, hb, by simpa using hq⟩
    · exact Or.inr hlt
  | spurious t q hq => exact absurd rfl (he t)
  | unlock t mo ht =>
    have hq : holds (afterSub s.word) = false := by unfold afterSub; split <;> rfl
    have h1 := count_update (p := holds) (f := s.pc) t (afterSub s.word)
    rw [ht, hq] at h1
    simp only [holds_held, Bool.toNat_true, Bool.toNat_false] at h1
    exact Or.inr (toDo_lt (Or.inl (by simp only; omega)))
  | wakeOne t u l ht hu =>
    have hne : u ≠ t := by intro e; subst e; rw [ht] at hu; cases hu
    have hu' : (goto s t .out).pc u = .asleep l := by rw [goto_pc, Function.update_of_ne hne, hu]
    obtain ⟨-, hwake⟩ := wake_counts ht
    have h1 := count_update_eq (p := holds) (f := s.pc) (i := t) (v := .out) (by rw [ht]; rfl)
    have h2 := count_update_eq (p := holds) (f := (goto s t .out).pc) (i := u) (v := .retry l) (by rw [hu']; rfl)
    have h3 := count_update_eq (p := isWake) (f := (goto s t .out).pc) (i := u) (v := .retry l) (by rw [hu']; rfl)
    exact Or.inr (toDo_lt (Or.inr ⟨h2.trans h1, Or.inl (by rw [goto_pc, h3]; omega)⟩))
  | wakeNone t ht =>
    obtain ⟨-, hwake⟩ := wake_counts ht
    have h1 := count_update_eq (p := holds) (f := s.pc) (i := t) (v := .out) (by rw [ht]; rfl)
    exact Or.inr (toDo_lt (Or.inr ⟨h1, Or.inl (by omega)⟩))

end

/-! ## Some step is left -/

section
variable {sm : Unsigned} {s s' : St N} {t : Fin N}

theorem wake_steps (ht : s.pc t = .wake) : ∃ u s', step sm s (.wake t u) = some s' := by
  by_cases hex : ∃ u, isAsleep (s.pc u) = true
  · obtain ⟨u, hu⟩ := hex
    obtain ⟨l, hl⟩ := isAsleep_iff.mp hu
    exact ⟨some u, _, by simp only [step, ht, hl, isAsleep, resumeWait, and_self, if_true, Option.map_some]; rfl⟩
  · have hnone : ∀ u, isAsleep (s.pc u) = false := by simpa using hex
    exact ⟨none, _, by simp only [step, ht, hnone, implies_true, and_self, if_true]; rfl⟩

theorem contends_of_awake {p : Pc} (h : awake p = true) : contends p = true := by
  cases p <;> first | exact h | rfl

theorem contends_steps (ht : contends (s.pc t) = true) : ∃ s', step sm s (.run t) = some s' := by
  cases hp : s.pc t with
  | out | asleep | held | wake => rw [hp] at ht; cases ht
  | _ => exact ⟨_, by simp only [step, hp, atomic, Option.map_some]; rfl⟩

/-- With a thread inside, a thread holds the lock, or an operation or a wake call is left to do. -/
theorem live (hN : N ≤ 2 ^ 31 - 1) (hi : Inv s) (hw : Watched s) (ht : s.pc t ≠ .out) :
    (∃ u, s.pc u = .held) ∨ (∃ u, contends (s.pc u) = true) ∨ ∃ u, s.pc u = .wake := by
  cases hp : s.pc t with
  | out => exact absurd hp ht
  | held => exact Or.inl ⟨t, hp⟩
  | wake => exact Or.inr (Or.inr ⟨t, hp⟩)
  | asleep l =>
    cases hl : locked s.word with
    | true =>
      obtain ⟨u, hu⟩ := (hi.locked_iff_held hN).mp hl
      exact Or.inl ⟨u, holds_iff.mp hu⟩
    | false =>
      -- a sleeper at a free lock is watched
      have hpos := hw hl (count_pos.mpr ⟨t, by rw [hp]; rfl⟩)
      by_cases hwk : ∃ u, isWake (s.pc u) = true
      · obtain ⟨u, hu⟩ := hwk
        exact Or.inr (Or.inr ⟨u, isWake_iff.mp hu⟩)
      · have hzero : count isWake s.pc = 0 := count_eq_zero.mpr fun u => by
          simpa using fun hu => hwk ⟨u, hu⟩
        obtain ⟨u, hu⟩ := count_pos.mp (show 0 < count awake s.pc by omega)
        exact Or.inr (Or.inl ⟨u, contends_of_awake hu⟩)
  | _ => exact Or.inr (Or.inl ⟨t, by rw [hp]; rfl⟩)

theorem word_free (hi : Inv s) (hr : ∀ t, registered (s.pc t) = false) : s.word = 0 := by
  have h1 := hi.word
  have h2 := count_eq_zero.mpr hr
  have h3 := holds_le_registered s.pc
  exact BitVec.eq_of_toNat_eq (by simp; omega)

/-! ## Runs -/

def Takes (s s' : St N) : Prop := ∃ t, holds (s.pc t) = false ∧ holds (s'.pc t) = true

theorem take_run {e : Ev N} (hs : step sm s e = some s') (hb : holds (s.pc t) = false) (ha : holds (s'.pc t) = true) :
    ∃ w, e = .run t ∧ atomic sm s.word (s.pc t) = some (w, .held) := by
  have ht : t = e.tid := by
    by_contra hne
    rw [step_holds_other hs hne, hb] at ha
    cases ha
  subst ht
  cases step_moves hs with
  | lock t mo ht => simp [Ev.tid, holds] at ha
  | run t w q hq =>
    obtain rfl : q = .held := holds_iff.mp (by simpa [Ev.tid] using ha)
    exact ⟨w, rfl, hq⟩
  | spurious t q hq =>
    have hh := (resumeWait_spec hq).2.1
    simp [Ev.tid, hh] at ha
  | unlock t mo ht => simp [Ev.tid, ht] at hb
  | wakeOne t u l ht hu =>
    have hne : t ≠ u := by intro e; subst e; rw [ht] at hu; cases hu
    simp [Ev.tid, Function.update_of_ne hne, holds] at ha
  | wakeNone t ht => simp [Ev.tid, holds] at ha

/-- A step that is not a spurious return takes the lock, or leaves less to do before a take. -/
theorem takes_or_descends (hN : N ≤ 2 ^ 31 - 1) (hr : (sys N sm).Reach s) {e : Ev N} (he : ∀ t, e ≠ .spurious t)
    (hs : step sm s e = some s') : Takes s s' ∨ toDo (fun _ => sm) s' < toDo (fun _ => sm) s := by
  have h := descends (fun _ => sm) hN (inv hN hr) he hs (Or.inr rfl)
  rwa [Function.update_eq_self] at h

def waiting : Pc → Bool
  | .out => false
  | .held => false
  | .wake => false
  | _ => true

theorem atomic_waiting {w : Unsigned} {p : Pc} {r : Unsigned × Pc} (h : atomic sm w p = some r) : waiting p = true := by
  cases p <;> first | rfl | cases h

theorem resume_waiting {p q : Pc} (h : resumeWait p = some q) : waiting p = true := by
  cases p <;> first | rfl | cases h

theorem waiting_before {e : Ev N} (hs : step sm s e = some s') (he : ∀ t mo, e ≠ .lock t mo) {u : Fin N}
    (hu : waiting (s'.pc u) = true) : waiting (s.pc u) = true := by
  have move : ∀ {f : Fin N → Pc} {t : Fin N} {q : Pc}, (waiting q = true → waiting (f t) = true) →
      waiting (Function.update f t q u) = true → waiting (f u) = true := by
    intro f t q hq h
    by_cases e : u = t
    · subst e; exact hq (by simpa using h)
    · rwa [Function.update_of_ne e] at h
  cases step_moves hs with
  | lock t mo ht => exact absurd rfl (he t mo)
  | run t w q ha => exact move (fun _ => atomic_waiting ha) hu
  | spurious t q hq => exact move (fun _ => resume_waiting hq) hu
  | unlock t mo ht => exact move (fun h => by unfold afterSub at h; split at h <;> cases h) hu
  | wakeOne t v l ht hv =>
    have hne : v ≠ t := by intro e; subst e; rw [ht] at hv; cases hv
    have h1 := move (f := (goto s t .out).pc) (t := v) (fun _ => by rw [goto_pc, Function.update_of_ne hne, hv]; rfl) hu
    exact move (fun h => by cases h) h1
  | wakeNone t ht => exact move (fun h => by cases h) hu

/-- A thread that acquires waited, and waits no more. -/
theorem takes_waiting {e : Ev N} (hs : step sm s e = some s') (h : Takes s s') :
    ∃ t, waiting (s.pc t) = true ∧ waiting (s'.pc t) = false := by
  obtain ⟨t, hb, ha⟩ := h
  obtain ⟨w, -, hw⟩ := take_run hs hb ha
  exact ⟨t, atomic_waiting hw, by rw [holds_iff.mp ha]; rfl⟩

end

/-- Any number of threads up to the capacity, any schedule, any spin budget: a run that goes on for ever, with finitely
    many spurious returns, takes the lock infinitely often. -/
theorem takes_go_on (N : ℕ) (hN : N ≤ 2 ^ 31 - 1) (sm : Unsigned) (x : ℕ → St N) (e : ℕ → Ev N)
    (h0 : (sys N sm).Reach (x 0)) (hx : ∀ i, step sm (x i) (e i) = some (x (i + 1))) (n : ℕ)
    (hsp : ∀ i, n ≤ i → ∀ t, e i ≠ .spurious t) (i : ℕ) : ∃ j, i ≤ j ∧ Takes (x j) (x (j + 1)) :=
  Lts.infinitely_often (toDo fun _ => sm) (fun j hj => takes_or_descends hN (h0.path hx j) (hsp j hj) (hx j)) i

/-- A round of two threads: the second goes to sleep while the first has the lock, and takes it when woken. -/
def turnEvs : List (Ev 2) :=
  let t := ⟨0, Nat.two_pos⟩
  let u := ⟨1, Nat.one_lt_two⟩
  [.lock t .seqCst, .run t, .lock u .seqCst, .run u, .run u, .run u, .run u, .run u, .unlock t .seqCst, .wake t (some u),
    .run u, .unlock u .seqCst]

def turnEv (j : Fin 12) : Ev 2 := turnEvs.get j

def turn (j : Fin 12) : St 2 := (Lts.Sys.runList (step 1) init (turnEvs.take j)).getD init

theorem turn_next : ∀ j : Fin 12, step 1 (turn j) (turnEv j) = some (turn (j + 1)) := by decide

theorem turns (i : ℕ) : step 1 (turn (Fin.ofNat 12 i)) (turnEv (Fin.ofNat 12 i)) = some (turn (Fin.ofNat 12 (i + 1))) := by
  have hsucc : Fin.ofNat 12 (i + 1) = Fin.ofNat 12 i + 1 := Fin.ext (by simp [Fin.ofNat, Fin.val_add])
  rw [hsucc]
  exact turn_next _

theorem turn_loud : ∀ (j : Fin 12) (t : Fin 2), turnEv j ≠ .spurious t := by decide

theorem turns_take : ∃ j, 5 ≤ j ∧ Takes (turn (Fin.ofNat 12 j)) (turn (Fin.ofNat 12 (j + 1))) :=
  takes_go_on 2 (by decide) 1 (fun i => turn (Fin.ofNat 12 i)) (fun i => turnEv (Fin.ofNat 12 i)) (.init rfl) turns 0
    (fun _ _ t => turn_loud _ t) 5

/-- From any reachable state, once there are no more calls and no spurious returns, every schedule comes to an
    end; and the only state in which no step is left is the initial one: all threads outside, the word 0. -/
theorem calls_drain (N : ℕ) (hN : N ≤ 2 ^ 31 - 1) (sm : Unsigned) :
    (∀ (x : ℕ → St N) (e : ℕ → Ev N), (sys N sm).Reach (x 0) →
      ¬ ∀ i, (∀ t mo, e i ≠ .lock t mo) ∧ (∀ t, e i ≠ .spurious t) ∧ step sm (x i) (e i) = some (x (i + 1))) ∧
    ∀ s, (sys N sm).Reach s →
      (∀ e s', (∀ t mo, e ≠ .lock t mo) → (∀ t, e ≠ .spurious t) → step sm s e ≠ some s') →
      s = init := by
  refine ⟨fun x e h0 hx => ?_, fun s hs hstuck => ?_⟩
  · refine Lts.finitely_lowered (m := fun i => count waiting (x i).pc)
      (fun i => count_le_of fun u hu => waiting_before (hx i).2.2 (hx i).1 hu) fun i => ?_
    obtain ⟨j, hj, ht⟩ := Lts.infinitely_often (n := 0) (toDo fun _ => sm)
      (fun j _ => takes_or_descends hN (h0.path (fun i => (hx i).2.2) j) (hx j).2.1 (hx j).2.2) i
    obtain ⟨t, hb, ha⟩ := takes_waiting (hx j).2.2 ht
    exact ⟨j, hj, count_lt_of (fun u hu => waiting_before (hx j).2.2 (hx j).1 hu) hb ha⟩
  · have hunlock : ∀ u, s.pc u ≠ .held := fun u hu =>
      hstuck (.unlock u .seqCst) _ nofun nofun (by simp only [step, hu, if_true]; rfl)
    have hout : ∀ t, s.pc t = .out := by
      intro t
      by_contra ht
      rcases live hN (inv hN hs) (watched hN hs) ht with ⟨u, hu⟩ | ⟨u, hu⟩ | ⟨u, hu⟩
      · exact hunlock u hu
      · obtain ⟨s', hs'⟩ : ∃ s', step sm s (.run u) = some s' := contends_steps hu
        exact hstuck _ s' (fun _ _ e => by cases e) (fun _ e => by cases e) hs'
      · obtain ⟨v, s', hs'⟩ : ∃ v s', step sm s (.wake u v) = some s' := wake_steps hu
        exact hstuck _ s' (fun _ _ e => by cases e) (fun _ e => by cases e) hs'
    have hword := word_free (inv hN hs) fun t => by rw [hout t]; rfl
    cases s
    exact congr (congrArg St.mk hword) (funext hout)

theorem turns_call : ¬ ∀ i, (∀ t mo, turnEv (Fin.ofNat 12 i) ≠ .lock t mo) ∧ (∀ t, turnEv (Fin.ofNat 12 i) ≠ .spurious t) ∧
    step 1 (turn (Fin.ofNat 12 i)) (turnEv (Fin.ofNat 12 i)) = some (turn (Fin.ofNat 12 (i + 1))) :=
  (calls_drain 2 (by decide) 1).1 (fun i => turn (Fin.ofNat 12 i)) (fun i => turnEv (Fin.ofNat 12 i)) (.init rfl)

end Stdatomic.Futex
