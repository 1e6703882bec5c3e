/-
  Stdatomic.Futex.Globals — the global statistics of the futex lock with `BENCH` defined,
  under concurrency.

  `__impl_mut_lock_slow` counts in variables of its own and adds these to the globals at
  `FINISH`, where it holds the lock. `__impl_mut_unlock_slow` adds to `g_slow_wake` when it
  holds it no longer. An addition is a load and a store (`Tally`); while a thread makes some,
  it takes no step of the lock.

  With one lock, as the comment at `FINISH` says, these additions are fine: no two threads
  are at them at once and nothing is lost, so the statistics are those of the calls that
  finished, and with no call under way they count the `FUTEX_WAIT`s made. `g_slow_wake` is
  not fine: it is at most the number of `FUTEX_WAKE`s, and can be less.

  Counters are natural numbers: before `size_t` wraps around.
-/

import Stdatomic.Futex.Bench
import Stdatomic.Futex.Invariant
import Stdatomic.Lib.Tally

namespace Stdatomic.Futex

open Family

/-! ## Runs -/

inductive Global where
  | total
  | slow
  | futex
  | wouldblock
  | spin
  | slowWake
  deriving DecidableEq, Repr

def finishAdds (c : Counters) : List (Global × ℕ) :=
  [(.total, 1), (.slow, c.slow), (.futex, c.futex), (.wouldblock, c.wouldblock), (.spin, c.spin)]

def wakeAdds : List (Global × ℕ) := [(.slowWake, 1)]

/-- The counters and globals are those before `size_t` wraps around. -/
structure BenchSt (N : ℕ) where
  lock : St N
  /-- `slow`, `futex`, `wouldblock` and `spin` of each thread's call. -/
  locals : Fin N → Counters
  tally : Tally.St (Fin N) Global ℕ
  /-- Ghost: the counters of the calls of the slow path that took the lock. -/
  finished : List Counters
  /-- Ghost: the `FUTEX_WAIT`s made, and those of them that failed with EWOULDBLOCK. -/
  waits : ℕ
  failed : ℕ
  /-- Ghost: the `FUTEX_WAKE`s made. -/
  wakes : ℕ

inductive BenchEv (N : ℕ) where
  | lock (e : Ev N)
  | account (t : Fin N)

def inSlow : Pc → Bool
  | .first _ => true
  | .add _ => true
  | .spin _ => true
  | .wait _ => true
  | .asleep _ => true
  | .retry _ => true
  | .unset _ => true
  | _ => false

def waitsAt : Pc → ℕ
  | .wait _ => 1
  | _ => 0

def failsAt (w : Unsigned) : Pc → ℕ
  | .wait l => if w = l.val then 0 else 1
  | _ => 0

/-- The counters of a call after its next operation on the word `w`; the call starts with a compare-exchange
    of `__impl_mut_lock` that fails. -/
def nextCounters (sm w : Unsigned) (c : Counters) (p : Pc) : Counters :=
  if inSlow p then c.add (account sm w p) else .zero

section
variable {N : ℕ} (sm : Unsigned)

/-- The operation of `t`, with the lock as it leaves it. -/
def BenchSt.count (s : BenchSt N) (t : Fin N) (l : St N) : BenchSt N :=
  { s with
    lock := l
    locals := Function.update s.locals t (nextCounters sm s.lock.word (s.locals t) (s.lock.pc t))
    waits := s.waits + waitsAt (s.lock.pc t)
    failed := s.failed + failsAt s.lock.word (s.lock.pc t) }

def BenchSt.finish (s : BenchSt N) (t : Fin N) : BenchSt N :=
  { s with tally := s.tally.issue t (finishAdds (s.locals t)), finished := s.finished ++ [s.locals t] }

def BenchSt.run (s : BenchSt N) (t : Fin N) (l : St N) : BenchSt N :=
  if inSlow (s.lock.pc t) && holds (l.pc t) then (s.count sm t l).finish t else s.count sm t l

def BenchSt.move (s : BenchSt N) (l : St N) : Ev N → BenchSt N
  | .run t => s.run sm t l
  | .spurious t =>
    { s with
      lock := l
      locals := Function.update s.locals t ((s.locals t).add (accountResume (s.lock.pc t)))
      waits := s.waits + waitsAt (s.lock.pc t) }
  | .wake t _ => { s with lock := l, tally := s.tally.issue t wakeAdds, wakes := s.wakes + 1 }
  | _ => { s with lock := l }

def benchStep (s : BenchSt N) : BenchEv N → Option (BenchSt N)
  | .lock e =>
    if (s.tally.job e.tid).todo = [] then (step sm s.lock e).map fun l => s.move sm l e else none
  | .account t => (Tally.step s.tally (.run t)).map fun g => { s with tally := g }

def benchInit : BenchSt N := ⟨init, fun _ => .zero, Tally.start, [], 0, 0, 0⟩

variable (N) in
def benchSys : Lts.Sys (BenchSt N) (BenchEv N) where
  init s := s = benchInit
  step s e s' := benchStep sm s e = some s'

end

/-! ## The lock underneath -/

section
variable {N : ℕ} {sm : Unsigned} {s s' : BenchSt N}

theorem run_lock (s : BenchSt N) (t : Fin N) (l : St N) : (s.run sm t l).lock = l := by
  unfold BenchSt.run
  split <;> rfl

theorem move_lock (s : BenchSt N) (l : St N) (e : Ev N) : (s.move sm l e).lock = l := by
  cases e with
  | run t => exact run_lock s t l
  | lock | spurious | unlock | wake => rfl

/-- A step is one of the lock by a thread with no additions to make, or one of an addition. -/
theorem benchStep_cases {e : BenchEv N} (hs : benchStep sm s e = some s') :
    (∃ f l, e = .lock f ∧ (s.tally.job f.tid).todo = [] ∧ step sm s.lock f = some l ∧ s' = s.move sm l f) ∨
      ∃ t g, e = .account t ∧ Tally.step s.tally (.run t) = some g ∧ s' = { s with tally := g } := by
  cases e with
  | lock f =>
    simp only [benchStep] at hs
    split at hs
    · rename_i hidle
      obtain ⟨l, hl, rfl⟩ := Option.map_eq_some_iff.mp hs
      exact Or.inl ⟨f, l, rfl, hidle, hl, rfl⟩
    · cases hs
  | account t =>
    obtain ⟨g, hg, rfl⟩ := Option.map_eq_some_iff.mp hs
    exact Or.inr ⟨t, g, rfl, hg, rfl⟩

/-- Accounting does not disturb the lock. -/
theorem bench_lock (hs : (benchSys N sm).Reach s) : (sys N sm).Reach s.lock := by
  induction hs with
  | init h =>
    rw [show _ = benchInit from h]
    exact .init rfl
  | step e _ hst ih =>
    rcases benchStep_cases hst with ⟨f, l, -, -, hl, rfl⟩ | ⟨t, g, -, -, rfl⟩
    · rw [move_lock]
      exact .step f ih hl
    · exact ih

/-! ## Who adds -/

/-- A thread adds at `FINISH`, with the lock, or after its `FUTEX_WAKE`, outside. -/
def Placed (s : BenchSt N) : Prop :=
  ∀ t v, Tally.Owes v (s.tally.job t) → s.lock.pc t = if v = .slowWake then .out else .held

theorem owes_idle {t : Fin N} {v : Global} (h : (s.tally.job t).todo = []) : ¬ Tally.Owes v (s.tally.job t) := by
  simp [Tally.Owes, h]

/-- A step of the lock moves a thread only if it is its own or the thread sleeps. -/
theorem step_place {l l' : St N} {e : Ev N} (hs : step sm l e = some l') {u : Fin N} (hu : u ≠ e.tid) :
    l'.pc u = l.pc u ∨ isAsleep (l.pc u) = true := by
  cases step_moves hs with
  | lock t mo | run t w q | spurious t q | unlock t mo => exact Or.inl (Function.update_of_ne hu _ _)
  | wakeOne t v l ht hv =>
    by_cases e : u = v
    · subst e
      exact Or.inr (by rw [hv]; rfl)
    · refine Or.inl ?_
      simp only [goto_pc]
      rw [Function.update_of_ne e]
      exact Function.update_of_ne hu _ _
  | wakeNone t => exact Or.inl (Function.update_of_ne hu _ _)

/-- A thread with additions to make stays where it is. -/
theorem placed_others {t : Fin N} {e : Ev N} {l : St N} (hi : Placed s) (hs : step sm s.lock e = some l) (ht : t ≠ e.tid)
    {v : Global} (hv : Tally.Owes v (s.tally.job t)) : l.pc t = if v = .slowWake then .out else .held := by
  have hplace := hi t v hv
  rcases step_place hs ht with h | h
  · rw [h, hplace]
  · rw [hplace] at h
    split at h <;> cases h

variable (sm) in
/-- The additions that a step of the lock issues. -/
theorem move_job (s : BenchSt N) (l : St N) (e : Ev N) (t : Fin N) :
    (s.move sm l e).tally.job t = s.tally.job t ∨ t = e.tid ∧
      ((∃ c, (s.move sm l e).tally.job t = ⟨finishAdds c, none⟩) ∧ l.pc t = .held ∨
        (s.move sm l e).tally.job t = ⟨wakeAdds, none⟩ ∧ ∃ u, e = .wake t u) := by
  cases e with
  | lock | spurious | unlock => exact Or.inl rfl
  | run u =>
    simp only [BenchSt.move, BenchSt.run]
    split
    · rename_i hfin
      by_cases e : t = u
      · subst e
        exact Or.inr ⟨rfl, Or.inl ⟨⟨_, Function.update_self ..⟩, holds_iff.mp (Bool.and_eq_true_iff.mp hfin).2⟩⟩
      · exact Or.inl (Function.update_of_ne e _ _)
    · exact Or.inl rfl
  | wake u v =>
    by_cases e : t = u
    · subst e
      exact Or.inr ⟨rfl, Or.inr ⟨Function.update_self .., v, rfl⟩⟩
    · exact Or.inl (Function.update_of_ne e _ _)

theorem wake_out {l l' : St N} {t : Fin N} {u : Option (Fin N)} (hs : step sm l (.wake t u) = some l') :
    l'.pc t = .out := by
  cases step_moves hs with
  | wakeOne t v k ht hv =>
    have hne : t ≠ v := by intro e; subst e; rw [ht] at hv; cases hv
    simp only [goto_pc]
    rw [Function.update_of_ne hne, Function.update_self]
  | wakeNone t => exact Function.update_self ..

theorem step_placed {e : BenchEv N} (hi : Placed s) (hs : benchStep sm s e = some s') : Placed s' := by
  intro t v hv
  rcases benchStep_cases hs with ⟨f, l, rfl, hidle, hl, rfl⟩ | ⟨u, g, rfl, hg, rfl⟩
  · rw [move_lock]
    rcases move_job sm s l f t with hsame | ⟨rfl, ⟨⟨c, hc⟩, hheld⟩ | ⟨hw, u, hf⟩⟩
    · rw [hsame] at hv
      by_cases e : t = f.tid
      · subst e
        exact absurd hv (owes_idle hidle)
      · exact placed_others hi hl e hv
    · rw [hc] at hv
      rw [hheld, if_neg]
      rintro rfl
      simp [Tally.Owes, finishAdds] at hv
    · rw [hw] at hv
      obtain rfl : v = .slowWake := by simpa [Tally.Owes, wakeAdds] using hv
      rw [hf] at hl
      exact wake_out hl
  · exact hi t v (Tally.owes_run hg hv)

theorem bench_placed (hs : (benchSys N sm).Reach s) : Placed s := by
  refine hs.inv (I := Placed) (fun s h0 => ?_) fun s e s' _ hi hst => step_placed hi hst
  obtain rfl : s = benchInit := h0
  intro t v hv
  simp [Tally.Owes, benchInit, Tally.start, Tally.idle] at hv

/-- The additions at `FINISH` are made by one thread at a time. -/
theorem adds_alone (hN : N ≤ 2 ^ 31 - 1) (hs : (benchSys N sm).Reach s) {t u : Fin N} {v v' : Global}
    (hv : v ≠ .slowWake) (hv' : v' ≠ .slowWake) (ht : Tally.Owes v (s.tally.job t)) (hu : Tally.Owes v' (s.tally.job u)) :
    t = u := by
  have htheld := bench_placed hs t v ht
  have huheld := bench_placed hs u v' hu
  rw [if_neg hv] at htheld
  rw [if_neg hv'] at huheld
  exact eq_of_count_le_one (inv hN (bench_lock hs)).one (holds_iff.mpr htheld) (holds_iff.mpr huheld)

/-! ## The additions underneath -/

def tallyLabel (s : BenchSt N) : BenchEv N → BenchSt N → Option (Tally.Ev (Fin N) Global ℕ)
  | .lock (.run t), s' =>
    if inSlow (s.lock.pc t) && holds (s'.lock.pc t) then some (.issue t (finishAdds (s'.locals t))) else none
  | .lock (.wake t _), _ => some (.issue t wakeAdds)
  | .lock _, _ => none
  | .account t, _ => some (.run t)

theorem issue_step {t : Fin N} {l : List (Global × ℕ)} (h : (s.tally.job t).todo = []) :
    Tally.step s.tally (.issue t l) = some (s.tally.issue t l) := by
  simp only [Tally.step, h, if_true]

theorem bench_tally (hN : N ≤ 2 ^ 31 - 1) (sm : Unsigned) {v : Global} (hv : v ≠ .slowWake) :
    Lts.Sys.Sim (benchSys N sm) ((Tally.sys (Fin N) Global ℕ).restrict fun g _ => Tally.Alone v g)
      (fun s g => g = s.tally) tallyLabel := by
  refine .of_stepOf (fun s h0 => ⟨_, rfl, by rw [show s = benchInit from h0]; rfl⟩) fun s e s' g hr hR hs => ?_
  subst hR
  have halone : Tally.Alone v s.tally := fun t u ht hu => adds_alone hN hr hv hv ht hu
  refine ⟨_, ?_, rfl⟩
  rcases benchStep_cases hs with ⟨f, l, rfl, hidle, hl, rfl⟩ | ⟨u, g, rfl, hg, rfl⟩
  · cases f with
    | lock | spurious | unlock => rfl
    | wake t u => exact ⟨halone, issue_step hidle⟩
    | run t =>
      simp only [tallyLabel, move_lock]
      split
      · rename_i hfin
        have hmove : s.move sm l (.run t) = (s.count sm t l).finish t := if_pos hfin
        rw [hmove]
        exact ⟨halone, issue_step hidle⟩
      · rename_i hfin
        have hmove : s.move sm l (.run t) = s.count sm t l := if_neg hfin
        rw [hmove]
        rfl
  · exact ⟨halone, hg⟩

/-! ## What is issued -/

def credit (s : BenchSt N) : Global → ℕ
  | .total => s.finished.length
  | .slow => (s.finished.map Counters.slow).sum
  | .futex => (s.finished.map Counters.futex).sum
  | .wouldblock => (s.finished.map Counters.wouldblock).sum
  | .spin => (s.finished.map Counters.spin).sum
  | .slowWake => s.wakes

theorem bench_credit (hs : (benchSys N sm).Reach s) : ∀ v, s.tally.issued v = credit s v := by
  refine hs.inv (I := fun s => ∀ v, s.tally.issued v = credit s v) (fun s h0 v => ?_) fun s e s' _ hi hst v => ?_
  · obtain rfl : s = benchInit := h0
    cases v <;> rfl
  · rcases benchStep_cases hst with ⟨f, l, rfl, -, -, rfl⟩ | ⟨u, g, rfl, hg, rfl⟩
    · cases f with
      | lock | spurious | unlock => exact hi v
      | wake t u =>
        show s.tally.issued v + Tally.amount v wakeAdds = _
        rw [hi v]
        cases v <;> simp [credit, BenchSt.move, Tally.amount, wakeAdds]
      | run t =>
        simp only [BenchSt.move, BenchSt.run]
        split
        · show s.tally.issued v + Tally.amount v (finishAdds _) = _
          rw [hi v]
          cases v <;> simp [credit, BenchSt.finish, BenchSt.count, Tally.amount, finishAdds]
        · exact hi v
    · have hissued : g.issued = s.tally.issued := by cases Tally.step_moves hg <;> rfl
      show g.issued v = credit s v
      rw [hissued, hi v]

/-! ## What the calls count -/

structure LocalOk (p : Pc) (c : Counters) : Prop where
  wouldblock : c.wouldblock ≤ c.futex
  slow : p = .held ∨ (∃ l, p = .unset l) → 1 ≤ c.slow

/-- Each way to the lock or to `BIT_UNSET` accounts to `slow`. -/
theorem count_ok {w w' : Unsigned} {p q : Pc} {c : Counters} (hp : inSlow p = true) (hc : LocalOk p c)
    (h : atomic sm w p = some (w', q)) : LocalOk q (c.add (account sm w p)) := by
  have hslow := hc.slow
  refine ⟨?_, fun hq => ?_⟩
  · have := hc.wouldblock
    have hle : (account sm w p).wouldblock ≤ (account sm w p).futex := by
      cases p <;> simp only [account] <;> (try split) <;> (try split) <;> simp [spinAndSlow, Counters.zero]
    simp only [Counters.add]
    omega
  · show 1 ≤ c.slow + (account sm w p).slow
    cases p with
    | out | fast | held | wake => cases hp
    | asleep l => cases h
    | wait l =>
      simp only [atomic, Option.some.injEq, Prod.mk.injEq] at h
      obtain ⟨-, rfl⟩ := h
      split at hq <;> simp at hq
    | unset l => exact Nat.le_add_right_of_le (hslow (Or.inr ⟨l, rfl⟩))
    | first l =>
      simp only [atomic, Option.some.injEq, Prod.mk.injEq] at h
      obtain ⟨-, rfl⟩ := h
      simp only [account]
      split at hq
      · rename_i hok
        rw [if_pos hok]
        exact Nat.le_add_left 1 _
      · split at hq <;> simp at hq
    | add l =>
      simp only [atomic, Option.some.injEq, Prod.mk.injEq] at h
      obtain ⟨-, rfl⟩ := h
      simp only [account]
      split at hq
      · simp at hq
      · rename_i hl
        rw [if_neg hl]
        exact Nat.le_add_left 1 _
    | spin l | retry l =>
      simp only [atomic, Option.some.injEq, Prod.mk.injEq] at h
      obtain ⟨-, rfl⟩ := h
      simp only [account]
      split at hq
      · rename_i hok
        rw [if_pos hok]
        exact Nat.le_add_left 1 _
      · rename_i hok
        split at hq
        · rename_i hl
          rw [if_neg hok, if_pos hl]
          exact Nat.le_add_left 1 _
        · first | (split at hq <;> simp at hq) | simp at hq

def underway (f : Counters → ℕ) (s : BenchSt N) (t : Fin N) : ℕ := if inSlow (s.lock.pc t) then f (s.locals t) else 0

/-- The calls finished and under way have counted `n` to `f`. -/
def Counted (f : Counters → ℕ) (n : ℕ) (s : BenchSt N) : Prop := n = (s.finished.map f).sum + ∑ t, underway f s t

/-- After an operation a thread in the slow path is still there or holds the lock. -/
theorem atomic_place {w w' : Unsigned} {p q : Pc} (h : atomic sm w p = some (w', q)) : inSlow q = true ∨ q = .held := by
  cases p <;> simp only [atomic, Option.some.injEq, Prod.mk.injEq, reduceCtorEq] at h <;> obtain ⟨-, rfl⟩ := h <;>
    (repeat' split) <;> first | exact Or.inl rfl | exact Or.inr rfl

theorem Counted.change {f : Counters → ℕ} {n k : ℕ} (t : Fin N) (h : Counted f n s)
    (hother : ∀ u, u ≠ t → underway f s' u = underway f s u)
    (hown : (s'.finished.map f).sum + underway f s' t = (s.finished.map f).sum + underway f s t + k) :
    Counted f (n + k) s' := by
  have hsum := sum_change (m := underway f s) (n := underway f s') t hother
  unfold Counted at h ⊢
  omega

theorem underway_other {f : Counters → ℕ} {u : Fin N} (hpc : s'.lock.pc u = s.lock.pc u)
    (hloc : s'.locals u = s.locals u) : underway f s' u = underway f s u := by
  unfold underway
  rw [hpc, hloc]

theorem Counted.keep {f : Counters → ℕ} {n : ℕ} (h : Counted f n s) (hfin : s'.finished = s.finished)
    (hloc : s'.locals = s.locals) (hslow : ∀ u, inSlow (s'.lock.pc u) = inSlow (s.lock.pc u)) : Counted f n s' := by
  have hsame : ∀ u, underway f s' u = underway f s u := by
    intro u
    unfold underway
    rw [hslow, hloc]
  unfold Counted at h ⊢
  rw [hfin, Finset.sum_congr rfl fun u _ => hsame u]
  exact h

/-- The operation of a call counts `k` to `f`. -/
theorem Counted.run {f : Counters → ℕ} {n k : ℕ} {t : Fin N} {l : St N} (h : Counted f n s)
    (hs : step sm s.lock (.run t) = some l)
    (hf : inSlow (s.lock.pc t) = true → f (nextCounters sm s.lock.word (s.locals t) (s.lock.pc t)) = f (s.locals t) + k)
    (hf0 : inSlow (s.lock.pc t) = false → f .zero = 0 ∧ k = 0) : Counted f (n + k) (s.run sm t l) := by
  cases step_moves hs with
  | run t w q ha =>
    have hpc : ∀ u, u ≠ t → Function.update s.lock.pc t q u = s.lock.pc u := fun u hu => Function.update_of_ne hu _ _
    have hloc : ∀ u, u ≠ t → Function.update s.locals t (nextCounters sm s.lock.word (s.locals t) (s.lock.pc t)) u =
        s.locals u := fun u hu => Function.update_of_ne hu _ _
    have hzero : inSlow (s.lock.pc t) = false → nextCounters sm s.lock.word (s.locals t) (s.lock.pc t) = .zero :=
      fun hp => by simp [nextCounters, hp]
    unfold BenchSt.run
    split
    · -- the lock is taken: what was under way is finished
      rename_i hfin
      obtain ⟨hp, hq⟩ := Bool.and_eq_true_iff.mp hfin
      refine h.change t (fun u hu => underway_other (hpc u hu) (hloc u hu)) ?_
      simp only [Function.update_self] at hq
      obtain rfl := holds_iff.mp hq
      have hown := hf hp
      simp only [BenchSt.finish, BenchSt.count, underway, Function.update_self, List.map_append, List.sum_append, hp,
        if_true, List.map_cons, List.map_nil, List.sum_cons, List.sum_nil, hown]
      simp [inSlow]
      omega
    · rename_i hfin
      refine h.change t (fun u hu => underway_other (hpc u hu) (hloc u hu)) ?_
      simp only [BenchSt.count, underway, Function.update_self]
      cases hp : inSlow (s.lock.pc t) with
      | true =>
        have hq : inSlow q = true := by
          refine (atomic_place ha).resolve_right fun hq => hfin ?_
          simp [hp, hq, holds]
        simp only [hq, if_true, hf hp]
        omega
      | false =>
        obtain ⟨h0, rfl⟩ := hf0 hp
        rw [hzero hp, h0]
        simp

theorem Counted.resume {f : Counters → ℕ} {n k : ℕ} {t : Fin N} {q : Pc} (h : Counted f n s)
    (hq : resumeWait (s.lock.pc t) = some q) (hf : f ((s.locals t).add (accountResume (s.lock.pc t))) = f (s.locals t) + k)
    (m : ℕ) : Counted f (n + k) { s with
      lock := goto s.lock t q, locals := Function.update s.locals t ((s.locals t).add (accountResume (s.lock.pc t))),
      waits := m } := by
  refine h.change t (fun u hu => underway_other (Function.update_of_ne hu _ _) (Function.update_of_ne hu _ _)) ?_
  have hplace : inSlow (s.lock.pc t) = true ∧ inSlow q = true := by
    cases hp : s.lock.pc t <;> rw [hp] at hq <;> cases hq <;> exact ⟨rfl, rfl⟩
  simp only [underway, goto_pc, Function.update_self, hplace, if_true, hf]
  omega

structure CallsOk (s : BenchSt N) : Prop where
  locals : ∀ t, inSlow (s.lock.pc t) = true → LocalOk (s.lock.pc t) (s.locals t)
  finished : ∀ c ∈ s.finished, LocalOk .held c
  waits : Counted Counters.futex s.waits s
  failed : Counted Counters.wouldblock s.failed s

theorem inSlow_first {p : Pc} {w w' : Unsigned} {q : Pc} (hp : inSlow p = false) (h : atomic sm w p = some (w', q))
    (hq : inSlow q = true) : LocalOk q .zero := by
  cases p with
  | fast mo =>
    simp only [atomic, Option.some.injEq, Prod.mk.injEq] at h
    obtain ⟨-, rfl⟩ := h
    refine ⟨Nat.le_refl _, fun hq' => ?_⟩
    split at hq' <;> split at hq <;> simp_all [inSlow]
  | out | held | wake => cases h
  | first | add | spin | wait | asleep | retry | unset => cases hp

theorem next_ok {t : Fin N} {w : Unsigned} {q : Pc} (hi : CallsOk s) (ha : atomic sm s.lock.word (s.lock.pc t) = some (w, q))
    (hq : inSlow q = true ∨ inSlow (s.lock.pc t) = true) :
    LocalOk q (nextCounters sm s.lock.word (s.locals t) (s.lock.pc t)) := by
  unfold nextCounters
  cases hp : inSlow (s.lock.pc t) with
  | true => exact count_ok hp (hi.locals t hp) ha
  | false =>
    rw [hp] at hq
    exact inSlow_first hp ha (hq.resolve_right Bool.false_ne_true)

/-- Only a `FUTEX_WAIT` accounts to `futex` and `wouldblock`. -/
theorem account_wait (sm w : Unsigned) (p : Pc) :
    (account sm w p).futex = waitsAt p ∧ (account sm w p).wouldblock = failsAt w p := by
  cases p with
  | wait l => exact ⟨rfl, rfl⟩
  | first l | add l | spin l | retry l =>
    simp only [account]
    (repeat' split) <;> exact ⟨rfl, rfl⟩
  | out | fast | asleep | unset | held | wake => exact ⟨rfl, rfl⟩

theorem CallsOk.run {t : Fin N} {l : St N} (hi : CallsOk s) (hs : step sm s.lock (.run t) = some l) :
    CallsOk (s.run sm t l) := by
  obtain ⟨hfutex, hblock⟩ := account_wait sm s.lock.word (s.lock.pc t)
  have hwaits : Counted Counters.futex (s.waits + waitsAt (s.lock.pc t)) (s.run sm t l) := by
    refine hi.waits.run hs (fun hp => ?_) fun hp => ⟨rfl, ?_⟩
    · simp only [nextCounters, hp, if_true, Counters.add, hfutex]
    · cases hpc : s.lock.pc t <;> rw [hpc] at hp <;> first | rfl | cases hp
  have hfailed : Counted Counters.wouldblock (s.failed + failsAt s.lock.word (s.lock.pc t)) (s.run sm t l) := by
    refine hi.failed.run hs (fun hp => ?_) fun hp => ⟨rfl, ?_⟩
    · simp only [nextCounters, hp, if_true, Counters.add, hblock]
    · cases hpc : s.lock.pc t <;> rw [hpc] at hp <;> first | rfl | cases hp
  cases step_moves hs with
  | run t w q ha =>
    have hlocals : ∀ u, inSlow (Function.update s.lock.pc t q u) = true → LocalOk (Function.update s.lock.pc t q u)
        (Function.update s.locals t (nextCounters sm s.lock.word (s.locals t) (s.lock.pc t)) u) := by
      intro u hu
      by_cases e : u = t
      · subst e
        simp only [Function.update_self] at hu ⊢
        exact next_ok hi ha (Or.inl hu)
      · simp only [Function.update_of_ne e] at hu ⊢
        exact hi.locals u hu
    unfold BenchSt.run at hwaits hfailed ⊢
    split at hwaits
    · rename_i hfin
      rw [if_pos hfin] at hfailed ⊢
      obtain ⟨hp, hq⟩ := Bool.and_eq_true_iff.mp hfin
      simp only [Function.update_self] at hq
      obtain rfl := holds_iff.mp hq
      refine ⟨hlocals, fun c hc => ?_, hwaits, hfailed⟩
      simp only [BenchSt.finish, BenchSt.count, Function.update_self, List.mem_append, List.mem_singleton] at hc
      rcases hc with hc | rfl
      · exact hi.finished c hc
      · exact next_ok hi ha (Or.inr hp)
    · rename_i hfin
      rw [if_neg hfin] at hfailed ⊢
      exact ⟨hlocals, hi.finished, hwaits, hfailed⟩

theorem CallsOk.resume {t : Fin N} {q : Pc} (hi : CallsOk s) (hq : resumeWait (s.lock.pc t) = some q) :
    CallsOk (s.move sm (goto s.lock t q) (.spurious t)) where
  locals u hu := by
    by_cases e : u = t
    · subst e
      simp only [BenchSt.move, goto_pc, Function.update_self]
      have hplace : inSlow (s.lock.pc u) = true := by
        cases hp : s.lock.pc u <;> rw [hp] at hq <;> cases hq <;> rfl
      have hok := (hi.locals u hplace).wouldblock
      cases hp : s.lock.pc u with
      | wait l =>
        rw [hp] at hq
        cases hq
        exact ⟨Nat.le_succ_of_le hok, fun h => by simp at h⟩
      | asleep l =>
        rw [hp] at hq
        cases hq
        exact ⟨hok, fun h => by simp at h⟩
      | out | fast | first | add | spin | retry | unset | held | wake =>
        rw [hp] at hq
        cases hq
    · simp only [BenchSt.move, goto_pc, Function.update_of_ne e] at hu ⊢
      exact hi.locals u hu
  finished := hi.finished
  waits := hi.waits.resume hq (by cases hp : s.lock.pc t <;> rw [hp] at hq <;> cases hq <;> rfl) _
  failed := by
    have hf : ((s.locals t).add (accountResume (s.lock.pc t))).wouldblock = (s.locals t).wouldblock + 0 := by
      cases hp : s.lock.pc t <;> rw [hp] at hq <;> cases hq <;> rfl
    exact hi.failed.resume hq hf _

/-- A step that leaves the counters, and moves no thread but within or outside the slow path. -/
theorem CallsOk.keep (hi : CallsOk s) {l : St N} {g : Tally.St (Fin N) Global ℕ} {n : ℕ}
    (hslow : ∀ u, inSlow (l.pc u) = inSlow (s.lock.pc u))
    (hunset : ∀ u k, l.pc u = .unset k → s.lock.pc u = .unset k) :
    CallsOk { s with lock := l, tally := g, wakes := n } where
  locals u hu := by
    rw [show (BenchSt.lock _).pc u = l.pc u from rfl, hslow] at hu
    have hok := hi.locals u hu
    refine ⟨hok.wouldblock, fun h => ?_⟩
    rcases h with h | ⟨k, h⟩
    · have hl : l.pc u = .held := h
      rw [← hslow, hl] at hu
      cases hu
    · exact hok.slow (Or.inr ⟨k, hunset u k h⟩)
  finished := hi.finished
  waits := hi.waits.keep rfl rfl hslow
  failed := hi.failed.keep rfl rfl hslow

/-- A thread that moves within or outside the slow path, and not to `BIT_UNSET`. -/
theorem update_slow {f : Fin N → Pc} {t : Fin N} {q : Pc} (hq : inSlow q = inSlow (f t)) (hne : ∀ k, q ≠ .unset k) :
    (∀ u, inSlow (Function.update f t q u) = inSlow (f u)) ∧
      ∀ u k, Function.update f t q u = .unset k → f u = .unset k := by
  refine ⟨fun u => ?_, fun u k hu => ?_⟩ <;> by_cases e : u = t
  · subst e
    rw [Function.update_self, hq]
  · rw [Function.update_of_ne e]
  · subst e
    rw [Function.update_self] at hu
    exact absurd hu (hne k)
  · rwa [Function.update_of_ne e] at hu

theorem CallsOk.move {f : Ev N} {l : St N} (hi : CallsOk s) (hs : step sm s.lock f = some l) :
    CallsOk (s.move sm l f) := by
  cases step_moves hs with
  | run t w q ha => exact hi.run hs
  | spurious t q hq => exact hi.resume hq
  | lock t mo ht =>
    obtain ⟨hslow, hunset⟩ := update_slow (f := s.lock.pc) (t := t) (q := .fast mo) (by rw [ht]; rfl)
      fun k h => by cases h
    exact hi.keep hslow hunset
  | unlock t mo ht =>
    have hafter : inSlow (afterSub s.lock.word) = false ∧ ∀ k, afterSub s.lock.word ≠ .unset k := by
      unfold afterSub
      split <;> exact ⟨rfl, fun k h => by cases h⟩
    obtain ⟨hslow, hunset⟩ := update_slow (f := s.lock.pc) (t := t) (by rw [ht]; exact hafter.1) hafter.2
    exact hi.keep hslow hunset
  | wakeOne t v k ht hv =>
    have hne : v ≠ t := by rintro rfl; rw [ht] at hv; cases hv
    have hv' : Function.update s.lock.pc t .out v = .asleep k := (Function.update_of_ne hne _ _).trans hv
    obtain ⟨hslow, hunset⟩ := update_slow (f := s.lock.pc) (t := t) (q := .out) (by rw [ht]; rfl)
      fun k h => by cases h
    obtain ⟨hslow', hunset'⟩ := update_slow (f := Function.update s.lock.pc t .out) (t := v) (q := .retry k)
      (by rw [hv']; rfl) fun k h => by cases h
    exact hi.keep (fun u => (hslow' u).trans (hslow u)) fun u j hu => hunset u j (hunset' u j hu)
  | wakeNone t ht hall =>
    obtain ⟨hslow, hunset⟩ := update_slow (f := s.lock.pc) (t := t) (q := .out) (by rw [ht]; rfl)
      fun k h => by cases h
    exact hi.keep hslow hunset

theorem bench_calls (hs : (benchSys N sm).Reach s) : CallsOk s := by
  refine hs.inv (I := CallsOk) (fun s h0 => ?_) fun s e s' _ hi hst => ?_
  · obtain rfl : s = benchInit := h0
    have hnone : ∀ t : Fin N, inSlow ((benchInit : BenchSt N).lock.pc t) = false := fun _ => rfl
    refine ⟨fun t ht => absurd ht (by simp [hnone]), fun c hc => absurd hc List.not_mem_nil, ?_, ?_⟩ <;>
      simp [Counted, underway, hnone] <;> rfl
  · rcases benchStep_cases hst with ⟨f, l, rfl, -, hl, rfl⟩ | ⟨u, g, rfl, hg, rfl⟩
    · exact hi.move hl
    · exact hi.keep (fun _ => rfl) fun _ _ h => h

end

/-! ## The summary -/

/-- What `atomic_summarize` prints is right: `g_total` counts the calls of the slow path, the others add up what these
    counted, and there are no fewer outer iterations than calls nor fewer waits than failed ones. -/
structure Summary {N : ℕ} (s : BenchSt N) : Prop where
  total : s.tally.glob .total = s.finished.length
  slow : s.tally.glob .slow = (s.finished.map Counters.slow).sum
  spin : s.tally.glob .spin = (s.finished.map Counters.spin).sum
  futex : s.tally.glob .futex = (s.finished.map Counters.futex).sum
  wouldblock : s.tally.glob .wouldblock = (s.finished.map Counters.wouldblock).sum
  total_le : s.tally.glob .total ≤ s.tally.glob .slow
  wouldblock_le : s.tally.glob .wouldblock ≤ s.tally.glob .futex

section
variable {N : ℕ} {sm : Unsigned} {s : BenchSt N}

/-- A global with nothing owed to it is what was issued. -/
theorem glob_eq (hN : N ≤ 2 ^ 31 - 1) (hs : (benchSys N sm).Reach s) {v : Global} (hv : v ≠ .slowWake)
    (hnone : ∀ t, ¬ Tally.Owes v (s.tally.job t)) : s.tally.glob v = credit s v := by
  obtain ⟨g, hg, rfl⟩ := (bench_tally hN sm hv).reach hs
  have htotal := (Tally.reach_exact hg).total
  rw [bench_credit hs v, show Tally.owing v s.tally = 0 from Finset.sum_eq_zero fun t _ => Tally.owed_eq_zero (hnone t),
    add_zero] at htotal
  exact htotal

theorem finished_slow (hs : (benchSys N sm).Reach s) : s.finished.length ≤ (s.finished.map Counters.slow).sum := by
  have h := List.sum_le_sum (l := s.finished) (f := fun _ => 1) (g := Counters.slow)
    fun c hc => ((bench_calls hs).finished c hc).slow (Or.inl rfl)
  simpa using h

theorem finished_wouldblock (hs : (benchSys N sm).Reach s) :
    (s.finished.map Counters.wouldblock).sum ≤ (s.finished.map Counters.futex).sum :=
  List.sum_le_sum fun c hc => ((bench_calls hs).finished c hc).wouldblock

/-- With no call under way, what the finished ones counted is all there was. -/
theorem Counted.all {f : Counters → ℕ} {n : ℕ} (h : Counted f n s) (hout : ∀ t, inSlow (s.lock.pc t) = false) :
    (s.finished.map f).sum = n := by
  unfold Counted at h
  rw [h, Finset.sum_eq_zero fun t _ => by rw [underway, hout t]; rfl]
  rfl

end

/-- For the lock of any number of threads up to the capacity, on any schedule of their operations and additions, and with
    counts before `size_t` wraps around: the additions at `FINISH` are made by one thread at a time; while none is, the statistics are right, and
    with no call of the slow path under way they count the `FUTEX_WAIT`s and those that failed;
    `g_slow_wake` is at most the number of `FUTEX_WAKE`s. -/
theorem statistics_counted (N : ℕ) (hN : N ≤ 2 ^ 31 - 1) (sm : Unsigned) (s : BenchSt N) (hs : (benchSys N sm).Reach s) :
    (∀ t u v v', v ≠ .slowWake → v' ≠ .slowWake → Tally.Owes v (s.tally.job t) → Tally.Owes v' (s.tally.job u) →
      t = u) ∧
    ((∀ t v, v ≠ .slowWake → ¬ Tally.Owes v (s.tally.job t)) → Summary s ∧
      ((∀ t, inSlow (s.lock.pc t) = false) →
        s.tally.glob .futex = s.waits ∧ s.tally.glob .wouldblock = s.failed)) ∧
    s.tally.glob .slowWake ≤ s.wakes := by
  refine ⟨fun t u v v' hv hv' ht hu => adds_alone hN hs hv hv' ht hu, fun hnone => ?_, ?_⟩
  · have hglob : ∀ v, v ≠ .slowWake → s.tally.glob v = credit s v :=
      fun v hv => glob_eq hN hs hv fun t => hnone t v hv
    have htotal := hglob .total (by decide)
    have hslow := hglob .slow (by decide)
    have hfutex := hglob .futex (by decide)
    have hblock := hglob .wouldblock (by decide)
    refine ⟨⟨htotal, hslow, hglob .spin (by decide), hfutex, hblock, ?_, ?_⟩, fun hout => ⟨?_, ?_⟩⟩
    · rw [htotal, hslow]
      exact finished_slow hs
    · rw [hblock, hfutex]
      exact finished_wouldblock hs
    · exact hfutex.trans ((bench_calls hs).waits.all hout)
    · exact hblock.trans ((bench_calls hs).failed.all hout)
  · obtain ⟨g, hg, rfl⟩ := (bench_tally hN sm (v := .total) (by decide)).reach hs
    have hle := (Tally.reach_bounded (v := .slowWake) hg.of_restrict).total
    rw [bench_credit hs] at hle
    exact (Nat.le_add_right _ _).trans hle

/-- While `c` holds the lock, `a` and `b` sleep. The additions for the `FUTEX_WAKE`s of `c` and `a` overlap. -/
def overlap (a b c : Fin 3) : List (BenchEv 3) :=
  let sleeps := fun t => [Ev.lock t .seqCst, .run t, .run t, .run t, .run t, .run t]
  let acquires := [Ev.lock c .seqCst, .run c] ++ sleeps a ++ sleeps b ++
    [.unlock c .seqCst, .wake c (some a), .run a, .run a]
  acquires.map BenchEv.lock ++ List.replicate 10 (.account a) ++
    [.lock (.unlock a .seqCst), .lock (.wake a (some b)), .account c, .account a, .account c, .account a,
      .lock (.run b), .lock (.run b)] ++ List.replicate 10 (.account b)

def overlapEvs : List (BenchEv 3) := overlap ⟨0, by decide⟩ ⟨1, by decide⟩ ⟨2, by decide⟩

theorem overlap_isSome : (Lts.Sys.runList (benchStep 1) benchInit overlapEvs).isSome = true := by decide

def overlapped : BenchSt 3 := (Lts.Sys.runList (benchStep 1) benchInit overlapEvs).get overlap_isSome

theorem overlapped_reach : (benchSys 3 1).Reach overlapped :=
  .runList (fun _ _ _ h => h) (.init rfl) (Option.some_get overlap_isSome).symm

theorem overlapped_none (t : Fin 3) (v : Global) : ¬ Tally.Owes v (overlapped.tally.job t) := by
  have hnone : ∀ t, (overlapped.tally.job t).todo = [] := by decide
  simp [Tally.Owes, hnone t]

/-- The statistics are right but for `g_slow_wake`, which has missed one. -/
theorem overlapped_counted : Summary overlapped ∧ overlapped.tally.glob .futex = overlapped.waits ∧
    overlapped.tally.glob .slowWake < overlapped.wakes := by
  obtain ⟨hsum, hwaits⟩ := (statistics_counted 3 (by decide) 1 overlapped overlapped_reach).2.1
    fun t v _ => overlapped_none t v
  exact ⟨hsum, (hwaits (by decide)).1, by decide⟩

end Stdatomic.Futex
