/-
  Stdatomic.Generic.Recalibrated — the futex lock while `atomic_calibrate` changes `spins_max`.

  Elsewhere `spins_max` has one value in a run. It is a global variable, and any thread may
  calibrate at any time; `__impl_mut_lock_slow` reads it once, on its way in, and keeps
  the value (`sm`). Here each event comes with the value that the variable has then
  (`REv.spinsMax`), so two threads in the slow path may have different budgets. Every
  step is one of the futex lock for some budget, so its invariants hold (`reach_inv`), and
  what is left to do is counted with each thread's own (`Futex.descends`). What that
  gives for the operations is `recalibrated_lock`.
-/

import Stdatomic.Generic.Locked
import Stdatomic.Generic.Orders

namespace Stdatomic.Futex

open Family

variable {N : ℕ}

/-! ## The lock -/

structure RSt (N : ℕ) where
  base : St N
  /-- `sm` of the call of `__impl_mut_lock_slow` that a thread is in. -/
  sm : Fin N → Unsigned

structure REv (N : ℕ) where
  ev : Ev N
  /-- `spins_max` at the time. -/
  spinsMax : Unsigned

/-- The budget in a step. The way from the compare-exchange of `__impl_mut_lock` to the slow path reads `spins_max`. -/
def RSt.budget (s : RSt N) (e : REv N) : Unsigned :=
  match s.base.pc e.ev.tid with
  | .fast _ => e.spinsMax
  | _ => s.sm e.ev.tid

def rstep (s : RSt N) (e : REv N) : Option (RSt N) :=
  (step (s.budget e) s.base e.ev).map fun b => ⟨b, Function.update s.sm e.ev.tid (s.budget e)⟩

def rinit : RSt N := ⟨init, fun _ => 0⟩

def rsys (N : ℕ) : Lts.Sys (RSt N) (REv N) where
  init s := s = rinit
  step s e s' := rstep s e = some s'

section
variable {s s' : RSt N} {e : REv N}

theorem RSt.budget_cases (s : RSt N) (e : REv N) :
    (∃ mo, s.base.pc e.ev.tid = .fast mo) ∨ s.budget e = s.sm e.ev.tid := by
  unfold RSt.budget
  split
  · rename_i mo h
    exact Or.inl ⟨mo, h⟩
  · exact Or.inr rfl

theorem rstep_step (h : rstep s e = some s') :
    step (s.budget e) s.base e.ev = some s'.base ∧ s'.sm = Function.update s.sm e.ev.tid (s.budget e) := by
  obtain ⟨b, hb, rfl⟩ := Option.map_eq_some_iff.mp h
  exact ⟨hb, rfl⟩

theorem step_rstep {b : St N} (h : step (s.budget e) s.base e.ev = some b) : ∃ s', rstep s e = some s' :=
  ⟨_, by rw [rstep, h, Option.map_some]⟩

theorem reach_inv (hN : N ≤ 2 ^ 31 - 1) (h : (rsys N).Reach s) : Inv s.base ∧ Watched s.base := by
  refine h.inv (I := fun s => Inv s.base ∧ Watched s.base) (fun s h0 => ?_) fun s e s' _ hi hs => ?_
  · obtain rfl : s = rinit := h0
    exact ⟨init_inv, watched hN (show (sys N 0).Reach init from .init rfl)⟩
  · obtain ⟨hst, -⟩ := rstep_step hs
    exact ⟨step_inv hN hi.1 hst, step_watched hN hi.1 hi.2 hst⟩

end

end Stdatomic.Futex

namespace Stdatomic.Generic

open Critical LockTable Futex

variable {N : ℕ}

/-! ## In a table -/

def recalibratedLock (N : ℕ) : Lock (Fin N) MemoryOrder (RSt N) (REv N) where
  start := rinit
  step := rstep
  lock t mo := ⟨.lock t mo, 0⟩
  unlock t mo := ⟨.unlock t mo, 0⟩
  inner e := futexInner e.ev
  place s t := futexPlace (s.base.pc t)
  place_start _ := rfl
  place_lock s t a s' h := (futexLock N (s.budget ⟨.lock t a, 0⟩)).place_lock s.base t a s'.base (rstep_step h).1
  place_unlock s t a s' h := (futexLock N (s.budget ⟨.unlock t a, 0⟩)).place_unlock s.base t a s'.base (rstep_step h).1
  place_inner s e s' he h := (futexLock N (s.budget e)).place_inner s.base e.ev s'.base he (rstep_step h).1

theorem recalibrated_excludes (hN : N ≤ 2 ^ 31 - 1) : (recalibratedLock N).Excludes := by
  intro s hs t u ht hu
  have hone := (reach_inv hN hs).1.one
  refine Family.eq_of_count_le_one hone ?_ ?_
  · exact holds_iff.mpr (futexPlace_held.mp ht)
  · exact holds_iff.mpr (futexPlace_held.mp hu)

def recalibratedOrders (N : ℕ) : Orders (recalibratedLock N) acquires releases where
  access s e := futexStepAccess s.base e.ev
  unlock := rmwOf
  asks s t := futexAsks (s.base.pc t)
  access_keeps s e t x h := (futexOrders N 0).access_keeps s.base e.ev t x h
  asks_lock s t a s' h := (futexOrders N (s.budget ⟨.lock t a, 0⟩)).asks_lock s.base t a s'.base (rstep_step h).1
  asks_step s e t s' h := (futexOrders N (s.budget e)).asks_step s.base e.ev t s'.base (rstep_step h).1
  takes s e t s' he h := (futexOrders N (s.budget e)).takes s.base e.ev t s'.base he (rstep_step h).1
  unlock_writes := (futexOrders N 0).unlock_writes
  unlock_rel := (futexOrders N 0).unlock_rel
  store_rel := (futexOrders N 0).store_rel

def isSpuriousR (e : REv N) : Bool := isSpurious e.ev

theorem recalibrated_lively (hN : N ≤ 2 ^ 31 - 1) :
    (recalibratedLock N).Lively isSpuriousR fun s => toDo s.sm s.base where
  enter s t a _ hp := by
    have ht : s.base.pc t = .out := futexPlace_out.mp hp
    have hs : Futex.step (s.budget ⟨.lock t a, 0⟩) s.base (.lock t a) = some (goto s.base t (.fast a)) := by
      simp only [Futex.step, ht, if_true]
    exact step_rstep hs
  leave s t a _ hp := by
    have ht : s.base.pc t = .held := futexPlace_held.mp hp
    have hs : Futex.step (s.budget ⟨.unlock t a, 0⟩) s.base (.unlock t a) =
        some ⟨s.base.word - contrib, Function.update s.base.pc t (afterSub s.base.word)⟩ := by
      simp only [Futex.step, ht, if_true]
    exact step_rstep hs
  live s t hr hp := by
    obtain ⟨hi, hw⟩ := reach_inv hN hr
    have ht : s.base.pc t ≠ .out := fun h => hp (futexPlace_out.mpr h)
    rcases live hN hi hw ht with ⟨u, hu⟩ | ⟨u, hu⟩ | ⟨u, hu⟩
    · exact Or.inl ⟨u, futexPlace_held.mpr hu⟩
    · obtain ⟨b, hs⟩ : ∃ b, Futex.step (s.budget ⟨.run u, 0⟩) s.base (.run u) = some b := contends_steps hu
      obtain ⟨s', hs'⟩ : ∃ s', rstep s ⟨.run u, 0⟩ = some s' := step_rstep hs
      exact Or.inr ⟨⟨.run u, 0⟩, s', rfl, rfl, hs'⟩
    · obtain ⟨v, b, hs⟩ : ∃ v b, Futex.step (s.sm u) s.base (.wake u v) = some b := wake_steps hu
      have hb : s.budget ⟨.wake u v, 0⟩ = s.sm u := by simp only [RSt.budget, Ev.tid, hu]
      obtain ⟨s', hs'⟩ : ∃ s', rstep s ⟨.wake u v, 0⟩ = some s' := step_rstep (hb ▸ hs)
      exact Or.inr ⟨⟨.wake u v, 0⟩, s', rfl, rfl, hs'⟩
  descends s e s' hr he hs := by
    obtain ⟨hst, hsm⟩ := rstep_step hs
    have hsp : ∀ t, e.ev ≠ .spurious t := by
      intro t h
      simp only [isSpuriousR, h, isSpurious] at he
      cases he
    rcases descends s.sm hN (reach_inv hN hr).1 hsp hst (s.budget_cases e) with ⟨t, hb, ha⟩ | hlt
    · refine Or.inl ⟨t, fun hh => ?_, futexPlace_held.mpr (holds_iff.mp ha)⟩
      rw [futexPlace_held.mp hh] at hb
      cases hb
    · rw [← hsm] at hlt
      exact Or.inr hlt
  calls _ _ := ⟨rfl, rfl⟩

/-- Over the lock `K` in every slot, from any reachable state: without new operations and steps of the environment no
    schedule goes on for ever, and where no step is left all operations have returned. -/
def Finishes {Tid σ ε : Type} [DecidableEq Tid] (K : Lock Tid MemoryOrder σ ε) (env : ε → Bool) : Prop :=
  ∀ (Obj Slot U : Type) [DecidableEq Obj] [DecidableEq Slot] [Fintype Slot] [DecidableEq U] (L : Layout Obj)
    (hash : ℕ → Slot) (mem : ℕ → Byte),
    (∀ (x : ℕ → LockTable.St Tid (Call Obj U) Slot MemoryOrder (Buf U) Byte σ)
        (e : ℕ → LockTable.Ev Tid (Call Obj U) Slot (Buf U) Byte ε),
      (LockTable.sys (api L hash) K mem).Reach (x 0) →
      ¬ ∀ i, Quiet env (e i) ∧ LockTable.step (api L hash) K (x i) (e i) = some (x (i + 1))) ∧
    ∀ s : LockTable.St Tid (Call Obj U) Slot MemoryOrder (Buf U) Byte σ, (LockTable.sys (api L hash) K mem).Reach s →
      (∀ e s', Quiet env e → LockTable.step (api L hash) K s e ≠ some s') → ∀ t, s.thr t = .idle

/-- The futex lock up to its capacity, with `spins_max` changed at any time: the operations over a table of it are
    linearizable, sized and unsized functions on one object too; sections see one another as their orders ask; and without
    new operations and spurious returns from `FUTEX_WAIT` every schedule ends with all of them returned. -/
theorem recalibrated_lock (N : ℕ) (hN : N ≤ 2 ^ 31 - 1) :
    Linearizes (recalibratedLock N) ∧ Locked.Linearizes (recalibratedLock N) ∧
    Synchronizes (recalibratedOrders N) false ∧ Finishes (recalibratedLock N) isSpuriousR := by
  have hK := recalibrated_excludes hN
  refine ⟨linearizes_of_excludes hK, Locked.linearizes_of_excludes hK, synchronizes_of_excludes hK fun _ _ => rfl, ?_⟩
  intro Obj Slot U _ _ _ _ L hash mem
  refine ⟨fun x e h0 => quiet_finite hK (recalibrated_lively hN) x e h0, fun s hs hstuck => ?_⟩
  obtain ⟨u, -, hR⟩ := (simulates hK).reach hs
  exact stuck_idle (recalibrated_lively hN) hR hstuck

theorem two_threads_recalibrated : Finishes (recalibratedLock 2) isSpuriousR := (recalibrated_lock 2 (by decide)).2.2.2

end Stdatomic.Generic
