/-
  Stdatomic.Generic.LockFree — `atomic_is_lock_free`, and what the library does.

  `atomic_is_lock_free` (`atomic_constants.h`) looks at the size of an object and at the
  compare-and-swaps that the compiler has. The sized functions of `atomic_generic_N.c` are
  compiled from the same macros, lock-free or lock-based (`instOf`).

  Where it is not 0, a sized call returns alone from any state, whatever the other threads have
  been stopped in. Where it is 0, there are no sized functions, or each of them waits for the
  lock of a thread that has been stopped in a section (`Stopped`, `is_lock_free_iff`).
-/

import Stdatomic.Generic.Progress
import Mathlib.Logic.Nontrivial.Basic

namespace Stdatomic.Mixed

open CInt Arith

/-- What the compiler says, and the header that `stdatomic.h` then includes. -/
structure Platform where
  /-- `__GCC_HAVE_SYNC_COMPARE_AND_SWAP_N`. -/
  haveCompareAndSwap : ℕ → Bool
  header : Header

/-- `ATOMIC_UINT8_LOCK_FREE` and so on, by the number of bytes. -/
def Platform.uintLockFree (P : Platform) (N : ℕ) : ℕ := if P.haveCompareAndSwap N then 2 else 0

def atomicIsLockFree (P : Platform) (size : ℕ) : ℕ :=
  if size = 1 then P.uintLockFree 1
  else if size = 2 then P.uintLockFree 2
  else if size = 4 then P.uintLockFree 4
  else if size = 8 then P.uintLockFree 8
  else if size = 16 then P.uintLockFree 16
  else 0

/-- The sizes that have functions of their own, `atomic_generic_N.c`. -/
def sizes : List ℕ := [1, 2, 4, 8, 16]

def instOf (P : Platform) (N : ℕ) : Inst := if P.haveCompareAndSwap N then .lockFree P.header else .lockBased

def uintBytes (N : ℕ) : IntTy := ⟨8 * N, 0, false⟩

/-- Alone a sized call returns, whatever the others have been stopped in. -/
def ReturnsAlone (Tid : Type) [DecidableEq Tid] (C : Impl) (T : IntTy) (inst : Inst) : Prop :=
  ∀ (v₀ : BitVec T.width) (s : St Tid T.width), (sys C T inst v₀).Reach s →
    ∀ t x p, s.thr t = .busy x p → x.call.isUnsized = false →
      ∃ n s', Lts.Sys.runList (step C T inst) s (List.replicate n (.run t)) = some s' ∧ s'.thr t = .idle

section
variable {Tid : Type} [DecidableEq Tid] {C : Impl} {T : IntTy} {inst : Inst} {s : St Tid T.width} {t u : Tid}

theorem lockFree_alone (h : Header) : ReturnsAlone Tid C T (.lockFree h) := by
  intro v₀ s hs t x p ht hx
  have hd : (s.thr t).direct = true := by
    rw [ht]
    exact reach_direct hs t x p ht hx
  obtain ⟨n, -, s', hr, hidle⟩ := alone_returns _ hd (Nat.le_refl _)
  exact ⟨n, s', hr, hidle⟩

theorem call_step (ht : s.thr t = .idle) (c : Call T.width) : step C T inst s (.call t c) = some
    { s.goto t ⟨s.calls.length, c, s.results.map Prod.fst⟩ (code C T inst c) with
      calls := s.calls ++ [⟨s.calls.length, c, s.results.map Prod.fst⟩] } := by
  simp only [step, ht]

theorem lock_step {x : Entry T.width} {k : Sec T.width} {l : Option (Loop T.width × BitVec T.width)}
    (ht : s.thr t = .busy x (.lock k l)) (ho : s.owner = none) :
    step C T inst s (.run t) = some { s.goto t x (.inside k l) with owner := some t } := by
  simp only [step, ht, St.run, Mutex.step_take.mpr ⟨ho, rfl⟩, Option.map_some]

/-- A thread before a lock that is taken makes no step. -/
theorem blocked {x : Entry T.width} {k : Sec T.width} {l : Option (Loop T.width × BitVec T.width)}
    (ht : s.thr t = .busy x (.lock k l)) (ho : s.owner = some u) : step C T inst s (.run t) = none := by
  simp only [step, ht, St.run, ho]
  rfl

/-- And whatever the others do, it stays there until the holder runs. -/
theorem waits_step {s' : St Tid T.width} {e : Ev Tid T.width} {x : Entry T.width} {k : Sec T.width}
    {l : Option (Loop T.width × BitVec T.width)} (ht : s.thr t = .busy x (.lock k l)) (ho : s.owner = some u)
    (he : e ≠ .run u) (hs : step C T inst s e = some s') : s'.thr t = .busy x (.lock k l) ∧ s'.owner = some u := by
  have other : ∀ {v : Tid} {th : Thr T.width}, v ≠ t → Function.update s.thr v th t = .busy x (.lock k l) :=
    fun hv => (Function.update_of_ne hv.symm _ _).trans ht
  have away : ∀ {v : Tid}, s.thr v ≠ .busy x (.lock k l) → v ≠ t := fun hv e => hv (e ▸ ht)
  cases step_moves hs with
  | call v c hv => exact ⟨other (away fun h => by rw [hv] at h; cases h), ho⟩
  | access v y p p' z hv ha => exact ⟨other (away fun h => by rw [hv] at h; cases h; cases ha), ho⟩
  | lock v y k' l' hv hn => rw [ho] at hn; cases hn
  | unlock v y r l' hv hu =>
    rw [ho] at hu
    cases hu
    exact absurd rfl he
  | ret v y r hv => exact ⟨other (away fun h => by rw [hv] at h; cases h), ho⟩

theorem waits_run {s' : St Tid T.width} {evs : List (Ev Tid T.width)} {x : Entry T.width} {k : Sec T.width}
    {l : Option (Loop T.width × BitVec T.width)} (ht : s.thr t = .busy x (.lock k l)) (ho : s.owner = some u)
    (he : Ev.run u ∉ evs) (hs : Lts.Sys.runList (step C T inst) s evs = some s') :
    s'.thr t = .busy x (.lock k l) ∧ s'.owner = some u := by
  induction evs generalizing s with
  | nil =>
    cases hs
    exact ⟨ht, ho⟩
  | cons e evs ih =>
    obtain ⟨s₁, h₁, hrest⟩ := Option.bind_eq_some_iff.mp hs
    obtain ⟨ht₁, ho₁⟩ := waits_step ht ho (fun h => he (h ▸ List.mem_cons_self ..)) h₁
    exact ih ht₁ ho₁ (fun h => he (List.mem_cons_of_mem _ h)) hrest

/-- Thread `t` has called `c`, and thread `u` is within a section of the slot lock: until `u` runs, `t` makes no step,
    whatever the others do. -/
structure Stopped (C : Impl) (T : IntTy) (inst : Inst) (s : St Tid T.width) (t u : Tid) (c : Call T.width) : Prop where
  within : ∃ y k l, s.thr u = .busy y (.inside k l)
  owner : s.owner = some u
  called : ∃ x p, s.thr t = .busy x p ∧ x.call = c
  stays : ∀ evs s', Ev.run u ∉ evs → Lts.Sys.runList (step C T inst) s evs = some s' →
    step C T inst s' (.run t) = none

theorem Stopped.not_returnsAlone {c : Call T.width} {v₀ : BitVec T.width} (h : Stopped C T inst s t u c)
    (hs : (sys C T inst v₀).Reach s) (hc : c.isUnsized = false) : ¬ ReturnsAlone Tid C T inst := by
  intro hall
  obtain ⟨x, p, ht, rfl⟩ := h.called
  obtain ⟨n, s', hr, hidle⟩ := hall v₀ s hs t x p ht hc
  cases n with
  | zero =>
    cases hr
    rw [ht] at hidle
    cases hidle
  | succ n =>
    rw [List.replicate_succ, Lts.Sys.runList, h.stays [] s List.not_mem_nil rfl] at hr
    cases hr

theorem code_lockBased (C : Impl) (T : IntTy) (c : Call T.width) : ∃ k l, code C T .lockBased c = .lock k l := by
  cases c <;> exact ⟨_, _, rfl⟩

/-- An unsized load is stopped in its section, and then `c` is called. -/
theorem lockBased_stops (hne : t ≠ u) (v₀ : BitVec T.width) (c : Call T.width) : ∃ s : St Tid T.width,
    (sys C T .lockBased v₀).Reach s ∧ Stopped C T .lockBased s t u c := by
  obtain ⟨s₁, x, h₁, ho₁, ht₁⟩ : ∃ s₁ x, step C T .lockBased (start v₀) (.call u (.unsized (.load .seqCst))) = some s₁ ∧
      s₁.owner = none ∧ s₁.thr = Function.update (fun _ => .idle) u (.busy x (.lock .load none)) :=
    ⟨_, _, call_step rfl _, rfl, rfl⟩
  have hu : s₁.thr u = .busy x (.lock .load none) := by rw [ht₁, Function.update_self]
  obtain ⟨s₂, h₂, ho₂, hu₂, ht₂⟩ : ∃ s₂, step C T .lockBased s₁ (.run u) = some s₂ ∧ s₂.owner = some u ∧
      s₂.thr u = .busy x (.inside .load none) ∧ s₂.thr t = s₁.thr t :=
    ⟨_, lock_step hu ho₁, rfl, Function.update_self .., Function.update_of_ne hne _ _⟩
  have hidle : s₂.thr t = .idle := by rw [ht₂, ht₁, Function.update_of_ne hne]
  obtain ⟨k, l, hcode⟩ := code_lockBased C T c
  obtain ⟨s₃, y, h₃, hy, ho₃, hu₃, ht₃⟩ : ∃ s₃ y, step C T .lockBased s₂ (.call t c) = some s₃ ∧ y.call = c ∧
      s₃.owner = s₂.owner ∧ s₃.thr u = s₂.thr u ∧ s₃.thr t = .busy y (.lock k l) :=
    ⟨_, ⟨s₂.calls.length, c, s₂.results.map Prod.fst⟩, call_step hidle _, rfl, rfl, Function.update_of_ne hne.symm _ _,
      (Function.update_self ..).trans (by rw [hcode])⟩
  have hown : s₃.owner = some u := ho₃.trans ho₂
  refine ⟨s₃, .step _ (.step _ (.step _ (.init rfl) h₁) h₂) h₃, ⟨x, .load, none, hu₃.trans hu₂⟩, hown, ⟨y, _, ht₃, hy⟩,
    fun evs s' he hr => ?_⟩
  obtain ⟨ht', ho'⟩ := waits_run ht₃ hown he hr
  exact blocked ht' ho'

theorem returnsAlone_iff [Nontrivial Tid] : ReturnsAlone Tid C T inst ↔ ∃ h, inst = .lockFree h := by
  cases inst with
  | lockFree h => exact iff_of_true (lockFree_alone h) ⟨h, rfl⟩
  | lockBased =>
    obtain ⟨t, u, hne⟩ := exists_pair_ne Tid
    obtain ⟨s, hs, hstop⟩ : ∃ s, _ ∧ Stopped C T .lockBased s t u (.sized (.load .seqCst)) := lockBased_stops hne 0 _
    exact iff_of_false (hstop.not_returnsAlone hs rfl) fun ⟨h, e⟩ => by cases e

end

theorem uintLockFree_iff (P : Platform) (N : ℕ) : P.uintLockFree N ≠ 0 ↔ P.haveCompareAndSwap N = true := by
  unfold Platform.uintLockFree
  split <;> simp [*]

theorem atomicIsLockFree_iff (P : Platform) (size : ℕ) :
    atomicIsLockFree P size ≠ 0 ↔ size ∈ sizes ∧ P.haveCompareAndSwap size = true := by
  unfold atomicIsLockFree
  split_ifs with h1 h2 h4 h8 h16
  case neg => simp [sizes, h1, h2, h4, h8, h16]
  all_goals
    subst size
    rw [uintLockFree_iff]
    exact (and_iff_right (by decide)).symm

/-- On every platform, for at least two threads and every size: `atomic_is_lock_free` is not 0 just if there are sized
    functions for it whose calls all return alone, whatever the other threads have been stopped in. Where it is 0 for
    a size that has functions, a thread that is stopped in a section of the slot lock stops every call of another. -/
theorem is_lock_free_iff (P : Platform) (Tid : Type) [DecidableEq Tid] [Nontrivial Tid] (C : Impl) (size : ℕ) :
    (atomicIsLockFree P size ≠ 0 ↔ size ∈ sizes ∧ ReturnsAlone Tid C (uintBytes size) (instOf P size)) ∧
    (atomicIsLockFree P size = 0 → size ∈ sizes → ∀ (v₀ : BitVec (uintBytes size).width) (t u : Tid), t ≠ u → ∀ c,
      ∃ s, (sys C (uintBytes size) (instOf P size) v₀).Reach s ∧ Stopped C (uintBytes size) (instOf P size) s t u c) := by
  constructor
  · have hinst : (∃ h, instOf P size = .lockFree h) ↔ P.haveCompareAndSwap size = true := by
      unfold instOf
      split <;> simp [*]
    rw [atomicIsLockFree_iff, returnsAlone_iff, hinst]
  · intro h0 hsize v₀ t u hne c
    have hcas : P.haveCompareAndSwap size = false := by
      by_contra hcas
      exact (atomicIsLockFree_iff P size).mpr ⟨hsize, by simpa using hcas⟩ h0
    have hinst : instOf P size = .lockBased := by rw [instOf, hcas]; rfl
    rw [hinst]
    exact lockBased_stops hne v₀ c

/-- 64 bits, without a compare-and-swap of 16 bytes. -/
def platform64 : Platform := ⟨fun N => N ≤ 8, .gccAtomic⟩

theorem platform64_blocks : ReturnsAlone Bool int32 (uintBytes 8) (instOf platform64 8) ∧
    ∃ s, Stopped int32 (uintBytes 16) (instOf platform64 16) s true false (.sized (.load .seqCst)) := by
  obtain ⟨s, -, hs⟩ := (is_lock_free_iff platform64 Bool int32 16).2 (by decide) (by decide) 0 true false (by decide)
    (.sized (.load .seqCst))
  exact ⟨((is_lock_free_iff platform64 Bool int32 8).1.mp (by decide)).2, s, hs⟩

end Stdatomic.Mixed
