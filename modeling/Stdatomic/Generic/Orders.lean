/-
  Stdatomic.Generic.Orders — the memory orders of the locks, and what the operations see of one
  another over them.

  `Generic.Views` has the orders that the operations give to an abstract lock. Here they go into
  the code of `__impl_mut_lock` and `__impl_mut_unlock`, slow paths included. A thread reads
  the word with the failure order of each compare-exchange that fails, the `fetch_add` is
  relaxed, the slow path of `lock-repl.c` has orders of its own, and `memory_order_seq_cst`
  makes a compare-exchange release too. The futex lock, with either slow path, and CMPXCHG
  change the word by read-modify-writes alone, so it keeps what all sections
  have left there; a flag is cleared by a store, which leaves only what its own thread
  has seen.

  - `strategies_synchronize`: within a section whose order acquires, a thread has seen the
    sections of the slot that have ended with an order that releases, and all that these
    had seen; with FLAG, if the sections of the slot all acquire.
  - `flag_forgets`: which they have to.

  FLAG_ONLY is left out: it passes no order to `__atomic_clear`.
-/

import Stdatomic.Generic.Library
import Stdatomic.Generic.Views
import Stdatomic.Lib.LockViews

namespace Stdatomic.Generic

open Critical LockTable
open Views (Access)

/-! ## The accesses -/

def rmwOf (mo : MemoryOrder) : Access := ⟨acquires mo, releases mo, .rmw⟩

/-- A compare-exchange; one that fails is a load. -/
def casAccess (ok : Bool) (mos mof : MemoryOrder) : Access := if ok then rmwOf mos else ⟨acquires mof, false, .load⟩

theorem casAccess_kind {ok : Bool} {mos mof : MemoryOrder} : (casAccess ok mos mof).kind ≠ .store := by
  unfold casAccess
  split <;> exact fun h => by cases h

/-! ## The futex lock -/

def futexAccess (w : Futex.Unsigned) : Futex.Pc → Option Access
  | .fast mo => some (casAccess (compareExchange w 0 Futex.contrib).ok mo (mof mo))
  | .first l =>
    some (casAccess (compareExchange w (Futex.guess l.val).1 (Futex.guess l.val).2).ok l.mo (mof l.mo))
  | .add _ => some (rmwOf .relaxed)
  | .spin l => some (casAccess (compareExchange w (l.val - Futex.contrib) (l.val - 1)).ok l.mo (mof l.mo))
  | .retry l => some (casAccess (compareExchange w (l.val - Futex.contrib) (l.val - 1)).ok l.mo (mof l.mo))
  | .unset l => some (casAccess (compareExchange w l.val (l.val ||| Futex.lockbit)).ok l.mo (mof l.mo))
  | _ => none

/-- The order that a thread in `__impl_mut_lock` has been given acquires. -/
def futexAsks : Futex.Pc → Bool
  | .fast mo => acquires mo
  | .first l | .add l | .spin l | .wait l | .asleep l | .retry l | .unset l => acquires l.mo
  | _ => false

section
variable {N : ℕ} {sm w w' : Futex.Unsigned} {p q : Futex.Pc} {s s' : Futex.St N} {e : Futex.Ev N} {t : Fin N}

theorem futexAccess_kind {x : Access} (h : futexAccess w p = some x) : x.kind ≠ .store := by
  cases p <;> simp only [futexAccess, Option.some.injEq, reduceCtorEq] at h <;> subst h
  case add l => exact fun h => by cases h
  all_goals exact casAccess_kind

/-- The order goes through the loops. -/
theorem futexAsks_atomic (h : Futex.atomic sm w p = some (w', q)) : q = .held ∨ futexAsks q = futexAsks p := by
  cases p <;> simp only [Futex.atomic, Option.some.injEq, Prod.mk.injEq, reduceCtorEq] at h <;> obtain ⟨-, rfl⟩ := h <;>
    (repeat' split) <;> first | exact Or.inl rfl | exact Or.inr rfl

theorem futexAsks_resume (h : Futex.resumeWait p = some q) : futexAsks q = futexAsks p := by
  cases p <;> simp only [Futex.resumeWait, Option.some.injEq, reduceCtorEq] at h <;> subst h <;> rfl

/-- A thread comes in by a compare-exchange that succeeds. -/
theorem futexAccess_takes (h : Futex.atomic sm w p = some (w', .held)) :
    ∃ x, futexAccess w p = some x ∧ x.acq = futexAsks p := by
  cases p <;> simp only [Futex.atomic, Option.some.injEq, Prod.mk.injEq, reduceCtorEq] at h <;>
    obtain ⟨-, h⟩ := h <;> (repeat' split at h) <;> cases h
  all_goals
    rename_i hok
    exact ⟨_, rfl, by rw [hok]; rfl⟩

/-- What `t` asked for, while it is in `__impl_mut_lock`. -/
theorem futexAsks_step (hs : Futex.step sm s e = some s') (hp : futexPlace (s.pc t) = .locking)
    (hp' : futexPlace (s'.pc t) = .locking) : futexAsks (s'.pc t) = futexAsks (s.pc t) := by
  have other : ∀ {v : Fin N} {q : Futex.Pc}, futexPlace (Function.update s.pc v q t) = .locking →
      (t = v → futexPlace q = .locking → futexAsks q = futexAsks (s.pc v)) →
      futexAsks (Function.update s.pc v q t) = futexAsks (s.pc t) := by
    intro v q hq hv
    by_cases e : t = v
    · subst e
      rw [Function.update_self] at hq ⊢
      exact hv rfl hq
    · rw [Function.update_of_ne e]
  cases Futex.step_moves hs with
  | lock v mo hv =>
    refine other hp' fun e _ => ?_
    subst e
    rw [hv] at hp
    cases hp
  | run v w q ha =>
    refine other hp' fun e hq => (futexAsks_atomic ha).resolve_left fun h => ?_
    rw [h] at hq
    cases hq
  | spurious v q hq => exact other hp' fun _ _ => futexAsks_resume hq
  | unlock v mo hv =>
    refine other hp' fun e _ => ?_
    subst e
    rw [hv] at hp
    cases hp
  | wakeOne v x l hv hx =>
    rw [Futex.goto_pc, Futex.goto_pc] at hp' ⊢
    by_cases ex : t = x
    · subst ex
      rw [Function.update_self, hx]
      rfl
    · rw [Function.update_of_ne ex] at hp' ⊢
      refine other hp' fun e h => by cases h
  | wakeNone v hv => exact other hp' fun _ h => by cases h

end

/-- The access of an inner step, which for `FUTEX_WAIT` and `FUTEX_WAKE` is none. -/
def futexStepAccess {N : ℕ} (s : Futex.St N) : Futex.Ev N → Option (Fin N × Access)
  | .run t => (futexAccess s.word (s.pc t)).map fun x => (t, x)
  | _ => none

def futexOrders (N : ℕ) (sm : Futex.Unsigned) : Orders (futexLock N sm) acquires releases where
  access := futexStepAccess
  unlock := rmwOf
  asks s t := futexAsks (s.pc t)
  access_keeps s e t x h := by
    cases e with
    | run u =>
      obtain ⟨y, hy, he⟩ := Option.map_eq_some_iff.mp h
      cases he
      exact futexAccess_kind hy
    | _ => cases h
  asks_lock s t mo s' h := by
    have hs : Futex.step sm s (.lock t mo) = some s' := h
    cases Futex.step_moves hs with
    | lock t mo ht =>
      refine ⟨?_, fun ha => ?_⟩
      · show futexPlace (Function.update s.pc t (.fast mo) t) = .locking
        rw [Function.update_self]
        rfl
      · show futexAsks (Function.update s.pc t (.fast mo) t) = true
        rw [Function.update_self]
        exact ha
  asks_step s e t s' hs hp hp' ha := (futexAsks_step hs hp hp').trans ha
  takes s e t s' _ hs hp hp' ha := by
    have hheld : s'.pc t = .held := futexPlace_held.mp hp'
    have away : ∀ {u : Fin N} {q : Futex.Pc}, Function.update s.pc u q t = .held → t = u ∧ q = .held := by
      intro u q h
      by_cases e : t = u
      · subst e
        exact ⟨rfl, by simpa using h⟩
      · rw [Function.update_of_ne e] at h
        rw [show (futexLock N sm).place s t = futexPlace (s.pc t) from rfl, h] at hp
        cases hp
    cases Futex.step_moves hs with
    | run u w q hq =>
      obtain ⟨rfl, rfl⟩ := away hheld
      obtain ⟨x, hx, hacq⟩ := futexAccess_takes hq
      exact ⟨x, by simp only [futexStepAccess, hx, Option.map_some], hacq.trans ha⟩
    | lock u mo hu => cases (away hheld).2
    | spurious u q hq =>
      obtain ⟨rfl, rfl⟩ := away hheld
      obtain ⟨-, hl⟩ := futexPlace_resume hq
      cases hl
    | unlock u mo hu =>
      obtain ⟨rfl, -⟩ := away hheld
      rw [show (futexLock N sm).place s t = futexPlace (s.pc t) from rfl, hu] at hp
      cases hp
    | wakeOne u x l hu hx =>
      rw [Futex.goto_pc, Futex.goto_pc] at hheld
      by_cases e : t = x
      · subst e
        rw [Function.update_self] at hheld
        cases hheld
      · rw [Function.update_of_ne e] at hheld
        cases (away hheld).2
    | wakeNone u hu => cases (away hheld).2
  unlock_writes mo h := by cases h
  unlock_rel mo h := h
  store_rel mo h := by cases h

/-! ## The spinning locks -/

/-- How a spinning lock accesses its word: an attempt, by whether it succeeds, and unlocking. -/
structure SpinAccess {W P : Type} (L : SpinLock.Alg W MemoryOrder P) where
  attempt : P → Bool → Access
  unlock : MemoryOrder → Access
  asks : P → Bool
  enter : ∀ mo, acquires mo = true → asks (L.enter mo) = true
  again : ∀ k w k', (L.attempt k w).2 = some k' → asks k = true → asks k' = true
  takes : ∀ k, asks k = true → (attempt k true).acq = true
  attempt_keeps : ∀ k ok, (attempt k ok).kind ≠ .store
  unlock_writes : ∀ mo, (unlock mo).kind ≠ .load
  unlock_rel : ∀ mo, releases mo = true → (unlock mo).rel = true
  store_rel : ∀ mo, (unlock mo).kind = .store → (unlock mo).rel = true

section
variable {W P ι : Type} [DecidableEq ι] {L : SpinLock.Alg W MemoryOrder P} (X : SpinAccess L)

def spinAsks : SpinLock.Pc P → Bool
  | .trying k => X.asks k
  | _ => false

def spinStepAccess (s : SpinLock.St ι W P) : SpinLock.Ev ι MemoryOrder → Option (ι × Access)
  | .attempt t =>
    match s.pc t with
    | .trying k => some (t, X.attempt k (L.attempt k s.word).2.isNone)
    | _ => none
  | _ => none

def spinOrders (ι : Type) [DecidableEq ι] : Orders (spinLock L ι) acquires releases where
  access := spinStepAccess X
  unlock := X.unlock
  asks s t := spinAsks X (s.pc t)
  access_keeps s e t x h := by
    cases e with
    | attempt u =>
      simp only [spinStepAccess] at h
      split at h
      · cases h
        exact X.attempt_keeps _ _
      · cases h
    | _ => cases h
  asks_lock s t mo s' h := by
    have hs : SpinLock.step L s (.lock t mo) = some s' := h
    cases SpinLock.step_moves hs with
    | lock t mo ht =>
      refine ⟨?_, fun ha => ?_⟩
      · show spinPlace (Function.update s.pc t (.trying (L.enter mo)) t) = .locking
        rw [Function.update_self]
        rfl
      · show spinAsks X (Function.update s.pc t (.trying (L.enter mo)) t) = true
        rw [Function.update_self]
        exact X.enter mo ha
  asks_step s e t s' h hp hp' ha := by
    have hs : SpinLock.step L s e = some s' := h
    have other : ∀ {u : ι} {q : SpinLock.Pc P}, spinPlace (Function.update s.pc u q t) = .locking →
        (t = u → spinPlace q = .locking → spinAsks X q = true) → spinAsks X (Function.update s.pc u q t) = true := by
      intro u q hq hu
      by_cases e : t = u
      · subst e
        rw [Function.update_self] at hq ⊢
        exact hu rfl hq
      · rw [Function.update_of_ne e]
        exact ha
    have hpl : spinPlace (s.pc t) = .locking := hp
    have has : spinAsks X (s.pc t) = true := ha
    cases SpinLock.step_moves hs with
    | lock u mo hu =>
      refine other hp' fun e _ => ?_
      subst e
      rw [hu] at hpl
      cases hpl
    | attempt u k hu =>
      refine other hp' fun e hq => ?_
      subst e
      rw [hu] at has
      cases hk : (L.attempt k s.word).2 with
      | none => rw [hk] at hq; cases hq
      | some k' => exact X.again k s.word k' hk has
    | unlock u mo hu =>
      refine other hp' fun e _ => ?_
      subst e
      rw [hu] at hpl
      cases hpl
    | leave u hu =>
      refine other hp' fun e _ => ?_
      subst e
      rw [hu] at hpl
      cases hpl
  takes s e t s' _ h hp hp' ha := by
    have hs : SpinLock.step L s e = some s' := h
    have hpl : spinPlace (s.pc t) = .locking := hp
    have has : spinAsks X (s.pc t) = true := ha
    -- only an attempt of its own lets `t` in
    have away : ∀ {u : ι} {q : SpinLock.Pc P}, spinPlace (Function.update s.pc u q t) = .held → t = u := by
      intro u q hq
      by_contra e
      rw [Function.update_of_ne e, hpl] at hq
      cases hq
    cases SpinLock.step_moves hs with
    | attempt u k hu =>
      obtain rfl := away hp'
      rw [hu] at has
      have hin : spinPlace (SpinLock.afterAttempt (L.attempt k s.word).2) = .held := by
        have hq : spinPlace (Function.update s.pc t (SpinLock.afterAttempt (L.attempt k s.word).2) t) = .held := hp'
        rwa [Function.update_self] at hq
      cases hk : (L.attempt k s.word).2 with
      | some k' => rw [hk] at hin; cases hin
      | none => exact ⟨_, by simp only [spinStepAccess, hu, hk]; rfl, X.takes k has⟩
    | lock u mo hu => obtain rfl := away hp'; rw [hu] at hpl; cases hpl
    | unlock u mo hu => obtain rfl := away hp'; rw [hu] at hpl; cases hpl
    | leave u hu => obtain rfl := away hp'; rw [hu] at hpl; cases hpl
  unlock_writes := X.unlock_writes
  unlock_rel := X.unlock_rel
  store_rel := X.store_rel

end

def replacementAccess : SpinAccess Locks.replacement where
  attempt k ok :=
    match k with
    | .fast mo => casAccess ok mo (mof mo)
    | .slow => casAccess ok .acqRel .consume
  unlock := rmwOf
  asks k :=
    match k with
    | .fast mo => acquires mo
    | .slow => true
  enter _ h := h
  again k w k' h _ := by
    cases k <;> simp only [Locks.replacement, Locks.replAttempt] at h <;> split at h <;> cases h <;> rfl
  takes k h := by
    cases k with
    | fast mo => exact h
    | slow => rfl
  attempt_keeps k ok := by
    cases k <;> exact casAccess_kind
  unlock_writes mo h := by cases h
  unlock_rel mo h := h
  store_rel mo h := by cases h

def cmpxchgAccess : SpinAccess Locks.cmpxchg where
  attempt mo ok := casAccess ok mo (mof mo)
  unlock := rmwOf
  asks := acquires
  enter _ h := h
  again k w k' h hk := by
    simp only [Locks.cmpxchg, Locks.cmpxchgAttempt] at h
    split at h <;> cases h
    exact hk
  takes _ h := h
  attempt_keeps _ _ := casAccess_kind
  unlock_writes mo h := by cases h
  unlock_rel mo h := h
  store_rel mo h := by cases h

def flagMof (mo : MemoryOrder) : MemoryOrder :=
  if mo = .release then .relaxed else if mo = .acqRel then .acquire else mo

/-- `__sync_lock_test_and_set` is an acquire operation whatever comes of it. The clear is a store with
    `memory_order_seq_cst`. -/
def flagAccess (tv : Locks.SetValue) (b : Locks.BackEnd) : SpinAccess (Locks.flagLock tv b) where
  attempt mo ok :=
    match b with
    | .cas => casAccess ok mo (flagMof mo)
    | .sync => ⟨true, false, .rmw⟩
  unlock _ := ⟨false, releases .seqCst, .store⟩
  asks := acquires
  enter _ h := h
  again k w k' h hk := by
    simp only [Locks.flagLock] at h
    split at h <;> cases h
    exact hk
  takes _ h := by
    cases b with
    | cas => exact h
    | sync => rfl
  attempt_keeps _ _ := by
    cases b with
    | cas => exact casAccess_kind
    | sync => exact fun h => by cases h
  unlock_writes mo h := by cases h
  unlock_rel _ _ := rfl
  store_rel _ _ := rfl

/-! ## Synchronization -/

theorem asksOf_code {Obj U : Type} [DecidableEq U] (c : Call Obj U) : asksOf acquires c.code = acquires c.lockOrder := by
  cases c with
  | exchange ptr val ret mo =>
    simp only [Call.code, implExchange]
    split <;> exact acquires_mol mo
  | load ptr ret mo => exact acquires_mol mo
  | store ptr val mo => exact acquires_mol mo
  | compareExchange ptr expected desired mos mof => exact acquires_mol mos

/-- Over the lock `K`, on any objects, with any hash and any buffers: while a thread is within a section whose order
    acquires, it has seen the sections of its slot that have ended with an order that releases, and all they had seen.
    `acquiring`: if the sections of the slot all acquire. -/
def Synchronizes {Tid σ ε : Type} [DecidableEq Tid] {K : Lock Tid MemoryOrder σ ε} (O : Orders K acquires releases)
    (acquiring : Bool) : Prop :=
  ∀ (Obj Slot U : Type) [DecidableEq Obj] [DecidableEq Slot] [DecidableEq U] (L : Layout Obj) (hash : ℕ → Slot)
    (mem : ℕ → Byte) (v : LockTable.VSt Tid (Call Obj U) Slot MemoryOrder (Buf U) Byte σ),
    (LockTable.views (api L hash) O mem).Reach v → ∀ t c n, (v.base.thr t).within = some (c, n) →
    acquires c.lockOrder = true →
    (acquiring = true → ∀ x ∈ v.ended, hash (L.addr x.call.ptr) = hash (L.addr c.ptr) →
      acquires x.call.lockOrder = true) →
    ∀ x ∈ v.ended, hash (L.addr x.call.ptr) = hash (L.addr c.ptr) →
      releases x.order = true → x.ticket ∈ v.seen t ∧ x.view ⊆ v.seen t

theorem synchronizes_of_excludes {Tid σ ε : Type} [DecidableEq Tid] {K : Lock Tid MemoryOrder σ ε}
    {O : Orders K acquires releases} {acquiring : Bool} (hK : K.Excludes) (hO : acquiring = false → O.Keeps) :
    Synchronizes O acquiring := by
  intro Obj Slot U _ _ _ L hash mem v hv t c n hw hacq hall x hx hslot hrel
  have hkept : Kept (api L hash) O v.ended (hash (L.addr c.ptr)) := by
    cases acquiring with
    | false => exact Or.inl (hO rfl)
    | true => exact Or.inr fun y hy hq => (asksOf_code y.call).trans (hall rfl y hy hq)
  exact seen_of_within hK hv hw ((asksOf_code c).trans hacq) ⟨hx, hslot, O.unlock_rel _ hrel, hkept⟩

/-- Every lock of the repository that passes orders on synchronizes the operations: the futex lock up to its
    capacity, for any spin budget; the futex fast path with the replacement slow path; CMPXCHG; and FLAG where it excludes,
    as long as all sections of the slot acquire. -/
theorem strategies_synchronize (N : ℕ) (hN : N ≤ 2 ^ 31 - 1) (sm : Futex.Unsigned) (ι : Type) [DecidableEq ι]
    (tv : Locks.SetValue) :
    Synchronizes (futexOrders N sm) false ∧ Synchronizes (spinOrders replacementAccess ι) false ∧
    Synchronizes (spinOrders cmpxchgAccess ι) false ∧
    ∀ b, b = .cas ∨ tv.val = 1 → Synchronizes (spinOrders (flagAccess tv b) ι) true := by
  refine ⟨synchronizes_of_excludes (futex_excludes hN sm) fun _ _ => rfl,
    synchronizes_of_excludes (spin_excludes Locks.replacement_sound) fun _ _ => rfl,
    synchronizes_of_excludes (spin_excludes Locks.cmpxchg_sound) fun _ _ => rfl, fun b hb => ?_⟩
  have hsound : SpinLock.Sound (Locks.lockOf tv (.flag b)) _ := Locks.lock_sound (hb.imp_left fun h => by rw [h])
  exact synchronizes_of_excludes (spin_excludes hsound) fun h => by cases h

theorem two_threads_synchronize : Synchronizes (futexOrders 2 10) false :=
  (strategies_synchronize 2 (by decide) 10 Bool ⟨1, by decide⟩).1

/-! ## A store breaks the chain -/

/-- The calls of `lock` and `unlock` of one section of thread `t` on one byte, up to its `lock` and from there on. -/
def sectionBegins (t : Bool) (c : Call Unit Unit) :
    List (LockTable.Ev Bool (Call Unit Unit) Unit (Buf Unit) Byte (SpinLock.Ev Bool MemoryOrder)) :=
  [.call t c fun _ _ => 1, .run t, .inner () (.attempt t), .run t]

def sectionEnds (t : Bool) :
    List (LockTable.Ev Bool (Call Unit Unit) Unit (Buf Unit) Byte (SpinLock.Ev Bool MemoryOrder)) :=
  [.run t, .run t, .run t, .run t, .run t]

def setOne : Locks.SetValue := ⟨1, by decide⟩

/-- Thread `false` stores with order seq_cst, thread `true` with order release, and then it loads with order acquire. -/
def threeSections : Option (LockTable.VSt Bool (Call Unit Unit) Unit MemoryOrder (Buf Unit) Byte
    (SpinLock.St Bool Locks.FlagByte MemoryOrder)) :=
  Lts.Sys.runList (LockTable.vstep (api oneObject fun _ => ()) (spinOrders (flagAccess setOne .cas) Bool))
    ⟨LockTable.start (spinLock (Locks.flagLock setOne .cas) Bool) (fun _ => 0) fun _ _ _ => 0, fun _ => ∅, fun _ => ∅, []⟩
    (sectionBegins false (.store () () .seqCst) ++ sectionEnds false ++ sectionBegins true (.store () () .release) ++
      sectionEnds true ++ sectionBegins true (.load () () .acquire))

theorem threeSections_isSome : threeSections.isSome = true := by decide

def forgotten : LockTable.VSt Bool (Call Unit Unit) Unit MemoryOrder (Buf Unit) Byte
    (SpinLock.St Bool Locks.FlagByte MemoryOrder) := threeSections.get threeSections_isSome

theorem forgotten_reach : (LockTable.views (api oneObject fun _ => ()) (spinOrders (flagAccess setOne .cas) Bool)
    fun _ => 0).Reach forgotten :=
  .runList (fun _ _ _ h => h) (.init ⟨_, ⟨_, rfl⟩, rfl⟩) (Option.some_get threeSections_isSome).symm

/-- The clear of the second section, which locked with order relaxed, is all that the load reads: it has not seen the first. -/
theorem flag_forgets : ¬ Synchronizes (spinOrders (flagAccess setOne .cas) Bool) false := by
  intro h
  have hseen : ∀ x ∈ forgotten.ended, releases x.order = true → x.ticket ∈ forgotten.seen true := fun x hx hrel =>
    (h Unit Unit Unit oneObject (fun _ => ()) (fun _ => 0) forgotten forgotten_reach true (.load () () .acquire) 2
      (by decide) (by decide) (fun e => by cases e) x hx rfl hrel).1
  exact absurd hseen (by decide)

end Stdatomic.Generic
