/-
  Stdatomic.Futex.Lock — the futex lock: `__impl_mut_lock` and `__impl_mut_unlock`
  (`atomic_generic.c`) with their slow paths (`atomic_futex_lock.c`), run by `N` threads
  on one word.

  The word holds the lock bit (`lockbit`) and a 31-bit counter. The holder contributes
  `contrib` (both), a thread past the `fetch_add` of the slow path contributes 1.

  A thread's place (`Pc`) is the atomic operation or system call it does next; the local
  variables of `__impl_mut_lock_slow` go along (`Slow`). `sm` is `spins_max`, read once by
  each call. An event (`Ev`) is one step of one thread:
  - `lock t mo`: `t` calls `__impl_mut_lock`;
  - `run t`: `t` does its next compare-exchange, its `fetch_add`, or its `FUTEX_WAIT(val)`,
    which sleeps when the word still is `val` and fails with EWOULDBLOCK otherwise;
  - `spurious t`: `t`'s `FUTEX_WAIT` returns for no reason of the lock's, with or without
    having slept;
  - `unlock t mo`: `t` calls `__impl_mut_unlock`, up to its `fetch_sub`;
  - `wake t u`: the `FUTEX_WAKE` of `t` wakes `u`, or no one when no thread sleeps.
-/

import Stdatomic.Atomics
import Stdatomic.Lib.System
import Mathlib.Data.Fin.VecNotation
import Mathlib.Data.Fintype.Basic

namespace Stdatomic.Futex

/-- `unsigned`; on Linux it has 32 bits. -/
abbrev Unsigned := BitVec 32

def uintMax : Unsigned := BitVec.allOnes 32

def lockbit : Unsigned := uintMax / 2 + 1

/-- The HO and the LO bits. -/
def contrib : Unsigned := uintMax / 2 + 2

/-- `val & lockbit` as a condition. -/
def locked (val : Unsigned) : Bool := val &&& lockbit != 0

/-- The variables of `__impl_mut_lock_slow` that change, and its order `mo`. -/
structure Slow where
  val : Unsigned
  spins : Unsigned
  mo : MemoryOrder
  deriving DecidableEq, Repr

inductive Pc where
  /-- Outside the lock. -/
  | out
  /-- `__impl_mut_lock` at its compare-exchange. -/
  | fast (mo : MemoryOrder)
  /-- The first acquisition loop at its compare-exchange. -/
  | first (l : Slow)
  /-- At the `fetch_add`. -/
  | add (l : Slow)
  /-- The spin loop of the acquisition loop at its compare-exchange. -/
  | spin (l : Slow)
  /-- The futex loop at its `FUTEX_WAIT`. -/
  | wait (l : Slow)
  | asleep (l : Slow)
  /-- The futex loop at its compare-exchange. -/
  | retry (l : Slow)
  /-- The loop at `BIT_UNSET` at its compare-exchange. -/
  | unset (l : Slow)
  /-- Returned from `__impl_mut_lock`. -/
  | held
  /-- `__impl_mut_unlock_slow` at its `FUTEX_WAKE`. -/
  | wake
  deriving DecidableEq, Repr

/-- The first loop's guess: the expected value it writes to `val`, and `des`. -/
def guess (val : Unsigned) : Unsigned × Unsigned :=
  if locked val then (val - contrib, val) else (val, val + contrib)

/-- The next operation of a thread at `pc` on the word `w`: the word after it and where the
    thread is then. -/
def atomic (sm w : Unsigned) : Pc → Option (Unsigned × Pc)
  | .fast mo =>
    let r := compareExchange w 0 contrib
    some (r.obj, if r.ok then .held else .first ⟨r.expected, sm, mo⟩)
  | .first l =>
    let r := compareExchange w (guess l.val).1 (guess l.val).2
    let l' := { l with val := r.expected, spins := l.spins - 1 }
    some (r.obj, if r.ok then .held else if l'.spins = 0 then .add l' else .first l')
  | .add l =>
    let l' := { l with val := 1 + w }
    some (w + 1, if locked l'.val then .spin { l' with spins := sm } else .unset l')
  | .spin l =>
    let r := compareExchange w (l.val - contrib) (l.val - 1)
    let l' := { l with val := r.expected }
    let l'' := { l' with spins := l.spins - 1 }
    some (r.obj, if r.ok then .held else if !locked l'.val then .unset l'
      else if l''.spins = 0 then .wait l'' else .spin l'')
  | .wait l => some (w, if w = l.val then .asleep l else .retry l)
  | .retry l =>
    let r := compareExchange w (l.val - contrib) (l.val - 1)
    let l' := { l with val := r.expected }
    some (r.obj, if r.ok then .held else if !locked l'.val then .unset l' else .wait l')
  | .unset l =>
    let r := compareExchange w l.val (l.val ||| lockbit)
    let l' := { l with val := r.expected }
    some (r.obj, if r.ok then .held else if locked l'.val then .spin { l' with spins := sm } else .unset l')
  | _ => none

section
variable {sm w : Unsigned} {l : Slow}

/-! A compare-exchange that fails leaves the word and reads it to `val`. -/

theorem atomic_fast_ne {mo : MemoryOrder} (h : w ≠ 0) : atomic sm w (.fast mo) = some (w, .first ⟨w, sm, mo⟩) := by
  simp only [atomic, compareExchange_ne h, Bool.false_eq_true, if_false]

theorem atomic_first_ne (h : w ≠ (guess l.val).1) : atomic sm w (.first l) =
    some (w, if l.spins - 1 = 0 then .add { l with val := w, spins := l.spins - 1 }
      else .first { l with val := w, spins := l.spins - 1 }) := by
  simp only [atomic, compareExchange_ne h, Bool.false_eq_true, if_false]

theorem atomic_spin_ne (h : w ≠ l.val - contrib) : atomic sm w (.spin l) =
    some (w, if !locked w then .unset { l with val := w }
      else if l.spins - 1 = 0 then .wait { l with val := w, spins := l.spins - 1 }
      else .spin { l with val := w, spins := l.spins - 1 }) := by
  simp only [atomic, compareExchange_ne h, Bool.false_eq_true, if_false]

theorem atomic_retry_ne (h : w ≠ l.val - contrib) : atomic sm w (.retry l) =
    some (w, if !locked w then .unset { l with val := w } else .wait { l with val := w }) := by
  simp only [atomic, compareExchange_ne h, Bool.false_eq_true, if_false]

theorem atomic_unset_ne (h : w ≠ l.val) : atomic sm w (.unset l) =
    some (w, if locked w then .spin { l with val := w, spins := sm } else .unset { l with val := w }) := by
  simp only [atomic, compareExchange_ne h, Bool.false_eq_true, if_false]

end

/-- The compare-exchange a thread does next: its expected and its desired value. -/
def casArgs : Pc → Option (Unsigned × Unsigned)
  | .fast _ => some (0, contrib)
  | .first l => some (guess l.val)
  | .spin l => some (l.val - contrib, l.val - 1)
  | .retry l => some (l.val - contrib, l.val - 1)
  | .unset l => some (l.val, l.val ||| lockbit)
  | _ => none

theorem atomic_cas {sm w d : Unsigned} {p : Pc} (h : casArgs p = some (w, d)) : atomic sm w p = some (d, .held) := by
  cases p <;> simp only [casArgs, Option.some.injEq, Prod.mk.injEq, reduceCtorEq] at h
  case first l =>
    obtain ⟨rfl, rfl⟩ : (guess l.val).1 = w ∧ (guess l.val).2 = d := by rw [h]; exact ⟨rfl, rfl⟩
    simp [atomic]
  all_goals
    obtain ⟨rfl, rfl⟩ := h
    simp [atomic]

structure St (N : ℕ) where
  word : Unsigned
  pc : Fin N → Pc

variable {N : ℕ}

instance : DecidableEq (St N) := fun s s' =>
  decidable_of_iff (s.word = s'.word ∧ ∀ t, s.pc t = s'.pc t)
    ⟨fun h => by cases s; cases s'; exact congr (congrArg St.mk h.1) (funext h.2), fun h => h ▸ ⟨rfl, fun _ => rfl⟩⟩

def init : St N := ⟨0, fun _ => .out⟩

def goto (s : St N) (t : Fin N) (q : Pc) : St N := { s with pc := Function.update s.pc t q }

@[simp] theorem goto_pc (s : St N) (t : Fin N) (q : Pc) : (goto s t q).pc = Function.update s.pc t q := rfl

inductive Ev (N : ℕ) where
  | lock (t : Fin N) (mo : MemoryOrder)
  | run (t : Fin N)
  | spurious (t : Fin N)
  | unlock (t : Fin N) (mo : MemoryOrder)
  | wake (t : Fin N) (u : Option (Fin N))
  deriving DecidableEq, Repr

def Ev.tid : Ev N → Fin N
  | .lock t _ => t
  | .run t => t
  | .spurious t => t
  | .unlock t _ => t
  | .wake t _ => t

def isAsleep : Pc → Bool
  | .asleep _ => true
  | _ => false

/-- What FUTEX_WAIT does when it returns: the loop goes on to its compare-exchange. -/
def resumeWait : Pc → Option Pc
  | .wait l => some (.retry l)
  | .asleep l => some (.retry l)
  | _ => none

/-- `__impl_mut_unlock` after its `fetch_sub` returned `old`. -/
def afterSub (old : Unsigned) : Pc := if contrib ≠ old then .wake else .out

def step (sm : Unsigned) (s : St N) : Ev N → Option (St N)
  | .lock t mo => if s.pc t = .out then some (goto s t (.fast mo)) else none
  | .run t => (atomic sm s.word (s.pc t)).map fun r => ⟨r.1, Function.update s.pc t r.2⟩
  | .spurious t => (resumeWait (s.pc t)).map (goto s t)
  | .unlock t _ =>
    if s.pc t = .held then some ⟨s.word - contrib, Function.update s.pc t (afterSub s.word)⟩ else none
  | .wake t (some u) =>
    if s.pc t = .wake ∧ isAsleep (s.pc u) then (resumeWait (s.pc u)).map (goto (goto s t .out) u) else none
  | .wake t none => if s.pc t = .wake ∧ ∀ u, isAsleep (s.pc u) = false then some (goto s t .out) else none

def sys (N : ℕ) (sm : Unsigned) : Lts.Sys (St N) (Ev N) where
  init s := s = init
  step s e s' := step sm s e = some s'

inductive Moves (sm : Unsigned) (s : St N) : Ev N → St N → Prop
  | lock (t : Fin N) (mo : MemoryOrder) : s.pc t = .out → Moves sm s (.lock t mo) (goto s t (.fast mo))
  | run (t : Fin N) (w : Unsigned) (q : Pc) : atomic sm s.word (s.pc t) = some (w, q) →
      Moves sm s (.run t) ⟨w, Function.update s.pc t q⟩
  | spurious (t : Fin N) (q : Pc) : resumeWait (s.pc t) = some q → Moves sm s (.spurious t) (goto s t q)
  | unlock (t : Fin N) (mo : MemoryOrder) : s.pc t = .held →
      Moves sm s (.unlock t mo) ⟨s.word - contrib, Function.update s.pc t (afterSub s.word)⟩
  | wakeOne (t u : Fin N) (l : Slow) : s.pc t = .wake → s.pc u = .asleep l →
      Moves sm s (.wake t (some u)) (goto (goto s t .out) u (.retry l))
  | wakeNone (t : Fin N) : s.pc t = .wake → (∀ u, isAsleep (s.pc u) = false) →
      Moves sm s (.wake t none) (goto s t .out)

theorem isAsleep_iff {p : Pc} : isAsleep p = true ↔ ∃ l, p = .asleep l := by
  cases p <;> simp [isAsleep]

theorem step_moves {sm : Unsigned} {s s' : St N} {e : Ev N} (h : step sm s e = some s') : Moves sm s e s' := by
  cases e with
  | lock t mo =>
    simp only [step] at h
    split at h
    · cases h; exact .lock t mo ‹_›
    · cases h
  | run t =>
    obtain ⟨⟨w, q⟩, ha, rfl⟩ := Option.map_eq_some_iff.mp h
    exact .run t w q ha
  | spurious t =>
    obtain ⟨q, hq, rfl⟩ := Option.map_eq_some_iff.mp h
    exact .spurious t q hq
  | unlock t mo =>
    simp only [step] at h
    split at h
    · cases h; exact .unlock t mo ‹_›
    · cases h
  | wake t u =>
    cases u with
    | none =>
      simp only [step] at h
      split at h
      · rename_i ht; cases h; exact .wakeNone t ht.1 ht.2
      · cases h
    | some u =>
      simp only [step] at h
      split at h
      · rename_i ht
        obtain ⟨l, hl⟩ := isAsleep_iff.mp ht.2
        simp only [hl, resumeWait, Option.map_some, Option.some.injEq] at h
        subst h
        exact .wakeOne t u l ht.1 hl
      · cases h

theorem reach_of_runEvs {sm : Unsigned} {s : St N} (es : List (Ev N))
    (h : Lts.Sys.runList (step sm) init es = some s) : (sys N sm).Reach s := .runList (fun _ _ _ h => h) (.init rfl) h

end Stdatomic.Futex
