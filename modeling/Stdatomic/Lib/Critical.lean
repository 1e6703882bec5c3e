/-
  Stdatomic.Lib.Critical — programs with one critical section on one object, cell by cell.

  A program (`Prog`) takes the lock of its object, copies and compares cells of the
  object and of private buffers, gives the lock back and may go on with its buffers. `α`
  is what the lock operations are annotated with, `β` the type of a cell.

  - `exec`: one step in shared memory, one cell at a time; `exec_frame` says which cells
    it leaves alone.
  - `eval`: the whole program in one go on the contents of the object.
  - `eval_exec`: a step does not change what the rest of the program evaluates to. This
    is what makes a section indivisible: while nobody else touches the object and the
    buffers, its outcome is settled when the lock is taken.
-/

import Mathlib.Data.Nat.Notation
import Mathlib.Logic.Function.Basic

namespace Critical

variable {α β Buf : Type*}

inductive Prog (α Buf : Type*) where
  | ret (r : Option Bool)
  | lock (a : α) (k : Prog α Buf)
  | unlock (a : α) (k : Prog α Buf)
  /-- Copies the object to a buffer. -/
  | read (b : Buf) (k : Prog α Buf)
  /-- Copies a buffer to the object. -/
  | write (b : Buf) (k : Prog α Buf)
  /-- Copies a buffer to a buffer. -/
  | move (src dst : Buf) (k : Prog α Buf)
  /-- Compares the object with a buffer. -/
  | compare (b : Buf) (eq ne : Prog α Buf)
  deriving DecidableEq

/-- After the section: only buffers are left to copy. -/
def Prog.after : Prog α Buf → Bool
  | .ret _ => true
  | .move _ _ k => k.after
  | _ => false

def Prog.inside : Prog α Buf → Bool
  | .read _ k => k.inside
  | .write _ k => k.inside
  | .move _ _ k => k.inside
  | .compare _ eq ne => eq.inside && ne.inside
  | .unlock _ k => k.after
  | _ => false

/-- One section, entered first and left on every way through. -/
def Prog.closed : Prog α Buf → Bool
  | .lock _ k => k.inside
  | _ => false

def Prog.locks : Prog α Buf → List α
  | .ret _ => []
  | .lock a k => a :: k.locks
  | .unlock _ k => k.locks
  | .read _ k => k.locks
  | .write _ k => k.locks
  | .move _ _ k => k.locks
  | .compare _ eq ne => eq.locks ++ ne.locks

def Prog.unlocks : Prog α Buf → List α
  | .ret _ => []
  | .lock _ k => k.unlocks
  | .unlock a k => a :: k.unlocks
  | .read _ k => k.unlocks
  | .write _ k => k.unlocks
  | .move _ _ k => k.unlocks
  | .compare _ eq ne => eq.unlocks ++ ne.unlocks

abbrev Bufs (Buf β : Type*) := Buf → ℕ → β

structure Result (Buf β : Type*) where
  bufs : Bufs Buf β
  ret : Option Bool

structure Outcome (ρ β : Type*) (n : ℕ) where
  obj : Fin n → β
  res : ρ

variable [DecidableEq Buf] [DecidableEq β]

/-- Cells `i` to `n - 1` of `f`, the others of `g`. -/
def patch (n i : ℕ) (f : Fin n → β) (g : ℕ → β) : ℕ → β :=
  fun j => if h : j < n then (if i ≤ j then f ⟨j, h⟩ else g j) else g j

/-- The whole program on an object of `n` cells; the copy or comparison it begins with goes on at cell `i`. -/
def eval {n : ℕ} : Prog α Buf → ℕ → (Fin n → β) → Bufs Buf β → Outcome (Result Buf β) β n
  | .ret r, _, v, m => ⟨v, m, r⟩
  | .lock _ k, _, v, m => eval k 0 v m
  | .unlock _ k, _, v, m => eval k 0 v m
  | .read b k, i, v, m => eval k 0 v (Function.update m b (patch n i v (m b)))
  | .write b k, i, v, m => eval k 0 (fun j => if i ≤ j then m b j else v j) m
  | .move src dst k, i, v, m => eval k 0 v (Function.update m dst (patch n i (fun j => m src j) (m dst)))
  | .compare b eq ne, i, v, m => if ∀ j : Fin n, i ≤ j → v j = m b j then eval eq 0 v m else eval ne 0 v m

def setCell (m : Bufs Buf β) (b : Buf) (i : ℕ) (x : β) : Bufs Buf β := Function.update m b (Function.update (m b) i x)

/-- A step other than the lock operations and the return, on the object of `n` cells at address `a`. -/
def exec (a n : ℕ) : Prog α Buf → ℕ → (ℕ → β) → Bufs Buf β → Option ((ℕ → β) × Bufs Buf β × Prog α Buf × ℕ)
  | .read b k, i, mem, m =>
    if i < n then some (mem, setCell m b i (mem (a + i)), .read b k, i + 1) else some (mem, m, k, 0)
  | .write b k, i, mem, m =>
    if i < n then some (Function.update mem (a + i) (m b i), m, .write b k, i + 1) else some (mem, m, k, 0)
  | .move src dst k, i, mem, m =>
    if i < n then some (mem, setCell m dst i (m src i), .move src dst k, i + 1) else some (mem, m, k, 0)
  | .compare b eq ne, i, mem, m =>
    if i < n then if mem (a + i) = m b i then some (mem, m, .compare b eq ne, i + 1) else some (mem, m, ne, 0)
    else some (mem, m, eq, 0)
  | _, _, _, _ => none

def view (mem : ℕ → β) (a n : ℕ) : Fin n → β := fun j => mem (a + j)

omit [DecidableEq β] in
theorem patch_ge {n i : ℕ} (h : ¬ i < n) (f : Fin n → β) (g : ℕ → β) : patch n i f g = g := by
  funext j
  unfold patch
  split
  · rw [if_neg (by omega)]
  · rfl

omit [DecidableEq β] in
theorem patch_succ {n i : ℕ} (h : i < n) (f : Fin n → β) (g : ℕ → β) :
    patch n (i + 1) f (Function.update g i (f ⟨i, h⟩)) = patch n i f g := by
  funext j
  unfold patch
  by_cases e : j = i
  · subst e; simp [h]
  · rw [Function.update_of_ne e]
    by_cases hij : i ≤ j
    · simp [show i + 1 ≤ j by omega, hij]
    · simp [show ¬ i + 1 ≤ j by omega, hij]

omit [DecidableEq β] in
theorem view_update {mem : ℕ → β} {a n i : ℕ} (h : i < n) (x : β) :
    view (Function.update mem (a + i) x) a n = Function.update (view mem a n) ⟨i, h⟩ x := by
  funext j
  unfold view
  by_cases e : j = ⟨i, h⟩
  · subst e; simp
  · have hne : a + j.val ≠ a + i := fun hj => e (Fin.ext (by simpa using hj))
    rw [Function.update_of_ne e, Function.update_of_ne hne]

theorem exec_closed {p : Prog α Buf} (hp : p.closed = true) (a n i : ℕ) (mem : ℕ → β) (m : Bufs Buf β) :
    exec a n p i mem m = none := by
  cases p <;> first | rfl | cases hp

/-- A step leaves what the program evaluates to. -/
theorem eval_exec {a n i i' : ℕ} {p p' : Prog α Buf} {mem mem' : ℕ → β} {m m' : Bufs Buf β}
    (h : exec a n p i mem m = some (mem', m', p', i')) :
    eval p' i' (view mem' a n) m' = eval p i (view mem a n) m := by
  cases p with
  | ret r => cases h
  | lock x k => cases h
  | unlock x k => cases h
  | read b k =>
    simp only [exec] at h
    split at h
    · rename_i hi
      cases h
      simp only [eval, setCell, Function.update_self, Function.update_idem]
      rw [show mem (a + i) = view mem a n ⟨i, hi⟩ from rfl, patch_succ hi]
    · rename_i hi
      cases h
      simp only [eval, patch_ge hi, Function.update_eq_self]
  | write b k =>
    simp only [exec] at h
    split at h
    · rename_i hi
      cases h
      simp only [eval, view_update hi]
      congr 1
      funext j
      by_cases e : j = ⟨i, hi⟩
      · subst e; simp
      · have hne : (j : ℕ) ≠ i := fun hj => e (Fin.ext hj)
        rw [Function.update_of_ne e]
        by_cases hij : i ≤ j
        · simp [show i + 1 ≤ (j : ℕ) by omega, hij]
        · simp [show ¬ i + 1 ≤ (j : ℕ) by omega, hij]
    · rename_i hi
      cases h
      simp only [eval]
      congr 1
      funext j
      rw [if_neg (by omega)]
  | move src dst k =>
    simp only [exec] at h
    split at h
    · rename_i hi
      cases h
      have hsrc : ∀ j : Fin n, setCell m dst i (m src i) src j = m src j := by
        intro j
        unfold setCell
        by_cases e : src = dst
        · subst e; simp
        · rw [Function.update_of_ne e]
      simp only [eval, hsrc]
      simp only [setCell, Function.update_self, Function.update_idem]
      rw [patch_succ hi fun j => m src j]
    · rename_i hi
      cases h
      simp only [eval, patch_ge hi, Function.update_eq_self]
  | compare b eq ne =>
    simp only [exec] at h
    split at h
    · rename_i hi
      split at h
      · rename_i heq
        cases h
        have hiff : (∀ j : Fin n, i + 1 ≤ j → view mem a n j = m b j) ↔
            ∀ j : Fin n, i ≤ j → view mem a n j = m b j := by
          refine ⟨fun hall j hj => ?_, fun hall j hj => hall j (by omega)⟩
          by_cases e : (j : ℕ) = i
          · rw [view, e]; exact heq
          · exact hall j (by omega)
        simp only [eval, hiff]
      · rename_i hne
        cases h
        have hnot : ¬ ∀ j : Fin n, i ≤ j → view mem a n j = m b j := fun hall => hne (hall ⟨i, hi⟩ (Nat.le_refl i))
        simp only [eval, if_neg hnot]
    · rename_i hi
      cases h
      have hall : ∀ j : Fin n, i ≤ j → view mem a n j = m b j := fun j hj => by omega
      simp only [eval, if_pos hall]

/-- A step changes memory only within the object. -/
theorem exec_frame {a n i i' : ℕ} {p p' : Prog α Buf} {mem mem' : ℕ → β} {m m' : Bufs Buf β}
    (h : exec a n p i mem m = some (mem', m', p', i')) {x : ℕ} (hx : ∀ j < n, x ≠ a + j) : mem' x = mem x := by
  cases p <;> simp only [exec, reduceCtorEq] at h <;> (repeat' split at h) <;> cases h <;> try rfl
  rename_i hi
  exact Function.update_of_ne (hx i hi) _ _

theorem exec_inside {a n i i' : ℕ} {p p' : Prog α Buf} {mem mem' : ℕ → β} {m m' : Bufs Buf β}
    (h : exec a n p i mem m = some (mem', m', p', i')) (hp : p.inside = true) : p'.inside = true := by
  cases p <;> simp only [exec, reduceCtorEq] at h <;> (repeat' split at h) <;> cases h <;> simp_all [Prog.inside]

theorem exec_annotations {a n i i' : ℕ} {p p' : Prog α Buf} {mem mem' : ℕ → β} {m m' : Bufs Buf β}
    (h : exec a n p i mem m = some (mem', m', p', i')) : p'.locks ⊆ p.locks ∧ p'.unlocks ⊆ p.unlocks := by
  cases p <;> simp only [exec, reduceCtorEq] at h <;> (repeat' split at h) <;> cases h <;>
    simp [Prog.locks, Prog.unlocks]

/-- After the section the object is left alone, and the outcome does not depend on it. -/
theorem exec_after {a n i i' : ℕ} {p p' : Prog α Buf} {mem mem' : ℕ → β} {m m' : Bufs Buf β}
    (h : exec a n p i mem m = some (mem', m', p', i')) (hp : p.after = true) : mem' = mem ∧ p'.after = true := by
  cases p <;> simp only [exec, reduceCtorEq] at h <;> (repeat' split at h) <;> cases h <;> simp_all [Prog.after]

theorem eval_after {n : ℕ} {p : Prog α Buf} (hp : p.after = true) (i : ℕ) (v v' : Fin n → β) (m : Bufs Buf β) :
    eval p i v m = { eval p i v' m with obj := v } := by
  induction p generalizing i m with
  | ret r => rfl
  | move src dst k ih => exact ih hp 0 _
  | _ => cases hp

end Critical
