/-
  Stdatomic.Lib.Mutex — the abstract mutex: free or held by one member of `ι`, taken only
  when free and released only by its holder. Lock algorithms refine it, and what is
  proved over it holds of them.
-/

import Stdatomic.Lib.System

namespace Mutex

universe u

variable {ι : Type u}

inductive Ev (ι : Type u) where
  | take (i : ι)
  | release (i : ι)
  deriving DecidableEq, Repr

def step [DecidableEq ι] : Option ι → Ev ι → Option (Option ι)
  | none, .take i => some (some i)
  | some j, .release i => if i = j then some none else none
  | _, _ => none

def sys (ι : Type u) [DecidableEq ι] : Lts.Sys (Option ι) (Ev ι) where
  init o := o = none
  step o e o' := step o e = some o'

section
variable [DecidableEq ι] {o o' : Option ι} {i : ι}

theorem step_take : step o (.take i) = some o' ↔ o = none ∧ o' = some i := by
  cases o <;> simp [step, eq_comm]

theorem step_release : step o (.release i) = some o' ↔ o = some i ∧ o' = none := by
  cases o with
  | none => simp [step]
  | some j =>
    by_cases e : i = j
    · subst e; simp [step, eq_comm]
    · simp [step, e, Ne.symm e]

end

end Mutex
