/-
  Stdatomic.Atomics — what the locks and the atomic operations share: the memory orders
  (`atomic_constants.h`), their translation to the two sides of a lock (`mol`, `mou` of
  `atomic_generic.c`) and the compare-exchange as one atomic step.
-/

namespace Stdatomic

inductive MemoryOrder where
  | relaxed
  | consume
  | acquire
  | release
  | acqRel
  | seqCst
  deriving DecidableEq, Repr

/-- The order of the lock side of an operation with order `mo`. -/
def mol : MemoryOrder → MemoryOrder
  | .release => .relaxed
  | .acqRel => .acquire
  | mo => mo

/-- The order of the unlock side. -/
def mou : MemoryOrder → MemoryOrder
  | .acquire => .relaxed
  | .consume => .relaxed
  | .acqRel => .release
  | mo => mo

/-- The failure order the locks and the stubs derive from `mo`. -/
def mof (mo : MemoryOrder) : MemoryOrder := if mo = .relaxed then .relaxed else .consume

/-- What a strong compare-exchange leaves: its result, the object and `*expected`. -/
structure Cas (α : Type) where
  ok : Bool
  obj : α
  expected : α
  deriving DecidableEq, Repr

def compareExchange {α : Type} [DecidableEq α] (obj expected desired : α) : Cas α :=
  if obj = expected then ⟨true, desired, expected⟩ else ⟨false, obj, obj⟩

section
variable {α : Type} [DecidableEq α] {obj expected desired : α}

@[simp] theorem compareExchange_eq (obj desired : α) : compareExchange obj obj desired = ⟨true, desired, obj⟩ := by
  simp [compareExchange]

theorem compareExchange_ne (h : obj ≠ expected) : compareExchange obj expected desired = ⟨false, obj, obj⟩ := by
  simp [compareExchange, h]

end

end Stdatomic
