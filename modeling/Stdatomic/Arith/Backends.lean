/-
  Stdatomic.Arith.Backends — the arithmetic of the back ends, run without interference:
  the stubs of `atomic_stub.h`, the `__sync` functions and the user macros of
  `atomic_gcc_sync.h`, and the functions of `atomic_clang_c11.h`.

  A function of a back end takes the object's value and the operand and gives the object
  afterwards and its result. The compiler's builtins do what their names say. Both
  function families get their nand from `INSTANTIATE_STUB_NAND`.

  All forms agree (`functions_agree`) but two: the macros `atomic_fetch_and_explicit` and
  `atomic_fetch_or_explicit` of `atomic_gcc_sync.h` call the builtin of the other
  operation, so they agree only where `v & y` and `v | y` do (`forms_agree_iff`).
-/

import Stdatomic.Arith.Stub

namespace Stdatomic.Arith

open CInt

/-- The object afterwards, and the result. -/
abbrev Rmw (w : ℕ) := BitVec w × BitVec w

def syncFetchAnd {w : ℕ} (op : Op) (v y : BitVec w) : Rmw w := (op.apply _ v y, v)

def syncAndFetch {w : ℕ} (op : Op) (v y : BitVec w) : Rmw w := (op.apply _ v y, op.apply _ v y)

def c11AtomicFetch {w : ℕ} (op : Op) (v y : BitVec w) : Rmw w := (op.apply _ v y, v)

/-- A stub with nobody else on the object, for at most `n` attempts. -/
def Stub.alone {T : IntTy} (s : Stub T) (v : BitVec T.width) (n : ℕ) : Option (Rmw T.width) :=
  let r := s.call v (List.replicate n id)
  r.result.bind fun x => r.attempts.getLast?.map fun a => (a.2, x)

namespace GccSync

variable {w : ℕ} (v y : BitVec w)

/-! `INSTANTIATE_STUB_LF` of `atomic_gcc_sync.h`. -/

def implFetchAdd : Rmw w := syncFetchAnd .add v y

def implFetchSub : Rmw w := syncFetchAnd .sub v y

def implFetchAnd : Rmw w := syncFetchAnd .and v y

def implFetchXor : Rmw w := syncFetchAnd .xor v y

def implFetchOr : Rmw w := syncFetchAnd .or v y

def implAddFetch : Rmw w := syncAndFetch .add v y

def implSubFetch : Rmw w := syncAndFetch .sub v y

def implAndFetch : Rmw w := syncAndFetch .and v y

def implXorFetch : Rmw w := syncAndFetch .xor v y

def implOrFetch : Rmw w := syncAndFetch .or v y

/-! The macros for users. -/

def atomicFetchAddExplicit : Rmw w := syncFetchAnd .add v y

def atomicFetchSubExplicit : Rmw w := syncFetchAnd .sub v y

/-- As written: the builtin is `__sync_fetch_and_or`. -/
def atomicFetchAndExplicit : Rmw w := syncFetchAnd .or v y

/-- As written: the builtin is `__sync_fetch_and_and`. -/
def atomicFetchOrExplicit : Rmw w := syncFetchAnd .and v y

def atomicFetchXorExplicit : Rmw w := syncFetchAnd .xor v y

def atomicFetchAdd : Rmw w := atomicFetchAddExplicit v y

def atomicFetchSub : Rmw w := atomicFetchSubExplicit v y

def atomicFetchAnd : Rmw w := atomicFetchAndExplicit v y

def atomicFetchOr : Rmw w := atomicFetchOrExplicit v y

def atomicFetchXor : Rmw w := atomicFetchXorExplicit v y

/-- The functions by operation and form; those of nand are stubs. -/
def fn : Op → Bool → Option (BitVec w → BitVec w → Rmw w)
  | .add, true => some implFetchAdd
  | .sub, true => some implFetchSub
  | .and, true => some implFetchAnd
  | .or, true => some implFetchOr
  | .xor, true => some implFetchXor
  | .add, false => some implAddFetch
  | .sub, false => some implSubFetch
  | .and, false => some implAndFetch
  | .or, false => some implOrFetch
  | .xor, false => some implXorFetch
  | .nand, _ => none

/-- The two macros of an operation; there are none for nand. -/
def macros : Op → List (Rmw w)
  | .add => [atomicFetchAddExplicit v y, atomicFetchAdd v y]
  | .sub => [atomicFetchSubExplicit v y, atomicFetchSub v y]
  | .and => [atomicFetchAndExplicit v y, atomicFetchAnd v y]
  | .or => [atomicFetchOrExplicit v y, atomicFetchOr v y]
  | .xor => [atomicFetchXorExplicit v y, atomicFetchXor v y]
  | .nand => []

end GccSync

namespace Clang

variable (C : Impl) (T : IntTy) (v y : BitVec T.width)

/-! `INSTANTIATE_STUB_LF` of `atomic_clang_c11.h`; the new value is computed again from the old. -/

def implFetchAdd : Rmw T.width := c11AtomicFetch .add v y

def implFetchSub : Rmw T.width := c11AtomicFetch .sub v y

def implFetchAnd : Rmw T.width := c11AtomicFetch .and v y

def implFetchXor : Rmw T.width := c11AtomicFetch .xor v y

def implFetchOr : Rmw T.width := c11AtomicFetch .or v y

def implOpFetch (op : Op) (operator : BinOp) : Rmw T.width :=
  let r := c11AtomicFetch op v y
  (r.1, assign C operator T r.2 y)

def implAddFetch : Rmw T.width := implOpFetch C T v y .add fun _ a b => a + b

def implSubFetch : Rmw T.width := implOpFetch C T v y .sub fun _ a b => a - b

def implAndFetch : Rmw T.width := implOpFetch C T v y .and fun _ a b => a &&& b

def implXorFetch : Rmw T.width := implOpFetch C T v y .xor fun _ a b => a ^^^ b

def implOrFetch : Rmw T.width := implOpFetch C T v y .or fun _ a b => a ||| b

/-- The functions by operation and form; those of nand are stubs. -/
def fn : Op → Bool → Option (BitVec T.width → BitVec T.width → Rmw T.width)
  | .add, true => some (implFetchAdd T)
  | .sub, true => some (implFetchSub T)
  | .and, true => some (implFetchAnd T)
  | .or, true => some (implFetchOr T)
  | .xor, true => some (implFetchXor T)
  | .add, false => some (implAddFetch C T)
  | .sub, false => some (implSubFetch C T)
  | .and, false => some (implAndFetch C T)
  | .or, false => some (implOrFetch C T)
  | .xor, false => some (implXorFetch C T)
  | .nand, _ => none

end Clang

section
variable (C : Impl) (T : IntTy) (v y : BitVec T.width) (MO : MemoryOrder)

def runFn (f : Option (BitVec T.width → BitVec T.width → Rmw T.width)) (fetch : Bool) : Option (Rmw T.width) :=
  match f with
  | some f => some (f v y)
  | none => (stub C T y MO .nand fetch).alone v 2

/-- What an operation is for: `v op y` in the object, `v` or the new value as result. -/
def rmwSpec (op : Op) (fetch : Bool) : Rmw T.width := (op.apply _ v y, if fetch then v else op.apply _ v y)

def FunctionsAgree (op : Op) (fetch : Bool) : Prop :=
  (stub C T y MO op fetch).alone v 2 = some (rmwSpec T v y op fetch) ∧
  runFn C T v y MO (GccSync.fn op fetch) fetch = some (rmwSpec T v y op fetch) ∧
  runFn C T v y MO (Clang.fn C T op fetch) fetch = some (rmwSpec T v y op fetch)

end

section
variable {C : Impl} {T : IntTy} {v y : BitVec T.width} {MO : MemoryOrder}

/-- Alone, a stub does its operation in at most two attempts, however many it could make. -/
theorem stub_alone (op : Op) (fetch : Bool) (n : ℕ) :
    (stub C T y MO op fetch).alone v (n + 2) = some (rmwSpec T v y op fetch) := by
  obtain ⟨hfirst, hnext⟩ := stub_guesses C y MO op fetch
  have hret := stub_returnsE C y MO op fetch
  by_cases h : v = 0#T.width
  · subst h
    simp [Stub.alone, Stub.call, Stub.loop, List.replicate_succ, hfirst, hret, rmwSpec]
  · simp [Stub.alone, Stub.call, Stub.loop, List.replicate_succ, compareExchange_ne h, hnext, hret, rmwSpec]

variable (C v y MO) in
theorem functions_agree (op : Op) (fetch : Bool) : FunctionsAgree C T v y MO op fetch := by
  have hadd := assign_eq C modular_add T
  have hsub := assign_eq C modular_sub T
  have hand := assign_eq C modular_and T
  have hor := assign_eq C modular_or T
  have hxor := assign_eq C modular_xor T
  refine ⟨stub_alone op fetch 0, ?_, ?_⟩
  · cases op <;> cases fetch
    case nand.true => exact stub_alone .nand true 0
    case nand.false => exact stub_alone .nand false 0
    all_goals rfl
  · cases op <;> cases fetch
    case nand.true => exact stub_alone .nand true 0
    case nand.false => exact stub_alone .nand false 0
    case add.false => exact congrArg some (Prod.ext rfl (hadd v y))
    case sub.false => exact congrArg some (Prod.ext rfl (hsub v y))
    case and.false => exact congrArg some (Prod.ext rfl (hand v y))
    case or.false => exact congrArg some (Prod.ext rfl (hor v y))
    case xor.false => exact congrArg some (Prod.ext rfl (hxor v y))
    all_goals rfl

theorem and_eq_or_iff {w : ℕ} {v y : BitVec w} : v &&& y = v ||| y ↔ v = y := by
  constructor
  · intro h
    ext i hi
    have := congrArg (fun z => z[i]) h
    simp only [BitVec.getElem_and, BitVec.getElem_or] at this
    cases hv : v[i] <;> cases hy : y[i] <;> simp [hv, hy] at this ⊢
  · intro e
    subst e
    simp

end

/-- All forms of an operation agree, for every width, value and operand, if and only if it is not
    and or or, whose macros are swapped, or the value is the operand. -/
theorem forms_agree_iff (C : Impl) (T : IntTy) (v y : BitVec T.width) (MO : MemoryOrder) (op : Op) :
    ((∀ fetch, FunctionsAgree C T v y MO op fetch) ∧ ∀ r ∈ GccSync.macros v y op, r = rmwSpec T v y op true) ↔
      (op ≠ .and ∧ op ≠ .or) ∨ v = y := by
  have hfun : ∀ fetch, FunctionsAgree C T v y MO op fetch := functions_agree C v y MO op
  constructor
  · rintro ⟨-, hmac⟩
    cases op with
    | and =>
      have := congrArg Prod.fst (hmac _ (List.mem_cons_self ..))
      exact Or.inr (and_eq_or_iff.mp this.symm)
    | or =>
      have := congrArg Prod.fst (hmac _ (List.mem_cons_self ..))
      exact Or.inr (and_eq_or_iff.mp this)
    | _ => exact Or.inl ⟨nofun, nofun⟩
  · intro h
    refine ⟨hfun, fun r hr => ?_⟩
    cases op
    case and =>
      obtain rfl : v = y := h.resolve_left fun hne => hne.1 rfl
      simp [GccSync.macros, GccSync.atomicFetchAnd, GccSync.atomicFetchAndExplicit, syncFetchAnd, Op.apply] at hr
      simp [hr, rmwSpec, Op.apply]
    case or =>
      obtain rfl : v = y := h.resolve_left fun hne => hne.2 rfl
      simp [GccSync.macros, GccSync.atomicFetchOr, GccSync.atomicFetchOrExplicit, syncFetchAnd, Op.apply] at hr
      simp [hr, rmwSpec, Op.apply]
    case nand => cases hr
    all_goals
      rcases List.mem_cons.mp hr with rfl | hr
      · rfl
      · rw [List.mem_singleton.mp hr]; rfl

def uint8 : IntTy := ⟨8, 0, false⟩

/-- `atomic_fetch_and` of 0 on an object with value 1 leaves 1. -/
theorem fetch_and_swapped : ¬ ((∀ fetch, FunctionsAgree int32 uint8 1 0 .seqCst .and fetch) ∧
    ∀ r ∈ GccSync.macros (1 : BitVec uint8.width) 0 .and, r = rmwSpec uint8 1 0 .and true) := by
  rintro ⟨-, h⟩
  exact absurd (h _ (List.mem_cons_self ..)) (by decide)

end Stdatomic.Arith
