/-
  Stdatomic.Arith.Pointer — `atomic_fetch_add_explicit` and `atomic_fetch_sub_explicit` on
  pointer objects, in `atomic_gcc_atomic.h` and in `atomic_gcc_sync.h`.

  An address is a value of `uintptr_t`. The builtins take a pointer object for one of
  type `uintptr_t` and add their second argument to it, so it has to be a number of bytes.
  The gcc header computes that number: `_r+_y`, on a null pointer `_r` of the base type,
  is `_y` elements further (`offset_ptr`), and `_IS_POINTER` sends the call to the functions
  for `uintptr_t` (`isPointer_ptr`). The `__sync` header hands the operand to the builtin as
  it is, so it counts bytes (`pointer_counts_iff`).
-/

import Stdatomic.Arith.Backends
import Stdatomic.Arith.GccAtomic
import Mathlib.Data.BitVec

namespace Stdatomic.Arith

open CInt

inductive Ty where
  | int (T : IntTy)
  | ptr (size : ℕ)
  deriving DecidableEq, Repr

section
variable (P : Platform)

def Ty.plusPtrdiff : Ty → Ty
  | .int T => .int (usual P.toImpl T P.ptrdiffT)
  | .ptr size => .ptr size

def Ty.minusSelf : Ty → Ty
  | .int T => .int (usual P.toImpl T T)
  | .ptr _ => .int P.ptrdiffT

def isPointerOf (R : Ty) : IsPointer :=
  if R.plusPtrdiff P = .int P.ptrdiffT then .x
  else if R.minusSelf P = .int P.ptrdiffT then .null
  else .x

theorem isPointerOf_ptr (size : ℕ) : isPointerOf P (.ptr size) = .null := by
  simp [isPointerOf, Ty.plusPtrdiff, Ty.minusSelf]

/-! ## The functions -/

abbrev Addr := BitVec P.uintptrT.width

/-- `r + y` for a pointer `r` to elements of `size` bytes, as the compiler computes it. -/
def plusElements (size : ℕ) (r : Addr P) (y : BitVec P.sizeT.width) : Addr P :=
  r + BitVec.ofNat _ size * conv P.sizeT P.uintptrT y

variable (size : ℕ) (v : Addr P) (T : IntTy) (Y : BitVec T.width)

/-- `(uintptr_t)(_r+_y)-(uintptr_t)_r` with `_r` a null pointer, as a value of type `U`. -/
def offsetPtr (U : IntTy) : BitVec U.width :=
  let _y := conv T P.sizeT Y
  let _r : Addr P := 0#P.uintptrT.width
  conv _ U (binary P.toImpl (fun _ a b => a - b) P.uintptrT P.uintptrT (plusElements P size _r _y) _r)

/-- `__atomic_fetch_add_ptr`: the builtin on the object as an `_Atomic(uintptr_t)`. -/
def atomicFetchAddPtr (offset : BitVec P.sizeT.width) : Addr P × Addr P := (v + conv P.sizeT P.uintptrT offset, v)

def atomicFetchSubPtr (offset : BitVec P.sizeT.width) : Addr P × Addr P := (v - conv P.sizeT P.uintptrT offset, v)

/-- The macro of `atomic_gcc_atomic.h` on a pointer to elements of `size` bytes: the object
    afterwards, and the result. Called directly, the builtin does not scale either. -/
def atomicFetchAddExplicitPtr : Addr P × Addr P :=
  let _offset := offsetPtr P size T Y P.uintptrT
  match isPointerOf P (.ptr size) with
  | .null => atomicFetchAddPtr P v (conv P.uintptrT P.sizeT _offset)
  | .x => (v + _offset, v)

/-- Its `_offset` is a `size_t`. -/
def atomicFetchSubExplicitPtr : Addr P × Addr P :=
  let _offset := offsetPtr P size T Y P.sizeT
  match isPointerOf P (.ptr size) with
  | .null => atomicFetchSubPtr P v _offset
  | .x => (v - conv P.sizeT P.uintptrT _offset, v)

/-- The macro of `atomic_gcc_sync.h`: the builtin gets the operand as a `uintptr_t`. -/
def syncFetchAddExplicitPtr : Addr P × Addr P := GccSync.atomicFetchAddExplicit v (conv T P.uintptrT Y)

def syncFetchSubExplicitPtr : Addr P × Addr P := GccSync.atomicFetchSubExplicit v (conv T P.uintptrT Y)

def bytes (y : ℤ) : Addr P := BitVec.ofInt _ (size * y)

/-- Both macros of both headers count elements, so that what was added can be subtracted again and
    the headers compute the same addresses. -/
structure CountsElements : Prop where
  gcc_add : atomicFetchAddExplicitPtr P size v T Y = (v + bytes P size (T.val Y), v)
  gcc_sub : atomicFetchSubExplicitPtr P size v T Y = (v - bytes P size (T.val Y), v)
  sync_add : syncFetchAddExplicitPtr P v T Y = (v + bytes P size (T.val Y), v)
  sync_sub : syncFetchSubExplicitPtr P v T Y = (v - bytes P size (T.val Y), v)
  gcc_back : (atomicFetchSubExplicitPtr P size (atomicFetchAddExplicitPtr P size v T Y).1 T Y).1 = v
  sync_back : (syncFetchSubExplicitPtr P (syncFetchAddExplicitPtr P v T Y).1 T Y).1 = v
  same_add : atomicFetchAddExplicitPtr P size v T Y = syncFetchAddExplicitPtr P v T Y
  same_sub : atomicFetchSubExplicitPtr P size v T Y = syncFetchSubExplicitPtr P v T Y

end

section
variable {P : Platform} {size : ℕ} {v : Addr P} {T : IntTy} {Y : BitVec T.width}

theorem conv_size : conv P.sizeT P.uintptrT (conv T P.sizeT Y) = conv T P.uintptrT Y := by
  have hw := P.size_width
  have hp := P.uintptr_width
  rw [conv_of_le (by omega), conv_eq_ofInt, conv_eq_ofInt, setWidth_ofInt (by omega)]

/-- The trial addition gives the number of bytes. -/
theorem offset_ptr {U : IntTy} (hU : U.width = P.p) :
    (offsetPtr P size T Y U).setWidth P.uintptrT.width = bytes P size (T.val Y) := by
  have hp := P.uintptr_width
  have hc := (width_le_usual P.toImpl P.uintptrT P.uintptrT).1
  simp only [offsetPtr, binary]
  rw [conv_zero, BitVec.sub_zero, conv_conv (by omega) (by omega), BitVec.setWidth_setWidth_of_le _ (by omega),
    BitVec.setWidth_eq, plusElements, BitVec.zero_add, conv_size, conv_eq_ofInt, ← BitVec.ofInt_natCast,
    ← BitVec.ofInt_mul]
  rfl

theorem gcc_add_eq : atomicFetchAddExplicitPtr P size v T Y = (v + bytes P size (T.val Y), v) := by
  have hw := P.size_width
  have hp := P.uintptr_width
  simp only [atomicFetchAddExplicitPtr, isPointerOf_ptr, atomicFetchAddPtr]
  rw [conv_conv (by omega) (by omega), offset_ptr hp]

theorem gcc_sub_eq : atomicFetchSubExplicitPtr P size v T Y = (v - bytes P size (T.val Y), v) := by
  have hw := P.size_width
  have hp := P.uintptr_width
  simp only [atomicFetchSubExplicitPtr, isPointerOf_ptr, atomicFetchSubPtr]
  rw [conv_of_le (by omega), offset_ptr hw]

/-- The `__sync` macros move by the operand, whatever the size of an element. -/
theorem sync_add_eq : syncFetchAddExplicitPtr P v T Y = (v + bytes P 1 (T.val Y), v) := by
  rw [bytes, Int.natCast_one, Int.one_mul, ← conv_eq_ofInt]
  rfl

theorem sync_sub_eq : syncFetchSubExplicitPtr P v T Y = (v - bytes P 1 (T.val Y), v) := by
  rw [bytes, Int.natCast_one, Int.one_mul, ← conv_eq_ofInt]
  rfl

end

/-- Both headers count elements if and only if `s*Y` and `Y` are the same number of bytes modulo `2^p`. -/
theorem pointer_counts_iff (P : Platform) (size : ℕ) (v : Addr P) (T : IntTy) (Y : BitVec T.width) :
    CountsElements P size v T Y ↔ ((2 ^ P.p : ℕ) : ℤ) ∣ (size - 1) * T.val Y := by
  have hdiff : (size - 1) * T.val Y = size * T.val Y - (1 : ℕ) * T.val Y := by
    rw [Int.sub_mul, Int.natCast_one]
  have hbytes : bytes P size (T.val Y) = bytes P 1 (T.val Y) ↔ ((2 ^ P.p : ℕ) : ℤ) ∣ (size - 1) * T.val Y := by
    rw [bytes, bytes, ofInt_eq_iff, P.uintptr_width, hdiff]
  rw [← hbytes]
  constructor
  · intro h
    have heq := congrArg Prod.fst (h.sync_add.symm.trans sync_add_eq)
    exact (BitVec.add_right_inj v).mp heq
  · intro h
    exact {
      gcc_add := gcc_add_eq
      gcc_sub := gcc_sub_eq
      sync_add := by rw [sync_add_eq, h]
      sync_sub := by rw [sync_sub_eq, h]
      gcc_back := by rw [gcc_sub_eq, gcc_add_eq, BitVec.add_sub_cancel]
      sync_back := by rw [sync_sub_eq, sync_add_eq, BitVec.add_sub_cancel]
      same_add := by rw [gcc_add_eq, sync_add_eq, h]
      same_sub := by rw [gcc_sub_eq, sync_sub_eq, h] }

/-- Adding 1 to a pointer to 4-byte elements: the `__sync` header moves it by a byte. -/
theorem sync_counts_bytes : ¬ CountsElements lp64 4 (4096 : Addr lp64) lp64.int 1 := by
  intro h
  exact absurd h.sync_add (by decide)

end Stdatomic.Arith
