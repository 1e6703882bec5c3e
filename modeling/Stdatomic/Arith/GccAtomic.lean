/-
  Stdatomic.Arith.GccAtomic — `atomic_fetch_add_explicit` and `atomic_fetch_sub_explicit` of
  `atomic_gcc_atomic.h` on integer objects.

  The macros are written for pointers too: the operand is converted to `size_t`, a trial
  addition gives the offset in the base type, and `_IS_POINTER` finds out whether the base
  type is a pointer. On an integer object the trial addition starts from 0 and the
  builtin is called with the offset (`isPointer_int`). The builtin adds or subtracts its
  second argument, converted to the object's type.

  The offset has the width of `uintptr_t`, so for an object of no more bits the operand
  comes through modulo the object's width, and for a wider one only if its value is one of
  `size_t` (`fetch_add_iff`, `fetch_sub_iff`).
-/

import Stdatomic.Lib.CInt
import Mathlib.Algebra.Ring.Int.Defs
import Mathlib.Algebra.Ring.Nat

namespace Stdatomic.Arith

open CInt

/-- The types of a platform with `p`-bit addresses that the macros use. -/
structure Platform extends Impl where
  p : ℕ
  sizeT : IntTy
  uintptrT : IntTy
  ptrdiffT : IntTy
  size_width : sizeT.width = p
  size_unsigned : sizeT.signed = false
  uintptr_width : uintptrT.width = p
  uintptr_unsigned : uintptrT.signed = false
  ptrdiff_signed : ptrdiffT.signed = true

/-- What `_IS_POINTER(R, X)` yields: `X`, or `(void*)0`. -/
inductive IsPointer where
  | x
  | null
  deriving DecidableEq, Repr

def isPointer (P : Platform) (T : IntTy) : IsPointer :=
  if usual P.toImpl T P.ptrdiffT = P.ptrdiffT then .x
  else if usual P.toImpl T T = P.ptrdiffT then .null
  else .x

section
variable (P : Platform) (T : IntTy) (v Y : BitVec T.width)

/-- `(uintptr_t)(_r+_y)-(uintptr_t)_r` with `_r` 0, as a value of type `U`. -/
def offset (U : IntTy) : BitVec U.width :=
  let _y := conv T P.sizeT Y
  let _r := 0#T.width
  let sum := binary P.toImpl (fun _ a b => a + b) T P.sizeT _r _y
  conv _ U (binary P.toImpl (fun _ a b => a - b) P.uintptrT P.uintptrT (conv _ P.uintptrT sum) (conv T P.uintptrT _r))

/-- The object afterwards, and the result. `_x` is `X` unless the base type is a pointer. -/
def atomicFetchAddExplicit : Option (BitVec T.width × BitVec T.width) :=
  let _offset := offset P T Y P.uintptrT
  match isPointer P T with
  | .x => some (v + conv P.uintptrT T _offset, v)
  | .null => none

/-- Its `_offset` is a `size_t`. -/
def atomicFetchSubExplicit : Option (BitVec T.width × BitVec T.width) :=
  let _offset := offset P T Y P.sizeT
  match isPointer P T with
  | .x => some (v - conv P.sizeT T _offset, v)
  | .null => none

end

section
variable {P : Platform} {T : IntTy} {v Y : BitVec T.width}

theorem isPointer_int : isPointer P T = .x := by
  unfold isPointer
  split
  · rfl
  · rename_i hne
    rw [usual_self]
    split
    · rename_i heq
      refine absurd ?_ hne
      have hp : promote P.toImpl P.ptrdiffT = P.ptrdiffT := by rw [← heq, promote_promote]
      simp only [usual, heq, hp, if_true]
      split <;> rfl
    · rfl

theorem offset_eq {U : IntTy} (hU : U.width = P.p) : offset P T Y U = (conv T P.sizeT Y).setWidth U.width := by
  have hs := P.size_width
  have hp := P.uintptr_width
  have hc := (width_le_usual P.toImpl T P.sizeT).2
  have hd := (width_le_usual P.toImpl P.uintptrT P.uintptrT).1
  have hsum : conv _ P.uintptrT (binary P.toImpl (fun _ a b => a + b) T P.sizeT 0#T.width (conv T P.sizeT Y)) =
      (conv T P.sizeT Y).setWidth P.uintptrT.width := by
    rw [conv_of_le (by omega), binary, conv_zero, BitVec.zero_add, conv_setWidth (by omega) (by omega)]
  simp only [offset]
  rw [hsum, binary, conv_zero, conv_zero, BitVec.sub_zero, conv_conv (by omega) (by omega),
    BitVec.setWidth_setWidth_of_le _ (by omega)]

/-- The second argument of the builtin, converted to the object's type. -/
theorem conv_offset {U : IntTy} (hU : U.width = P.p) (hs : U.signed = false) :
    conv U T (offset P T Y U) = (conv T P.sizeT Y).setWidth T.width := by
  have hw := P.size_width
  rw [offset_eq hU]
  simp only [conv, hs, Bool.false_eq_true, if_false]
  rw [BitVec.setWidth_setWidth (by omega)]

theorem val_iff (h : P.p < T.width) : (0 ≤ T.val Y ∧ T.val Y < 2 ^ P.p) ↔ Y.toNat < 2 ^ P.p := by
  have hpow : 2 * 2 ^ P.p ≤ 2 ^ T.width := by
    rw [← Nat.pow_succ']
    exact Nat.pow_le_pow_right (by decide) h
  have hcast : ((2 ^ P.p : ℕ) : ℤ) = 2 ^ P.p := by simp
  have hlt := Y.isLt
  unfold IntTy.val
  split
  · rw [BitVec.toInt_eq_toNat_cond]
    split <;> omega
  · omega

/-- The operand comes through `size_t` just when its type is no wider or its value is one of `size_t`. -/
theorem through_size_iff :
    (conv T P.sizeT Y).setWidth T.width = Y ↔ T.width ≤ P.p ∨ (0 ≤ T.val Y ∧ T.val Y < 2 ^ P.p) := by
  have hw := P.size_width
  by_cases h : T.width ≤ P.p
  · have heq : (conv T P.sizeT Y).setWidth T.width = Y := by
      rw [conv_setWidth (Nat.le_refl _) (by omega), BitVec.setWidth_eq]
    exact ⟨fun _ => Or.inl h, fun _ => heq⟩
  · have hnat : ((conv T P.sizeT Y).setWidth T.width).toNat = Y.toNat % 2 ^ P.p := by
      rw [conv_of_le (by omega), BitVec.toNat_setWidth, BitVec.toNat_setWidth, hw]
      exact Nat.mod_eq_of_lt (Nat.lt_of_le_of_lt (Nat.mod_le _ _) Y.isLt)
    rw [or_iff_right h, val_iff (by omega)]
    constructor
    · intro heq
      rw [heq] at hnat
      rw [hnat]
      exact Nat.mod_lt _ (Nat.two_pow_pos _)
    · intro hlt
      exact BitVec.eq_of_toNat_eq (by rw [hnat, Nat.mod_eq_of_lt hlt])

theorem fetch_add_iff : atomicFetchAddExplicit P T v Y = some (v + Y, v) ↔
    T.width ≤ P.p ∨ (0 ≤ T.val Y ∧ T.val Y < 2 ^ P.p) := by
  simp only [atomicFetchAddExplicit, isPointer_int, conv_offset P.uintptr_width P.uintptr_unsigned,
    Option.some.injEq, Prod.mk.injEq, and_true, BitVec.add_right_inj, through_size_iff]

theorem fetch_sub_iff : atomicFetchSubExplicit P T v Y = some (v - Y, v) ↔
    T.width ≤ P.p ∨ (0 ≤ T.val Y ∧ T.val Y < 2 ^ P.p) := by
  simp only [atomicFetchSubExplicit, isPointer_int, conv_offset P.size_width P.size_unsigned,
    Option.some.injEq, Prod.mk.injEq, and_true, BitVec.sub_right_inj, through_size_iff]

end

/-- The macros add and subtract the whole operand if and only if the object's type is no wider than
    `size_t` or the operand is a value of `size_t`. -/
theorem whole_operand_iff (P : Platform) (T : IntTy) (v Y : BitVec T.width) :
    (atomicFetchAddExplicit P T v Y = some (v + Y, v) ∧ atomicFetchSubExplicit P T v Y = some (v - Y, v)) ↔
      T.width ≤ P.p ∨ (0 ≤ T.val Y ∧ T.val Y < 2 ^ P.p) := by
  rw [fetch_add_iff, fetch_sub_iff, and_self]

def lp64 : Platform where
  toImpl := int32
  p := 64
  sizeT := ⟨64, 0, false⟩
  uintptrT := ⟨64, 0, false⟩
  ptrdiffT := ⟨64, 0, true⟩
  size_width := rfl
  size_unsigned := rfl
  uintptr_width := rfl
  uintptr_unsigned := rfl
  ptrdiff_signed := rfl

def int128 : IntTy := ⟨128, 0, true⟩

/-- Adding -1 to a 16-byte integer with value 0 leaves `2^64 - 1`. -/
theorem fetch_add_wide : ¬ (atomicFetchAddExplicit lp64 int128 0 (-1) = some (0 + -1, 0) ∧
    atomicFetchSubExplicit lp64 int128 0 (-1) = some (0 - -1, 0)) := by
  decide

end Stdatomic.Arith
