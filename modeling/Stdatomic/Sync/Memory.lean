/-
  Stdatomic.Sync.Memory — `atomic_load_explicit`, `atomic_store_explicit` and
  `atomic_compare_exchange_strong_explicit` of `atomic_gcc_sync.h` on scalar objects of 1,
  2, 4, 8 or 16 bytes.

  The compare-and-swap works on an object of type `uintXX_t` of the same size. A value
  of the base type gets there and back in two ways. A union keeps the representation:
  so the load. An initialisation, an argument or an assignment converts the value: so the
  new value of a store (`.t = (V)`), and in `__impl_CAS_local` the arguments `*_e` and `(D)`
  and the value read, `_v`, which is then compared by the `==` of the base type.

  The two are the same for integers (`BaseTy.int_keeps`). For a floating type they are
  not, so store and compare_exchange do not have memory semantics (`memory_semantics_iff`).
-/

import Stdatomic.Lib.CFloat
import Stdatomic.Sync.Exchange

namespace Stdatomic.Sync

open CInt CFloat CasLoop
open Mixed (syncValCompareAndSwap)

/-- A scalar type, with what the implementation chooses for its conversions. -/
inductive BaseTy where
  | int (C : Impl) (T : IntTy)
  | float (F : Format) (C : Conversions F)

namespace BaseTy

def width : BaseTy → ℕ
  | .int _ T => T.width
  | .float F _ => F.width

def isInt : BaseTy → Bool
  | .int _ _ => true
  | .float _ _ => false

def toUint : (B : BaseTy) → BitVec B.width → BitVec B.width
  | .int _ T, x => conv T (uintTy T.width) x
  | .float _ C, x => C.toUint x

def ofUint : (B : BaseTy) → BitVec B.width → BitVec B.width
  | .int _ T, x => conv (uintTy T.width) T x
  | .float _ C, x => C.ofUint x

def eq : (B : BaseTy) → BitVec B.width → BitVec B.width → Bool
  | .int C T, x, y => decide (conv T (usual C T T) x = conv T (usual C T T) y)
  | .float F _, x, y => F.eq x y

end BaseTy

structure Scalar (uint128 : Bool) where
  ty : BaseTy
  size : ℕ
  width_eq : ty.width = 8 * size
  direct : direct uint128 size = true

/-! ## The macros -/

section
variable (B : BaseTy) (obj : BitVec B.width)

/-- `__impl_load_union`: the object afterwards, and the value. -/
def loadUnion : BitVec B.width × BitVec B.width := syncValCompareAndSwap obj 0 0

def storeUnion (V : BitVec B.width) (changes : List (BitVec B.width → BitVec B.width)) : History (BitVec B.width) Unit :=
  let t := B.toUint V
  (exchangeLoop t t obj changes).map fun _ => ()

def casLocal (E D : BitVec B.width) : Cas (BitVec B.width) :=
  let c := syncValCompareAndSwap obj (B.toUint E) (B.toUint D)
  let _v := B.ofUint c.2
  let ret := B.eq _v E
  ⟨ret, c.1, if !ret then _v else E⟩

/-- The object after a store that nobody disturbs. -/
def stored (V : BitVec B.width) : Option (BitVec B.width) :=
  (storeUnion B obj V [id, id]).attempts.getLast?.map fun a => a.2

end

/-- A load gives the value whose representation the object holds, a store puts the representation of
    its value there at once, a compare_exchange compares and copies representations. -/
structure MemorySemantics (B : BaseTy) : Prop where
  load : ∀ obj, loadUnion B obj = (obj, obj)
  store : ∀ V obj changes, AtOnce (fun _ => V) (fun _ => ()) obj changes (storeUnion B obj V changes)
  compare : ∀ obj E D, casLocal B obj E D = compareExchange obj E D
  store_load : ∀ V obj, (stored B obj V).map (fun x => (loadUnion B x).2) = some V
  load_compare : ∀ obj D, (casLocal B (loadUnion B obj).1 (loadUnion B obj).2 D).ok = true

section
variable {B : BaseTy} {V obj : BitVec B.width}

/-- A compare-and-swap of 0 by 0 changes nothing. -/
theorem loadUnion_eq : loadUnion B obj = (obj, obj) := by
  unfold loadUnion syncValCompareAndSwap
  by_cases h : obj = 0#B.width
  · subst h
    simp
  · simp only [BitVec.ofNat_eq_ofNat, compareExchange_ne h]

/-- Alone, a store leaves the converted value. -/
theorem stored_eq : stored B obj V = some (B.toUint V) := by
  unfold stored storeUnion
  by_cases h : obj = B.toUint V
  · simp [exchangeLoop, syncValCompareAndSwap, History.map, h]
  · simp [exchangeLoop, syncValCompareAndSwap, History.map, compareExchange_ne h, h]

/-- A store is right just for the values whose conversion keeps the representation. -/
theorem store_iff : (∀ obj changes, AtOnce (fun _ => V) (fun _ => ()) obj changes (storeUnion B obj V changes)) ↔
    B.toUint V = V := by
  constructor
  · intro h
    have hdone : (storeUnion B V V [id, id]).result = some () := by
      obtain ⟨u, hu⟩ := Option.isSome_iff_exists.mp (exchangeLoop_brief.map fun _ => ()).1
      exact hu
    obtain ⟨failed, e, hl, -, -⟩ := (h V [id, id]).returned () hdone
    have hV : stored B V V = some V := by simp [stored, hl]
    exact Option.some.inj (stored_eq.symm.trans hV)
  · intro h obj changes
    unfold storeUnion
    rw [h]
    exact exchangeLoop_atOnce.map fun _ => ()

/-- The conversions between an integer type and `uintXX_t` keep the representation, and `==` compares it. -/
theorem int_keeps (C : Impl) (T : IntTy) (x y : BitVec T.width) :
    (BaseTy.int C T).toUint x = x ∧ (BaseTy.int C T).ofUint x = x ∧ (BaseTy.int C T).eq x y = decide (x = y) := by
  have hw := (width_le_usual C T T).1
  refine ⟨conv_uint T x, (conv_of_le (show T.width ≤ (uintTy T.width).width from Nat.le_refl _) x).trans
    (BitVec.setWidth_eq x), decide_eq_decide.mpr ⟨?_, ?_⟩⟩
  · intro h
    have hx := conv_setWidth (Nat.le_refl T.width) hw x
    rw [h, conv_setWidth (Nat.le_refl _) hw, BitVec.setWidth_eq, BitVec.setWidth_eq] at hx
    exact hx.symm
  · intro e
    subst e
    rfl

end

/-- Every operation has memory semantics on every value of a type if and only if it is an integer type; a
    store has it on a single value if and only if the conversion to `uintXX_t` keeps the
    representation of the value. -/
theorem memory_semantics_iff (uint128 : Bool) (s : Scalar uint128) :
    (MemorySemantics s.ty ↔ s.ty.isInt = true) ∧
    ∀ V, (∀ obj changes, AtOnce (fun _ => V) (fun _ => ()) obj changes (storeUnion s.ty obj V changes)) ↔
      s.ty.toUint V = V := by
  refine ⟨?_, fun V => store_iff⟩
  rcases s.ty with ⟨C, T⟩ | ⟨F, C⟩
  · have hto : ∀ x, (BaseTy.int C T).toUint x = x := fun x => (int_keeps C T x x).1
    have hof : ∀ x, (BaseTy.int C T).ofUint x = x := fun x => (int_keeps C T x x).2.1
    have heq : ∀ x y, (BaseTy.int C T).eq x y = decide (x = y) := fun x y => (int_keeps C T x y).2.2
    have hcas : ∀ obj E D, casLocal (.int C T) obj E D = compareExchange obj E D := by
      intro obj E D
      simp only [casLocal, syncValCompareAndSwap, hto, hof, heq]
      by_cases h : obj = E
      · subst h
        simp
      · simp [compareExchange_ne h, h]
    refine ⟨fun _ => rfl, fun _ => ⟨fun _ => loadUnion_eq, fun V => store_iff.mpr (hto V), hcas, fun V obj => ?_,
      fun obj D => ?_⟩⟩
    · rw [stored_eq, hto, Option.map_some, loadUnion_eq]
    · rw [loadUnion_eq, hcas, compareExchange_eq]
  · refine ⟨fun h => ?_, fun hint => absurd hint Bool.false_ne_true⟩
    -- minus zero is converted to 0
    have hkept : C.toUint F.negZero = F.negZero := store_iff.mp (h.store F.negZero)
    rw [toUint_negZero] at hkept
    exact absurd hkept.symm negZero_ne_zero

def floatTy : Scalar true := ⟨.float float32 (.search float32), 4, by decide, rfl⟩

/-- Storing `1.0f` leaves the bits of the integer 1. -/
theorem store_float : ¬ MemorySemantics floatTy.ty := by
  intro h
  have hkept : (Conversions.search float32).toUint 0x3F800000 = 0x3F800000 :=
    store_iff.mp (h.store (0x3F800000#32 : BitVec floatTy.ty.width))
  exact absurd hkept (by decide +kernel)

end Stdatomic.Sync
