/-
  Stdatomic.Sync.Exchange — `atomic_exchange_explicit` and `atomic_store_explicit` of
  `atomic_gcc_sync.h`, with the functions `__impl_exchange_N` and `__impl_store_N` of the
  same header.

  The macros choose by the size of the object (`direct`). Objects of 1, 2, 4, 8 and, where
  there is a 128-bit type, 16 bytes go through a loop over the compare-and-swap: it guesses
  that the object is `V` already, takes every value read as the next guess, and ends when
  the value read is the guess (`exchangeLoop`). Every other object goes to
  `__impl_store` or `__impl_exchange` of the library, with the local variables `_v` and `_r`
  of the macro as buffers; its one attempt is the library's section. The branches that are not
  chosen are compiled all the same, and convert `V` to `uintXX_t`; so the other objects are
  those of arithmetic types (`ArithTy`), such as a complex number of 32 bytes.

  The loops and the store replace the object at once. The exchange through the library
  passes `_r` as new value and `_v` as the buffer for the old one, and yields `_r`: the
  object is replaced, and the new value returned (`exchange_iff`).
-/

import Stdatomic.Generic.Ops
import Stdatomic.Generic.Sized
import Stdatomic.Lib.CasLoop

namespace Stdatomic.Sync

open CInt CasLoop Generic Critical
open Mixed (syncValCompareAndSwap)

/-- The sizes with a branch of their own; `uint128` for `__UINT128__`. -/
def direct (uint128 : Bool) (size : ℕ) : Bool :=
  (uint128 && size == 16) || size == 8 || size == 4 || size == 2 || size == 1

/-- The types that C converts to `uintXX_t`. -/
inductive ArithTy where
  | integer (size : ℕ)
  | floating (size : ℕ)
  | complex (part : ℕ)
  deriving DecidableEq, Repr

def ArithTy.size : ArithTy → ℕ
  | .integer size => size
  | .floating size => size
  | .complex part => 2 * part

/-- An integer object of such a size, or an object of an arithmetic type of another size. -/
inductive Object (uint128 : Bool) where
  | int (T : IntTy) (size : ℕ) : T.width = 8 * size → direct uint128 size = true → Object uint128
  | other (S : ArithTy) : direct uint128 S.size = false → Object uint128

namespace Object

variable {uint128 : Bool}

/-- The contents of an object: the bits of an integer, or bytes. -/
abbrev Val : Object uint128 → Type
  | .int T _ _ _ => BitVec T.width
  | .other S _ => Fin S.size → Byte

def isInt : Object uint128 → Bool
  | .int _ _ _ _ => true
  | .other _ _ => false

end Object

/-! ## The loop -/

section
variable {w : ℕ}

/-- The `do` loop at `_r`, on the object `obj`. -/
def exchangeLoop (V _r obj : BitVec w) : List (BitVec w → BitVec w) → History (BitVec w) (BitVec w)
  | [] => ⟨[], none⟩
  | change :: changes =>
    let _e := _r
    let c := syncValCompareAndSwap (change obj) _e V
    if c.2 ≠ _e then
      let rest := exchangeLoop V c.2 c.1 changes
      ⟨(change obj, c.1) :: rest.attempts, rest.result⟩
    else ⟨[(change obj, c.1)], some c.2⟩

variable (V obj : BitVec w) (changes : List (BitVec w → BitVec w))

def implExchangeN : History (BitVec w) (BitVec w) := exchangeLoop V V obj changes

def implStoreN : History (BitVec w) Unit := (implExchangeN V obj changes).map fun _ => ()

end

abbrev uintTy (w : ℕ) : IntTy := ⟨w, 0, false⟩

section
variable (T : IntTy) (V obj : BitVec T.width) (changes : List (BitVec T.width → BitVec T.width))

/-- `__impl_exchange_union` on an integer object; `.t = (V)` converts to `uintXX_t`, and the result
    goes back through the union. -/
def implExchangeUnion : History (BitVec T.width) (BitVec T.width) :=
  let t := conv T (uintTy T.width) V
  exchangeLoop t t obj changes

def implStoreUnion : History (BitVec T.width) Unit :=
  let t := conv T (uintTy T.width) V
  (exchangeLoop t t obj changes).map fun _ => ()

end

/-! ## The library call -/

/-- The variables of the macro: `_v`, and `_r` if it has one. -/
inductive Local where
  | v
  | r
  deriving DecidableEq, Repr

section
variable {n : ℕ} {ρ : Type}

/-- The code of the library on the object, with all variables set to `V`. -/
def libraryCall (code : Prog MemoryOrder (Buf Local)) (get : Result (Buf Local) Byte → ρ) (V obj : Fin n → Byte) :
    List ((Fin n → Byte) → Fin n → Byte) → History (Fin n → Byte) ρ
  | [] => ⟨[], none⟩
  | change :: _ =>
    let out := eval code 0 (change obj) fun _ => fill V fun _ => 0
    ⟨[(change obj, out.obj)], some (get out.res)⟩

variable (V obj : Fin n → Byte) (changes : List ((Fin n → Byte) → Fin n → Byte)) (MO : MemoryOrder)

def exchangeCall : History (Fin n → Byte) (Fin n → Byte) :=
  libraryCall (implExchange .r .v MO) (fun res j => res.bufs (.user .r) j) V obj changes

def storeCall : History (Fin n → Byte) Unit := libraryCall (implStore .v MO) (fun _ => ()) V obj changes

end

/-! ## The macros -/

section
variable {uint128 : Bool}

def atomicExchangeExplicit : (o : Object uint128) → (V obj : o.Val) → List (o.Val → o.Val) → MemoryOrder →
    History o.Val o.Val
  | .int T _ _ _, V, obj, changes, _ => implExchangeUnion T V obj changes
  | .other _ _, V, obj, changes, MO => exchangeCall V obj changes MO

def atomicStoreExplicit : (o : Object uint128) → (V obj : o.Val) → List (o.Val → o.Val) → MemoryOrder →
    History o.Val Unit
  | .int T _ _ _, V, obj, changes, _ => implStoreUnion T V obj changes
  | .other _ _, V, obj, changes, MO => storeCall V obj changes MO

def functions : (o : Object uint128) → (V obj : o.Val) → List (o.Val → o.Val) →
    Option (History o.Val o.Val × History o.Val Unit)
  | .int _ _ _ _, V, obj, changes => some (implExchangeN V obj changes, implStoreN V obj changes)
  | .other _ _, _, _, _ => none

variable (o : Object uint128) (V obj : o.Val) (changes : List (o.Val → o.Val)) (MO : MemoryOrder)

/-- The exchanges replace the object by `V` at one point and return what it was just before, the
    stores replace it, and all end at an undisturbed second attempt. -/
structure Exchanges : Prop where
  exchange : AtOnce (fun _ => V) (fun e => e) obj changes (atomicExchangeExplicit o V obj changes MO)
  store : AtOnce (fun _ => V) (fun _ => ()) obj changes (atomicStoreExplicit o V obj changes MO)
  function : ∀ f, functions o V obj changes = some f →
    AtOnce (fun _ => V) (fun e => e) obj changes f.1 ∧ AtOnce (fun _ => V) (fun _ => ()) obj changes f.2
  ends : ∀ change, (atomicExchangeExplicit o V obj (change :: id :: changes) MO).Brief ∧
    (atomicStoreExplicit o V obj (change :: id :: changes) MO).Brief ∧
    ∀ f, functions o V obj (change :: id :: changes) = some f → f.1.Brief ∧ f.2.Brief

end

section
variable {w : ℕ} {V _r obj : BitVec w} {changes : List (BitVec w → BitVec w)}

/-- The loop is one over a compare-exchange whose new value is always `V`. -/
theorem exchangeLoop_eq : exchangeLoop V _r obj changes = loop (fun _ => V) (fun E _ => E) _r V obj changes := by
  induction changes generalizing _r obj with
  | nil => rfl
  | cons change changes ih =>
    unfold exchangeLoop loop
    by_cases h : change obj = _r
    · simp [h, syncValCompareAndSwap]
    · simp only [syncValCompareAndSwap, compareExchange_ne h, ne_eq, h, not_false_eq_true, if_true, if_false]
      rw [ih]

theorem exchangeLoop_atOnce : AtOnce (fun _ => V) (fun e => e) obj changes (exchangeLoop V V obj changes) := by
  rw [exchangeLoop_eq]
  exact loop_atOnce (fun _ => rfl) (fun _ => rfl) rfl

theorem exchangeLoop_brief {change : BitVec w → BitVec w} :
    (exchangeLoop V _r obj (change :: id :: changes)).Brief := by
  rw [exchangeLoop_eq]
  exact loop_second

end

/-- `.t = (V)` keeps the bits of an integer. -/
theorem conv_uint (T : IntTy) (V : BitVec T.width) : conv T (uintTy T.width) V = V :=
  (conv_of_le (Nat.le_refl _) V).trans (BitVec.setWidth_eq V)

section
variable {n : ℕ} {V obj : Fin n → Byte} {change : (Fin n → Byte) → Fin n → Byte}
  {changes : List ((Fin n → Byte) → Fin n → Byte)} {MO : MemoryOrder}

/-- The library finds the new value in `_r`, and leaves the old one in `_v`. -/
theorem exchangeCall_cons : exchangeCall V obj (change :: changes) MO = ⟨[(change obj, V)], some V⟩ := by
  obtain ⟨hobj, hres⟩ := spec_eval (Call.exchange () Local.r Local.v MO) (change obj) fun _ => fill V fun _ => 0
  have hr := congrFun (congrArg Result.bufs hres) Local.r
  have hne : Local.r ≠ Local.v := by decide
  simp only [Call.code, spec, userResult, users, fill_lt, Function.update_of_ne hne] at hobj hr
  simp only [exchangeCall, libraryCall, hobj, hr, fill_lt]

theorem storeCall_cons : storeCall V obj (change :: changes) MO = ⟨[(change obj, V)], some ()⟩ := by
  obtain ⟨hobj, -⟩ := spec_eval (Call.store () Local.v MO) (change obj) fun _ => fill V fun _ => 0
  simp only [Call.code, spec, users, fill_lt] at hobj
  simp only [storeCall, libraryCall, hobj]

theorem storeCall_atOnce : AtOnce (fun _ => V) (fun _ => ()) obj changes (storeCall V obj changes MO) := by
  cases changes with
  | nil => exact atOnce_none
  | cons change changes =>
    rw [storeCall_cons]
    exact atOnce_one change

end

/-- An exchange through the library is one, and a store, but for the value it returns. -/
theorem exchangeCall_iff {n : ℕ} {V obj : Fin n → Byte} {changes : List ((Fin n → Byte) → Fin n → Byte)}
    {MO : MemoryOrder} :
    AtOnce (fun _ => V) (fun e => e) obj changes (exchangeCall V obj changes MO) ↔
      ∀ change ∈ changes.head?, change obj = V := by
  cases changes with
  | nil => exact ⟨fun _ => nofun, fun _ => atOnce_none⟩
  | cons change changes =>
    rw [exchangeCall_cons]
    constructor
    · intro h c hc
      obtain ⟨failed, e, hl, -, hval⟩ := h.returned V rfl
      have hlast : change obj = e := by simpa using congrArg List.getLast? hl
      rw [← Option.some.inj hc, hlast, hval]
    · intro h
      have hV : change obj = V := h change rfl
      have hone : AtOnce (fun _ => V) (fun e => e) obj (change :: changes) ⟨[(change obj, V)], some (change obj)⟩ :=
        atOnce_one change
      rw [hV] at hone ⊢
      exact hone

/-- For every object, content, new value and changes: the macros and functions exchange and store at
    once if and only if the object is an integer, or it has the new value already when the library
    is called. -/
theorem exchange_iff (uint128 : Bool) (o : Object uint128) (V obj : o.Val) (changes : List (o.Val → o.Val))
    (MO : MemoryOrder) :
    Exchanges o V obj changes MO ↔ o.isInt = true ∨ ∀ change ∈ changes.head?, change obj = V := by
  cases o with
  | int T size hw hs =>
    have hex := @exchangeLoop_atOnce T.width V obj changes
    have hbrief := @exchangeLoop_brief T.width
    refine ⟨fun _ => Or.inl rfl, fun _ => ⟨?_, ?_, ?_, fun change => ⟨?_, ?_, ?_⟩⟩⟩
    · simpa only [atomicExchangeExplicit, implExchangeUnion, conv_uint] using hex
    · simpa only [atomicStoreExplicit, implStoreUnion, conv_uint] using hex.map fun _ => ()
    · intro f hf
      cases hf
      exact ⟨hex, hex.map fun _ => ()⟩
    · exact hbrief
    · exact hbrief.map fun _ => ()
    · intro f hf
      cases hf
      exact ⟨hbrief, hbrief.map fun _ => ()⟩
  | other S hs =>
    have hiff := @exchangeCall_iff S.size V obj changes MO
    constructor
    · intro h
      exact Or.inr (hiff.mp h.exchange)
    · intro h
      refine ⟨hiff.mpr (h.resolve_left nofun), ?_, nofun, fun change => ⟨?_, ?_, nofun⟩⟩
      · exact storeCall_atOnce
      · simp only [atomicExchangeExplicit, exchangeCall_cons]
        exact ⟨rfl, Nat.le_succ 1⟩
      · simp only [atomicStoreExplicit, storeCall_cons]
        exact ⟨rfl, Nat.le_succ 1⟩

/-- Exchanging ones into a complex number of two 16-byte integers that is zero returns the ones. -/
theorem exchange_returns_new :
    ¬ Exchanges (.other (.complex 16) rfl : Object true) (fun _ => 1) (fun _ => 0) [id] .seqCst := by
  intro h
  exact absurd (congrFun (exchangeCall_iff.mp h.exchange id rfl) ⟨0, by decide⟩) (by decide)

end Stdatomic.Sync
