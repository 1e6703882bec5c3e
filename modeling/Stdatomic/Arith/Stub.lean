/-
  Stdatomic.Arith.Stub — the read-modify-write stubs of `atomic_stub.h`: the twelve
  functions of `INSTANTIATE_STUB_LCA` and `INSTANTIATE_STUB_NAND`, and the `__sync` names
  of `INSTANTIATE_SYNCA` and `INSTANTIATE_SYNCM`.

  A stub (`Stub`) guesses that the object is 0 and computes the new value `R` for that
  guess by hand (`first`); after a failed attempt it computes `R` from what the attempt
  read (`next`). `E` and `R` are of the object's type `T`, of any width; the operators
  work on promoted operands. An attempt is one compare-exchange; between attempts other
  threads may change the object, by any function (`call`).

  The invariant of the loop is that `R` is `E op V` (`Guesses`), which holds of the
  guess and of every value read, so the attempt that succeeds is the operation.
-/

import Stdatomic.Atomics
import Stdatomic.Lib.CasLoop
import Stdatomic.Lib.CInt

namespace Stdatomic.Arith

open CInt CasLoop

inductive Op where
  | add
  | sub
  | and
  | or
  | xor
  | nand
  deriving DecidableEq, Repr

def Op.apply : Op → BinOp
  | .add, _, v, y => v + y
  | .sub, _, v, y => v - y
  | .and, _, v, y => v &&& y
  | .or, _, v, y => v ||| y
  | .xor, _, v, y => v ^^^ y
  | .nand, _, v, y => ~~~(v &&& y)

/-- The loop of a stub on an object of type `T`, for its operand and order. -/
structure Stub (T : IntTy) where
  /-- `R` for the guess `E = 0`. -/
  first : BitVec T.width
  /-- `R` from `E` after a failed attempt. -/
  next : BitVec T.width → BitVec T.width
  /-- It returns `E` (fetch_K), or `R` (K_fetch). -/
  returnsE : Bool
  /-- The orders of its compare-exchange. -/
  mos : MemoryOrder
  mof : MemoryOrder

section
variable (C : Impl) (T : IntTy) (V : BitVec T.width) (MO : MemoryOrder)

/-! ## The functions -/

def implFetchAdd : Stub T := ⟨V, fun E => assign C (fun _ x y => x + y) T E V, true, MO, mof MO⟩

def implFetchSub : Stub T :=
  ⟨assign₁ C (fun _ x => -x) T V, fun E => assign C (fun _ x y => x - y) T E V, true, MO, mof MO⟩

def implFetchAnd : Stub T := ⟨0, fun E => assign C (fun _ x y => x &&& y) T E V, true, MO, mof MO⟩

def implFetchXor : Stub T := ⟨V, fun E => assign C (fun _ x y => x ^^^ y) T E V, true, MO, mof MO⟩

def implFetchOr : Stub T := ⟨V, fun E => assign C (fun _ x y => x ||| y) T E V, true, MO, mof MO⟩

def implAddFetch : Stub T := ⟨V, fun E => assign C (fun _ x y => x + y) T E V, false, MO, mof MO⟩

def implSubFetch : Stub T :=
  ⟨assign₁ C (fun _ x => -x) T V, fun E => assign C (fun _ x y => x - y) T E V, false, MO, mof MO⟩

def implAndFetch : Stub T := ⟨0, fun E => assign C (fun _ x y => x &&& y) T E V, false, MO, mof MO⟩

def implXorFetch : Stub T := ⟨V, fun E => assign C (fun _ x y => x ^^^ y) T E V, false, MO, mof MO⟩

def implOrFetch : Stub T := ⟨V, fun E => assign C (fun _ x y => x ||| y) T E V, false, MO, mof MO⟩

/-- `~(E & V)`, converted to `T`. -/
def nandOf (E : BitVec T.width) : BitVec T.width :=
  conv _ T (unary C (fun _ x => ~~~x) _ (binary C (fun _ x y => x &&& y) T T E V))

/-- `R = ~0`: the operand is an `int`. -/
def implFetchNand : Stub T := ⟨conv C.int T (~~~0), nandOf C T V, true, MO, mof MO⟩

/-- `R = ~E`, with `E` 0. -/
def implNandFetch : Stub T := ⟨assign₁ C (fun _ x => ~~~x) T 0, nandOf C T V, false, MO, mof MO⟩

/-- `__impl_fetch_K_N` and `__impl_K_fetch_N` by operation; `fetch` for the first form. -/
def stub : Op → Bool → Stub T
  | .add, true => implFetchAdd C T V MO
  | .sub, true => implFetchSub C T V MO
  | .and, true => implFetchAnd C T V MO
  | .or, true => implFetchOr C T V MO
  | .xor, true => implFetchXor C T V MO
  | .nand, true => implFetchNand C T V MO
  | .add, false => implAddFetch C T V MO
  | .sub, false => implSubFetch C T V MO
  | .and, false => implAndFetch C T V MO
  | .or, false => implOrFetch C T V MO
  | .xor, false => implXorFetch C T V MO
  | .nand, false => implNandFetch C T V MO

end

/-! ## A call -/

/-- The `while` loop at `E` and `R` on the object `obj`; `changes` are what other threads do to the
    object before each attempt, as far as the run goes. -/
def Stub.loop {T : IntTy} (s : Stub T) (E R obj : BitVec T.width) :
    List (BitVec T.width → BitVec T.width) → History (BitVec T.width) (BitVec T.width)
  | [] => ⟨[], none⟩
  | change :: changes =>
    let r := compareExchange (change obj) E R
    if r.ok then ⟨[(change obj, r.obj)], some (if s.returnsE then r.expected else R)⟩
    else
      let rest := s.loop r.expected (s.next r.expected) r.obj changes
      ⟨(change obj, r.obj) :: rest.attempts, rest.result⟩

def Stub.call {T : IntTy} (s : Stub T) (obj : BitVec T.width) (changes : List (BitVec T.width → BitVec T.width)) :
    History (BitVec T.width) (BitVec T.width) := s.loop 0 s.first obj changes

/-! ## Indivisibility -/

section
variable {C : Impl} {T : IntTy} {V : BitVec T.width} {MO : MemoryOrder}

/-- The stub computes `E op V` for every `E`, its first guess 0 included. -/
structure Guesses (op : Op) (V : BitVec T.width) (s : Stub T) : Prop where
  first : s.first = op.apply _ 0 V
  next : ∀ E, s.next E = op.apply _ E V

theorem nandOf_eq (E : BitVec T.width) : nandOf C T V E = ~~~(E &&& V) := by
  have hu := (width_le_usual C T T).1
  have hp := Nat.le_trans hu (width_le_promote C (usual C T T))
  rw [nandOf, unary, conv_of_le hp, modular_not _ _ _ hp, conv_setWidth hu hp, binary, modular_and _ _ _ _ hu,
    conv_setWidth (Nat.le_refl _) hu, conv_setWidth (Nat.le_refl _) hu, BitVec.setWidth_eq, BitVec.setWidth_eq]

/-- `~0` is -1, all ones in every type. -/
theorem conv_not_zero : conv C.int T (~~~0) = ~~~0 := by
  have h16 := C.width
  ext i hi
  simp only [conv, C.signed, if_true, BitVec.getElem_signExtend]
  split
  · simp
  · have hlast : C.int.width - 1 < C.int.width := by omega
    simp [BitVec.msb_eq_getLsbD_last, hlast]

variable (C V MO) in
theorem stub_guesses (op : Op) (fetch : Bool) : Guesses op V (stub C T V MO op fetch) := by
  have hadd := assign_eq C modular_add T
  have hsub := assign_eq C modular_sub T
  have hand := assign_eq C modular_and T
  have hor := assign_eq C modular_or T
  have hxor := assign_eq C modular_xor T
  have hneg := assign₁_eq C modular_neg T V
  have hnot := assign₁_eq C modular_not T 0
  cases op <;> cases fetch
  case add.true => exact ⟨by simp [stub, implFetchAdd, Op.apply], fun E => hadd E V⟩
  case add.false => exact ⟨by simp [stub, implAddFetch, Op.apply], fun E => hadd E V⟩
  case sub.true => exact ⟨by simp [stub, implFetchSub, Op.apply, hneg], fun E => hsub E V⟩
  case sub.false => exact ⟨by simp [stub, implSubFetch, Op.apply, hneg], fun E => hsub E V⟩
  case and.true => exact ⟨by simp [stub, implFetchAnd, Op.apply], fun E => hand E V⟩
  case and.false => exact ⟨by simp [stub, implAndFetch, Op.apply], fun E => hand E V⟩
  case or.true => exact ⟨by simp [stub, implFetchOr, Op.apply], fun E => hor E V⟩
  case or.false => exact ⟨by simp [stub, implOrFetch, Op.apply], fun E => hor E V⟩
  case xor.true => exact ⟨by simp [stub, implFetchXor, Op.apply], fun E => hxor E V⟩
  case xor.false => exact ⟨by simp [stub, implXorFetch, Op.apply], fun E => hxor E V⟩
  case nand.true => exact ⟨by simpa [stub, implFetchNand, Op.apply] using conv_not_zero, nandOf_eq⟩
  case nand.false => exact ⟨hnot.trans (by simp [Op.apply]), nandOf_eq⟩

variable (C V MO) in
theorem stub_returnsE (op : Op) (fetch : Bool) : (stub C T V MO op fetch).returnsE = fetch := by
  cases op <;> cases fetch <;> rfl

/-- A stub is a loop over a compare-exchange. -/
theorem loop_eq {s : Stub T} {E R obj : BitVec T.width} {changes : List (BitVec T.width → BitVec T.width)} :
    s.loop E R obj changes = CasLoop.loop s.next (fun e r => if s.returnsE then e else r) E R obj changes := by
  induction changes generalizing E R obj with
  | nil => rfl
  | cons change changes ih =>
    unfold Stub.loop CasLoop.loop
    by_cases h : change obj = E
    · simp [h]
    · simp only [compareExchange_ne h, if_neg h, Bool.false_eq_true, if_false]
      rw [ih]

/-- The loop keeps `R = E op V`. -/
theorem call_atOnce {op : Op} {s : Stub T} (hs : Guesses op V s) (obj : BitVec T.width)
    (changes : List (BitVec T.width → BitVec T.width)) :
    AtOnce (fun e => op.apply _ e V) (fun e => if s.returnsE then e else op.apply _ e V) obj changes
      (s.call obj changes) := by
  rw [Stub.call, loop_eq]
  exact loop_atOnce hs.next (fun _ => rfl) hs.first

end

/-! ## The `__sync` names -/

section
variable (C : Impl) (T : IntTy) (V : BitVec T.width)

def implFetchAndAdd : Stub T := implFetchAdd C T V .seqCst

def implFetchAndSub : Stub T := implFetchSub C T V .seqCst

def implFetchAndAnd : Stub T := implFetchAnd C T V .seqCst

def implFetchAndOr : Stub T := implFetchOr C T V .seqCst

def implFetchAndXor : Stub T := implFetchXor C T V .seqCst

def implAddAndFetch : Stub T := implAddFetch C T V .seqCst

def implSubAndFetch : Stub T := implSubFetch C T V .seqCst

def implAndAndFetch : Stub T := implAndFetch C T V .seqCst

def implOrAndFetch : Stub T := implOrFetch C T V .seqCst

def implXorAndFetch : Stub T := implXorFetch C T V .seqCst

/-- `__impl_fetch_and_K_N` and `__impl_K_and_fetch_N`; there is none for nand. -/
def syncStub : Op → Bool → Option (Stub T)
  | .add, true => some (implFetchAndAdd C T V)
  | .sub, true => some (implFetchAndSub C T V)
  | .and, true => some (implFetchAndAnd C T V)
  | .or, true => some (implFetchAndOr C T V)
  | .xor, true => some (implFetchAndXor C T V)
  | .add, false => some (implAddAndFetch C T V)
  | .sub, false => some (implSubAndFetch C T V)
  | .and, false => some (implAndAndFetch C T V)
  | .or, false => some (implOrAndFetch C T V)
  | .xor, false => some (implXorAndFetch C T V)
  | .nand, _ => none

end

section
variable {w : ℕ}

def implBoolCompareAndSwap (obj E V : BitVec w) : BitVec w × Bool :=
  let R := E
  let r := compareExchange obj R V
  (r.obj, r.ok)

def implValCompareAndSwap (obj E V : BitVec w) : BitVec w × BitVec w :=
  let R := E
  let r := compareExchange obj R V
  (r.obj, r.expected)

theorem compare_and_swap (obj E V : BitVec w) :
    (implValCompareAndSwap obj E V).2 = obj ∧ (implBoolCompareAndSwap obj E V).1 = (implValCompareAndSwap obj E V).1 ∧
    (implValCompareAndSwap obj E V).1 = (if obj = E then V else obj) ∧
    ((implBoolCompareAndSwap obj E V).2 = true ↔ obj = E) := by
  by_cases h : obj = E
  · subst h; simp [implValCompareAndSwap, implBoolCompareAndSwap]
  · simp [implValCompareAndSwap, implBoolCompareAndSwap, compareExchange_ne h, h]

end

/-- Every stub is indivisible, with any changes between its attempts: its attempts are on the object as
    these leave it, a call that returns changed it in its last attempt only, from some `e` to `e op V`,
    and returns the one or the other; it has returned after an undisturbed second attempt. The
    `__sync` names do the same, and the compare-and-swaps return the object's value at their one
    attempt, or whether it was `E`. -/
theorem stubs_indivisible (C : Impl) (T : IntTy) (op : Op) (fetch : Bool) (V : BitVec T.width) (MO : MemoryOrder)
    (obj : BitVec T.width) :
    (∀ changes, AtOnce (fun e => op.apply _ e V) (fun e => if fetch then e else op.apply _ e V) obj changes
      ((stub C T V MO op fetch).call obj changes)) ∧
    (∀ change changes, ((stub C T V MO op fetch).call obj (change :: id :: changes)).Brief) ∧
    (∀ s, syncStub C T V op fetch = some s → ∀ changes,
      AtOnce (fun e => op.apply _ e V) (fun e => if fetch then e else op.apply _ e V) obj changes (s.call obj changes)) ∧
    (∀ E, (implValCompareAndSwap obj E V).2 = obj ∧
      (implBoolCompareAndSwap obj E V).1 = (implValCompareAndSwap obj E V).1 ∧
      (implValCompareAndSwap obj E V).1 = (if obj = E then V else obj) ∧
      ((implBoolCompareAndSwap obj E V).2 = true ↔ obj = E)) := by
  have atOnce : ∀ mo changes, AtOnce (fun e => op.apply _ e V) (fun e => if fetch then e else op.apply _ e V)
      obj changes ((stub C T V mo op fetch).call obj changes) := by
    intro mo changes
    have hcall := call_atOnce (stub_guesses C V mo op fetch) obj changes
    rwa [stub_returnsE] at hcall
  refine ⟨atOnce MO, fun change changes => ?_, fun s hs changes => ?_, fun E => compare_and_swap obj E V⟩
  · rw [Stub.call, loop_eq]
    exact loop_second
  · have hsync : s = stub C T V .seqCst op fetch := by
      cases op <;> cases fetch <;> simp only [syncStub, Option.some.injEq, reduceCtorEq] at hs <;> exact hs.symm
    rw [hsync]
    exact atOnce .seqCst changes

end Stdatomic.Arith
