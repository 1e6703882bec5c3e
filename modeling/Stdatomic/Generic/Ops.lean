/-
  Stdatomic.Generic.Ops — the lock-based generic operations of `atomic_generic.c`:
  `__impl_load`, `__impl_store`, `__impl_exchange` (with `atomic_exchange_restrict`) and
  `__impl_compare_exchange`.

  Each function is a program of `Critical`: `lock` and `unlock` are `__impl_mut_lock` and
  `__impl_mut_unlock` on `table[hash(ptr)]` with their memory order, `read` and `write`
  the `memcpy` from and to the object, `compare` the `memcmp`, `move` the `memcpy` of
  the result after the section. The caller's buffers are named by `U`; `val == ret` is
  the same name. `buffer` is the local array of `__impl_exchange`.

  `meaning` is what an operation is for, on the bytes of its object and of the caller's
  buffers, and `spec_eval` that the programs do it when run alone. That they do it in
  any interleaving is `generic_linearizable`, from the library.
-/

import Stdatomic.Atomics
import Stdatomic.Lib.Linear
import Mathlib.Data.BitVec

namespace Stdatomic.Generic

open Critical

abbrev Byte := BitVec 8

variable {U : Type}

inductive Buf (U : Type) where
  /-- A buffer of the caller. -/
  | user (u : U)
  /-- `unsigned char buffer[size]` of `__impl_exchange`. -/
  | buffer
  deriving DecidableEq, Repr

def implLoad (ret : U) (mo : MemoryOrder) : Prog MemoryOrder (Buf U) :=
  .lock (mol mo) <| .read (.user ret) <| .unlock (mou mo) <| .ret none

def implStore (val : U) (mo : MemoryOrder) : Prog MemoryOrder (Buf U) :=
  .lock (mol mo) <| .write (.user val) <| .unlock (mou mo) <| .ret none

/-- `atomic_exchange_restrict`, and what follows its call. -/
def atomicExchangeRestrict (val ret : Buf U) (mo : MemoryOrder) (k : Prog MemoryOrder (Buf U)) :
    Prog MemoryOrder (Buf U) :=
  .lock (mol mo) <| .read ret <| .write val <| .unlock (mou mo) k

def implExchange [DecidableEq U] (val ret : U) (mo : MemoryOrder) : Prog MemoryOrder (Buf U) :=
  if val = ret then atomicExchangeRestrict (.user val) .buffer mo <| .move .buffer (.user ret) <| .ret none
  else atomicExchangeRestrict (.user val) (.user ret) mo <| .ret none

def implCompareExchange (expected desired : U) (mos mof : MemoryOrder) : Prog MemoryOrder (Buf U) :=
  .lock (mol mos) <| .compare (.user expected)
    (.write (.user desired) <| .unlock (mou mos) <| .ret (some true))
    (.read (.user expected) <| .unlock (mou mof) <| .ret (some false))

inductive Call (Obj U : Type) where
  | load (ptr : Obj) (ret : U) (mo : MemoryOrder)
  | store (ptr : Obj) (val : U) (mo : MemoryOrder)
  | exchange (ptr : Obj) (val ret : U) (mo : MemoryOrder)
  | compareExchange (ptr : Obj) (expected desired : U) (mos mof : MemoryOrder)
  deriving DecidableEq, Repr

namespace Call

variable {Obj : Type}

def ptr : Call Obj U → Obj
  | .load p _ _ => p
  | .store p _ _ => p
  | .exchange p _ _ _ => p
  | .compareExchange p _ _ _ _ => p

def code [DecidableEq U] : Call Obj U → Prog MemoryOrder (Buf U)
  | .load _ ret mo => implLoad ret mo
  | .store _ val mo => implStore val mo
  | .exchange _ val ret mo => implExchange val ret mo
  | .compareExchange _ expected desired mos mof => implCompareExchange expected desired mos mof

theorem code_closed [DecidableEq U] (c : Call Obj U) : c.code.closed = true := by
  cases c with
  | load => rfl
  | store => rfl
  | compareExchange => rfl
  | exchange _ val ret mo =>
    simp only [code, implExchange]
    split <;> rfl

end Call

/-- The four functions on objects at disjoint addresses, with any hash of the address. -/
def api {Obj Slot : Type} [DecidableEq U] (L : Layout Obj) (hash : ℕ → Slot) :
    Api (Call Obj U) Obj Slot MemoryOrder (Buf U) where
  toLayout := L
  slot := hash
  obj := Call.ptr
  code := Call.code
  closed := Call.code_closed

/-! ## What the operations are for -/

def fill {n : ℕ} (v : Fin n → Byte) (g : ℕ → Byte) : ℕ → Byte := fun j => if h : j < n then v ⟨j, h⟩ else g j

def users (m : Bufs (Buf U) Byte) : Bufs U Byte := fun u => m (.user u)

/-- load copies the object's bytes; store replaces them; exchange returns the old bytes and stores
    the original bytes of `val`; compare_exchange stores `desired` if all bytes are those of
    `expected`, else copies the object's bytes to `expected`. -/
def spec [DecidableEq U] {Obj : Type} (n : ℕ) (c : Call Obj U) (v : Fin n → Byte) (m : Bufs U Byte) :
    Outcome (Result U Byte) Byte n :=
  match c with
  | .load _ ret _ => ⟨v, Function.update m ret (fill v (m ret)), none⟩
  | .store _ val _ => ⟨fun j => m val j, m, none⟩
  | .exchange _ val ret _ => ⟨fun j => m val j, Function.update m ret (fill v (m ret)), none⟩
  | .compareExchange _ expected desired _ _ =>
    if ∀ j : Fin n, v j = m expected j then ⟨fun j => m desired j, m, some true⟩
    else ⟨v, Function.update m expected (fill v (m expected)), some false⟩

def userResult (r : Result (Buf U) Byte) : Result U Byte := ⟨users r.bufs, r.ret⟩

theorem patch_zero {n : ℕ} (v : Fin n → Byte) (g : ℕ → Byte) : patch n 0 v g = fill v g := by
  funext j
  simp [patch, fill]

section
variable [DecidableEq U] {m : Bufs (Buf U) Byte} {g : ℕ → Byte}

@[simp] theorem users_update_user (u : U) :
    users (Function.update m (.user u) g) = Function.update (users m) u g := by
  funext w
  by_cases e : w = u
  · subst e; simp [users]
  · have hne : Buf.user w ≠ Buf.user u := fun h => e (Buf.user.inj h)
    simp [users, Function.update_of_ne e, Function.update_of_ne hne]

@[simp] theorem users_update_buffer : users (Function.update m .buffer g) = users m := by
  funext w
  exact Function.update_of_ne (by intro h; cases h) _ _

@[simp] theorem fill_lt {n : ℕ} (v : Fin n → Byte) (g : ℕ → Byte) (j : Fin n) : fill v g j = v j := by
  simp [fill]

/-- The code of a call, run alone, does what the call is for. -/
theorem spec_eval {Obj : Type} {n : ℕ} (c : Call Obj U) (v : Fin n → Byte) (m : Bufs (Buf U) Byte) :
    (eval c.code 0 v m).obj = (spec n c v (users m)).obj ∧
      userResult (eval c.code 0 v m).res = (spec n c v (users m)).res := by
  cases c with
  | load ptr ret mo =>
    simp only [Call.code, implLoad, eval, patch_zero, spec, userResult, users_update_user]
    exact ⟨trivial, rfl⟩
  | store ptr val mo =>
    simp only [Call.code, implStore, eval, spec, userResult, Nat.zero_le, if_true]
    exact ⟨rfl, trivial⟩
  | exchange ptr val ret mo =>
    simp only [Call.code, implExchange]
    split
    · rename_i e
      subst e
      -- the old bytes come back through `buffer`
      simp only [atomicExchangeRestrict, eval, patch_zero, spec, userResult, Nat.zero_le, if_true, users_update_user,
        users_update_buffer, Function.update_self, fill_lt, ne_eq, reduceCtorEq, not_false_eq_true,
        Function.update_of_ne]
      exact ⟨rfl, rfl⟩
    · rename_i e
      have hne : Buf.user val ≠ Buf.user ret := fun h => e (Buf.user.inj h)
      simp only [atomicExchangeRestrict, eval, patch_zero, spec, userResult, Nat.zero_le, if_true, users_update_user,
        Function.update_of_ne hne]
      exact ⟨rfl, rfl⟩
  | compareExchange ptr expected desired mos mof =>
    simp only [Call.code, implCompareExchange, eval, patch_zero, spec, Nat.zero_le, if_true, forall_const]
    by_cases h : ∀ j : Fin n, v j = m (.user expected) j
    · have h' : ∀ j : Fin n, v j = users m expected j := h
      simp only [if_pos h, if_pos h', userResult]
      exact ⟨rfl, trivial⟩
    · have h' : ¬ ∀ j : Fin n, v j = users m expected j := h
      simp only [if_neg h, if_neg h', userResult, users_update_user]
      exact ⟨trivial, rfl⟩

end

/-! ## Linearizability -/

section
variable {Tid Obj Slot : Type} [DecidableEq Tid] [DecidableEq Obj] [DecidableEq Slot] [DecidableEq U]

/-- The operations one after the other, each as `spec` says, on objects that start as `σ`. -/
def sequential (L : Layout Obj) (hash : ℕ → Slot) (σ : ∀ o, Fin (L.size o) → Byte)
    (l : List (Entry Tid (Call Obj U) (Buf U) Byte)) : (∀ o, Fin (L.size o) → Byte) × List (ℕ × Result U Byte) :=
  Api.seqRun (A := api L hash) (fun c v m => spec _ c v (users m)) σ l

omit [DecidableEq Tid] [DecidableEq Slot] in
theorem sequential_eq (L : Layout Obj) (hash : ℕ → Slot) (σ : ∀ o, Fin (L.size o) → Byte)
    (l : List (Entry Tid (Call Obj U) (Buf U) Byte)) :
    sequential L hash σ l = ((Api.seqRun (api L hash).meaning σ l).1,
      (Api.seqRun (api L hash).meaning σ l).2.map fun r => (r.1, userResult r.2)) :=
  Api.seqRun_congr userResult fun c v m => spec_eval c v m

def returned (s : St Tid (Call Obj U) Slot MemoryOrder (Buf U) Byte) : List (ℕ × Result U Byte) :=
  s.results.map fun r => (r.1, userResult r.2)

/-- Any threads, objects and sizes, any hash, any interleaving of bytes: the operations that returned
    gave the results and buffers of the sequential run of the finished operations in the order in
    which they took their slot; the bytes of an object whose slot is free are those of that run; with
    no operation under way the finished operations are all, and all have returned. -/
theorem generic_linearizable (L : Layout Obj) (hash : ℕ → Slot) (mem : ℕ → Byte)
    (s : St Tid (Call Obj U) Slot MemoryOrder (Buf U) Byte) (h : ((api L hash).sys mem).Reach s) :
    (∀ r ∈ returned s, r ∈ (sequential L hash (L.contents mem) (Api.done s)).2) ∧
    (∀ o, s.owner (hash (L.addr o)) = none →
      L.contents s.mem o = (sequential L hash (L.contents mem) (Api.done s)).1 o) ∧
    ((∀ t, s.thr t = .idle) → Api.done s = s.log ∧
      (∀ o, L.contents s.mem o = (sequential L hash (L.contents mem) s.log).1 o) ∧
      ∀ r, r ∈ returned s ↔ r ∈ (sequential L hash (L.contents mem) s.log).2) := by
  obtain ⟨hres, hobj, hidle⟩ := Api.linear (A := api L hash) (s := s) h
  simp only [sequential_eq, returned, List.mem_map]
  refine ⟨?_, hobj, fun hi => ?_⟩
  · rintro r ⟨r', hr, rfl⟩
    exact ⟨r', hres r' hr, rfl⟩
  · obtain ⟨hall, hall', hiff⟩ := hidle hi
    exact ⟨hall, hall', fun r => by simp only [hiff]; exact Iff.rfl⟩

end

def twoObjects : Layout (Fin 2) where
  addr o := 2 * o
  size _ := 2
  disjoint o o' i j hne hi hj h := hne (Fin.ext (by omega))

/-- An exchange with `val == ret` on one object; a compare_exchange on the other takes the slot while
    the exchange copies its result. -/
def collidingEvs : List (Ev (Fin 2) (Call (Fin 2) (Fin 2)) (Buf (Fin 2)) Byte) :=
  [.call 0 (.exchange 0 0 0 .acqRel) fun _ j => j + 1, .call 1 (.compareExchange 1 0 1 .seqCst .seqCst) fun _ _ => 7,
    .run 0, .run 0, .run 0, .run 0, .run 0, .run 0, .run 0, .run 0, .run 1, .run 0, .run 1, .run 0, .run 1, .run 0,
    .run 0, .run 1, .run 1, .run 1, .run 1]

def colliding : Option (St (Fin 2) (Call (Fin 2) (Fin 2)) Unit MemoryOrder (Buf (Fin 2)) Byte) :=
  Lts.Sys.runList (api twoObjects fun _ => ()).step (Api.start (fun _ => 9) fun _ _ _ => 0) collidingEvs

theorem colliding_isSome : colliding.isSome = true := by decide

theorem colliding_reach : ((api twoObjects fun _ => ()).sys fun _ => 9).Reach (colliding.get colliding_isSome) :=
  .runList (fun _ _ _ h => h) (.init ⟨_, rfl⟩) (Option.some_get colliding_isSome).symm

theorem colliding_linearizable : (returned (colliding.get colliding_isSome)).length = 2 ∧
    ∀ r ∈ returned (colliding.get colliding_isSome),
      r ∈ (sequential twoObjects (fun _ => ()) (twoObjects.contents fun _ => 9)
        (Api.done (colliding.get colliding_isSome))).2 :=
  ⟨by decide, (generic_linearizable twoObjects (fun _ => ()) (fun _ => 9) _ colliding_reach).1⟩

end Stdatomic.Generic
