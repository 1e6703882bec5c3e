/-
  Stdatomic.Generic.Sized — the code of the sized functions `__impl_K_N` and of the unsized
  `__impl_K` with `size = N`, as what a thread does next on the object (`Pc`).

  The unsized functions are sections of the slot lock, with one step for each `memcpy` or
  `memcmp` of the object (`Sec`). The sized ones come in two ways (`Inst`):
  - lock-based, `INSTANTIATE_STUB_LCM` and `INSTANTIATE_STUB_LCA`: the unsized function, or
    a loop over the unsized compare-exchange;
  - lock-free, `INSTANTIATE_STUB_LF` of one of three headers: an instruction of the
    processor, or a loop over its compare-exchange. They take no lock.

  `Call.spec` is what a call is for. `Pc.Ok` says of a place in the code that what is to
  come does the call, as long as a section that is between its two steps still finds
  what the first one found (`Sec.Holds`). It holds of every entry point (`code_ok`), and an
  access to the object settles the call as `Call.spec` says, or leaves the object and
  what is to come right (`Pc.access_ok`).
-/

import Stdatomic.Arith.Backends

namespace Stdatomic.Mixed

open CInt Arith

variable {w : ℕ}

/-! ## The calls -/

inductive Res (w : ℕ) where
  | unit
  | val (v : BitVec w)
  | cas (ok : Bool) (expected : BitVec w)
  deriving DecidableEq

inductive Fn (w : ℕ) where
  | load (mo : MemoryOrder)
  | store (val : BitVec w) (mo : MemoryOrder)
  | exchange (val : BitVec w) (mo : MemoryOrder)
  | compareExchange (expected desired : BitVec w) (mos mof : MemoryOrder)
  deriving DecidableEq

inductive Call (w : ℕ) where
  /-- `__impl_K`. -/
  | unsized (k : Fn w)
  /-- `__impl_K_N`. -/
  | sized (k : Fn w)
  /-- `__impl_fetch_K_N`, or `__impl_K_fetch_N`. -/
  | arith (op : Op) (fetch : Bool) (y : BitVec w) (mo : MemoryOrder)
  deriving DecidableEq

def Fn.spec : Fn w → BitVec w → BitVec w × Res w
  | .load _, v => (v, .val v)
  | .store x _, _ => (x, .unit)
  | .exchange x _, v => (x, .val v)
  | .compareExchange e d _ _, v => if v = e then (d, .cas true e) else (v, .cas false v)

def Call.spec : Call w → BitVec w → BitVec w × Res w
  | .unsized k, v => k.spec v
  | .sized k, v => k.spec v
  | .arith op fetch y _, v => (op.apply _ v y, .val (if fetch then v else op.apply _ v y))

/-! ## The unsized functions -/

/-- What is left of a section, up to its unlock. -/
inductive Sec (w : ℕ) where
  /-- `memcpy(ret, ptr)`. -/
  | load
  /-- `memcpy(ptr, val)`. -/
  | store (val : BitVec w)
  /-- `memcpy(ret, ptr)`, then `memcpy(ptr, val)`. -/
  | exchange (val : BitVec w)
  | exchanged (val ret : BitVec w)
  /-- `memcmp(ptr, expected)`, then `memcpy(ptr, desired)` or `memcpy(expected, ptr)`. -/
  | compare (expected desired : BitVec w)
  | equal (expected desired : BitVec w)
  | unequal (expected : BitVec w)

def Sec.of : Fn w → Sec w
  | .load _ => .load
  | .store val _ => .store val
  | .exchange val _ => .exchange val
  | .compareExchange expected desired _ _ => .compare expected desired

/-- One access to the object, with the value `v`: the object afterwards, and the rest of the section
    or its result. -/
def Sec.access : Sec w → BitVec w → BitVec w × (Sec w ⊕ Res w)
  | .load, v => (v, .inr (.val v))
  | .store x, _ => (x, .inr .unit)
  | .exchange x, v => (v, .inl (.exchanged x v))
  | .exchanged x ret, _ => (x, .inr (.val ret))
  | .compare e d, v => (v, .inl (if v = e then .equal e d else .unequal e))
  | .equal e d, _ => (d, .inr (.cas true e))
  | .unequal _, v => (v, .inr (.cas false v))

def Sec.between : Sec w → Bool
  | .exchanged _ _ => true
  | .equal _ _ => true
  | .unequal _ => true
  | _ => false

/-! ## The sized functions -/

/-- A loop over a compare-exchange that expects `E` and stores `R`. -/
structure Loop (w : ℕ) where
  /-- `R` from `E` after a failed attempt. -/
  next : BitVec w → BitVec w
  /-- What is returned at `E` and `R`. -/
  result : BitVec w → BitVec w → Res w

inductive Pc (w : ℕ) where
  /-- An instruction. -/
  | instr (f : BitVec w → BitVec w × Res w)
  /-- The compare-exchange instruction of a loop. -/
  | attempt (l : Loop w) (E R : BitVec w)
  /-- A section, of the loop and `R` if it has been called from one. -/
  | lock (k : Sec w) (l : Option (Loop w × BitVec w))
  | inside (k : Sec w) (l : Option (Loop w × BitVec w))
  | unlock (r : Res w) (l : Option (Loop w × BitVec w))
  | ret (r : Res w)

/-- The builtins `__atomic_K_n` and `__c11_atomic_K`. -/
def builtin : Fn w → BitVec w → BitVec w × Res w
  | .load _, v => (v, .val v)
  | .store x _, _ => (x, .unit)
  | .exchange x _, v => (x, .val v)
  | .compareExchange e d _ _, v =>
    let r := compareExchange v e d
    (r.obj, .cas r.ok r.expected)

def syncValCompareAndSwap (v e d : BitVec w) : BitVec w × BitVec w :=
  let r := compareExchange v e d
  (r.obj, r.expected)

/-- The four functions of `INSTANTIATE_STUB_LF` in `atomic_gcc_sync.h`. -/
def syncCode : Fn w → Pc w
  | .load _ => .instr fun v =>
    let r := syncValCompareAndSwap v 0 0
    (r.1, .val r.2)
  | .store x _ => .attempt ⟨fun _ => x, fun _ _ => .unit⟩ x x
  | .exchange x _ => .attempt ⟨fun _ => x, fun E _ => .val E⟩ x x
  | .compareExchange e d _ _ => .instr fun v =>
    let r := syncValCompareAndSwap v e d
    if e ≠ r.2 then (r.1, .cas false r.2) else (r.1, .cas true e)

def instrOf (f : BitVec w → Rmw w) : Pc w := .instr fun v => ((f v).1, .val (f v).2)

/-- The header that `INSTANTIATE_STUB_LF` comes from. -/
inductive Header where
  | gccAtomic
  | clang
  | gccSync
  deriving DecidableEq, Repr

inductive Inst where
  | lockFree (h : Header)
  | lockBased
  deriving DecidableEq, Repr

section
variable (C : Impl) (T : IntTy)

def stubLoop {T : IntTy} (s : Stub T) : Loop T.width := ⟨s.next, fun E R => .val (if s.returnsE then E else R)⟩

/-- A stub over the compare-exchange instruction. -/
def stubCode (op : Op) (fetch : Bool) (y : BitVec T.width) (mo : MemoryOrder) : Pc T.width :=
  let s := stub C T y mo op fetch
  .attempt (stubLoop s) 0 s.first

def arithCode : Header → Op → Bool → BitVec T.width → MemoryOrder → Pc T.width
  | .gccAtomic, op, fetch, y, _ => instrOf fun v => (op.apply _ v y, if fetch then v else op.apply _ v y)
  | .clang, op, fetch, y, mo =>
    match Clang.fn C T op fetch with
    | some f => instrOf fun v => f v y
    | none => stubCode C T op fetch y mo
  | .gccSync, op, fetch, y, mo =>
    match GccSync.fn op fetch with
    | some f => instrOf fun v => f v y
    | none => stubCode C T op fetch y mo

def code : Inst → Call T.width → Pc T.width
  | _, .unsized k => .lock (Sec.of k) none
  | .lockBased, .sized k => .lock (Sec.of k) none
  | .lockFree .gccSync, .sized k => syncCode k
  | .lockFree _, .sized k => .instr (builtin k)
  | .lockFree h, .arith op fetch y mo => arithCode C T h op fetch y mo
  | .lockBased, .arith op fetch y mo =>
    let s := stub C T y mo op fetch
    .lock (.compare 0 s.first) (some (stubLoop s, s.first))

end

/-! ## From step to step -/

/-- Where a section with the result `r` goes on. -/
def Pc.back (r : Res w) : Option (Loop w × BitVec w) → Pc w
  | none => .ret r
  | some (l, R) =>
    match r with
    | .cas true E => .ret (l.result E R)
    | .cas false E => .lock (.compare E (l.next E)) (some (l, l.next E))
    -- a loop calls nothing but compare_exchange
    | r => .ret r

/-- The result that a call will return, once it is settled. -/
def Pc.final : Pc w → Option (Res w)
  | .ret r => some r
  | .unlock r l =>
    match back r l with
    | .ret r => some r
    | _ => none
  | _ => none

/-- The access to the object that comes next, if one does: the object afterwards, and what comes then. -/
def Pc.access : Pc w → BitVec w → Option (BitVec w × Pc w)
  | .instr f, v => some ((f v).1, .ret (f v).2)
  | .attempt l E R, v =>
    let r := compareExchange v E R
    some (r.obj, if r.ok then .ret (l.result r.expected R) else .attempt l r.expected (l.next r.expected))
  | .inside k l, v =>
    match k.access v with
    | (v, .inl k) => some (v, .inside k l)
    | (v, .inr r) => some (v, .unlock r l)
  | _, _ => none

def Pc.isInstr : Pc w → Bool
  | .instr _ => true
  | .attempt _ _ _ => true
  | _ => false

/-! ## What the code of a call does -/

def Sec.spec : Sec w → BitVec w → BitVec w × Res w
  | .load, v => (v, .val v)
  | .store x, _ => (x, .unit)
  | .exchange x, v => (x, .val v)
  | .exchanged x ret, _ => (x, .val ret)
  | .compare e d, v => if v = e then (d, .cas true e) else (v, .cas false v)
  | .equal e d, _ => (d, .cas true e)
  | .unequal _, v => (v, .cas false v)

def Sec.Holds : Sec w → BitVec w → Prop
  | .exchanged _ ret, v => v = ret
  | .equal e _, v => v = e
  | .unequal e, v => v ≠ e
  | _, _ => True

/-- Every value makes the loop attempt `c`. -/
def Loop.Ok (l : Loop w) (c : Call w) : Prop := ∀ E, c.spec E = (l.next E, l.result E (l.next E))

/-- While its finding holds, the rest of the section does `c`, or an attempt of a loop that does. -/
def Sec.Ok (k : Sec w) (c : Call w) : Option (Loop w × BitVec w) → Prop
  | none => ∀ v, k.Holds v → k.spec v = c.spec v
  | some (l, R) => l.Ok c ∧ ∃ E, c.spec E = (R, l.result E R) ∧ ∀ v, k.Holds v → k.spec v = (Sec.compare E R).spec v

def Pc.Ok (c : Call w) : Pc w → Prop
  | .instr f => ∀ v, f v = c.spec v
  | .attempt l E R => l.Ok c ∧ c.spec E = (R, l.result E R)
  | .lock k l => (∀ v, k.Holds v) ∧ k.Ok c l
  | .inside k l => k.Ok c l
  | .unlock r l =>
    match back r l with
    | .lock k l => (∀ v, k.Holds v) ∧ k.Ok c l
    | _ => True
  | .ret _ => True

def Pc.Found (v : BitVec w) : Pc w → Prop
  | .inside k _ => k.Holds v
  | _ => True

def Pc.holds : Pc w → Bool
  | .inside _ _ => true
  | .unlock _ _ => true
  | _ => false

theorem Sec.access_inl {k k' : Sec w} {v v' : BitVec w} (h : k.access v = (v', .inl k')) :
    v' = v ∧ k'.Holds v ∧ ∀ u, k'.Holds u → k.Holds u ∧ k'.spec u = k.spec u := by
  cases k <;> simp only [Sec.access, Prod.mk.injEq, Sum.inl.injEq, reduceCtorEq, and_false] at h
  case exchange x =>
    obtain ⟨rfl, rfl⟩ := h
    exact ⟨rfl, rfl, fun u hu => ⟨trivial, by cases hu; rfl⟩⟩
  case compare e d =>
    obtain ⟨rfl, rfl⟩ := h
    by_cases he : v = e
    · simp only [if_pos he]
      exact ⟨trivial, he, fun u hu => ⟨trivial, (if_pos hu).symm⟩⟩
    · simp only [if_neg he]
      exact ⟨trivial, he, fun u hu => ⟨trivial, (if_neg hu).symm⟩⟩

theorem Sec.access_inr {k : Sec w} {v v' : BitVec w} {r : Res w} (h : k.access v = (v', .inr r)) :
    k.spec v = (v', r) := by
  cases k <;> simp only [Sec.access, Prod.mk.injEq, Sum.inr.injEq, reduceCtorEq, and_false] at h <;>
    obtain ⟨rfl, rfl⟩ := h <;> rfl

theorem Sec.Ok.inl {k k' : Sec w} {c : Call w} {l : Option (Loop w × BitVec w)} {v v' : BitVec w} (h : k.Ok c l)
    (hk : k.access v = (v', .inl k')) : k'.Ok c l := by
  obtain ⟨-, -, hspec⟩ := Sec.access_inl hk
  cases l with
  | none => exact fun u hu => (hspec u hu).2.trans (h u (hspec u hu).1)
  | some l =>
    obtain ⟨hl, E, hE, hcas⟩ := h
    exact ⟨hl, E, hE, fun u hu => (hspec u hu).2.trans (hcas u (hspec u hu).1)⟩

/-- The section has done the call, or an attempt that failed and left the object. -/
theorem Sec.Ok.inr {k : Sec w} {c : Call w} {l : Option (Loop w × BitVec w)} {v v' : BitVec w} {r : Res w}
    (h : k.Ok c l) (hv : k.Holds v) (hk : k.access v = (v', .inr r)) :
    (∃ r', Pc.back r l = .ret r' ∧ c.spec v = (v', r')) ∨
      ∃ k' l', Pc.back r l = .lock k' l' ∧ ((∀ u, k'.Holds u) ∧ k'.Ok c l') ∧ v' = v := by
  have hspec := Sec.access_inr hk
  cases l with
  | none => exact Or.inl ⟨r, rfl, (h v hv).symm.trans hspec⟩
  | some l =>
    obtain ⟨l, R⟩ := l
    obtain ⟨hl, E, hE, hcas⟩ := h
    rw [hcas v hv, Sec.spec] at hspec
    split at hspec
    · rename_i he
      cases hspec
      exact Or.inl ⟨_, rfl, by rw [he, hE]⟩
    · cases hspec
      exact Or.inr ⟨_, _, rfl, ⟨fun _ => trivial, hl, v, hl v, fun _ _ => rfl⟩, rfl⟩

/-- What an access does: it settles the call, as its meaning says, or leaves the object. -/
theorem Pc.access_ok {p p' : Pc w} {c : Call w} {v v' : BitVec w} (hp : p.Ok c) (hf : p.Found v)
    (h : p.access v = some (v', p')) :
    p'.Ok c ∧ p'.Found v' ∧ p'.holds = p.holds ∧ (p'.final = none → v' = v) ∧
      ∀ r, p'.final = some r → c.spec v = (v', r) := by
  cases p with
  | instr f =>
    cases h
    exact ⟨trivial, trivial, rfl, nofun, fun r h => by cases h; exact (hp v).symm⟩
  | attempt l E R =>
    obtain ⟨hl, hE⟩ := hp
    by_cases he : v = E
    · subst he
      simp only [Pc.access, compareExchange_eq, if_true, Option.some.injEq, Prod.mk.injEq] at h
      obtain ⟨rfl, rfl⟩ := h
      exact ⟨trivial, trivial, rfl, nofun, fun r h => by cases h; exact hE⟩
    · simp only [Pc.access, compareExchange_ne he, Bool.false_eq_true, if_false, Option.some.injEq,
        Prod.mk.injEq] at h
      obtain ⟨rfl, rfl⟩ := h
      exact ⟨⟨hl, hl v⟩, trivial, rfl, fun _ => rfl, nofun⟩
  | inside k l =>
    simp only [Pc.access] at h
    split at h
    · rename_i v₁ k' hk
      cases h
      obtain ⟨hobj, hheld, -⟩ := Sec.access_inl hk
      exact ⟨Sec.Ok.inl hp hk, hobj ▸ hheld, rfl, fun _ => hobj, nofun⟩
    · rename_i v₁ r hk
      cases h
      rcases Sec.Ok.inr hp hf hk with ⟨r', hb, hspec⟩ | ⟨k', l', hb, hok, hobj⟩
      · simp only [Pc.Ok, Pc.final, hb]
        exact ⟨trivial, trivial, rfl, nofun, fun r h => by cases h; exact hspec⟩
      · simp only [Pc.Ok, Pc.final, hb]
        exact ⟨hok, trivial, rfl, fun _ => hobj, nofun⟩
  | lock k l => cases h
  | unlock r l => cases h
  | ret r => cases h

theorem Pc.access_open {p : Pc w} {v : BitVec w} {r : BitVec w × Pc w} (h : p.access v = some r) :
    p.final = none ∧ (p.isInstr = true ∨ p.holds = true) := by
  cases p with
  | instr | attempt => exact ⟨rfl, Or.inl rfl⟩
  | inside => exact ⟨rfl, Or.inr rfl⟩
  | lock | unlock | ret => cases h

theorem Pc.found_of_holds {p : Pc w} (h : p.holds = false) (v : BitVec w) : p.Found v := by
  cases p with
  | inside k l => cases h
  | _ => trivial

theorem builtin_spec (k : Fn w) (v : BitVec w) : builtin k v = k.spec v := by
  cases k with
  | compareExchange e d mos mof =>
    by_cases h : v = e
    · simp [builtin, Fn.spec, h]
    · simp [builtin, Fn.spec, h, compareExchange_ne h]
  | _ => rfl

theorem syncCode_ok (k : Fn w) : (syncCode k).Ok (.sized k) := by
  cases k with
  | load mo =>
    intro v
    by_cases h : v = 0
    · subst h
      rfl
    · simp only [syncValCompareAndSwap, compareExchange_ne h, Call.spec, Fn.spec]
  | store x mo => exact ⟨fun _ => rfl, rfl⟩
  | exchange x mo => exact ⟨fun _ => rfl, rfl⟩
  | compareExchange e d mos mof =>
    intro v
    by_cases h : v = e
    · subst h
      simp [syncValCompareAndSwap, Call.spec, Fn.spec]
    · have h' : ¬ e = v := fun heq => h heq.symm
      simp [syncValCompareAndSwap, compareExchange_ne h, h, h', Call.spec, Fn.spec]

section
variable {C : Impl} {T : IntTy}

theorem stubLoop_ok (op : Op) (fetch : Bool) (y : BitVec T.width) (mo : MemoryOrder) :
    (stubLoop (stub C T y mo op fetch)).Ok (.arith op fetch y mo) ∧
      (Call.arith op fetch y mo).spec 0 =
        ((stub C T y mo op fetch).first, (stubLoop (stub C T y mo op fetch)).result 0 (stub C T y mo op fetch).first) := by
  obtain ⟨hfirst, hnext⟩ := stub_guesses C y mo op fetch
  have hret := stub_returnsE C y mo op fetch
  exact ⟨fun E => by simp only [stubLoop, Call.spec, hnext, hret], by simp only [stubLoop, Call.spec, hfirst, hret]⟩

theorem instrOf_ok {f : BitVec T.width → Rmw T.width} {op : Op} {fetch : Bool} {y : BitVec T.width} {mo : MemoryOrder}
    (h : ∀ v, f v = rmwSpec T v y op fetch) : (instrOf f).Ok (.arith op fetch y mo) := by
  intro v
  simp only [h, rmwSpec, Call.spec]

theorem stubCode_ok (op : Op) (fetch : Bool) (y : BitVec T.width) (mo : MemoryOrder) :
    (stubCode C T op fetch y mo).Ok (.arith op fetch y mo) := stubLoop_ok op fetch y mo

theorem arithCode_ok (h : Header) (op : Op) (fetch : Bool) (y : BitVec T.width) (mo : MemoryOrder) :
    (arithCode C T h op fetch y mo).Ok (.arith op fetch y mo) := by
  have hagree := fun v => functions_agree C v y mo op fetch
  cases h with
  | gccAtomic => exact instrOf_ok fun _ => rfl
  | clang =>
    simp only [arithCode]
    split
    · rename_i f hf
      refine instrOf_ok fun v => Option.some.inj ?_
      have := (hagree v).2.2
      rwa [hf] at this
    · exact stubCode_ok op fetch y mo
  | gccSync =>
    simp only [arithCode]
    split
    · rename_i f hf
      refine instrOf_ok fun v => Option.some.inj ?_
      have := (hagree v).2.1
      rwa [hf] at this
    · exact stubCode_ok op fetch y mo

structure Pc.Fresh (p : Pc w) : Prop where
  final : p.final = none
  holds : p.holds = false
  found : ∀ v, p.Found v

theorem code_ok (inst : Inst) (c : Call T.width) : (code C T inst c).Ok c := by
  have of_ok : ∀ k : Fn T.width, (Pc.lock (Sec.of k) none).Ok (.unsized k) := fun k => by
    cases k <;> exact ⟨fun _ => trivial, fun _ _ => rfl⟩
  cases c with
  | unsized k => cases inst <;> exact of_ok k
  | sized k =>
    rcases inst with ⟨_ | _ | _⟩ | _
    · exact builtin_spec k
    · exact builtin_spec k
    · exact syncCode_ok k
    · exact of_ok k
  | arith op fetch y mo =>
    cases inst with
    | lockFree h => exact arithCode_ok h op fetch y mo
    | lockBased =>
      obtain ⟨hloop, hfirst⟩ := stubLoop_ok op fetch y mo
      exact ⟨fun _ => trivial, hloop, 0, hfirst, fun _ _ => rfl⟩

theorem code_fresh (inst : Inst) (c : Call T.width) : (code C T inst c).Fresh := by
  cases c with
  | unsized k => cases inst <;> exact ⟨rfl, rfl, fun _ => trivial⟩
  | sized k =>
    rcases inst with ⟨_ | _ | _⟩ | _
    case lockFree.gccSync => cases k <;> exact ⟨rfl, rfl, fun _ => trivial⟩
    all_goals exact ⟨rfl, rfl, fun _ => trivial⟩
  | arith op fetch y mo =>
    rcases inst with ⟨_ | _ | _⟩ | _
    case lockFree.clang | lockFree.gccSync =>
      simp only [code, arithCode]
      split <;> exact ⟨rfl, rfl, fun _ => trivial⟩
    all_goals exact ⟨rfl, rfl, fun _ => trivial⟩

end

theorem Pc.back_cases (r : Res w) (l : Option (Loop w × BitVec w)) :
    (∃ r', back r l = .ret r') ∨ ∃ k l', back r l = .lock k l' := by
  unfold back
  repeat' split
  all_goals first | exact Or.inl ⟨_, rfl⟩ | exact Or.inr ⟨_, _, rfl⟩

theorem Pc.back_ok {r : Res w} {l : Option (Loop w × BitVec w)} :
    (∀ c, (Pc.unlock r l).Ok c → (back r l).Ok c) ∧ (back r l).final = (Pc.unlock r l).final ∧
      (back r l).holds = false ∧ ∀ v, (back r l).Found v := by
  rcases back_cases r l with ⟨r', hb⟩ | ⟨k, l', hb⟩
  · simp only [Pc.Ok, Pc.final, hb]
    exact ⟨fun _ _ => trivial, trivial, rfl, fun _ => trivial⟩
  · simp only [Pc.Ok, Pc.final, hb]
    exact ⟨fun _ h => h, trivial, rfl, fun _ => trivial⟩

end Stdatomic.Mixed
