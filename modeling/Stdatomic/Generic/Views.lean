/-
  Stdatomic.Generic.Views — which critical sections a thread has seen when it takes a slot,
  by the memory orders the operations pass on.

  Taking the slot is an access to its lock word that acquires if the order does, and an unlock one
  that releases if the order does; a relaxed one of either side transfers nothing. The views are those
  of `Lib.Views`, over the operations with abstract locks.

  The orders are translated (`mol`, `mou`) from those of the operations, and weakened: a
  store with order release locks with relaxed. So what a thread has seen after its lock
  is what it had seen and, if its order acquires, what the releasing sections of the slot
  had (`section_views`), not every earlier section of the slot (`release_store_unseen`).
-/

import Stdatomic.Generic.Ops
import Stdatomic.Lib.Views

namespace Stdatomic.Generic

open Critical
open Views (Access Effect)

def acquires : MemoryOrder → Bool
  | .consume => true
  | .acquire => true
  | .acqRel => true
  | .seqCst => true
  | _ => false

def releases : MemoryOrder → Bool
  | .release => true
  | .acqRel => true
  | .seqCst => true
  | _ => false

theorem acquires_mol (mo : MemoryOrder) : acquires (mol mo) = acquires mo := by cases mo <;> rfl

theorem releases_mou (mo : MemoryOrder) : releases (mou mo) = releases mo := by cases mo <;> rfl

namespace Call

variable {Obj U : Type}

def lockOrder : Call Obj U → MemoryOrder
  | .load _ _ mo => mo
  | .store _ _ mo => mo
  | .exchange _ _ _ mo => mo
  | .compareExchange _ _ _ mos _ => mos

/-- The orders a call gives to `mou`, one for each exit. -/
def unlockOrders : Call Obj U → List MemoryOrder
  | .load _ _ mo => [mo]
  | .store _ _ mo => [mo]
  | .exchange _ _ _ mo => [mo]
  | .compareExchange _ _ _ mos mof => [mos, mof]

def c11 : Call Obj U → Prop
  | .load _ _ mo => mo ≠ .release ∧ mo ≠ .acqRel
  | .store _ _ mo => mo ≠ .consume ∧ mo ≠ .acquire ∧ mo ≠ .acqRel
  | .exchange _ _ _ _ => True
  | .compareExchange _ _ _ _ mof => mof ≠ .release ∧ mof ≠ .acqRel

end Call

abbrev VSt (Tid Obj Slot U : Type) :=
  Views.VSt Tid Slot (Call Obj U) MemoryOrder (St Tid (Call Obj U) Slot MemoryOrder (Buf U) Byte)

section
variable {Tid Obj Slot U : Type} [DecidableEq Tid] [DecidableEq Slot] [DecidableEq U]
variable (L : Layout Obj) (hash : ℕ → Slot)

/-- Taking a slot and leaving it are accesses to its word. -/
def effect (s : St Tid (Call Obj U) Slot MemoryOrder (Buf U) Byte) :
    Ev Tid (Call Obj U) (Buf U) Byte → Effect Tid Slot (Call Obj U) MemoryOrder
  | .call _ _ _ => .quiet
  | .run t =>
    match s.thr t with
    | .busy c (.lock mo _) _ _ => .access t (hash (L.addr c.ptr)) ⟨acquires mo, false, .rmw⟩
    | .busy c (.unlock mo _) _ ph => .ends t (hash (L.addr c.ptr)) ⟨false, releases mo, .rmw⟩ ph.ticket c mo
    | _ => .quiet

def vstep (v : VSt Tid Obj Slot U) (e : Ev Tid (Call Obj U) (Buf U) Byte) : Option (VSt Tid Obj Slot U) :=
  Views.vstep (api L hash).step (effect L hash) v e

/-- The operations with their views. -/
def views (mem : ℕ → Byte) : Lts.Sys (VSt Tid Obj Slot U) (Ev Tid (Call Obj U) (Buf U) Byte) :=
  Views.views (api L hash).step (effect L hash) ((api L hash).sys mem).init

variable {L hash} {v v' : VSt Tid Obj Slot U} {e : Ev Tid (Call Obj U) (Buf U) Byte} {mem : ℕ → Byte}
variable {s : St Tid (Call Obj U) Slot MemoryOrder (Buf U) Byte} {t : Tid} {q : Slot} {x : Access}

omit [DecidableEq Tid] [DecidableEq Slot] [DecidableEq U] in
theorem effect_access (h : effect L hash s e = .access t q x) : ∃ c mo k i ph, e = .run t ∧
    s.thr t = .busy c (.lock mo k) i ph ∧ hash (L.addr c.ptr) = q ∧ (⟨acquires mo, false, .rmw⟩ : Access) = x := by
  unfold effect at h
  split at h
  · cases h
  · split at h
    · rename_i c mo k i ph ht
      cases h
      exact ⟨c, mo, k, i, ph, rfl, ht, rfl, rfl⟩
    · cases h
    · cases h

omit [DecidableEq Tid] [DecidableEq Slot] [DecidableEq U] in
theorem effect_ends {n : ℕ} {c : Call Obj U} {mo : MemoryOrder} (h : effect L hash s e = .ends t q x n c mo) :
    ∃ k i ph, e = .run t ∧ s.thr t = .busy c (.unlock mo k) i ph ∧ hash (L.addr c.ptr) = q ∧
      (⟨false, releases mo, .rmw⟩ : Access) = x := by
  unfold effect at h
  split at h
  · cases h
  · split at h
    · cases h
    · rename_i k i ph ht
      cases h
      exact ⟨k, i, ph, rfl, ht, rfl, rfl⟩
    · cases h

theorem views_ops (h : (views L hash mem).Reach v) : ((api L hash).sys mem).Reach v.base := Views.views_base h

theorem code_locks {c : Call Obj U} {a : MemoryOrder} (h : a ∈ c.code.locks) : a = mol c.lockOrder := by
  cases c with
  | exchange ptr val ret mo =>
    simp only [Call.code, implExchange] at h
    split at h <;> simpa [atomicExchangeRestrict, Prog.locks, Call.lockOrder] using h
  | _ => simpa [Call.code, implLoad, implStore, implCompareExchange, Prog.locks, Call.lockOrder] using h

theorem code_unlocks {c : Call Obj U} {a : MemoryOrder} (h : a ∈ c.code.unlocks) :
    ∃ mo ∈ c.unlockOrders, a = mou mo := by
  cases c with
  | exchange ptr val ret mo =>
    simp only [Call.code, implExchange] at h
    split at h <;> simpa [atomicExchangeRestrict, Prog.unlocks, Call.unlockOrders] using h
  | _ => simpa [Call.code, implLoad, implStore, implCompareExchange, Prog.unlocks, Call.unlockOrders] using h

/-- What a lock word has is what the releasing sections of its slot had. -/
structure VInv (L : Layout Obj) (hash : ℕ → Slot) (v : VSt Tid Obj Slot U) : Prop where
  word : ∀ q j, j ∈ v.word q ↔ ∃ x ∈ v.ended, hash (L.addr x.call.ptr) = q ∧ releases x.order = true ∧ j ∈ x.view
  own : ∀ x ∈ v.ended, x.ticket ∈ x.view
  order : ∀ x ∈ v.ended, ∃ mo ∈ x.call.unlockOrders, x.order = mou mo

theorem vstep_inv (hv : (views L hash mem).Reach v) (h : VInv L hash v) (hs : vstep L hash v e = some v') :
    VInv L hash v' := by
  obtain ⟨s', -, hm⟩ := Views.vstep_moves hs
  have hown := hm.own h.own
  generalize hf : effect L hash v.base e = f at hm
  cases hm with
  | quiet => exact ⟨h.word, hown, h.order⟩
  | access t q x =>
    obtain ⟨c, mo, k, i, ph, rfl, ht, rfl, rfl⟩ := effect_access hf
    refine ⟨fun q j => ?_, hown, h.order⟩
    rw [← h.word q j]
    by_cases e : q = hash (L.addr c.ptr)
    · subst e
      simp only [Function.update_self]
      rw [Access.mem_leaves rfl]
      simp
    · simp only [Function.update_of_ne e]
  | ends t q x n c mo =>
    obtain ⟨k, i, ph, rfl, ht, rfl, rfl⟩ := effect_ends hf
    obtain ⟨-, hun⟩ := Api.annotations (views_ops hv) t c _ i ph ht
    obtain ⟨mo', hmo', hmou⟩ := code_unlocks (c := c) (hun (List.mem_cons_self ..))
    refine ⟨fun q j => ?_, hown, fun x hx => ?_⟩
    · simp only [List.mem_append, List.mem_singleton]
      by_cases e : q = hash (L.addr c.ptr)
      · subst e
        simp only [Function.update_self]
        rw [Access.mem_leaves rfl, h.word]
        constructor
        · rintro (⟨x, hx, hxs⟩ | ⟨hr, hj⟩)
          · exact ⟨x, Or.inl hx, hxs⟩
          · exact ⟨_, Or.inr rfl, rfl, hr, hj⟩
        · rintro ⟨x, hx | rfl, hq, hr, hj⟩
          · exact Or.inl ⟨x, hx, hq, hr, hj⟩
          · exact Or.inr ⟨hr, hj⟩
      · simp only [Function.update_of_ne e]
        rw [h.word]
        constructor
        · rintro ⟨x, hx, hxs⟩
          exact ⟨x, Or.inl hx, hxs⟩
        · rintro ⟨x, hx | rfl, hq, hr, hj⟩
          · exact ⟨x, hx, hq, hr, hj⟩
          · exact absurd hq.symm e
    · rcases List.mem_append.mp hx with hx | hx
      · exact h.order x hx
      · obtain rfl := List.mem_singleton.mp hx
        exact ⟨mo', hmo', hmou⟩

theorem vinv (h : (views L hash mem).Reach v) : VInv L hash v := by
  refine h.inv (I := VInv L hash) (fun v h0 => ?_) fun v e v' hr hi hs => vstep_inv hr hi hs
  obtain ⟨-, ⟨m, rfl⟩, rfl⟩ := h0
  exact ⟨fun q j => by simp, fun _ h => by simp at h, fun _ h => by simp at h⟩

/-- What a thread has seen when it has just taken a slot: what it had seen before and, if the order
    it locks with acquires, what the releasing sections of the slot had. So it has then seen these,
    and every earlier section of the slot if all their calls ask for releasing orders. -/
theorem section_views (L : Layout Obj) (hash : ℕ → Slot) (mem : ℕ → Byte) (v v' : VSt Tid Obj Slot U)
    (h : (views L hash mem).Reach v) (e : Ev Tid (Call Obj U) (Buf U) Byte) (hs : vstep L hash v e = some v') (t : Tid)
    (c : Call Obj U) (n : ℕ) (hb : (v.base.thr t).within = none) (ha : (v'.base.thr t).within = some (c, n)) :
    (∀ j, j ∈ v'.seen t ↔ j ∈ v.seen t ∨ acquires (mol c.lockOrder) = true ∧ ∃ x ∈ v'.ended,
      hash (L.addr x.call.ptr) = hash (L.addr c.ptr) ∧ releases x.order = true ∧ j ∈ x.view) ∧
    (acquires (mol c.lockOrder) = true → ∀ x ∈ v'.ended, hash (L.addr x.call.ptr) = hash (L.addr c.ptr) →
      releases x.order = true → x.ticket ∈ v'.seen t ∧ x.view ⊆ v'.seen t) ∧
    (acquires c.lockOrder = true → (∀ x ∈ v'.ended, hash (L.addr x.call.ptr) = hash (L.addr c.ptr) →
        ∀ mo ∈ x.call.unlockOrders, releases mo = true) →
      ∀ x ∈ v'.ended, hash (L.addr x.call.ptr) = hash (L.addr c.ptr) → x.ticket ∈ v'.seen t) := by
  obtain ⟨s', hst, hm⟩ := Views.vstep_moves hs
  rw [hm.base_eq] at ha
  obtain ⟨a, k, i, ph, rfl, ht⟩ := Api.step_takes hst hb ha
  have hi := vinv h
  obtain ⟨hmo, -⟩ := Api.annotations (views_ops h) t c _ i ph ht
  have hmol : a = mol c.lockOrder := code_locks (hmo (List.mem_cons_self ..))
  have hended : v'.ended = v.ended ∧ v'.seen t =
      (⟨acquires (mol c.lockOrder), false, .rmw⟩ : Access).sees (v.seen t) (v.word (hash (L.addr c.ptr))) := by
    rw [show effect L hash v.base (.run t) = .access t (hash (L.addr c.ptr)) ⟨acquires a, false, .rmw⟩ by
      simp only [effect, ht], hmol] at hm
    cases hm
    exact ⟨rfl, Function.update_self ..⟩
  obtain ⟨hended, hseen⟩ := hended
  have iff_seen : ∀ j, j ∈ v'.seen t ↔ j ∈ v.seen t ∨ acquires (mol c.lockOrder) = true ∧ ∃ x ∈ v'.ended,
      hash (L.addr x.call.ptr) = hash (L.addr c.ptr) ∧ releases x.order = true ∧ j ∈ x.view := by
    intro j
    rw [hseen, hended, ← hi.word, Access.mem_sees]
  have seen : acquires (mol c.lockOrder) = true → ∀ x ∈ v'.ended, hash (L.addr x.call.ptr) = hash (L.addr c.ptr) →
      releases x.order = true → x.ticket ∈ v'.seen t ∧ x.view ⊆ v'.seen t := by
    intro hacq x hx hq hr
    have hview : x.view ⊆ v'.seen t := fun j hj => (iff_seen j).mpr (Or.inr ⟨hacq, x, hx, hq, hr, hj⟩)
    exact ⟨hview (hi.own x (hended ▸ hx)), hview⟩
  refine ⟨iff_seen, seen, fun hacq hrel x hx hq => (seen (by rwa [acquires_mol]) x hx hq ?_).1⟩
  obtain ⟨mo, hmo', heq⟩ := hi.order x (hended ▸ hx)
  rw [heq, releases_mou]
  exact hrel x hx hq mo hmo'

end

/-! ## Two stores -/

def oneObject : Layout Unit where
  addr _ := 0
  size _ := 1
  disjoint o o' _ _ hne := absurd (Subsingleton.elim o o') hne

/-- Thread `false` stores with order `mo`, then thread `true` comes to the lock of a store with order `mo`. -/
def twoStores (mo : MemoryOrder) : Option (VSt Bool Unit Unit Unit) :=
  Lts.Sys.runList (vstep oneObject fun _ => ()) ⟨Api.start (fun _ => 0) fun _ _ _ => 0, fun _ => ∅, fun _ => ∅, []⟩
    [.call false (.store () () mo) fun _ _ => 1, .run false, .run false, .run false, .run false,
      .call true (.store () () mo) fun _ _ => 2]

theorem twoStores_isSome (mo : MemoryOrder) : (twoStores mo).isSome = true := by cases mo <;> decide

def atLock (mo : MemoryOrder) : VSt Bool Unit Unit Unit := (twoStores mo).get (twoStores_isSome mo)

theorem atLock_reach (mo : MemoryOrder) : (views oneObject (fun _ => ()) fun _ => 0).Reach (atLock mo) :=
  .runList (fun _ _ _ h => h) (.init ⟨_, ⟨_, rfl⟩, rfl⟩) (Option.some_get (twoStores_isSome mo)).symm

theorem atLock_step (mo : MemoryOrder) : (vstep oneObject (fun _ => ()) (atLock mo) (.run true)).isSome = true := by
  cases mo <;> decide

def tookLock (mo : MemoryOrder) : VSt Bool Unit Unit Unit :=
  (vstep oneObject (fun _ => ()) (atLock mo) (.run true)).get (atLock_step mo)

theorem tookLock_step (mo : MemoryOrder) :
    vstep oneObject (fun _ => ()) (atLock mo) (.run true) = some (tookLock mo) :=
  (Option.some_get (atLock_step mo)).symm

/-- With order release, the second store has just taken the slot and has not seen the first. -/
theorem release_store_unseen :
    (views oneObject (fun _ => ()) fun _ => 0).Reach (atLock .release) ∧
    vstep oneObject (fun _ => ()) (atLock .release) (.run true) = some (tookLock .release) ∧
    (Call.store () () .release).c11 ∧ ((atLock .release).base.thr true).within = none ∧
    ((tookLock .release).base.thr true).within = some (.store () () .release, 1) ∧
    ∃ x ∈ (tookLock .release).ended, x.call.ptr = () ∧ x.ticket ∉ (tookLock .release).seen true :=
  ⟨atLock_reach _, tookLock_step _, by simp [Call.c11], by decide, by decide, by decide⟩

/-- With order seq_cst it has. -/
theorem seq_cst_store_seen : (tookLock .seqCst).ended.length = 1 ∧
    ∀ x ∈ (tookLock .seqCst).ended, x.ticket ∈ (tookLock .seqCst).seen true := by
  have hv := section_views oneObject (fun _ => ()) (fun _ => 0) _ _ (atLock_reach .seqCst) (.run true)
    (tookLock_step .seqCst) true (.store () () .seqCst) 1 (by decide) (by decide)
  exact ⟨by decide, fun x hx => hv.2.2 (by decide) (by decide) x hx rfl⟩

end Stdatomic.Generic
