/-
  Stdatomic.Generic.Locked — sized and unsized functions on one object, over the lock of its
  slot.

  `Generic.Mixed` has an abstract mutex in the slot. Here `__impl_mut_lock` and
  `__impl_mut_unlock` run step by step, as an algorithm of their own (`LockTable.Lock`)
  with the memory orders that the call passes. A thread may be anywhere in the lock when others
  copy, run instructions, or repeat an attempt.

  The abstract mutex is taken in the return from `lock` and released in the call of `unlock`: a
  thread that has called it is past it (`settled`). So if the lock excludes, every step is
  a step of `Mixed` or none (`matches_mixed`), and what is linearizable there is so here
  (`locked_linearize`).
-/

import Stdatomic.Generic.Progress
import Stdatomic.Generic.Library

namespace Stdatomic.Locked

open CInt Arith
open LockTable (Lock Place)
open Mixed (Call Entry Header Inst Loop Pc Res Sec Thr)

/-! ## The orders -/

/-- The order of a call, of its success where it has two. -/
def mos {w : ℕ} : Call w → MemoryOrder
  | .unsized (.compareExchange _ _ mos _) => mos
  | .sized (.compareExchange _ _ mos _) => mos
  | .unsized (.load mo) => mo
  | .sized (.load mo) => mo
  | .unsized (.store _ mo) => mo
  | .sized (.store _ mo) => mo
  | .unsized (.exchange _ mo) => mo
  | .sized (.exchange _ mo) => mo
  | .arith _ _ _ mo => mo

def failureOrder {w : ℕ} : Call w → MemoryOrder
  | .unsized (.compareExchange _ _ _ mof) => mof
  | .sized (.compareExchange _ _ _ mof) => mof
  | .arith _ _ _ mo => mof mo
  | c => mos c

/-- What `__impl_mut_unlock` gets at the end of a section with the result `r`. -/
def unlockOrder {w : ℕ} (c : Call w) : Res w → MemoryOrder
  | .cas false _ => mou (failureOrder c)
  | _ => mou (mos c)

/-! ## Runs -/

/-- The state of `Mixed`, and the lock. In `base` the owner is ghost. -/
structure St (Tid : Type) (w : ℕ) (σ : Type) where
  base : Mixed.St Tid w
  lock : σ

inductive Ev (Tid : Type) (w : ℕ) (ε : Type) where
  | call (t : Tid) (c : Call w)
  | run (t : Tid)
  /-- A step within the lock. -/
  | inner (e : ε)

variable {Tid σ ε : Type} {w : ℕ}

section
variable [DecidableEq Tid] (C : Impl) (T : IntTy) (inst : Inst) (K : Lock Tid MemoryOrder σ ε)

def St.run (s : St Tid w σ) (t : Tid) (x : Entry w) : Pc w → Option (St Tid w σ)
  | .lock k l =>
    match K.place s.lock t with
    | .out => (K.step s.lock (K.lock t (mol (mos x.call)))).map fun m => { s with lock := m }
    | .held => some { s with base := { s.base.goto t x (.inside k l) with owner := some t } }
    | _ => none
  | .unlock r l =>
    match K.place s.lock t with
    | .held =>
      (K.step s.lock (K.unlock t (unlockOrder x.call r))).map fun m => ⟨{ s.base with owner := none }, m⟩
    | .out => some { s with base := s.base.goto t x (Pc.back r l) }
    | _ => none
  | p => (s.base.run t x p).map fun b => { s with base := b }

def step (s : St Tid T.width σ) : Ev Tid T.width ε → Option (St Tid T.width σ)
  | .call t c => (Mixed.step C T inst s.base (.call t c)).map fun b => { s with base := b }
  | .run t =>
    match s.base.thr t with
    | .idle => none
    | .busy x p => s.run K t x p
  | .inner e => if K.inner e then (K.step s.lock e).map fun m => { s with lock := m } else none

def start (v₀ : BitVec w) : St Tid w σ := ⟨Mixed.start v₀, K.start⟩

def sys (v₀ : BitVec T.width) : Lts.Sys (St Tid T.width σ) (Ev Tid T.width ε) where
  init s := s = start K v₀
  step s e s' := step C T inst K s e = some s'

end

/-- No instruction changes the object while a thread is between the two steps of a section. -/
def Quiet (s : St Tid w σ) : Ev Tid w ε → Prop
  | .run t => Mixed.Quiet s.base (.run t)
  | _ => True

section
variable [DecidableEq Tid] {C : Impl} {T : IntTy} {inst : Inst} {K : Lock Tid MemoryOrder σ ε}
variable {s s' : St Tid T.width σ}

variable (C inst K) in
inductive Moves (s : St Tid T.width σ) : Ev Tid T.width ε → St Tid T.width σ → Prop
  | call (t : Tid) (c : Call T.width) (b : Mixed.St Tid T.width) :
      Mixed.step C T inst s.base (.call t c) = some b → Moves s (.call t c) { s with base := b }
  | enter (t : Tid) (x : Entry T.width) (k : Sec T.width) (l : Option (Loop T.width × BitVec T.width)) (m : σ) :
      s.base.thr t = .busy x (.lock k l) → K.step s.lock (K.lock t (mol (mos x.call))) = some m →
      Moves s (.run t) { s with lock := m }
  | take (t : Tid) (x : Entry T.width) (k : Sec T.width) (l : Option (Loop T.width × BitVec T.width)) :
      s.base.thr t = .busy x (.lock k l) → K.place s.lock t = .held →
      Moves s (.run t) { s with base := { s.base.goto t x (.inside k l) with owner := some t } }
  | release (t : Tid) (x : Entry T.width) (r : Res T.width) (l : Option (Loop T.width × BitVec T.width)) (m : σ) :
      s.base.thr t = .busy x (.unlock r l) → K.step s.lock (K.unlock t (unlockOrder x.call r)) = some m →
      Moves s (.run t) ⟨{ s.base with owner := none }, m⟩
  | back (t : Tid) (x : Entry T.width) (r : Res T.width) (l : Option (Loop T.width × BitVec T.width)) :
      s.base.thr t = .busy x (.unlock r l) → K.place s.lock t = .out →
      Moves s (.run t) { s with base := s.base.goto t x (Pc.back r l) }
  | own (t : Tid) (x : Entry T.width) (p : Pc T.width) (b : Mixed.St Tid T.width) : s.base.thr t = .busy x p →
      (∀ k l, p ≠ .lock k l) → (∀ r l, p ≠ .unlock r l) → Mixed.step C T inst s.base (.run t) = some b →
      Moves s (.run t) { s with base := b }
  | inner (e : ε) (m : σ) : K.inner e = true → K.step s.lock e = some m → Moves s (.inner e) { s with lock := m }

theorem step_moves {e : Ev Tid T.width ε} (h : step C T inst K s e = some s') : Moves C inst K s e s' := by
  cases e with
  | call t c =>
    obtain ⟨b, hb, rfl⟩ := Option.map_eq_some_iff.mp h
    exact .call t c b hb
  | inner e =>
    simp only [step] at h
    split at h
    · rename_i he
      obtain ⟨m, hm, rfl⟩ := Option.map_eq_some_iff.mp h
      exact .inner e m he hm
    · cases h
  | run t =>
    simp only [step] at h
    split at h
    · cases h
    · rename_i x p ht
      cases p with
      | lock k l =>
        simp only [St.run] at h
        split at h
        · obtain ⟨m, hm, rfl⟩ := Option.map_eq_some_iff.mp h
          exact .enter t x k l m ht hm
        · rename_i hp
          cases h
          exact .take t x k l ht hp
        · cases h
      | unlock r l =>
        simp only [St.run] at h
        split at h
        · obtain ⟨m, hm, rfl⟩ := Option.map_eq_some_iff.mp h
          exact .release t x r l m ht hm
        · rename_i hp
          cases h
          exact .back t x r l ht hp
        · cases h
      | instr | attempt | inside | ret =>
        simp only [St.run, Option.map_eq_some_iff] at h
        obtain ⟨b, hb, rfl⟩ := h
        exact .own t x _ b ht (fun _ _ e => by cases e) (fun _ _ e => by cases e) (by simp only [Mixed.step, ht, hb])

/-! ## The abstract mutex -/

/-- A thread that has called `unlock` is past it. -/
def settled (p : Place) : Thr w → Thr w
  | .busy x (.unlock r l) => if p = .held then .busy x (.unlock r l) else .busy x (Pc.back r l)
  | h => h

def Fits (p : Place) : Thr w → Prop
  | .busy _ (.lock _ _) => p ≠ .unlocking
  | .busy _ (.inside _ _) => p = .held
  | .busy _ (.unlock _ _) => p ≠ .locking
  | _ => p = .out

def St.abs (K : Lock Tid MemoryOrder σ ε) (s : St Tid w σ) : Mixed.St Tid w :=
  { s.base with thr := fun t => settled (K.place s.lock t) (s.base.thr t) }

end

theorem settled_free {x : Entry w} {p : Pc w} (h : p.holds = false) (q : Place) :
    settled q (.busy x p) = .busy x p := by
  cases p with
  | unlock r l => cases h
  | _ => rfl

theorem settled_held (h : Thr w) : settled .held h = h := by
  cases h with
  | idle => rfl
  | busy x p => cases p <;> rfl

theorem fits_out {x : Entry w} {p : Pc w} (h : p.holds = false) : Fits .out (.busy x p) := by
  cases p with
  | lock k l => exact fun e => by cases e
  | inside k l | unlock r l => cases h
  | _ => rfl

theorem fits_held {x : Entry w} {p : Pc w} (h : p.holds = true) : Fits .held (.busy x p) := by
  cases p with
  | inside k l => rfl
  | unlock r l => exact fun e => by cases e
  | _ => cases h

/-- Within the section a thread holds the lock; it is at no other place between two calls of it. -/
theorem Fits.own {x : Entry w} {p : Pc w} {q : Place} (h : Fits q (.busy x p)) (hlock : ∀ k l, p ≠ .lock k l)
    (hunlock : ∀ r l, p ≠ .unlock r l) : p.holds = true ∧ q = .held ∨ p.holds = false ∧ q = .out := by
  cases p with
  | inside k l => exact Or.inl ⟨rfl, h⟩
  | lock k l => exact absurd rfl (hlock k l)
  | unlock r l => exact absurd rfl (hunlock r l)
  | _ => exact Or.inr ⟨rfl, h⟩

theorem Fits.inner {h : Thr w} {q q' : Place} (hf : Fits q h) (hq : q.Inner q') :
    Fits q' h ∧ settled q' h = settled q h := by
  rcases hq with rfl | ⟨rfl, rfl⟩ | ⟨rfl, rfl⟩
  · exact ⟨hf, rfl⟩
  · cases h with
    | idle => cases hf
    | busy x p =>
      cases p with
      | lock k l => exact ⟨(fun e => by cases e), rfl⟩
      | unlock r l => exact absurd rfl hf
      | _ => cases hf
  · cases h with
    | idle => cases hf
    | busy x p =>
      cases p with
      | lock k l => exact absurd rfl hf
      | unlock r l => exact ⟨(fun e => by cases e), rfl⟩
      | _ => cases hf

/-- Only within its section a thread has the abstract mutex. -/
theorem Fits.holds {h : Thr w} {q : Place} (hf : Fits q h) (hh : (settled q h).holds = true) : q = .held := by
  cases h with
  | idle => cases hh
  | busy x p =>
    cases p with
    | inside k l => exact hf
    | unlock r l =>
      by_contra hq
      have hb : (Pc.back r l).holds = false := Pc.back_ok.2.2.1
      simp only [settled, if_neg hq, Thr.holds, hb, Bool.false_eq_true] at hh
    | _ => cases hh

/-! ## Matching `Mixed` -/

structure Rel (K : Lock Tid MemoryOrder σ ε) (s : St Tid w σ) (a : Mixed.St Tid w) : Prop where
  abs : a = s.abs K
  fits : ∀ t, Fits (K.place s.lock t) (s.base.thr t)
  owned : Mixed.Owned a
  lock : K.sys.Reach s.lock

def lbl (K : Lock Tid MemoryOrder σ ε) (s : St Tid w σ) : Ev Tid w ε → St Tid w σ → Option (Mixed.Ev Tid w)
  | .call t c, _ => some (.call t c)
  | .inner _, _ => none
  | .run t, _ =>
    match s.base.thr t with
    | .busy _ (.lock _ _) => if K.place s.lock t = .held then some (.run t) else none
    | .busy _ (.unlock _ _) => if K.place s.lock t = .held then some (.run t) else none
    | _ => some (.run t)

section
variable [DecidableEq Tid] {C : Impl} {T : IntTy} {inst : Inst} {K : Lock Tid MemoryOrder σ ε}
variable {s s' : St Tid T.width σ} {a : Mixed.St Tid T.width} {v₀ : BitVec T.width} {t : Tid}

omit [DecidableEq Tid] in
/-- A step that leaves what the threads stand for leaves the abstract state. -/
theorem Rel.stutter (h : Rel K s a) {m : σ} (hm : K.sys.Reach m) {f : Tid → Thr T.width}
    (hu : ∀ u, Fits (K.place m u) (f u) ∧ settled (K.place m u) (f u) = settled (K.place s.lock u) (s.base.thr u)) :
    Rel K ⟨{ s.base with thr := f }, m⟩ a := by
  refine ⟨?_, fun u => (hu u).1, h.owned, hm⟩
  rw [h.abs, St.abs, St.abs]
  simp only [fun u => (hu u).2]

/-- The thread that steps, and what it then stands for. -/
theorem abs_update {f : Tid → Thr T.width} {m m' : σ} {h h' : Thr T.width} (ht : settled (K.place m' t) h = h')
    (hother : ∀ u, u ≠ t → K.place m' u = K.place m u) :
    (fun u => settled (K.place m' u) (Function.update f t h u)) =
      Function.update (fun u => settled (K.place m u) (f u)) t h' := by
  funext u
  by_cases e : u = t
  · subst e
    rw [Function.update_self, Function.update_self, ht]
  · rw [Function.update_of_ne e, Function.update_of_ne e, hother u e]

theorem fits_update {f : Tid → Thr T.width} {m : σ} {h : Thr T.width} (hf : ∀ u, Fits (K.place m u) (f u))
    (ht : Fits (K.place m t) h) (u : Tid) : Fits (K.place m u) (Function.update f t h u) := by
  by_cases e : u = t
  · subst e
    rwa [Function.update_self]
  · rw [Function.update_of_ne e]
    exact hf u

omit [DecidableEq Tid] in
theorem Rel.thr (h : Rel K s a) {th : Thr T.width} (ht : s.base.thr t = th) :
    a.thr t = settled (K.place s.lock t) th := by
  rw [h.abs, ← ht]
  rfl

theorem Rel.call (h : Rel K s a) {c : Call T.width} {b : Mixed.St Tid T.width}
    (hs : Mixed.step C T inst s.base (.call t c) = some b) :
    ∃ a', Mixed.step C T inst a (.call t c) = some a' ∧ Rel K { s with base := b } a' := by
  cases Mixed.step_moves hs with
  | call t c ht =>
    have hfree : (Mixed.code C T inst c).holds = false := (Mixed.code_fresh inst c).holds
    have hout : K.place s.lock t = .out := by
      have := h.fits t
      rwa [ht] at this
    have hst : Mixed.step C T inst a (.call t c) = some
        { a.goto t ⟨a.calls.length, c, a.results.map Prod.fst⟩ (Mixed.code C T inst c) with
          calls := a.calls ++ [⟨a.calls.length, c, a.results.map Prod.fst⟩] } := by
      simp only [Mixed.step, h.thr ht, settled]
    refine ⟨_, hst, ?_, fits_update h.fits (hout ▸ fits_out hfree), Mixed.step_owned h.owned hst, h.lock⟩
    rw [h.abs]
    simp only [St.abs, Mixed.St.goto, abs_update (settled_free hfree _) fun u _ => rfl]

theorem Rel.access (h : Rel K s a) {x : Entry T.width} {p p' : Pc T.width} {v : BitVec T.width}
    (ht : s.base.thr t = .busy x p) (hp : p.access s.base.obj = some (v, p')) :
    ∃ a', Mixed.step C T inst a (.run t) = some a' ∧ Rel K { s with base := s.base.access t x p' v } a' := by
  have hfit := h.fits t
  rw [ht] at hfit
  have hholds := Pc.access_holds hp
  have hplace : p.holds = true ∧ K.place s.lock t = .held ∨ p.holds = false ∧ K.place s.lock t = .out :=
    hfit.own (fun k l e => by subst e; cases hp) fun r l e => by subst e; cases hp
  have hkeep : ∀ q : Pc T.width, q.holds = p.holds →
      settled (K.place s.lock t) (.busy x q) = .busy x q ∧ Fits (K.place s.lock t) (.busy x q) := by
    intro q hq
    rcases hplace with ⟨hp, hpl⟩ | ⟨hp, hpl⟩
    · rw [hpl]
      exact ⟨settled_held _, fits_held (hq.trans hp)⟩
    · rw [hpl]
      exact ⟨settled_free (hq.trans hp) _, fits_out (hq.trans hp)⟩
  have hthr : a.thr t = .busy x p := (h.thr ht).trans (hkeep p rfl).1
  have hobj : a.obj = s.base.obj := by rw [h.abs]; rfl
  have hst : Mixed.step C T inst a (.run t) = some (a.access t x p' v) := by
    rw [← hobj] at hp
    simp only [Mixed.step, hthr]
    cases p with
    | lock | unlock | ret => cases hp
    | instr | attempt | inside => simp only [Mixed.St.run, hp, Option.map_some]
  refine ⟨_, hst, ?_, fits_update h.fits (hkeep p' hholds).2, Mixed.step_owned h.owned hst, h.lock⟩
  rw [h.abs]
  simp only [St.abs, Mixed.St.access, Mixed.St.goto, abs_update (hkeep p' hholds).1 fun u _ => rfl]

theorem Rel.ret (h : Rel K s a) {x : Entry T.width} {r : Res T.width} (ht : s.base.thr t = .busy x (.ret r)) :
    ∃ a', Mixed.step C T inst a (.run t) = some a' ∧ Rel K { s with
      base := { s.base with thr := Function.update s.base.thr t .idle, results := s.base.results ++ [(x.ticket, r)] } } a' := by
  have hout : K.place s.lock t = .out := by
    have := h.fits t
    rwa [ht] at this
  have hthr : a.thr t = .busy x (.ret r) := h.thr ht
  have hst : Mixed.step C T inst a (.run t) = some
      { a with thr := Function.update a.thr t .idle, results := a.results ++ [(x.ticket, r)] } := by
    simp only [Mixed.step, hthr, Mixed.St.run]
  refine ⟨_, hst, ?_, fits_update h.fits hout, Mixed.step_owned h.owned hst, h.lock⟩
  rw [h.abs]
  have hset : settled (K.place s.lock t) .idle = (.idle : Thr T.width) := rfl
  simp only [St.abs, abs_update hset fun u _ => rfl]

/-- The return from `lock` takes the abstract mutex. -/
theorem Rel.take (hK : K.Excludes) (h : Rel K s a) {x : Entry T.width} {k : Sec T.width}
    {l : Option (Loop T.width × BitVec T.width)} (ht : s.base.thr t = .busy x (.lock k l))
    (hp : K.place s.lock t = .held) :
    ∃ a', Mixed.step C T inst a (.run t) = some a' ∧
      Rel K { s with base := { s.base.goto t x (.inside k l) with owner := some t } } a' := by
  have hthr : a.thr t = .busy x (.lock k l) := h.thr ht
  have hfree : a.owner = none := by
    rcases ho : a.owner with _ | u
    · rfl
    · have hu := (h.owned u).mp ho
      rw [h.thr rfl] at hu
      obtain rfl : t = u := hK _ h.lock t u hp ((h.fits u).holds hu)
      rw [ht] at hu
      cases hu
  have hst : Mixed.step C T inst a (.run t) = some { a.goto t x (.inside k l) with owner := some t } := by
    simp only [Mixed.step, hthr, Mixed.St.run, Mutex.step_take.mpr ⟨hfree, rfl⟩, Option.map_some]
  refine ⟨_, hst, ?_, fits_update h.fits hp, Mixed.step_owned h.owned hst, h.lock⟩
  rw [h.abs]
  have hset : settled (K.place s.lock t) (.busy x (.inside k l)) = .busy x (.inside k l) := rfl
  simp only [St.abs, Mixed.St.goto, abs_update hset fun u _ => rfl]

/-- The call of `unlock` releases it. -/
theorem Rel.release (h : Rel K s a) {x : Entry T.width} {r : Res T.width}
    {l : Option (Loop T.width × BitVec T.width)} {m : σ} {o : MemoryOrder} (ht : s.base.thr t = .busy x (.unlock r l))
    (hm : K.step s.lock (K.unlock t o) = some m) :
    ∃ a', Mixed.step C T inst a (.run t) = some a' ∧ Rel K ⟨{ s.base with owner := none }, m⟩ a' := by
  obtain ⟨hp, hout, hother⟩ := K.place_unlock _ _ _ _ hm
  have hthr : a.thr t = .busy x (.unlock r l) := by rw [h.thr ht, hp, settled_held]
  have hown : a.owner = some t := (h.owned t).mpr (by rw [hthr]; rfl)
  have hst : Mixed.step C T inst a (.run t) = some { a.goto t x (Pc.back r l) with owner := none } := by
    simp only [Mixed.step, hthr, Mixed.St.run, Mutex.step_release.mpr ⟨hown, rfl⟩, Option.map_some]
  have hne : K.place m t ≠ .held ∧ K.place m t ≠ .locking := by rcases hout with e | e <;> rw [e] <;> decide
  refine ⟨_, hst, ?_, fun u => ?_, Mixed.step_owned h.owned hst, .step _ h.lock hm⟩
  · have hback : settled (K.place m t) (.busy x (.unlock r l)) = .busy x (Pc.back r l) := if_neg hne.1
    have hsame : s.base.thr = Function.update s.base.thr t (.busy x (.unlock r l)) := by rw [← ht, Function.update_eq_self]
    rw [h.abs]
    simp only [St.abs, Mixed.St.goto]
    rw [hsame, abs_update hback hother, ← hsame]
  · by_cases e : u = t
    · subst e
      simp only [ht]
      exact hne.2
    · rw [hother u e]
      exact h.fits u

omit [DecidableEq Tid] in
theorem lbl_own {x : Entry T.width} {p : Pc T.width} (ht : s.base.thr t = .busy x p) (hlock : ∀ k l, p ≠ .lock k l)
    (hunlock : ∀ r l, p ≠ .unlock r l) : lbl K s (.run t) s' = some (.run t) := by
  cases p with
  | lock k l => exact absurd rfl (hlock k l)
  | unlock r l => exact absurd rfl (hunlock r l)
  | _ => simp only [lbl, ht]

variable (v₀) in
/-- Every step is one of `Mixed`, or none. -/
theorem Rel.matched (hK : K.Excludes) (h : Rel K s a) {e : Ev Tid T.width ε} (hs : step C T inst K s e = some s') :
    ∃ a', (Mixed.sys C T inst v₀).stepOf (lbl K s e s') a a' ∧ Rel K s' a' := by
  cases step_moves hs with
  | call t c b hb => exact h.call hb
  | take t x k l ht hp =>
    simp only [lbl, ht, hp, if_true]
    exact h.take hK ht hp
  | release t x r l m ht hm =>
    simp only [lbl, ht, (K.place_unlock _ _ _ _ hm).1, if_true]
    exact h.release ht hm
  | enter t x k l m ht hm =>
    obtain ⟨hp, hin, hother⟩ := K.place_lock _ _ _ _ hm
    refine ⟨a, ?_, h.stutter (.step _ h.lock hm) (f := s.base.thr) fun u => ?_⟩
    · simp only [lbl, ht, hp]
      rfl
    · by_cases e : u = t
      · subst e
        rw [ht]
        refine ⟨fun e => ?_, rfl⟩
        rw [e] at hin
        rcases hin with hin | hin <;> cases hin
      · rw [hother u e]
        exact ⟨h.fits u, rfl⟩
  | back t x r l ht hp =>
    refine ⟨a, ?_, h.stutter h.lock (f := Function.update s.base.thr t (.busy x (Pc.back r l))) fun u => ?_⟩
    · simp only [lbl, ht, hp]
      rfl
    · by_cases e : u = t
      · subst e
        have hb : (Pc.back r l).holds = false := Pc.back_ok.2.2.1
        rw [Function.update_self, ht, hp, settled_free hb]
        exact ⟨fits_out hb, rfl⟩
      · rw [Function.update_of_ne e]
        exact ⟨h.fits u, rfl⟩
  | own t x p b ht hlock hunlock hb =>
    rw [lbl_own ht hlock hunlock]
    cases Mixed.step_moves hb with
    | access t x p p' v ht hp => exact h.access ht hp
    | ret t x r ht => exact h.ret ht
    | lock t x k l ht' =>
      rw [ht] at ht'
      cases ht'
      exact absurd rfl (hlock k l)
    | unlock t x r l ht' =>
      rw [ht] at ht'
      cases ht'
      exact absurd rfl (hunlock r l)
  | inner e m he hm =>
    exact ⟨a, rfl, h.stutter (.step _ h.lock hm) (f := s.base.thr) fun u =>
      (h.fits u).inner (K.place_inner _ _ _ he hm u)⟩

omit [DecidableEq Tid] in
/-- What a thread is past with the call of `unlock` neither writes nor is within a section. -/
theorem settled_quiet (q : Place) (th : Thr w) (v : BitVec w) :
    (settled q th).writes v = th.writes v ∧ (settled q th).between = th.between := by
  cases th with
  | idle => exact ⟨rfl, rfl⟩
  | busy x p =>
    cases p with
    | unlock r l =>
      by_cases hq : q = .held
      · simp only [settled, if_pos hq, and_self]
      · simp only [settled, if_neg hq]
        rcases Pc.back_cases r l with ⟨r', hb⟩ | ⟨k, l', hb⟩ <;> rw [hb] <;> exact ⟨rfl, rfl⟩
    | _ => exact ⟨rfl, rfl⟩

omit [DecidableEq Tid] in
theorem Rel.quiet (h : Rel K s a) {e : Ev Tid T.width ε} {b : Mixed.Ev Tid T.width} (hq : Quiet s e)
    (hb : lbl K s e s' = some b) : Mixed.Quiet a b := by
  cases e with
  | call t c =>
    cases hb
    exact trivial
  | inner e => cases hb
  | run t =>
    obtain rfl : b = .run t := by
      simp only [lbl] at hb
      split at hb
      · split at hb <;> cases hb
        rfl
      · split at hb <;> cases hb
        rfl
      · cases hb
        rfl
    intro hw u
    rw [h.thr rfl, (settled_quiet _ _ 0).2]
    refine hq ?_ u
    rw [h.thr rfl, (settled_quiet _ _ _).1, h.abs] at hw
    exact hw

omit [DecidableEq Tid] in
theorem start_rel (v₀ : BitVec T.width) : Rel K (start K v₀) (Mixed.start v₀) := by
  refine ⟨rfl, fun t => K.place_start t, fun t => ?_, .init rfl⟩
  simp [Mixed.start, Thr.holds]

variable (C inst) in
/-- Over a lock that excludes, `Mixed` is what happens. -/
theorem matches_mixed (hK : K.Excludes) (v₀ : BitVec T.width) :
    Lts.Sys.Sim (sys C T inst K v₀) (Mixed.sys C T inst v₀) (Rel K) (lbl K) := by
  refine .of_stepOf (fun s h0 => ?_) fun s e s' a _ hR hs => hR.matched v₀ hK hs
  obtain rfl : s = start K v₀ := h0
  exact ⟨_, rfl, start_rel v₀⟩

variable (C inst) in
/-- And the quiet runs are quiet there. -/
theorem matches_quiet (hK : K.Excludes) (v₀ : BitVec T.width) :
    Lts.Sys.Sim ((sys C T inst K v₀).restrict Quiet) ((Mixed.sys C T inst v₀).restrict Mixed.Quiet) (Rel K) (lbl K) := by
  refine .of_stepOf (fun s h0 => ?_) fun s e s' a _ hR hs => ?_
  · obtain rfl : s = start K v₀ := h0
    exact ⟨_, rfl, start_rel v₀⟩
  · obtain ⟨hq, hs⟩ := hs
    obtain ⟨a', ha, hR'⟩ := hR.matched v₀ hK hs
    refine ⟨a', ?_, hR'⟩
    cases hb : lbl K s e s' with
    | none =>
      rw [hb] at ha
      exact ha
    | some b =>
      rw [hb] at ha
      exact ⟨hR.quiet hq hb, ha⟩

end

/-! ## Linearizability -/

/-- A sequential order of the calls accounts for the state, and has all of them once none is under way. -/
def Accounted {Tid σ : Type} {w : ℕ} (v₀ : BitVec w) (s : St Tid w σ) : Prop :=
  ∃ l, Mixed.Explains v₀ s.base l ∧ ((∀ t, s.base.thr t = .idle) → l.Perm s.base.calls)

theorem Rel.accounted {Tid σ ε : Type} [DecidableEq Tid] {K : Lock Tid MemoryOrder σ ε} {T : IntTy}
    {s : St Tid T.width σ} {a : Mixed.St Tid T.width} {v₀ : BitVec T.width} (h : Rel K s a) (hi : Mixed.Inv v₀ a) :
    Accounted v₀ s := by
  have hlog := hi.toExplains
  have hall := hi.all
  rw [h.abs] at hlog hall
  refine ⟨s.base.log, ⟨hlog.started, hlog.once, hlog.order, hlog.results, hlog.object⟩, fun hidle => hall fun t => ?_⟩
  simp only [St.abs, hidle t]
  rfl

/-- Over the lock `K` the functions of both families are linearizable: the lock-based ones on every run, the
    lock-free ones where no instruction changes the object while a thread is between the two steps of a
    section. -/
def Linearizes {Tid σ ε : Type} [DecidableEq Tid] (K : Lock Tid MemoryOrder σ ε) : Prop :=
  ∀ (C : Impl) (T : IntTy) (v₀ : BitVec T.width),
    (∀ s, (sys C T .lockBased K v₀).Reach s → Accounted v₀ s) ∧
    ∀ (h : Header) (s : St Tid T.width σ), ((sys C T (.lockFree h) K v₀).restrict Quiet).Reach s → Accounted v₀ s

theorem linearizes_of_excludes {Tid σ ε : Type} [DecidableEq Tid] {K : Lock Tid MemoryOrder σ ε} (hK : K.Excludes) :
    Linearizes K := by
  intro C T v₀
  refine ⟨fun s hs => ?_, fun h s hs => ?_⟩
  · obtain ⟨a, ha, hR⟩ := (matches_mixed C .lockBased hK v₀).reach hs
    exact hR.accounted (Mixed.quiet_inv (ha.restrict fun _ _ _ hr _ => Mixed.lockBased_quiet hr _))
  · obtain ⟨a, ha, hR⟩ := (matches_quiet C (.lockFree h) hK v₀).reach hs
    exact hR.accounted (Mixed.quiet_inv ha)

end Stdatomic.Locked
