/-
  Stdatomic.Lib.Tally — counters that several threads add to with a plain load and a plain
  store for each addition.

  A thread is issued a list of additions and makes them one after the other. What it has
  still to add it owes (`owed`). An addition that overtakes another's load is lost when that
  one stores, so in general a counter is at most what was issued (`reach_bounded`). If only
  one thread at a time owes to a counter (`Alone`), nothing is lost: the counter and what is
  owed to it make up what was issued (`reach_exact`).
-/

import Stdatomic.Lib.System
import Stdatomic.Lib.Count

namespace Tally

open Family

universe u v w

variable {ι : Type u} {V : Type v} {M : Type w}

/-- The additions a thread still has to make, and what it has loaded for the first of them. -/
structure Job (V : Type v) (M : Type w) where
  todo : List (V × M)
  loaded : Option M
  deriving DecidableEq, Repr

structure St (ι : Type u) (V : Type v) (M : Type w) where
  glob : V → M
  job : ι → Job V M
  /-- Ghost: what has been issued to each counter. -/
  issued : V → M

inductive Ev (ι : Type u) (V : Type v) (M : Type w) where
  | issue (i : ι) (l : List (V × M))
  | run (i : ι)

def idle : Job V M := ⟨[], none⟩

def Job.step [DecidableEq V] [Add M] (g : V → M) : Job V M → Option ((V → M) × Job V M)
  | ⟨[], _⟩ => none
  | ⟨(v, x) :: l, none⟩ => some (g, ⟨(v, x) :: l, some (g v)⟩)
  | ⟨(v, x) :: l, some y⟩ => some (Function.update g v (y + x), ⟨l, none⟩)

section
variable [DecidableEq V] [AddCommMonoid M]

def amount (v : V) : List (V × M) → M
  | [] => 0
  | (u, x) :: l => (if u = v then x else 0) + amount v l

def Job.owed (v : V) (j : Job V M) : M := amount v j.todo

def Job.sees (v : V) : Job V M → Option M
  | ⟨(u, _) :: _, some y⟩ => if u = v then some y else none
  | _ => none

def Owes (v : V) (j : Job V M) : Prop := v ∈ j.todo.map Prod.fst

variable [DecidableEq ι]

def St.issue (s : St ι V M) (i : ι) (l : List (V × M)) : St ι V M :=
  ⟨s.glob, Function.update s.job i ⟨l, none⟩, fun v => s.issued v + amount v l⟩

def step (s : St ι V M) : Ev ι V M → Option (St ι V M)
  | .issue i l => if (s.job i).todo = [] then some (s.issue i l) else none
  | .run i => ((s.job i).step s.glob).map fun r => ⟨r.1, Function.update s.job i r.2, s.issued⟩

def start : St ι V M := ⟨fun _ => 0, fun _ => idle, fun _ => 0⟩

variable (ι V M) in
def sys : Lts.Sys (St ι V M) (Ev ι V M) where
  init s := s = start
  step s e s' := step s e = some s'

def Alone (v : V) (s : St ι V M) : Prop := ∀ i j, Owes v (s.job i) → Owes v (s.job j) → i = j

/-! ## Steps -/

variable {s s' : St ι V M} {v : V}

inductive Moves (s : St ι V M) : Ev ι V M → St ι V M → Prop
  | issue (i : ι) (l : List (V × M)) : (s.job i).todo = [] → Moves s (.issue i l) (s.issue i l)
  | load (i : ι) (v : V) (x : M) (l : List (V × M)) : s.job i = ⟨(v, x) :: l, none⟩ →
      Moves s (.run i) ⟨s.glob, Function.update s.job i ⟨(v, x) :: l, some (s.glob v)⟩, s.issued⟩
  | store (i : ι) (v : V) (x y : M) (l : List (V × M)) : s.job i = ⟨(v, x) :: l, some y⟩ →
      Moves s (.run i) ⟨Function.update s.glob v (y + x), Function.update s.job i ⟨l, none⟩, s.issued⟩

theorem step_moves {e : Ev ι V M} (h : step s e = some s') : Moves s e s' := by
  cases e with
  | issue i l =>
    simp only [step] at h
    split at h
    · rename_i hi
      cases h
      exact .issue i l hi
    · cases h
  | run i =>
    obtain ⟨⟨g, j⟩, hj, rfl⟩ := Option.map_eq_some_iff.mp h
    rcases hjob : s.job i with ⟨_ | ⟨⟨v, x⟩, l⟩, _ | y⟩
    · rw [hjob] at hj; cases hj
    · rw [hjob] at hj; cases hj
    · rw [hjob] at hj; cases hj; exact .load i v x l hjob
    · rw [hjob] at hj; cases hj; exact .store i v x y l hjob

/-- Making an addition leaves nobody owing anything new. -/
theorem owes_run {i k : ι} (hs : step s (.run i) = some s') (hk : Owes v (s'.job k)) : Owes v (s.job k) := by
  by_cases e : k = i
  · subst e
    cases step_moves hs with
    | load i u x l hjob =>
      rw [hjob]
      simpa only [Owes, Function.update_self] using hk
    | store i u x y l hjob =>
      rw [hjob]
      simp only [Owes, Function.update_self] at hk
      exact List.mem_cons_of_mem _ hk
  · cases step_moves hs with
    | load | store =>
      simp only [Function.update_of_ne e] at hk
      exact hk

omit [AddCommMonoid M] [DecidableEq ι] in
theorem owes_of_sees {j : Job V M} {y : M} (h : j.sees v = some y) : Owes v j := by
  rcases j with ⟨_ | ⟨⟨u, x⟩, l⟩, _ | z⟩
  · cases h
  · cases h
  · cases h
  · simp only [Job.sees] at h
    split at h
    · rename_i e
      exact e ▸ List.mem_cons_self ..
    · cases h

omit [DecidableEq ι] in
theorem owed_eq_zero {j : Job V M} (h : ¬ Owes v j) : j.owed v = 0 := by
  rcases j with ⟨l, y⟩
  induction l with
  | nil => rfl
  | cons p l ih =>
    obtain ⟨hne, hl⟩ : p.1 ≠ v ∧ ¬ Owes v (⟨l, y⟩ : Job V M) := by
      simp only [Owes, List.map_cons, List.mem_cons, not_or] at h ⊢
      exact ⟨fun e => h.1 e.symm, h.2⟩
    show (if p.1 = v then p.2 else 0) + amount v l = 0
    rw [if_neg hne, zero_add]
    exact ih hl

variable [Fintype ι]

def owing (v : V) (s : St ι V M) : M := ∑ i, (s.job i).owed v

theorem owing_update (i : ι) (j : Job V M) {g : V → M} {n : V → M} :
    owing v ⟨g, Function.update s.job i j, n⟩ + (s.job i).owed v = owing v s + j.owed v := sum_update i j

theorem owing_issue {i : ι} {l : List (V × M)} (h : (s.job i).todo = []) :
    owing v (s.issue i l) = owing v s + amount v l := by
  have hsum : owing v (s.issue i l) + (s.job i).owed v = owing v s + amount v l := owing_update i ⟨l, none⟩
  rwa [show (s.job i).owed v = 0 by rw [Job.owed, h]; rfl, add_zero] at hsum

end

/-! ## Nothing is lost -/

section
variable [DecidableEq V] [AddCancelCommMonoid M] [DecidableEq ι] [Fintype ι] {s s' : St ι V M} {v : V}

/-- The counter is right but for what is owed, and what a thread has loaded is still its value. -/
structure Exact (v : V) (s : St ι V M) : Prop where
  total : s.glob v + owing v s = s.issued v
  fresh : ∀ i y, (s.job i).sees v = some y → y = s.glob v

theorem step_exact {e : Ev ι V M} (ha : Alone v s) (hi : Exact v s) (hs : step s e = some s') : Exact v s' := by
  have others : ∀ {i j n}, (∀ y, j.sees v = some y → y = s.glob v) → ∀ k y,
      ((⟨s.glob, Function.update s.job i j, n⟩ : St ι V M).job k).sees v = some y → y = s.glob v := by
    intro i j n hj k y hy
    by_cases e : k = i
    · subst e
      simp only [Function.update_self] at hy
      exact hj y hy
    · simp only [Function.update_of_ne e] at hy
      exact hi.fresh k y hy
  cases step_moves hs with
  | issue i l hidle =>
    refine ⟨?_, others (by rcases l with _ | ⟨p, l⟩ <;> nofun)⟩
    show s.glob v + owing v (s.issue i l) = s.issued v + amount v l
    rw [owing_issue hidle, ← add_assoc, hi.total]
  | load i u x l hjob =>
    have hsum := owing_update (s := s) (v := v) (g := s.glob) (n := s.issued) i ⟨(u, x) :: l, some (s.glob u)⟩
    have howed : (s.job i).owed v = (⟨(u, x) :: l, some (s.glob u)⟩ : Job V M).owed v := by rw [hjob]; rfl
    rw [howed, add_left_inj] at hsum
    refine ⟨by rw [hsum]; exact hi.total, others fun y hy => ?_⟩
    simp only [Job.sees] at hy
    split at hy
    · rename_i e
      rw [← Option.some.inj hy, e]
    · cases hy
  | store i u x y l hjob =>
    have hsum := owing_update (s := s) (v := v) (g := Function.update s.glob u (y + x)) (n := s.issued) i ⟨l, none⟩
    have howed : (s.job i).owed v = (if u = v then x else 0) + (⟨l, none⟩ : Job V M).owed v := by rw [hjob]; rfl
    rw [howed, ← add_assoc, add_left_inj] at hsum
    by_cases e : u = v
    · subst e
      rw [if_pos rfl] at hsum
      have hy : y = s.glob u := hi.fresh i y (by rw [hjob]; simp [Job.sees])
      refine ⟨?_, fun k z hz => ?_⟩
      · simp only [Function.update_self, hy, ← hi.total, ← hsum]
        rw [add_assoc, add_comm x]
      · -- another that has loaded the counter would owe to it as well
        have howes : Owes u (s.job i) := by rw [hjob]; exact List.mem_cons_self ..
        by_cases ek : k = i
        · subst ek
          simp only [Function.update_self] at hz
          rcases l with _ | ⟨p, l⟩ <;> cases hz
        · simp only [Function.update_of_ne ek] at hz
          exact absurd (ha k i (owes_of_sees hz) howes) ek
    · rw [if_neg e, add_zero] at hsum
      have hglob : Function.update s.glob u (y + x) v = s.glob v := Function.update_of_ne (Ne.symm e) _ _
      refine ⟨by simp only [hglob, hsum]; exact hi.total, fun k z hz => ?_⟩
      simp only [hglob]
      exact others (j := ⟨l, none⟩) (n := s.issued) (by rcases l with _ | ⟨p, l⟩ <;> nofun) k z hz

/-- With one thread at a time owing to it, a counter and what is owed make up what was issued. -/
theorem reach_exact (hs : ((sys ι V M).restrict fun s _ => Alone v s).Reach s) : Exact v s := by
  refine hs.inv (I := Exact v) (fun s h0 => ?_) fun s e s' _ hi hst => ?_
  · obtain rfl : s = start := h0
    exact ⟨by simp [start, owing, Job.owed, idle, amount], fun i y hy => by cases hy⟩
  · obtain ⟨ha, hst⟩ := hst
    exact step_exact ha hi hst

end

/-! ## Nothing is counted twice -/

section
variable [DecidableEq V] [AddCommMonoid M] [PartialOrder M] [IsOrderedCancelAddMonoid M] [CanonicallyOrderedAdd M]
  [DecidableEq ι] [Fintype ι] {s s' : St ι V M} {v : V}

/-- Neither the counter nor what a thread takes it to be is too large, with all that is owed. -/
structure Bounded (v : V) (s : St ι V M) : Prop where
  total : s.glob v + owing v s ≤ s.issued v
  loaded : ∀ i y, (s.job i).sees v = some y → y + owing v s ≤ s.issued v

theorem step_bounded {e : Ev ι V M} (hi : Bounded v s) (hs : step s e = some s') : Bounded v s' := by
  cases step_moves hs with
  | issue i l hidle =>
    refine ⟨?_, fun k y hy => ?_⟩
    · rw [owing_issue hidle, ← add_assoc]
      exact add_le_add_left hi.total _
    · rw [owing_issue hidle, ← add_assoc]
      by_cases e : k = i
      · subst e
        simp only [St.issue, Function.update_self] at hy
        rcases l with _ | ⟨p, l⟩ <;> cases hy
      · simp only [St.issue, Function.update_of_ne e] at hy
        exact add_le_add_left (hi.loaded k y hy) _
  | load i u x l hjob =>
    have hsum := owing_update (s := s) (v := v) (g := s.glob) (n := s.issued) i ⟨(u, x) :: l, some (s.glob u)⟩
    have howed : (s.job i).owed v = (⟨(u, x) :: l, some (s.glob u)⟩ : Job V M).owed v := by rw [hjob]; rfl
    rw [howed, add_left_inj] at hsum
    refine ⟨by rw [hsum]; exact hi.total, fun k y hy => ?_⟩
    rw [hsum]
    by_cases e : k = i
    · subst e
      simp only [Function.update_self, Job.sees] at hy
      split at hy
      · rename_i e
        rw [← Option.some.inj hy, e]
        exact hi.total
      · cases hy
    · simp only [Function.update_of_ne e] at hy
      exact hi.loaded k y hy
  | store i u x y l hjob =>
    have hsum := owing_update (s := s) (v := v) (g := Function.update s.glob u (y + x)) (n := s.issued) i ⟨l, none⟩
    have howed : (s.job i).owed v = (if u = v then x else 0) + (⟨l, none⟩ : Job V M).owed v := by rw [hjob]; rfl
    rw [howed, ← add_assoc, add_left_inj] at hsum
    -- less is owed afterwards, by `x` if the counter is `v`
    have hless : owing v ⟨Function.update s.glob u (y + x), Function.update s.job i ⟨l, none⟩, s.issued⟩ ≤ owing v s :=
      le_of_le_of_eq le_self_add hsum
    refine ⟨?_, fun k z hz => ?_⟩
    · by_cases e : u = v
      · subst e
        rw [if_pos rfl] at hsum
        have hy := hi.loaded i y (by rw [hjob]; simp [Job.sees])
        simp only [Function.update_self]
        rwa [add_assoc, add_comm x, hsum]
      · simp only [Function.update_of_ne (Ne.symm e)]
        exact (add_le_add_right hless _).trans hi.total
    · by_cases e : k = i
      · subst e
        simp only [Function.update_self] at hz
        rcases l with _ | ⟨p, l⟩ <;> cases hz
      · simp only [Function.update_of_ne e] at hz
        exact (add_le_add_right hless _).trans (hi.loaded k z hz)

/-- A counter, with what is owed to it, is at most what was issued. -/
theorem reach_bounded (hs : (sys ι V M).Reach s) : Bounded v s := by
  refine hs.inv (I := Bounded v) (fun s h0 => ?_) fun s e s' _ hi hst => step_bounded hi hst
  obtain rfl : s = start := h0
  exact ⟨by simp [start, owing, Job.owed, idle, amount], fun i y hy => by cases hy⟩

end

end Tally
