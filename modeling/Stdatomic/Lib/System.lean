/-
  Stdatomic.Lib.System — labelled transition systems: reachable states, runs as
  sequences of states and labels, and the rules the developments over them use.

  - `Reach.inv`: an invariant is proved once for the initial states and once for a step.
  - `Run.reach`: the states of a run are reachable.
  - `restrict`: the runs whose steps all meet a condition.
  - `runList`: the state a list of labels leads to, for concrete runs.
  - `Sim`: forward simulation by a relation, each step matched by at most one abstract
    step; `Sim.reach` carries a reachable state over, `Sim.run` a run.
  - `Until`: a goal met on every path within `n` steps, no path stuck before it, with a
    property that holds until then.
  - `no_infinite`: steps that lower a well-founded measure make no infinite path.
  - `infinitely_often`: what has to happen whenever the measure is not lowered.
  - `finitely_lowered`: a number that is never raised is not lowered again and again.
-/

import Mathlib.Order.OrderIsoNat

namespace Lts

universe u v w z

structure Sys (σ : Type u) (α : Type v) where
  init : σ → Prop
  step : σ → α → σ → Prop

namespace Sys

variable {σ : Type u} {α : Type v} {τ : Type w} {β : Type z}

inductive Reach (S : Sys σ α) : σ → Prop
  | init {s : σ} : S.init s → Reach S s
  | step {s t : σ} (a : α) : Reach S s → S.step s a t → Reach S t

/-- The invariant rule. The step case may use that the state is reachable. -/
theorem Reach.inv {S : Sys σ α} {I : σ → Prop} (h0 : ∀ s, S.init s → I s)
    (hs : ∀ s a t, S.Reach s → I s → S.step s a t → I t) {s : σ} (h : S.Reach s) : I s := by
  induction h with
  | init h => exact h0 _ h
  | step a hr hst ih => exact hs _ a _ hr ih hst

/-- Every state of a path from a reachable one is reachable. -/
theorem Reach.path {S : Sys σ α} {x : ℕ → σ} {e : ℕ → α} (h0 : S.Reach (x 0))
    (hx : ∀ i, S.step (x i) (e i) (x (i + 1))) (i : ℕ) : S.Reach (x i) := by
  induction i with
  | zero => exact h0
  | succ i ih => exact .step (e i) ih (hx i)

/-- The first `n` steps of `x` and `e` are a run: step `i` takes `x i` to `x (i + 1)` with label `e i`. -/
structure Run (S : Sys σ α) (n : ℕ) (x : ℕ → σ) (e : ℕ → α) : Prop where
  start : S.init (x 0)
  next : ∀ i < n, S.step (x i) (e i) (x (i + 1))

theorem Run.reach {S : Sys σ α} {n : ℕ} {x : ℕ → σ} {e : ℕ → α} (h : S.Run n x e) : ∀ i ≤ n, S.Reach (x i) := by
  intro i
  induction i with
  | zero => intro _; exact .init h.start
  | succ i ih => intro hi; exact .step (e i) (ih (by omega)) (h.next i (by omega))

def restrict (S : Sys σ α) (P : σ → α → Prop) : Sys σ α where
  init := S.init
  step s a t := P s a ∧ S.step s a t

/-- A condition that every step meets restricts nothing. -/
theorem Reach.restrict {S : Sys σ α} {P : σ → α → Prop} (hP : ∀ s a t, S.Reach s → S.step s a t → P s a) {s : σ}
    (h : S.Reach s) : (S.restrict P).Reach s := by
  induction h with
  | init h => exact .init h
  | step a hr hs ih => exact .step a ih ⟨hP _ a _ hr hs, hs⟩

theorem Reach.of_restrict {S : Sys σ α} {P : σ → α → Prop} {s : σ} (h : (S.restrict P).Reach s) : S.Reach s := by
  induction h with
  | init h => exact .init h
  | step a _ hs ih => exact .step a ih hs.2

def runList (f : σ → α → Option σ) (s : σ) : List α → Option σ
  | [] => some s
  | a :: l => (f s a).bind fun t => runList f t l

theorem Reach.runList {S : Sys σ α} {f : σ → α → Option σ} (hf : ∀ s a t, f s a = some t → S.step s a t) {l : List α} :
    ∀ {s t : σ}, S.Reach s → Sys.runList f s l = some t → S.Reach t := by
  induction l with
  | nil => intro s t h hr; cases hr; exact h
  | cons a l ih =>
    intro s t h hr
    obtain ⟨s₁, h1, h2⟩ := Option.bind_eq_some_iff.mp hr
    exact ih (.step a h (hf _ _ _ h1)) h2

/-- `R` relates every step of `S` to the step of `T` that `lbl` names, or to none. -/
structure Sim (S : Sys σ α) (T : Sys τ β) (R : σ → τ → Prop) (lbl : σ → α → σ → Option β) : Prop where
  init : ∀ s, S.init s → ∃ t, T.init t ∧ R s t
  stutter : ∀ s a s' t, S.Reach s → R s t → S.step s a s' → lbl s a s' = none → R s' t
  step : ∀ s a s' t b, S.Reach s → R s t → S.step s a s' → lbl s a s' = some b → ∃ t', T.step t b t' ∧ R s' t'

theorem Sim.reach {S : Sys σ α} {T : Sys τ β} {R : σ → τ → Prop} {lbl : σ → α → σ → Option β}
    (h : Sim S T R lbl) {s : σ} (hr : S.Reach s) : ∃ t, T.Reach t ∧ R s t := by
  induction hr with
  | init h0 =>
    obtain ⟨t, ht, hR⟩ := h.init _ h0
    exact ⟨t, .init ht, hR⟩
  | @step s s' a hr hst ih =>
    obtain ⟨t, ht, hR⟩ := ih
    cases hl : lbl s a s' with
    | none => exact ⟨t, ht, h.stutter _ a _ t hr hR hst hl⟩
    | some b =>
      obtain ⟨t', hst', hR'⟩ := h.step _ a _ t b hr hR hst hl
      exact ⟨t', .step b ht hst', hR'⟩

def stepOf (T : Sys τ β) : Option β → τ → τ → Prop
  | none, t, t' => t' = t
  | some b, t, t' => T.step t b t'

/-- A simulation, from one fact about a step and its label. -/
theorem Sim.of_stepOf {S : Sys σ α} {T : Sys τ β} {R : σ → τ → Prop} {lbl : σ → α → σ → Option β}
    (h0 : ∀ s, S.init s → ∃ t, T.init t ∧ R s t)
    (h : ∀ s a s' t, S.Reach s → R s t → S.step s a s' → ∃ t', T.stepOf (lbl s a s') t t' ∧ R s' t') : Sim S T R lbl where
  init := h0
  stutter s a s' t hr hR hs hl := by
    obtain ⟨t', ht, hR'⟩ := h s a s' t hr hR hs
    rw [hl] at ht
    rwa [show t' = t from ht] at hR'
  step s a s' t b hr hR hs hl := by
    obtain ⟨t', ht, hR'⟩ := h s a s' t hr hR hs
    rw [hl] at ht
    exact ⟨t', ht, hR'⟩

theorem Run.shorter {S : Sys σ α} {n : ℕ} {x : ℕ → σ} {e : ℕ → α} (h : S.Run (n + 1) x e) : S.Run n x e :=
  ⟨h.start, fun i hi => h.next i (by omega)⟩

/-- A run of `S` is, through `R` and step by step, one of `T`. -/
theorem Sim.run {S : Sys σ α} {T : Sys τ β} {R : σ → τ → Prop} {lbl : σ → α → σ → Option β} (h : Sim S T R lbl)
    {n : ℕ} {x : ℕ → σ} {e : ℕ → α} (hx : S.Run n x e) :
    ∃ y : ℕ → τ, T.init (y 0) ∧ (∀ i ≤ n, R (x i) (y i)) ∧
      ∀ i < n, T.stepOf (lbl (x i) (e i) (x (i + 1))) (y i) (y (i + 1)) := by
  induction n with
  | zero =>
    obtain ⟨t, ht, hR⟩ := h.init _ hx.start
    refine ⟨fun _ => t, ht, fun i hi => ?_, nofun⟩
    rw [Nat.le_zero.mp hi]
    exact hR
  | succ n ih =>
    obtain ⟨y, hy, hR, hs⟩ := ih hx.shorter
    have hreach := hx.reach n (Nat.le_succ n)
    have hlast := hx.next n (Nat.lt_succ_self n)
    have hnext : ∃ t', T.stepOf (lbl (x n) (e n) (x (n + 1))) (y n) t' ∧ R (x (n + 1)) t' := by
      cases hl : lbl (x n) (e n) (x (n + 1)) with
      | none => exact ⟨y n, rfl, h.stutter _ (e n) _ _ hreach (hR n (Nat.le_refl n)) hlast hl⟩
      | some b => exact h.step _ (e n) _ _ b hreach (hR n (Nat.le_refl n)) hlast hl
    obtain ⟨t', hst, hR'⟩ := hnext
    refine ⟨fun i => if i = n + 1 then t' else y i, hy, fun i hi => ?_, fun i hi => ?_⟩
    · by_cases he : i = n + 1
      · simpa [he] using hR'
      · simpa [he] using hR i (by omega)
    · have hne : i ≠ n + 1 := by omega
      by_cases he : i = n
      · simpa [he] using hst
      · simpa [hne, he] using hs i (by omega)

end Sys

/-! ## Progress -/

variable {σ : Type u}

/-- On every path of `R` steps the goal `P` is met within `n` steps, `Q` holds until then,
    and no path is stuck before. -/
inductive Until (R : σ → σ → Prop) (Q P : σ → Prop) : ℕ → σ → Prop
  | now {n : ℕ} {s : σ} : P s → Until R Q P n s
  | next {n : ℕ} {s : σ} : Q s → (∃ t, R s t) → (∀ t, R s t → Until R Q P n t) → Until R Q P (n + 1) s

theorem Until.mono {R : σ → σ → Prop} {Q P : σ → Prop} {n m : ℕ} {s : σ} (h : Until R Q P n s) (hm : n ≤ m) :
    Until R Q P m s := by
  induction h generalizing m with
  | now hp => exact .now hp
  | next hq hex _ ih =>
    obtain ⟨m, rfl⟩ : ∃ k, m = k + 1 := ⟨m - 1, by omega⟩
    exact .next hq hex fun t ht => ih t ht (by omega)

/-- Steps that lower a well-founded measure while `I` holds make no infinite path in `I`. -/
theorem no_infinite {β : Type v} [LT β] [WellFoundedLT β] {R : σ → σ → Prop} {I : σ → Prop} (m : σ → β)
    (hm : ∀ s t, I s → R s t → m t < m s) (x : ℕ → σ) (hI : ∀ i, I (x i)) : ¬ ∀ i, R (x i) (x (i + 1)) := by
  intro hx
  obtain ⟨i, hi⟩ := WellFounded.not_rel_apply_succ (r := fun a b : β => a < b) fun i => m (x i)
  exact hi (hm _ _ (hI i) (hx i))

/-- Where each step from `n` on is a `P` or lowers a well-founded measure, `P` happens again and again. -/
theorem infinitely_often {β : Type v} [LT β] [WellFoundedLT β] {x : ℕ → σ} {P : ℕ → Prop} (m : σ → β) {n : ℕ}
    (h : ∀ i, n ≤ i → P i ∨ m (x (i + 1)) < m (x i)) (i : ℕ) : ∃ j, i ≤ j ∧ P j := by
  by_contra hnone
  have hno : ∀ j, i ≤ j → ¬ P j := fun j hj hp => hnone ⟨j, hj, hp⟩
  obtain ⟨k, hk⟩ := WellFounded.not_rel_apply_succ (r := fun a b : β => a < b) fun k => m (x (max i n + k))
  have hge : n ≤ max i n + k ∧ i ≤ max i n + k := ⟨by omega, by omega⟩
  exact hk ((h _ hge.1).resolve_left (hno _ hge.2))

theorem finitely_lowered {m : ℕ → ℕ} (h : ∀ i, m (i + 1) ≤ m i) : ¬ ∀ i, ∃ j, i ≤ j ∧ m (j + 1) < m j := by
  intro hlow
  -- nothing after the least value is lower
  obtain ⟨i, hmin⟩ : ∃ i, ∀ j, m i ≤ m j := ⟨_, fun j => Function.argmin_le m j⟩
  obtain ⟨j, hj, hlt⟩ := hlow i
  exact absurd (hlt.trans_le (antitone_nat_of_succ_le h hj)) (hmin (j + 1)).not_gt

end Lts
