/-
  Stdatomic.Lib.Halts — programs over a table of locks whose threads may halt inside `lock`.

  A thread that has acquired its lock halts before `lock` returns (`halt`): it keeps the
  lock and makes no more step. Any thread may, at any acquisition. It takes its slot along,
  and nothing else:
  - no call on that slot takes effect any more (`nothing_taken`);
  - where no step is left, a thread that has not halted is idle, or waits in the `lock` of
    a slot that a halted thread holds (`halts_stuck`);
  - memory and results are then those of the sequential run of the log, on every slot
    (`halts_linear`);
  - without new calls no schedule goes on for ever (`halts_finite`).
-/

import Stdatomic.Lib.Drain

namespace LockTable

open Critical Family

variable {α σ ε Tid Call Obj Slot Buf β M : Type*}

/-- In `unlock` nobody waits. -/
def Lock.Frees (K : Lock Tid α σ ε) (env : ε → Bool) : Prop :=
  ∀ s t, K.sys.Reach s → K.place s t = .unlocking → ∃ e s', K.inner e = true ∧ env e = false ∧ K.step s e = some s'

structure HSt (Tid Call Slot α Buf β σ : Type*) where
  base : St Tid Call Slot α Buf β σ
  halted : Tid → Bool

inductive HEv (Tid Call Slot Buf β ε : Type*) where
  | go (e : Ev Tid Call Slot Buf β ε)
  | halt (t : Tid)

def HSt.stops (s : HSt Tid Call Slot α Buf β σ) : Ev Tid Call Slot Buf β ε → Bool
  | .run t => s.halted t
  | _ => false

def HQuiet (env : ε → Bool) : HEv Tid Call Slot Buf β ε → Prop
  | .go e => Quiet env e
  | .halt _ => True

variable (A : Api Call Obj Slot α Buf) (K : Lock Tid α σ ε)

/-- The thread has its lock, and `lock` has not returned. -/
def acquired (s : St Tid Call Slot α Buf β σ) (t : Tid) : Bool :=
  match s.thr t with
  | .busy c (.lock _ _) _ _ => decide (K.place (s.locks (A.slotOf c)) t = .held)
  | _ => false

def takenOn [DecidableEq Slot] (q : Slot) (s : HSt Tid Call Slot α Buf β σ) : List (Entry Tid Call Buf β) :=
  s.base.log.filter fun x => decide (A.slotOf x.call = q)

def Waits (s : HSt Tid Call Slot α Buf β σ) (t : Tid) : Prop :=
  ∃ c a k i ph v, s.base.thr t = .busy c (.lock a k) i ph ∧ K.place (s.base.locks (A.slotOf c)) t = .locking ∧
    s.halted v = true ∧ K.place (s.base.locks (A.slotOf c)) v = .held

section
variable [DecidableEq Tid] [DecidableEq Slot] [DecidableEq Buf] [DecidableEq β]

def hstep (s : HSt Tid Call Slot α Buf β σ) : HEv Tid Call Slot Buf β ε → Option (HSt Tid Call Slot α Buf β σ)
  | .go e => if s.stops e then none else (step A K s.base e).map fun b => { s with base := b }
  | .halt t =>
    if acquired A K s.base t && !s.halted t then some { s with halted := Function.update s.halted t true } else none

def halts (mem : ℕ → β) : Lts.Sys (HSt Tid Call Slot α Buf β σ) (HEv Tid Call Slot Buf β ε) where
  init s := ∃ m, s = ⟨start K mem m, fun _ => false⟩
  step s e s' := hstep A K s e = some s'

end

section
variable {A K} {s s' : St Tid Call Slot α Buf β σ} {t : Tid}

theorem acquired_iff : acquired A K s t = true ↔
    ∃ c a k i ph, s.thr t = .busy c (.lock a k) i ph ∧ K.place (s.locks (A.slotOf c)) t = .held := by
  unfold acquired
  split
  · rename_i c a k i ph ht
    rw [decide_eq_true_iff]
    constructor
    · intro h
      exact ⟨c, a, k, i, ph, ht, h⟩
    · rintro ⟨c', a', k', i', ph', ht', h⟩
      rw [ht] at ht'
      cases ht'
      exact h
  · rename_i hne
    refine ⟨(fun h => by cases h), ?_⟩
    rintro ⟨c, a, k, i, ph, ht, -⟩
    exact absurd ht (hne c a k i ph)

variable [DecidableEq Tid] [DecidableEq Slot] [DecidableEq Buf] [DecidableEq β]

/-- It has acquired it until it goes on. -/
theorem acquired_keep {e : Ev Tid Call Slot Buf β ε} (hm : Moves A K s e s') (he : e ≠ .run t)
    (h : acquired A K s t = true) : s'.thr t = s.thr t ∧ acquired A K s' t = true := by
  obtain ⟨c, a, k, i, ph, ht, hp⟩ := acquired_iff.mp h
  have keep : ∀ {s' : St Tid Call Slot α Buf β σ}, s'.thr t = s.thr t → K.place (s'.locks (A.slotOf c)) t = .held →
      s'.thr t = s.thr t ∧ acquired A K s' t = true :=
    fun h1 h2 => ⟨h1, acquired_iff.mpr ⟨c, a, k, i, ph, h1.trans ht, h2⟩⟩
  have other : ∀ {v : Tid}, (.run v : Ev Tid Call Slot Buf β ε) ≠ .run t → t ≠ v := by
    rintro v hv rfl
    exact hv rfl
  cases hm with
  | call v c' m hv =>
    have hne : t ≠ v := by rintro rfl; rw [ht] at hv; cases hv
    exact keep (Function.update_of_ne hne _ _) hp
  | ret v c' r i' ph' hv => exact keep (Function.update_of_ne (other he) _ _) hp
  | take v c' a' k' i' ph' hv hp' => exact keep (Function.update_of_ne (other he) _ _) hp
  | back v c' a' k' i' n hv hp' => exact keep (Function.update_of_ne (other he) _ _) hp
  | exec v c' p p' i' i'' ph' mem' m' hv hx => exact keep (Function.update_of_ne (other he) _ _) hp
  | enter v c' a' k' i' ph' l hv hl =>
    exact keep rfl (held_update (fun hh => by rwa [(K.place_lock _ _ _ _ hl).2.2 t (other he)]) _ hp)
  | release v c' a' k' i' ph' l hv hph hl =>
    exact keep (Function.update_of_ne (other he) _ _)
      (held_update (fun hh => by rwa [(K.place_unlock _ _ _ _ hl).2.2 t (other he)]) _ hp)
  | inner q e l hin hl =>
    refine keep rfl (held_update (fun hh => ?_) _ hp)
    have hi := K.place_inner _ _ _ hin hl t
    rw [hh] at hi
    exact hi.held

end

section
variable [DecidableEq Tid] [DecidableEq Slot] [DecidableEq Buf] [DecidableEq β]
variable {A K} {mem : ℕ → β} {s s' : HSt Tid Call Slot α Buf β σ} {t : Tid}

theorem hstep_go {e : Ev Tid Call Slot Buf β ε} (h : hstep A K s (.go e) = some s') :
    s.stops e = false ∧ step A K s.base e = some s'.base ∧ s'.halted = s.halted := by
  simp only [hstep] at h
  split at h
  · cases h
  · rename_i hs
    obtain ⟨b, hb, rfl⟩ := Option.map_eq_some_iff.mp h
    exact ⟨by simpa using hs, hb, rfl⟩

theorem hstep_halt (h : hstep A K s (.halt t) = some s') :
    acquired A K s.base t = true ∧ s.halted t = false ∧ s' = { s with halted := Function.update s.halted t true } := by
  simp only [hstep] at h
  split at h
  · rename_i hs
    cases h
    rw [Bool.and_eq_true, Bool.not_eq_true'] at hs
    exact ⟨hs.1, hs.2, rfl⟩
  · cases h

/-- A step that is not barred. -/
theorem go_hstep {e : Ev Tid Call Slot Buf β ε} {b : St Tid Call Slot α Buf β σ} (he : s.stops e = false)
    (h : step A K s.base e = some b) : ∃ s', hstep A K s (.go e) = some s' :=
  ⟨{ s with base := b }, by simp only [hstep, he, Bool.false_eq_true, if_false, h, Option.map_some]⟩

variable (A K mem) in
structure HInv (s : HSt Tid Call Slot α Buf β σ) : Prop where
  reach : (sys A K mem).Reach s.base
  /-- A halted thread is where it halted. -/
  acquired : ∀ t, s.halted t = true → acquired A K s.base t = true

/-- What a halted thread was in, it is in. -/
theorem HInv.step (h : HInv A K mem s) {e : HEv Tid Call Slot Buf β ε} (hs : hstep A K s e = some s') :
    HInv A K mem s' ∧ ∀ t, s.halted t = true → s'.halted t = true ∧ s'.base.thr t = s.base.thr t := by
  cases e with
  | go e =>
    obtain ⟨hstop, hst, hhalt⟩ := hstep_go hs
    have keep : ∀ t, s.halted t = true → s'.base.thr t = s.base.thr t ∧ LockTable.acquired A K s'.base t = true := by
      intro t ht
      refine acquired_keep (step_moves hst) ?_ (h.acquired t ht)
      rintro rfl
      rw [HSt.stops, ht] at hstop
      cases hstop
    exact ⟨⟨.step e h.reach hst, fun t ht => (keep t (hhalt ▸ ht)).2⟩, fun t ht => ⟨hhalt ▸ ht, (keep t ht).1⟩⟩
  | halt v =>
    obtain ⟨hacq, -, rfl⟩ := hstep_halt hs
    refine ⟨⟨h.reach, fun t ht => ?_⟩, fun t ht => ⟨?_, rfl⟩⟩
    · by_cases e : t = v
      · rw [e]
        exact hacq
      · exact h.acquired t ((Function.update_of_ne e _ _).symm.trans ht)
    · by_cases e : t = v
      · rw [e]
        exact Function.update_self ..
      · exact (Function.update_of_ne e _ _).trans ht

theorem hinv (h : (halts A K mem).Reach s) : HInv A K mem s := by
  refine h.inv (I := HInv A K mem) (fun s h0 => ?_) fun s e s' _ hi hs => (hi.step hs).1
  obtain ⟨m, rfl⟩ := h0
  exact ⟨.init ⟨m, rfl⟩, fun t ht => by cases ht⟩

/-! ## The slot of a halted thread -/

variable [DecidableEq Obj]

/-- One step takes no call on its slot. -/
theorem HInv.takes (hK : K.Excludes) (h : HInv A K mem s) {e : HEv Tid Call Slot Buf β ε}
    (hs : hstep A K s e = some s') {c : Call} {p : Prog α Buf} {i : ℕ} {ph : Phase} (ht : s.halted t = true)
    (hc : s.base.thr t = .busy c p i ph) : takenOn A (A.slotOf c) s' = takenOn A (A.slotOf c) s := by
  cases e with
  | halt v =>
    obtain ⟨-, -, rfl⟩ := hstep_halt hs
    rfl
  | go e =>
    obtain ⟨hstop, hst, -⟩ := hstep_go hs
    have hm := step_moves hst
    rw [takenOn, takenOn]
    generalize s'.base = b at hm
    cases hm with
    | take v c' a k i' ph' hv hp =>
      have hne : A.slotOf c' ≠ A.slotOf c := by
        intro heq
        obtain ⟨c₀, a₀, k₀, i₀, ph₀, ht₀, hp₀⟩ := acquired_iff.mp (h.acquired t ht)
        rw [hc] at ht₀
        cases ht₀
        obtain ⟨u, -, hR⟩ := (simulates hK).reach h.reach
        rw [heq] at hp
        obtain rfl := hK _ (hR.locks _) v t hp hp₀
        rw [HSt.stops, ht] at hstop
        cases hstop
      simp only [List.filter_append, List.filter_cons, List.filter_nil, decide_eq_true_eq, hne, if_false, List.append_nil]
    | _ => rfl

/-- From when a thread has halted, no call on its slot takes effect. -/
theorem nothing_taken (hK : K.Excludes) {n : ℕ} {x : ℕ → HSt Tid Call Slot α Buf β σ} {e : ℕ → HEv Tid Call Slot Buf β ε}
    (h0 : (halts A K mem).Reach (x 0)) (hx : ∀ i < n, hstep A K (x i) (e i) = some (x (i + 1))) {c : Call}
    {p : Prog α Buf} {i : ℕ} {ph : Phase} (ht : (x 0).halted t = true) (hc : (x 0).base.thr t = .busy c p i ph) :
    takenOn A (A.slotOf c) (x n) = takenOn A (A.slotOf c) (x 0) := by
  suffices H : HInv A K mem (x n) ∧ (x n).halted t = true ∧ (x n).base.thr t = .busy c p i ph ∧
      takenOn A (A.slotOf c) (x n) = takenOn A (A.slotOf c) (x 0) from H.2.2.2
  induction n with
  | zero => exact ⟨hinv h0, ht, hc, rfl⟩
  | succ n ih =>
    obtain ⟨hi, hh, hb, heq⟩ := ih fun i hi => hx i (by omega)
    have hs := hx n (by omega)
    obtain ⟨hi', hkeep⟩ := hi.step hs
    obtain ⟨hh', hb'⟩ := hkeep t hh
    exact ⟨hi', hh', hb'.trans hb, (hi.takes hK hs hh hb).trans heq⟩

end

/-! ## Where no step is left -/

section
variable [DecidableEq Tid] [DecidableEq Obj] [DecidableEq Slot] [DecidableEq Buf] [DecidableEq β]
variable {A K} {mem : ℕ → β} {env : ε → Bool} [LT M] {μ : σ → M} {s : HSt Tid Call Slot α Buf β σ}

omit [DecidableEq Obj] in
theorem stuck_inner (hstuck : ∀ e s', Quiet env e → hstep A K s (.go e) ≠ some s') {q : Slot} {e : ε} {l : σ}
    (hin : K.inner e = true) (he : env e = false) : K.step (s.base.locks q) e ≠ some l := by
  intro hl
  have hst : ∃ b, step A K s.base (.inner q e) = some b :=
    ⟨_, by simp only [step, hin, if_true, hl, Option.map_some]; rfl⟩
  obtain ⟨b, hb⟩ := hst
  obtain ⟨s', hs'⟩ := go_hstep rfl hb
  exact hstuck (.inner q e) s' he hs'

omit [DecidableEq Obj] in
theorem stuck_run (hstuck : ∀ e s', Quiet env e → hstep A K s (.go e) ≠ some s') {t : Tid}
    (h : ∃ b, step A K s.base (.run t) = some b) : s.halted t = true := by
  obtain ⟨b, hb⟩ := h
  by_contra hne
  obtain ⟨s', hs'⟩ := go_hstep (s := s) (e := .run t) (by simpa [HSt.stops] using hne) hb
  exact hstuck (.run t) s' trivial hs'

theorem halts_stuck (hK : K.Excludes) (hL : K.Lively env μ) (hF : K.Frees env) (h : HInv A K mem s)
    (hstuck : ∀ e s', Quiet env e → hstep A K s (.go e) ≠ some s') (t : Tid) :
    s.base.thr t = .idle ∨ s.halted t = true ∨ Waits A K s t := by
  obtain ⟨u, -, hR⟩ := (simulates hK).reach h.reach
  cases ht : s.base.thr t with
  | idle => exact Or.inl rfl
  | busy c p i ph =>
    by_cases hh : s.halted t = true
    · exact Or.inr (Or.inl hh)
    have hout : K.place (s.base.locks (A.slotOf c)) t ≠ .out := fun ho => hh (stuck_run hstuck (hR.out_steps hL ht ho))
    rcases hL.live _ t (hR.locks _) hout with ⟨v, hv⟩ | ⟨e, l, hin, he, hl⟩
    · have hhv := stuck_run hstuck (hR.holder_steps hL hv)
      have hlocking : K.place (s.base.locks (A.slotOf c)) t = .locking := by
        cases hp : K.place (s.base.locks (A.slotOf c)) t with
        | locking => rfl
        | out => exact absurd hp hout
        | held =>
          obtain rfl := hK _ (hR.locks _) t v hp hv
          exact absurd hhv hh
        | unlocking =>
          obtain ⟨e, l, hin, he, hl⟩ := hF _ t (hR.locks _) hp
          exact absurd hl (stuck_inner hstuck hin he)
      obtain ⟨c', a, k, i', ph', ht', -⟩ := hR.locking hlocking
      rw [ht] at ht'
      cases ht'
      exact Or.inr (Or.inr ⟨c, a, k, i, ph, v, ht, hlocking, hhv, hv⟩)
    · exact absurd hl (stuck_inner hstuck hin he)

/-- The calls that took effect have returned, and memory is what they leave, the slots of the halted threads included. -/
theorem halts_linear (hK : K.Excludes) (hL : K.Lively env μ) (hF : K.Frees env) (h : HInv A K mem s)
    (hstuck : ∀ e s', Quiet env e → hstep A K s (.go e) ≠ some s') :
    (∀ o, A.contents s.base.mem o = (Api.seqRun A.meaning (A.contents mem) s.base.log).1 o) ∧
    ∀ r, r ∈ s.base.results ↔ r ∈ (Api.seqRun A.meaning (A.contents mem) s.base.log).2 := by
  obtain ⟨u, hu, hR⟩ := (simulates hK).reach h.reach
  have hat : ∀ t, s.base.thr t = .idle ∨ ∃ c a k i ph, s.base.thr t = .busy c (.lock a k) i ph := by
    intro t
    rcases halts_stuck hK hL hF h hstuck t with ht | ht | ⟨c, a, k, i, ph, -, ht, -⟩
    · exact Or.inl ht
    · obtain ⟨c, a, k, i, ph, ht, -⟩ := acquired_iff.mp (h.acquired t ht)
      exact Or.inr ⟨c, a, k, i, ph, ht⟩
    · exact Or.inr ⟨c, a, k, i, ph, ht⟩
  have hout : ∀ t, (u.thr t).within = none ∧ (u.thr t).past = none := by
    intro t
    rw [hR.thr t]
    rcases hat t with ht | ⟨c, a, k, i, ph, ht⟩
    · rw [ht]
      exact ⟨rfl, rfl⟩
    · obtain ⟨rfl, -⟩ := hR.enters ht
      rw [ht]
      exact ⟨rfl, rfl⟩
  obtain ⟨-, hmem, hres⟩ := Api.linear_between hu (fun t => (hout t).1) fun t => (hout t).2
  rw [hR.mem, hR.log] at hmem
  rw [hR.results, hR.log] at hres
  exact ⟨hmem, hres⟩

end

section
variable [DecidableEq Tid] [DecidableEq Obj] [DecidableEq Slot] [DecidableEq Buf] [DecidableEq β]
variable [Fintype Tid] [Fintype Slot] [AddCommMonoid M] [PartialOrder M] [IsOrderedCancelAddMonoid M] [WellFoundedLT M]
variable {A K} {mem : ℕ → β} {env : ε → Bool} {μ : σ → M}

theorem halts_finite (hK : K.Excludes) (hL : K.Lively env μ) (x : ℕ → HSt Tid Call Slot α Buf β σ)
    (e : ℕ → HEv Tid Call Slot Buf β ε) (h0 : (halts A K mem).Reach (x 0)) :
    ¬ ∀ i, HQuiet env (e i) ∧ hstep A K (x i) (e i) = some (x (i + 1)) := by
  intro hx
  have hreach : ∀ i, (halts A K mem).Reach (x i) := h0.path fun i => (hx i).2
  refine Lts.no_infinite (R := fun s s' => ∃ ev, HQuiet env ev ∧ hstep A K s ev = some s')
    (I := fun s => (halts A K mem).Reach s)
    (fun s => toLex (count (fun b => !b) s.halted, remaining A K μ s.base)) (fun s s' hr hs => ?_) x hreach
    fun i => ⟨e i, hx i⟩
  obtain ⟨ev, hq, hst⟩ := hs
  rw [Prod.Lex.toLex_lt_toLex]
  cases ev with
  | go ev =>
    obtain ⟨-, hb, hhalt⟩ := hstep_go hst
    obtain ⟨u, -, hR⟩ := (simulates hK).reach (hinv hr).reach
    exact Or.inr ⟨by rw [hhalt], remaining_lt hL hR hq hb⟩
  | halt v =>
    obtain ⟨-, hv, rfl⟩ := hstep_halt hst
    refine Or.inl (count_lt_of (fun t ht => ?_) (i := v) (by simpa using hv) (by simp))
    by_cases he : t = v
    · rw [he, hv]; rfl
    · simpa only [Function.update_of_ne he] using ht

end

end LockTable
