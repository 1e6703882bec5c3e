/-
  Stdatomic.Lib.Drain — programs over a table of locks come to their end on every schedule.

  `Lively` is what this takes of the lock: outside, `lock` can be called, and the holder
  can call `unlock`; while a thread is in the code of the lock, some thread holds it or
  has an inner step; every step, but those of the environment (`env`), makes a thread the
  holder or lowers a measure `μ`. No fairness is asked for: waiting may not spin.

  A step is quiet (`Quiet`) if it is neither a new call nor one of the environment. What
  is left to do (`remaining`) is, lexicographically, the threads that are still to come to hold
  their lock, the measures of all locks together, and what is left of the programs (`cost`).
  Each quiet step lowers it (`remaining_lt`), so no run of quiet steps is infinite; and
  where no quiet step is left, every call has returned (`stuck_idle`).
-/

import Stdatomic.Lib.LockTable
import Stdatomic.Lib.Count
import Mathlib.Algebra.Order.Monoid.Prod

namespace LockTable

open Critical Family

variable {α σ ε Tid Call Obj Slot Buf β M : Type*}

/-- Calls come to their end, whatever the schedule. -/
structure Lock.Lively [LT M] (K : Lock Tid α σ ε) (env : ε → Bool) (μ : σ → M) : Prop where
  enter : ∀ s t a, K.sys.Reach s → K.place s t = .out → ∃ s', K.step s (K.lock t a) = some s'
  leave : ∀ s t a, K.sys.Reach s → K.place s t = .held → ∃ s', K.step s (K.unlock t a) = some s'
  live : ∀ s t, K.sys.Reach s → K.place s t ≠ .out →
    (∃ u, K.place s u = .held) ∨ ∃ e s', K.inner e = true ∧ env e = false ∧ K.step s e = some s'
  descends : ∀ s e s', K.sys.Reach s → env e = false → K.step s e = some s' →
    (∃ t, K.place s t ≠ .held ∧ K.place s' t = .held) ∨ μ s' < μ s
  calls : ∀ t a, env (K.lock t a) = false ∧ env (K.unlock t a) = false

/-- Neither a new call nor a step of the environment. -/
def Quiet (env : ε → Bool) : Ev Tid Call Slot Buf β ε → Prop
  | .call _ _ _ => False
  | .run _ => True
  | .inner _ e => env e = false

/-- How many steps a program still makes by itself, on an object of `n` cells. -/
def cost (n : ℕ) : Prog α Buf → ℕ → ℕ
  | .ret _, _ => 1
  | .lock _ k, _ => 1 + cost n k 0
  | .unlock _ k, _ => 1 + cost n k 0
  | .read _ k, i => 1 + (n - i) + cost n k 0
  | .write _ k, i => 1 + (n - i) + cost n k 0
  | .move _ _ k, i => 1 + (n - i) + cost n k 0
  | .compare _ eq ne, i => 1 + (n - i) + cost n eq 0 + cost n ne 0

theorem cost_pos (n : ℕ) (p : Prog α Buf) (i : ℕ) : 0 < cost n p i := by
  cases p <;> simp only [cost] <;> omega

theorem exec_cost [DecidableEq Buf] [DecidableEq β] {a n i i' : ℕ} {p p' : Prog α Buf} {mem mem' : ℕ → β} {m m' : Bufs Buf β}
    (h : exec a n p i mem m = some (mem', m', p', i')) : cost n p' i' < cost n p i := by
  cases p with
  | ret r => cases h
  | lock x k => cases h
  | unlock x k => cases h
  | read b k | write b k | move b d k =>
    simp only [exec] at h
    split at h <;> cases h <;> simp only [cost] <;> omega
  | compare b eq ne =>
    simp only [exec] at h
    split at h
    · split at h
      · cases h; simp only [cost]; omega
      · cases h; simp only [cost]; omega
    · cases h; simp only [cost]; omega

variable (A : Api Call Obj Slot α Buf) (K : Lock Tid α σ ε)

def thrCost : Thr Call α Buf → ℕ
  | .idle => 0
  | .busy c p i _ => cost (A.size (A.obj c)) p i

def pending (s : St Tid Call Slot α Buf β σ) (t : Tid) : Bool :=
  match s.thr t with
  | .busy c (.lock _ _) _ _ => decide (K.place (s.locks (A.slotOf c)) t ≠ .held)
  | _ => false

def remaining [Fintype Tid] [Fintype Slot] [AddCommMonoid M] (μ : σ → M) (s : St Tid Call Slot α Buf β σ) : ℕ ×ₗ M ×ₗ ℕ :=
  toLex (count id (pending A K s), toLex (∑ q, μ (s.locks q), ∑ t, thrCost A (s.thr t)))

section
variable {A K} {s s' : St Tid Call Slot α Buf β σ} {t : Tid}

theorem pending_iff : pending A K s t = true ↔
    ∃ c a k i ph, s.thr t = .busy c (.lock a k) i ph ∧ K.place (s.locks (A.slotOf c)) t ≠ .held := by
  unfold pending
  split
  · rename_i c a k i ph ht
    rw [decide_eq_true_iff]
    constructor
    · intro h
      exact ⟨c, a, k, i, ph, ht, h⟩
    · rintro ⟨c', a', k', i', ph', ht', h⟩
      rw [ht] at ht'
      cases ht'
      exact h
  · rename_i hne
    refine ⟨nofun, ?_⟩
    rintro ⟨c, a, k, i, ph, ht, -⟩
    exact absurd ht (hne c a k i ph)

/-- A thread is pending only if it was, when its program is where it was and it keeps what it holds. -/
theorem pending_mono (h : s'.thr t = s.thr t)
    (hp : ∀ q, K.place (s.locks q) t = .held → K.place (s'.locks q) t = .held) (hs : pending A K s' t = true) :
    pending A K s t = true := by
  obtain ⟨c, a, k, i, ph, ht, hne⟩ := pending_iff.mp hs
  exact pending_iff.mpr ⟨c, a, k, i, ph, h ▸ ht, fun hh => hne (hp _ hh)⟩

theorem not_pending {c : Call} {p : Prog α Buf} {i : ℕ} {ph : Phase} (ht : s.thr t = .busy c p i ph)
    (h : ∀ a k, p ≠ .lock a k) : pending A K s t = false := by
  rw [← Bool.not_eq_true, pending_iff]
  rintro ⟨c', a, k, i', ph', ht', -⟩
  rw [ht] at ht'
  cases ht'
  exact absurd rfl (h a k)

theorem not_pending_of_held {c : Call} {p : Prog α Buf} {i : ℕ} {ph : Phase} (ht : s.thr t = .busy c p i ph)
    (h : K.place (s.locks (A.slotOf c)) t = .held) : pending A K s t = false := by
  rw [← Bool.not_eq_true, pending_iff]
  rintro ⟨c', a, k, i', ph', ht', hne⟩
  rw [ht] at ht'
  cases ht'
  exact hne h

/-- What a thread holds it keeps, if it does at the lock that steps. -/
theorem held_update [DecidableEq Slot] {f : Slot → σ} {q : Slot} {l : σ}
    (h : K.place (f q) t = .held → K.place l t = .held) (q' : Slot) (hq : K.place (f q') t = .held) :
    K.place (Function.update f q l q') t = .held := by
  by_cases e : q' = q
  · subst e
    rw [Function.update_self]
    exact h hq
  · rwa [Function.update_of_ne e]

theorem not_lock_of_inside {p : Prog α Buf} (h : p.inside = true) (a : α) (k : Prog α Buf) : p ≠ .lock a k := by
  rintro rfl
  cases h

theorem not_lock_of_after {p : Prog α Buf} (h : p.after = true) (a : α) (k : Prog α Buf) : p ≠ .lock a k := by
  rintro rfl
  cases h

end

/-! ## Each quiet step -/

section
variable [Fintype Tid] [Fintype Slot] [AddCommMonoid M] [PartialOrder M] {μ : σ → M} {A K}
variable {s s' : St Tid Call Slot α Buf β σ}

theorem remaining_lt_of_pending (h : count id (pending A K s') < count id (pending A K s)) :
    remaining A K μ s' < remaining A K μ s := by
  simp only [remaining, Prod.Lex.toLex_lt_toLex]
  exact Or.inl h

theorem remaining_lt_of_locks (h : count id (pending A K s') ≤ count id (pending A K s))
    (hl : ∑ q, μ (s'.locks q) < ∑ q, μ (s.locks q)) : remaining A K μ s' < remaining A K μ s := by
  simp only [remaining, Prod.Lex.toLex_lt_toLex]
  rcases h.lt_or_eq with h | h
  · exact Or.inl h
  · exact Or.inr ⟨h, Or.inl hl⟩

theorem remaining_lt_of_cost (h : count id (pending A K s') ≤ count id (pending A K s)) (hl : s'.locks = s.locks)
    (hc : ∑ t, thrCost A (s'.thr t) < ∑ t, thrCost A (s.thr t)) : remaining A K μ s' < remaining A K μ s := by
  simp only [remaining, Prod.Lex.toLex_lt_toLex, hl]
  rcases h.lt_or_eq with h | h
  · exact Or.inl h
  · exact Or.inr ⟨h, Or.inr ⟨trivial, hc⟩⟩

/-- A thread that goes on by itself, to a place other than its `lock`. -/
theorem remaining_lt_of_thr [DecidableEq Tid] {t : Tid} {th : Thr Call α Buf} (hs : s'.thr = Function.update s.thr t th)
    (hl : s'.locks = s.locks) (hth : pending A K s' t = false) (hc : thrCost A th < thrCost A (s.thr t)) :
    remaining A K μ s' < remaining A K μ s := by
  refine remaining_lt_of_cost (count_le_of fun v hv => ?_) hl (by rw [hs]; exact sum_update_lt hc)
  have hne : v ≠ t := by rintro rfl; rw [hth] at hv; cases hv
  exact pending_mono (by rw [hs, Function.update_of_ne hne]) (fun q => by rw [hl]; exact id) hv

end

section
variable [DecidableEq Tid] [DecidableEq Obj] [DecidableEq Slot] [DecidableEq Buf] [DecidableEq β]
variable {A K} {mem : ℕ → β} {env : ε → Bool}
variable {s s' : St Tid Call Slot α Buf β σ} {u : Critical.St Tid Call Slot α Buf β} {t : Tid}

variable [Fintype Tid] [Fintype Slot] [AddCommMonoid M] [PartialOrder M] [IsOrderedCancelAddMonoid M] {μ : σ → M}

omit [DecidableEq Obj] in
/-- A step of one lock: it makes a thread the holder, which was pending, or lowers the measure. -/
theorem remaining_lt_of_lock (hL : K.Lively env μ) {q : Slot} {l : σ} {e : ε} (h : Rel A K mem s u)
    (he : env e = false) (hl : K.step (s.locks q) e = some l) (hlocks : s'.locks = Function.update s.locks q l)
    (hmono : ∀ v, pending A K s' v = true → pending A K s v = true)
    (htake : ∀ v, K.place (s.locks q) v ≠ .held → K.place l v = .held → pending A K s v = true ∧ pending A K s' v = false) :
    remaining A K μ s' < remaining A K μ s := by
  rcases hL.descends _ e l (h.locks q) he hl with ⟨v, hv, hv'⟩ | hlt
  · obtain ⟨hb, ha⟩ := htake v hv hv'
    exact remaining_lt_of_pending (count_lt_of hmono hb ha)
  · exact remaining_lt_of_locks (count_le_of hmono) (by rw [hlocks]; exact sum_update_lt hlt)

theorem remaining_lt (hL : K.Lively env μ) (h : Rel A K mem s u) {e : Ev Tid Call Slot Buf β ε} (he : Quiet env e)
    (hs : step A K s e = some s') : remaining A K μ s' < remaining A K μ s := by
  cases step_moves hs with
  | call t c m ht => exact absurd he id
  | ret t c r i ph ht =>
    refine remaining_lt_of_thr rfl rfl ?_ (by rw [ht]; exact cost_pos _ _ _)
    rw [← Bool.not_eq_true, pending_iff]
    rintro ⟨c', a, k, i', ph', ht', -⟩
    simp at ht'
  | enter t c a k i ph l ht hl =>
    obtain ⟨hout, -, hother⟩ := K.place_lock _ _ _ _ hl
    have hnot : K.place (s.locks (A.slotOf c)) t ≠ .held := by rw [hout]; exact nofun
    refine remaining_lt_of_lock hL h (hL.calls t a).1 hl rfl
      (fun v => pending_mono rfl (held_update fun hv => ?_)) fun v hv hv' => ?_
    · have hne : v ≠ t := by rintro rfl; exact hnot hv
      rwa [hother v hne]
    · obtain rfl : v = t := by
        by_contra hne
        rw [hother v hne] at hv'
        exact hv hv'
      exact ⟨pending_iff.mpr ⟨c, a, k, i, ph, ht, hv⟩,
        not_pending_of_held ht (by simpa only [Function.update_self] using hv')⟩
  | take t c a k i ph ht hp =>
    obtain ⟨-, -, hk⟩ := h.enters ht
    refine remaining_lt_of_thr rfl rfl (not_pending (Function.update_self ..) (not_lock_of_inside hk)) ?_
    rw [ht]
    exact Nat.lt_add_of_pos_left Nat.one_pos
  | release t c a k i ph l ht hph hl =>
    obtain ⟨-, hgone, hother⟩ := K.place_unlock _ _ _ _ hl
    refine remaining_lt_of_lock hL h (hL.calls t a).2 hl rfl (fun v hv => ?_) fun v hv hv' => ?_
    · have hne : v ≠ t := by
        rintro rfl
        rw [not_pending (Function.update_self ..) (by intro a k e; cases e)] at hv
        cases hv
      exact pending_mono (Function.update_of_ne hne _ _) (held_update fun hv => by rwa [hother v hne]) hv
    · -- nobody becomes the holder by an `unlock`
      by_cases hne : v = t
      · subst hne
        rw [hv'] at hgone
        rcases hgone with hgone | hgone <;> cases hgone
      · rw [hother v hne] at hv'
        exact absurd hv' hv
  | back t c a k i n ht hp =>
    have hok := h.inv.thr t
    rw [h.thr t, ht] at hok
    refine remaining_lt_of_thr rfl rfl (not_pending (Function.update_self ..) (not_lock_of_after hok.1)) ?_
    rw [ht]
    exact Nat.lt_add_of_pos_left Nat.one_pos
  | exec t c p p' i i' ph mem' m' ht hx =>
    have hu : u.thr t = .busy c p i ph := by
      rw [h.thr t, ht]
      exact settled_eq (Or.inl fun a k e => by rw [e] at hx; cases hx)
    have hok := h.inv.thr t
    rw [hu] at hok
    have hp' : ∀ a k, p' ≠ .lock a k := by
      cases ph with
      | before =>
        have hcl := A.closed c
        rw [← hok.1] at hcl
        rw [exec_closed hcl] at hx
        cases hx
      | inside n => exact not_lock_of_inside (exec_inside hx hok.1)
      | after n => exact not_lock_of_after (exec_after hx hok.1).2
    refine remaining_lt_of_thr rfl rfl (not_pending (Function.update_self ..) hp') ?_
    rw [ht]
    exact exec_cost hx
  | inner q e l hin hl =>
    have hplace := K.place_inner _ _ _ hin hl
    refine remaining_lt_of_lock hL h he hl rfl (fun v => pending_mono rfl (held_update fun hq => ?_)) fun v hv hv' => ?_
    · have hv := hplace v
      rw [hq] at hv
      exact hv.held
    · have hlock : K.place (s.locks q) v = .locking := by
        rcases hplace v with hp | ⟨hp, -⟩ | ⟨-, hp⟩
        · exact absurd (hp ▸ hv') hv
        · exact hp
        · rw [hv'] at hp
          cases hp
      obtain ⟨c, a, k, i, ph, ht, rfl⟩ := h.locking hlock
      exact ⟨pending_iff.mpr ⟨c, a, k, i, ph, ht, hv⟩,
        not_pending_of_held ht (by simpa only [Function.update_self] using hv')⟩

end

/-! ## Where no quiet step is left -/

section
variable [DecidableEq Tid] [DecidableEq Obj] [DecidableEq Slot] [DecidableEq Buf] [DecidableEq β]
variable {A K} {mem : ℕ → β} {env : ε → Bool} [LT M] {μ : σ → M}
variable {s : St Tid Call Slot α Buf β σ} {u : Critical.St Tid Call Slot α Buf β} {t : Tid}

def copies : Prog α Buf → Bool
  | .read _ _ => true
  | .write _ _ => true
  | .move _ _ _ => true
  | .compare _ _ _ => true
  | _ => false

omit [DecidableEq Tid] [DecidableEq Obj] [DecidableEq Slot] in
theorem exec_isSome {a n i : ℕ} {p : Prog α Buf} {mem : ℕ → β} {m : Bufs Buf β} (h : copies p = true) :
    ∃ r, exec a n p i mem m = some r := by
  cases p with
  | ret r => cases h
  | lock x k => cases h
  | unlock x k => cases h
  | compare b eq ne =>
    simp only [exec]
    split
    · split <;> exact ⟨_, rfl⟩
    · exact ⟨_, rfl⟩
  | _ => simp only [exec]; split <;> exact ⟨_, rfl⟩

omit [DecidableEq Obj] in
theorem copies_steps {c : Call} {p : Prog α Buf} {i : ℕ} {ph : Phase} (ht : s.thr t = .busy c p i ph)
    (hp : copies p = true) : ∃ s', step A K s (.run t) = some s' := by
  obtain ⟨r, hr⟩ : ∃ r, exec (A.addr (A.obj c)) (A.size (A.obj c)) p i s.mem (s.bufs t) = some r := exec_isSome hp
  cases p with
  | ret r => cases hp
  | lock x k => cases hp
  | unlock x k => cases hp
  | _ => simp only [step, ht, hr, Option.map_some, Option.some.injEq, exists_eq']

omit [DecidableEq Obj] in
/-- A thread that holds a lock returns from its `lock`, or goes on in its section. -/
theorem Rel.holder_steps (hL : K.Lively env μ) (h : Rel A K mem s u) {q : Slot} (hp : K.place (s.locks q) t = .held) :
    ∃ s', step A K s (.run t) = some s' := by
  have hf := h.fits q t
  rw [hp] at hf
  cases ht : s.thr t with
  | idle => rw [ht] at hf; cases hf
  | busy c p i ph =>
    rw [ht] at hf
    rcases hf with ⟨-, hf⟩ | ⟨rfl, hf⟩
    · cases hf
    cases p with
    | ret r => simp only [step, ht, Option.some.injEq, exists_eq']
    | lock a k => simp only [step, ht, hp, Option.some.injEq, exists_eq']
    | unlock a k =>
      obtain ⟨l, hl⟩ := hL.leave _ t a (h.locks _) hp
      cases ph with
      | after n => rcases hf with hf | ⟨hf, -⟩ <;> cases hf
      | before => simp only [step, ht, hl, Option.map_some, Option.some.injEq, exists_eq']
      | inside n => simp only [step, ht, hl, Option.map_some, Option.some.injEq, exists_eq']
    | _ => exact copies_steps ht rfl

omit [DecidableEq Obj] in
/-- With a thread in the code of a lock there is a quiet step. -/
theorem Rel.lock_steps (hL : K.Lively env μ) (h : Rel A K mem s u) {q : Slot} (hp : K.place (s.locks q) t ≠ .out) :
    ∃ e s', Quiet env e ∧ step A K s e = some s' := by
  rcases hL.live _ t (h.locks q) hp with ⟨v, hv⟩ | ⟨e, l, hin, he, hl⟩
  · obtain ⟨s', hs⟩ := h.holder_steps hL hv
    exact ⟨.run v, s', trivial, hs⟩
  · exact ⟨.inner q e, _, he, by simp only [step, hin, if_true, hl, Option.map_some]; rfl⟩

/-- A thread that is outside its lock goes on. -/
theorem Rel.out_steps (hL : K.Lively env μ) (h : Rel A K mem s u) {c : Call} {p : Prog α Buf} {i : ℕ} {ph : Phase}
    (ht : s.thr t = .busy c p i ph) (hp : K.place (s.locks (A.slotOf c)) t = .out) : ∃ s', step A K s (.run t) = some s' := by
  cases p with
  | ret r => simp only [step, ht, Option.some.injEq, exists_eq']
  | lock a k =>
    obtain ⟨l, hl⟩ := hL.enter _ t a (h.locks _) hp
    simp only [step, ht, hp, hl, Option.map_some, Option.some.injEq, exists_eq']
  | unlock a k =>
    cases ph with
    | after n => simp only [step, ht, hp, Option.some.injEq, exists_eq']
    | before =>
      obtain ⟨-, -, n, hn⟩ := h.leaves ht fun n e => by cases e
      cases hn
    | inside n =>
      have hheld := (h.fits (A.slotOf c) t).within (by rw [ht]; rfl) rfl
      rw [hp] at hheld
      cases hheld
  | _ => exact copies_steps ht rfl

theorem Rel.busy_steps (hL : K.Lively env μ) (h : Rel A K mem s u) {c : Call} {p : Prog α Buf} {i : ℕ} {ph : Phase}
    (ht : s.thr t = .busy c p i ph) : ∃ e s', Quiet env e ∧ step A K s e = some s' := by
  by_cases hp : K.place (s.locks (A.slotOf c)) t = .out
  · obtain ⟨s', hs⟩ := h.out_steps hL ht hp
    exact ⟨.run t, s', trivial, hs⟩
  · exact h.lock_steps hL hp

/-- With no quiet step left, every call has returned. -/
theorem stuck_idle (hL : K.Lively env μ) (h : Rel A K mem s u)
    (hs : ∀ e s', Quiet env e → step A K s e ≠ some s') (t : Tid) : s.thr t = .idle := by
  cases ht : s.thr t with
  | idle => rfl
  | busy c p i ph =>
    obtain ⟨e, s', he, hst⟩ := h.busy_steps hL ht
    exact absurd hst (hs e s' he)

end

section
variable [DecidableEq Tid] [DecidableEq Obj] [DecidableEq Slot] [DecidableEq Buf] [DecidableEq β]
variable [Fintype Tid] [Fintype Slot] [AddCommMonoid M] [PartialOrder M] [IsOrderedCancelAddMonoid M] [WellFoundedLT M]
variable {A K} {mem : ℕ → β} {env : ε → Bool} {μ : σ → M}

/-- No run of quiet steps is infinite. -/
theorem quiet_finite (hK : K.Excludes) (hL : K.Lively env μ) (x : ℕ → St Tid Call Slot α Buf β σ)
    (e : ℕ → Ev Tid Call Slot Buf β ε) (h0 : (sys A K mem).Reach (x 0)) :
    ¬ ∀ i, Quiet env (e i) ∧ step A K (x i) (e i) = some (x (i + 1)) := by
  intro hx
  have hreach : ∀ i, (sys A K mem).Reach (x i) := h0.path fun i => (hx i).2
  refine Lts.no_infinite (R := fun s s' => ∃ ev, Quiet env ev ∧ step A K s ev = some s')
    (I := fun s => (sys A K mem).Reach s) (remaining A K μ) (fun s s' hr hs => ?_) x hreach fun i => ⟨e i, hx i⟩
  obtain ⟨ev, hq, hst⟩ := hs
  obtain ⟨u, -, hR⟩ := (simulates hK).reach hr
  exact remaining_lt hL hR hq hst

end

end LockTable
