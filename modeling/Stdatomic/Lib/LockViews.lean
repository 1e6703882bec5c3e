/-
  Stdatomic.Lib.LockViews — what the sections over a table of locks have seen of one another, by
  the orders with which a lock accesses its word.

  `Orders` says how the steps of a lock access its word, and what they owe to the orders the
  calls ask for: a thread comes to hold the lock by a read-modify-write that acquires, if that was
  asked for, and its unlock releases, if that was asked for. Whatever else the lock does on the
  way, attempts that fail and accesses with other orders, over a lock that excludes a
  thread within its section has seen the sections of the slot that ended releasing (`seen_of_within`). If
  unlock is a store, sections of the slot that did not acquire break the chain (`Kept`).
-/

import Stdatomic.Lib.LockTable
import Stdatomic.Lib.Views

namespace LockTable

open Critical
open Views (Access Ended Effect)

variable {Tid Call Obj Slot α Buf β σ ε : Type*}

/-- How a lock accesses its word. `acq` and `rel` are the orders that a call of `lock` or `unlock` may ask for. -/
structure Orders (K : Lock Tid α σ ε) (acq rel : α → Bool) where
  /-- Of an inner step, with the thread. -/
  access : σ → ε → Option (Tid × Access)
  unlock : α → Access
  /-- The call of `lock` that the thread is in asked for an order that acquires. -/
  asks : σ → Tid → Bool
  access_keeps : ∀ s e t x, access s e = some (t, x) → x.kind ≠ .store
  asks_lock : ∀ s t a s', K.step s (K.lock t a) = some s' → K.place s' t = .locking ∧ (acq a = true → asks s' t = true)
  asks_step : ∀ s e t s', K.step s e = some s' → K.place s t = .locking → K.place s' t = .locking → asks s t = true →
    asks s' t = true
  takes : ∀ s e t s', K.inner e = true → K.step s e = some s' → K.place s t = .locking → K.place s' t = .held →
    asks s t = true → ∃ x, access s e = some (t, x) ∧ x.acq = true
  unlock_writes : ∀ a, (unlock a).kind ≠ .load
  unlock_rel : ∀ a, rel a = true → (unlock a).rel = true
  store_rel : ∀ a, (unlock a).kind = .store → (unlock a).rel = true

/-- Unlocking is a read-modify-write. -/
def Orders.Keeps {K : Lock Tid α σ ε} {acq rel : α → Bool} (O : Orders K acq rel) : Prop := ∀ a, (O.unlock a).kind = .rmw

/-! ## The programs with their views -/

abbrev VSt (Tid Call Slot α Buf β σ : Type*) := Views.VSt Tid Slot Call α (St Tid Call Slot α Buf β σ)

variable [DecidableEq Tid] [DecidableEq Slot] [DecidableEq Buf] [DecidableEq β]
variable (A : Api Call Obj Slot α Buf) {K : Lock Tid α σ ε} {acq rel : α → Bool} (O : Orders K acq rel)

/-- The first step of `unlock` ends the section; the steps of the lock are the accesses it says. -/
def effect (s : St Tid Call Slot α Buf β σ) : Ev Tid Call Slot Buf β ε → Effect Tid Slot Call α
  | .call _ _ _ => .quiet
  | .inner q e =>
    match O.access (s.locks q) e with
    | none => .quiet
    | some (t, x) => .access t q x
  | .run t =>
    match s.thr t with
    | .busy _ (.unlock _ _) _ (.after _) => .quiet
    | .busy c (.unlock a _) _ ph => .ends t (A.slotOf c) (O.unlock a) ph.ticket c a
    | _ => .quiet

def vstep (v : VSt Tid Call Slot α Buf β σ) (e : Ev Tid Call Slot Buf β ε) : Option (VSt Tid Call Slot α Buf β σ) :=
  Views.vstep (step A K) (effect A O) v e

def views (mem : ℕ → β) : Lts.Sys (VSt Tid Call Slot α Buf β σ) (Ev Tid Call Slot Buf β ε) :=
  Views.views (step A K) (effect A O) (sys A K mem).init

variable {A O} {v v' : VSt Tid Call Slot α Buf β σ} {e : Ev Tid Call Slot Buf β ε} {mem : ℕ → β}

theorem views_base (h : (views A O mem).Reach v) : (sys A K mem).Reach v.base := Views.views_base h

section
variable {s : St Tid Call Slot α Buf β σ} {t : Tid} {q : Slot} {x : Access} {n : ℕ} {c : Call} {a : α}

omit [DecidableEq Tid] [DecidableEq Slot] [DecidableEq Buf] [DecidableEq β] in
theorem effect_access (h : effect A O s e = .access t q x) : ∃ i, e = .inner q i ∧ O.access (s.locks q) i = some (t, x) := by
  unfold effect at h
  split at h
  · cases h
  · split at h
    · cases h
    · rename_i hx
      cases h
      exact ⟨_, rfl, hx⟩
  · split at h <;> cases h

omit [DecidableEq Tid] [DecidableEq Slot] [DecidableEq Buf] [DecidableEq β] in
theorem effect_ends (h : effect A O s e = .ends t q x n c a) : e = .run t ∧ A.slotOf c = q ∧ O.unlock a = x ∧
    ∃ k i ph, s.thr t = .busy c (.unlock a k) i ph ∧ (∀ m, ph ≠ .after m) ∧ ph.ticket = n := by
  unfold effect at h
  split at h
  · cases h
  · split at h <;> cases h
  · split at h
    · cases h
    · rename_i k i ph hph ht
      cases h
      exact ⟨rfl, rfl, rfl, k, i, ph, ht, hph, rfl⟩
    · cases h

end

/-! ## The invariant -/

def asksOf (acq : α → Bool) : Prog α Buf → Bool
  | .lock a _ => acq a
  | _ => false

variable (A O) in
/-- The word of slot `q` has kept what the sections in `l` left there. -/
def Kept (l : List (Ended Call α)) (q : Slot) : Prop :=
  O.Keeps ∨ ∀ x ∈ l, A.slotOf x.call = q → asksOf acq (A.code x.call) = true

omit [DecidableEq Tid] [DecidableEq Slot] [DecidableEq Buf] [DecidableEq β] in
theorem Kept.append {l l' : List (Ended Call α)} {q : Slot} (h : Kept A O (l ++ l') q) : Kept A O l q :=
  h.imp_right fun hall x hx => hall x (List.mem_append_left _ hx)

/-- The section of `x` is on slot `q`, it ended releasing, and the word has kept what it left. -/
structure Left (O : Orders K acq rel) (A : Api Call Obj Slot α Buf) (l : List (Ended Call α)) (q : Slot) (x : Ended Call α) :
    Prop where
  mem : x ∈ l
  slot : A.slotOf x.call = q
  rel : (O.unlock x.order).rel = true
  kept : Kept A O l q

variable (A O) in
/-- Whoever waits for a lock, and asked for an order that acquires, has asked the lock for it. -/
def Asked (s : St Tid Call Slot α Buf β σ) : Prop :=
  ∀ t c a k i ph, s.thr t = .busy c (.lock a k) i ph → K.place (s.locks (A.slotOf c)) t = .locking → acq a = true →
    O.asks (s.locks (A.slotOf c)) t = true

variable (A O) in
structure VInv (v : VSt Tid Call Slot α Buf β σ) : Prop where
  own : ∀ x ∈ v.ended, x.ticket ∈ x.view
  /-- The word of a slot has the views of the sections that left them there. -/
  word : ∀ q x, Left O A v.ended q x → x.view ⊆ v.word q
  /-- And so has a holder whose call asked for an order that acquires. -/
  held : ∀ t c p i ph, v.base.thr t = .busy c p i ph → K.place (v.base.locks (A.slotOf c)) t = .held →
    asksOf acq (A.code c) = true → ∀ x, Left O A v.ended (A.slotOf c) x → x.view ⊆ v.seen t
  asks : Asked A O v.base

section
variable {s s' : St Tid Call Slot α Buf β σ} {u : Critical.St Tid Call Slot α Buf β} {t : Tid}

/-- A thread at its `unlock` makes the first step of it. -/
theorem Moves.unlocks (hm : Moves A K s (.run t) s') {c : Call} {a : α} {k : Prog α Buf} {i : ℕ} {ph : Phase}
    (ht : s.thr t = .busy c (.unlock a k) i ph) (hph : ∀ n, ph ≠ .after n) : ∃ l,
      K.step (s.locks (A.slotOf c)) (K.unlock t a) = some l ∧ s'.locks = Function.update s.locks (A.slotOf c) l := by
  cases hm with
  | release _ c' a' k' i' ph' l ht' hph' hl =>
    rw [ht'] at ht
    cases ht
    exact ⟨l, hl, rfl⟩
  | ret _ c' r i' ph' ht' => rw [ht'] at ht; cases ht
  | enter _ c' a' k' i' ph' l ht' hl => rw [ht'] at ht; cases ht
  | take _ c' a' k' i' ph' ht' hp => rw [ht'] at ht; cases ht
  | back _ c' a' k' i' n ht' hp => rw [ht'] at ht; cases ht; exact absurd rfl (hph n)
  | exec _ c' p p' i' i'' ph' mem' m' ht' hx => rw [ht'] at ht; cases ht; cases hx

variable [DecidableEq Obj]

/-- The program of a thread that waits for the lock is all of its call's. -/
theorem Rel.at_lock (h : Rel A K mem s u) {c : Call} {p : Prog α Buf} {i : ℕ} {ph : Phase} (ht : s.thr t = .busy c p i ph)
    (hp : K.place (s.locks (A.slotOf c)) t = .locking) : ∃ a k, p = .lock a k ∧ A.code c = .lock a k := by
  obtain ⟨c', a, k, i', ph', ht', -⟩ := h.locking hp
  rw [ht] at ht'
  cases ht'
  exact ⟨a, k, rfl, (h.enters ht).2.1⟩

/-! What a waiting thread asked for is not forgotten. -/

section
variable {w : Tid} {th : Thr Call α Buf} {q : Slot} {l : σ} {ev : ε} {c : Call} {a : α} {k : Prog α Buf} {i : ℕ}
  {ph : Phase}

omit [DecidableEq Obj] [DecidableEq Slot] [DecidableEq Buf] [DecidableEq β] in
/-- The threads other than `w` stay where they are, and `w` does not wait. -/
theorem Asked.thr (hi : Asked A O s) (hthr : s'.thr = Function.update s.thr w th) (hlocks : s'.locks = s.locks)
    (hth : ∀ c a k i ph, th = .busy c (.lock a k) i ph → K.place (s.locks (A.slotOf c)) w ≠ .locking) :
    Asked A O s' := by
  intro t c a k i ph ht hp ha
  rw [hthr] at ht
  rw [hlocks] at hp ⊢
  by_cases e : t = w
  · subst e
    rw [Function.update_self] at ht
    exact absurd hp (hth c a k i ph ht)
  · rw [Function.update_of_ne e] at ht
    exact hi t c a k i ph ht hp ha

omit [DecidableEq Tid] [DecidableEq Obj] [DecidableEq Buf] [DecidableEq β] in
/-- A step of a lock, for a thread that was waiting before it. -/
theorem Asked.lock (hi : Asked A O s) (hl : K.step (s.locks q) ev = some l) (ht : s.thr t = .busy c (.lock a k) i ph)
    (hbefore : K.place l t = .locking → K.place (s.locks q) t = .locking)
    (hp : K.place (Function.update s.locks q l (A.slotOf c)) t = .locking) (ha : acq a = true) :
    O.asks (Function.update s.locks q l (A.slotOf c)) t = true := by
  by_cases e : A.slotOf c = q
  · subst e
    rw [Function.update_self] at hp ⊢
    exact O.asks_step _ _ t _ hl (hbefore hp) hp (hi t c a k i ph ht (hbefore hp) ha)
  · rw [Function.update_of_ne e] at hp ⊢
    exact hi t c a k i ph ht hp ha

omit [DecidableEq Obj] [DecidableEq Buf] [DecidableEq β] in
theorem Asked.enter (hi : Asked A O s) (hw : s.thr w = .busy c (.lock a k) i ph)
    (hl : K.step (s.locks (A.slotOf c)) (K.lock w a) = some l) :
    Asked A O { s with locks := Function.update s.locks (A.slotOf c) l } := by
  intro t c' a' k' i' ph' ht hp ha
  dsimp only at ht hp ⊢
  by_cases e : t = w
  · subst e
    rw [hw] at ht
    cases ht
    rw [Function.update_self]
    exact (O.asks_lock _ _ _ _ hl).2 ha
  · obtain ⟨-, -, hothers⟩ := K.place_lock _ _ _ _ hl
    exact hi.lock hl ht (fun h => (hothers t e).symm.trans h) hp ha

omit [DecidableEq Obj] [DecidableEq Buf] [DecidableEq β] in
theorem Asked.release (hi : Asked A O s) (hl : K.step (s.locks (A.slotOf c)) (K.unlock w a) = some l) {n : ℕ} {r : List ℕ} :
    Asked A O { s with thr := Function.update s.thr w (.busy c (.unlock a k) i (.after n)),
                       locks := Function.update s.locks (A.slotOf c) l, released := r } := by
  intro t c' a' k' i' ph' ht hp ha
  dsimp only at ht hp ⊢
  by_cases e : t = w
  · subst e
    rw [Function.update_self] at ht
    cases ht
  · rw [Function.update_of_ne e] at ht
    obtain ⟨-, -, hothers⟩ := K.place_unlock _ _ _ _ hl
    exact hi.lock hl ht (fun h => (hothers t e).symm.trans h) hp ha

omit [DecidableEq Tid] [DecidableEq Obj] [DecidableEq Buf] [DecidableEq β] in
theorem Asked.inner (hi : Asked A O s) (hin : K.inner ev = true) (hl : K.step (s.locks q) ev = some l) :
    Asked A O { s with locks := Function.update s.locks q l } := by
  intro t c a k i ph ht hp ha
  refine hi.lock hl ht (fun h => ?_) hp ha
  rcases K.place_inner _ _ _ hin hl t with hpl | ⟨-, hpl⟩ | ⟨-, hpl⟩
  · rw [← hpl]; exact h
  · rw [h] at hpl; cases hpl
  · rw [h] at hpl; cases hpl

end

theorem Rel.asks (h : Rel A K mem s u) (hi : Asked A O s) (hm : Moves A K s e s') : Asked A O s' := by
  cases hm with
  | call w c m hw =>
    refine hi.thr rfl rfl fun c' a k i ph hth => ?_
    obtain rfl : c = c' := by injection hth
    have hout := h.fits (A.slotOf c) w
    rw [hw] at hout
    rw [show K.place (s.locks (A.slotOf c)) w = .out from hout]
    exact fun h => by cases h
  | ret w c r i ph hw => exact hi.thr rfl rfl fun c' a k i ph hth => by cases hth
  | enter w c a k i ph l hw hl => exact hi.enter hw hl
  | take w c a k i ph hw hheld =>
    refine hi.thr rfl rfl fun c' a' k' i' ph' hth => ?_
    cases hth
    rw [hheld]
    exact fun h => by cases h
  | release w c a k i ph l hw hph hl => exact hi.release hl
  | back w c a k i n hw hout =>
    refine hi.thr rfl rfl fun c' a' k' i' ph' hth => ?_
    cases hth
    rw [hout]
    exact fun h => by cases h
  | exec w c p p' i i' ph mem' m' hw hx =>
    refine hi.thr rfl rfl fun c' a' k' i'' ph' hth hp => ?_
    cases hth
    obtain ⟨a, k, rfl, -⟩ := h.at_lock hw hp
    cases hx
  | inner q ev l hin hl => exact hi.inner hin hl

/-! A thread that holds its lock held it before the step, or was waiting for it and the step is an inner one that
    let it in. -/

variable (A K) in
/-- Thread `t` is in the call `c` and holds the lock. -/
def HeldIn (s : St Tid Call Slot α Buf β σ) (t : Tid) (c : Call) : Prop :=
  ∃ p i ph, s.thr t = .busy c p i ph ∧ K.place (s.locks (A.slotOf c)) t = .held

section
variable {w : Tid} {th : Thr Call α Buf} {q : Slot} {l : σ} {ev : ε} {c c' : Call} {a : α} {p : Prog α Buf} {i : ℕ}
  {ph : Phase}

omit [DecidableEq Slot] [DecidableEq Buf] [DecidableEq β] [DecidableEq Obj] in
/-- A step that leaves the locks. -/
theorem HeldIn.thr (ht : Function.update s.thr w th t = .busy c p i ph)
    (hth : t = w → th = .busy c p i ph → ∃ p i ph, s.thr t = .busy c p i ph)
    (hp : K.place (s.locks (A.slotOf c)) t = .held) : HeldIn A K s t c := by
  by_cases e : t = w
  · subst e
    rw [Function.update_self] at ht
    obtain ⟨p', i', ph', hs⟩ := hth rfl ht
    exact ⟨p', i', ph', hs, hp⟩
  · rw [Function.update_of_ne e] at ht
    exact ⟨p, i, ph, ht, hp⟩

omit [DecidableEq Tid] [DecidableEq Buf] [DecidableEq β] [DecidableEq Obj] in
/-- A step of another thread at a lock. -/
theorem HeldIn.lock (hothers : ∀ v, v ≠ w → K.place l v = K.place (s.locks q) v) (hne : t ≠ w)
    (ht : s.thr t = .busy c p i ph) (hp : K.place (Function.update s.locks q l (A.slotOf c)) t = .held) :
    HeldIn A K s t c := by
  refine ⟨p, i, ph, ht, ?_⟩
  by_cases e : A.slotOf c = q
  · subst e
    rw [Function.update_self, hothers t hne] at hp
    exact hp
  · rwa [Function.update_of_ne e] at hp

omit [DecidableEq Tid] [DecidableEq Buf] [DecidableEq β] [DecidableEq Obj] in
theorem HeldIn.enter (hwait : ∀ s t a s', K.step s (K.lock t a) = some s' → K.place s' t = .locking)
    (hw : ∃ p i ph, s.thr w = .busy c' p i ph) (hl : K.step (s.locks (A.slotOf c')) (K.lock w a) = some l)
    (ht : s.thr t = .busy c p i ph) (hp : K.place (Function.update s.locks (A.slotOf c') l (A.slotOf c)) t = .held) :
    HeldIn A K s t c := by
  obtain ⟨-, -, hothers⟩ := K.place_lock _ _ _ _ hl
  refine HeldIn.lock hothers (fun e => ?_) ht hp
  subst e
  obtain ⟨p', i', ph', hw⟩ := hw
  rw [hw] at ht
  cases ht
  rw [Function.update_self, hwait _ _ _ _ hl] at hp
  cases hp

omit [DecidableEq Buf] [DecidableEq β] [DecidableEq Obj] in
theorem HeldIn.release {k : Prog α Buf} {j n : ℕ} (hl : K.step (s.locks (A.slotOf c')) (K.unlock w a) = some l)
    (ht : Function.update s.thr w (.busy c' (.unlock a k) j (.after n)) t = .busy c p i ph)
    (hp : K.place (Function.update s.locks (A.slotOf c') l (A.slotOf c)) t = .held) : HeldIn A K s t c := by
  obtain ⟨-, hout, hothers⟩ := K.place_unlock _ _ _ _ hl
  by_cases e : t = w
  · subst e
    rw [Function.update_self] at ht
    cases ht
    rw [Function.update_self] at hp
    rw [hp] at hout
    rcases hout with hout | hout <;> cases hout
  · rw [Function.update_of_ne e] at ht
    exact HeldIn.lock hothers e ht hp

omit [DecidableEq Tid] [DecidableEq Buf] [DecidableEq β] [DecidableEq Obj] in
theorem HeldIn.inner (hin : K.inner ev = true) (hl : K.step (s.locks q) ev = some l) (ht : s.thr t = .busy c p i ph)
    (hp : K.place (Function.update s.locks q l (A.slotOf c)) t = .held) :
    HeldIn A K s t c ∨ q = A.slotOf c ∧ K.place (s.locks (A.slotOf c)) t = .locking ∧ K.place l t = .held := by
  by_cases e : A.slotOf c = q
  · subst e
    rw [Function.update_self] at hp
    rcases K.place_inner _ _ _ hin hl t with hpl | ⟨hlocking, -⟩ | ⟨-, hpl⟩
    · exact Or.inl ⟨p, i, ph, ht, hpl ▸ hp⟩
    · exact Or.inr ⟨rfl, hlocking, hp⟩
    · rw [hp] at hpl
      cases hpl
  · rw [Function.update_of_ne e] at hp
    exact Or.inl ⟨p, i, ph, ht, hp⟩

end

omit [DecidableEq Obj] in
theorem Rel.holds (hwait : ∀ s t a s', K.step s (K.lock t a) = some s' → K.place s' t = .locking)
    (h : Rel A K mem s u) (hm : Moves A K s e s') {c : Call} {p : Prog α Buf} {i : ℕ} {ph : Phase}
    (ht : s'.thr t = .busy c p i ph) (hp : K.place (s'.locks (A.slotOf c)) t = .held) :
    HeldIn A K s t c ∨
    ∃ ev l, e = .inner (A.slotOf c) ev ∧ s.thr t = .busy c p i ph ∧ K.place (s.locks (A.slotOf c)) t = .locking ∧
      K.inner ev = true ∧ K.step (s.locks (A.slotOf c)) ev = some l ∧ K.place l t = .held := by
  cases hm with
  | call w c' m hw =>
    refine Or.inl (HeldIn.thr ht (fun e _ => ?_) hp)
    subst e
    have hout := h.fits (A.slotOf c) t
    rw [hw] at hout
    rw [show K.place (s.locks (A.slotOf c)) t = .out from hout] at hp
    cases hp
  | ret w c' r i' ph' hw => exact Or.inl (HeldIn.thr ht (fun _ hth => by cases hth) hp)
  | enter w c' a' k' i' ph' l hw hl => exact Or.inl (HeldIn.enter hwait ⟨_, _, _, hw⟩ hl ht hp)
  | take w c' a' k' i' ph' hw hheld =>
    refine Or.inl (HeldIn.thr ht (fun e hth => ?_) hp)
    subst e
    cases hth
    exact ⟨_, _, _, hw⟩
  | release w c' a' k' i' ph' l hw hph hl => exact Or.inl (HeldIn.release hl ht hp)
  | back w c' a' k' i' n hw hout =>
    refine Or.inl (HeldIn.thr ht (fun e hth => ?_) hp)
    subst e
    cases hth
    exact ⟨_, _, _, hw⟩
  | exec w c' p' p'' i' i'' ph' mem' m' hw hx =>
    refine Or.inl (HeldIn.thr ht (fun e hth => ?_) hp)
    subst e
    cases hth
    exact ⟨_, _, _, hw⟩
  | inner q ev l hin hl =>
    rcases HeldIn.inner hin hl ht hp with hheld | ⟨rfl, hlocking, hheld⟩
    · exact Or.inl hheld
    · exact Or.inr ⟨ev, l, rfl, ht, hlocking, hin, hl, hheld⟩

end

omit [DecidableEq Tid] [DecidableEq Slot] [DecidableEq Buf] [DecidableEq β] in
/-- A section that has left its view on a slot had left it before, or is the last one. -/
theorem Left.before {l : List (Ended Call α)} {q : Slot} {x y : Ended Call α} (h : Left O A (l ++ [y]) q x) :
    Left O A l q x ∨ x = y ∧ A.slotOf y.call = q := by
  rcases List.mem_append.mp h.mem with hx | hx
  · exact Or.inl ⟨hx, h.slot, h.rel, h.kept.append⟩
  · obtain rfl := List.mem_singleton.mp hx
    exact Or.inr ⟨rfl, h.slot⟩

omit [DecidableEq Buf] [DecidableEq β] in
theorem VInv.word_step (h : VInv A O v) {s' : St Tid Call Slot α Buf β σ} (hm : Views.VMoves v s' (effect A O v.base e) v')
    (hend : ∀ t c a k i ph, v.base.thr t = .busy c (.unlock a k) i ph → (∀ n, ph ≠ .after n) →
      K.place (v.base.locks (A.slotOf c)) t = .held) (q : Slot) (x : Ended Call α) (hx : Left O A v'.ended q x) :
    x.view ⊆ v'.word q := by
  generalize hf : effect A O v.base e = f at hm
  cases hm with
  | quiet => exact h.word q x hx
  | access w q' y =>
    obtain ⟨i, -, hy⟩ := effect_access hf
    by_cases eq : q = q'
    · subst eq
      simp only [Function.update_self]
      exact (h.word q x hx).trans (Access.word_subset_leaves (O.access_keeps _ _ _ _ hy))
    · simp only [Function.update_of_ne eq]
      exact h.word q x hx
  | ends w q' y n c a =>
    obtain ⟨-, rfl, rfl, k, i, ph, hw, hph, rfl⟩ := effect_ends hf
    by_cases eq : q = A.slotOf c
    · subst eq
      simp only [Function.update_self]
      rcases hx.before with hold | ⟨rfl, -⟩
      · by_cases hk : (O.unlock a).kind = .store
        · -- a store puts its own view in the word's place, so it must have acquired
          have hacq : asksOf acq (A.code c) = true := by
            rcases hx.kept with hkeeps | hall
            · rw [hkeeps a] at hk
              cases hk
            · exact hall ⟨_, c, a, _⟩ (List.mem_append_right _ (List.mem_singleton.mpr rfl)) rfl
          have hseen := h.held w c _ i ph hw (hend w c a k i ph hw hph) hacq x hold
          exact (hseen.trans (((O.unlock a).subset_sees _ _).trans (Finset.subset_insert _ _))).trans
            (Access.seen_subset_leaves (O.unlock_writes a) (O.store_rel a hk))
        · exact (h.word _ x hold).trans (Access.word_subset_leaves hk)
      · exact Access.seen_subset_leaves (O.unlock_writes a) hx.rel
    · simp only [Function.update_of_ne eq]
      rcases hx.before with hold | ⟨-, hslot⟩
      · exact h.word q x hold
      · exact absurd hslot.symm eq

section
variable [DecidableEq Obj] {u : Critical.St Tid Call Slot α Buf β}

/-- The holders after a step: one that has come in read the word, and no other section of its slot can have
    ended since. -/
theorem VInv.held_step (hK : K.Excludes) (h : VInv A O v) (hR : Rel A K mem v.base u)
    {s' : St Tid Call Slot α Buf β σ} (hm : Views.VMoves v s' (effect A O v.base e) v')
    (hs : Moves A K v.base e s') {t : Tid} {c : Call} {p : Prog α Buf} {i : ℕ} {ph : Phase}
    (ht : s'.thr t = .busy c p i ph) (hp : K.place (s'.locks (A.slotOf c)) t = .held)
    (hacq : asksOf acq (A.code c) = true) (x : Ended Call α) (hx : Left O A v'.ended (A.slotOf c) x) :
    x.view ⊆ v'.seen t := by
  rcases hR.holds (fun s t a s' hl => (O.asks_lock s t a s' hl).1) hs ht hp with ⟨p₀, i₀, ph₀, ht₀, hp₀⟩ | hin
  · have hold : Left O A v.ended (A.slotOf c) x := by
      generalize hf : effect A O v.base e = f at hm
      cases hm with
      | quiet => exact hx
      | access w q y => exact hx
      | ends w q y n c' a =>
        obtain ⟨rfl, rfl, rfl, k, j, ph', hw, hph, rfl⟩ := effect_ends hf
        rcases hx.before with hold | ⟨-, hslot⟩
        · exact hold
        · -- the thread that unlocks holds the lock of its slot, so it would be `t`, which holds it still
          obtain ⟨l, hl, hlocks⟩ := hs.unlocks hw hph
          obtain ⟨hheld, hout, -⟩ := K.place_unlock _ _ _ _ hl
          obtain rfl : w = t := hK _ (hR.locks _) w t (hslot ▸ hheld) (hslot ▸ hp₀)
          rw [hlocks, ← hslot, Function.update_self] at hp
          rw [hp] at hout
          rcases hout with hout | hout <;> cases hout
    exact (h.held t c p₀ i₀ ph₀ ht₀ hp₀ hacq x hold).trans (hm.seen_mono t)
  · obtain ⟨ev, l, rfl, ht₀, hwait, hinner, hl, hheld⟩ := hin
    obtain ⟨a, k, rfl, hcode⟩ := hR.at_lock ht₀ hwait
    have ha : acq a = true := by rw [hcode] at hacq; exact hacq
    obtain ⟨y, hy, hyacq⟩ := O.takes _ ev t l hinner hl hwait hheld (h.asks t c a k i ph ht₀ hwait ha)
    rw [show effect A O v.base (.inner (A.slotOf c) ev) = .access t (A.slotOf c) y by simp only [effect, hy]] at hm
    cases hm
    simp only [Function.update_self]
    exact (h.word _ x hx).trans (Access.word_subset_sees hyacq)

/-- Every section at its unlock holds the lock. -/
theorem Rel.holds_at_unlock {s : St Tid Call Slot α Buf β σ} (hR : Rel A K mem s u) {t : Tid} {c : Call} {a : α}
    {k : Prog α Buf} {i : ℕ} {ph : Phase} (ht : s.thr t = .busy c (.unlock a k) i ph) (hph : ∀ n, ph ≠ .after n) :
    K.place (s.locks (A.slotOf c)) t = .held := by
  obtain ⟨-, -, n, rfl⟩ := hR.leaves ht hph
  exact (hR.fits (A.slotOf c) t).within (c := c) (n := n) (by rw [ht]; rfl) rfl

theorem VInv.step (hK : K.Excludes) (h : VInv A O v) (hR : Rel A K mem v.base u) (hs : vstep A O v e = some v') :
    VInv A O v' := by
  obtain ⟨s', hst, hm⟩ := Views.vstep_moves hs
  have hmoves := step_moves hst
  obtain rfl := hm.base_eq
  exact ⟨hm.own h.own, h.word_step hm fun t c a k i ph ht hph => hR.holds_at_unlock ht hph,
    fun t c p i ph ht hp hacq x hx => h.held_step hK hR hm hmoves ht hp hacq x hx, hR.asks h.asks hmoves⟩

theorem vinv (hK : K.Excludes) (h : (views A O mem).Reach v) : VInv A O v := by
  refine h.inv (I := VInv A O) (fun v h0 => ?_) fun v e v' hv hi hs => ?_
  · obtain ⟨-, ⟨m, rfl⟩, rfl⟩ := h0
    refine ⟨fun x hx => ?_, fun q x hx => ?_, fun t c p i ph ht => ?_, fun t c a k i ph ht => ?_⟩
    · cases hx
    · cases hx.mem
    · cases ht
    · cases ht
  · obtain ⟨u, -, hR⟩ := (simulates hK).reach (views_base hv)
    exact hi.step hK hR hs

/-- Over a lock that excludes: a thread within its section, whose call asked for an order that acquires, has seen
    every section that has left its view on the slot, and what that one had seen. -/
theorem seen_of_within (hK : K.Excludes) (h : (views A O mem).Reach v) {t : Tid} {c : Call} {n : ℕ}
    (hw : (v.base.thr t).within = some (c, n)) (hacq : asksOf acq (A.code c) = true) {x : Ended Call α}
    (hx : Left O A v.ended (A.slotOf c) x) : x.ticket ∈ v.seen t ∧ x.view ⊆ v.seen t := by
  have hi := vinv hK h
  obtain ⟨u, -, hR⟩ := (simulates hK).reach (views_base h)
  have hheld := (hR.fits (A.slotOf c) t).within hw rfl
  have hview : x.view ⊆ v.seen t := by
    cases ht : v.base.thr t with
    | idle => rw [ht] at hw; cases hw
    | busy c' p i ph =>
      cases ph with
      | before => rw [ht] at hw; cases hw
      | after k => rw [ht] at hw; cases hw
      | inside k =>
        rw [ht] at hw
        cases hw
        exact hi.held t c p i _ ht hheld hacq x hx
  exact ⟨hview (hi.own x hx.mem), hview⟩

end

end LockTable
