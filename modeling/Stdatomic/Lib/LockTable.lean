/-
  Stdatomic.Lib.LockTable — programs with one critical section over a table of locks that
  are run by an algorithm of their own.

  A lock (`Lock`) is given by its states and steps, shared by the threads: `t` calls
  `lock`, then come inner steps until it holds, then it calls `unlock`, which may have inner
  steps to do before it returns. `place` says where a thread is. In `step` the
  programs of `Api` call a lock for each slot: a thread is within its section from the
  return of `lock` to the first step of `unlock`, and inner steps of any lock
  come at any time.

  If the lock excludes (`Excludes`; a lock that refines the abstract mutex does, by
  `excludes_of_sim`), every step here is a step of the programs over abstract mutexes
  or none at all (`simulates`). So what holds over these holds here (`linear`).
-/

import Stdatomic.Lib.Linear

namespace LockTable

open Critical

inductive Place where
  | out
  | locking
  | held
  | unlocking
  deriving DecidableEq, Repr

/-- An inner step may bring a call to its end. -/
def Place.Inner (p q : Place) : Prop := q = p ∨ p = .locking ∧ q = .held ∨ p = .unlocking ∧ q = .out

theorem Place.Inner.held {p : Place} (h : Place.Inner .held p) : p = .held := by
  rcases h with h | ⟨h, -⟩ | ⟨h, -⟩
  · exact h
  · cases h
  · cases h

/-- A lock run by the threads `ι`, its states and its events. -/
structure Lock (ι α σ ε : Type*) where
  start : σ
  step : σ → ε → Option σ
  lock : ι → α → ε
  unlock : ι → α → ε
  inner : ε → Bool
  place : σ → ι → Place
  place_start : ∀ t, place start t = .out
  place_lock : ∀ s t a s', step s (lock t a) = some s' → place s t = .out ∧
    (place s' t = .locking ∨ place s' t = .held) ∧ ∀ u, u ≠ t → place s' u = place s u
  place_unlock : ∀ s t a s', step s (unlock t a) = some s' → place s t = .held ∧
    (place s' t = .unlocking ∨ place s' t = .out) ∧ ∀ u, u ≠ t → place s' u = place s u
  place_inner : ∀ s e s', inner e = true → step s e = some s' → ∀ t, (place s t).Inner (place s' t)

variable {ι α σ ε : Type*}

def Lock.sys (K : Lock ι α σ ε) : Lts.Sys σ ε where
  init s := s = K.start
  step s e s' := K.step s e = some s'

def Lock.Excludes (K : Lock ι α σ ε) : Prop :=
  ∀ s, K.sys.Reach s → ∀ t u, K.place s t = .held → K.place s u = .held → t = u

/-- A lock that refines the abstract mutex excludes. -/
theorem Lock.excludes_of_sim [DecidableEq ι] {K : Lock ι α σ ε} {R : σ → Option ι → Prop}
    {lbl : σ → ε → σ → Option (Mutex.Ev ι)} (h : Lts.Sys.Sim K.sys (Mutex.sys ι) R lbl)
    (hR : ∀ s o t, R s o → K.place s t = .held → o = some t) : K.Excludes := by
  intro s hs t u ht hu
  obtain ⟨o, -, ho⟩ := h.reach hs
  exact Option.some.inj ((hR s o t ho ht).symm.trans (hR s o u ho hu))

/-! ## The programs over the locks -/

structure St (Tid Call Slot α Buf β σ : Type*) where
  mem : ℕ → β
  bufs : Tid → Bufs Buf β
  thr : Tid → Thr Call α Buf
  locks : Slot → σ
  /-- Ghost: the calls in the order in which their `lock` returned. -/
  log : List (Entry Tid Call Buf β)
  /-- Ghost: the tickets whose section is over. -/
  released : List ℕ
  /-- Ghost: what the calls returned, by ticket. -/
  results : List (ℕ × Result Buf β)

inductive Ev (Tid Call Slot Buf β ε : Type*) where
  | call (t : Tid) (c : Call) (m : Bufs Buf β)
  | run (t : Tid)
  /-- An inner step of the lock of slot `q`. -/
  | inner (q : Slot) (e : ε)

variable {Tid Call Obj Slot Buf β : Type*}
variable (A : Api Call Obj Slot α Buf) (K : Lock Tid α σ ε)

section
variable [DecidableEq Tid] [DecidableEq Slot] [DecidableEq Buf] [DecidableEq β]

def step (s : St Tid Call Slot α Buf β σ) : Ev Tid Call Slot Buf β ε → Option (St Tid Call Slot α Buf β σ)
  | .call t c m =>
    match s.thr t with
    | .idle =>
      some { s with thr := Function.update s.thr t (.busy c (A.code c) 0 .before),
                    bufs := Function.update s.bufs t m }
    | _ => none
  | .run t =>
    match s.thr t with
    | .idle => none
    | .busy _ (.ret r) _ ph =>
      some { s with thr := Function.update s.thr t .idle, results := s.results ++ [(ph.ticket, ⟨s.bufs t, r⟩)] }
    | .busy c (.lock a k) _ _ =>
      match K.place (s.locks (A.slotOf c)) t with
      | .out =>
        (K.step (s.locks (A.slotOf c)) (K.lock t a)).map fun l =>
          { s with locks := Function.update s.locks (A.slotOf c) l }
      | .held =>
        some { s with thr := Function.update s.thr t (.busy c k 0 (.inside s.log.length)),
                      log := s.log ++ [⟨s.log.length, t, c, s.bufs t⟩] }
      | _ => none
    | .busy c (.unlock _ k) _ (.after n) =>
      match K.place (s.locks (A.slotOf c)) t with
      | .out => some { s with thr := Function.update s.thr t (.busy c k 0 (.after n)) }
      | _ => none
    | .busy c (.unlock a k) i ph =>
      (K.step (s.locks (A.slotOf c)) (K.unlock t a)).map fun l =>
        { s with thr := Function.update s.thr t (.busy c (.unlock a k) i (.after ph.ticket)),
                 locks := Function.update s.locks (A.slotOf c) l,
                 released := s.released ++ [ph.ticket] }
    | .busy c p i ph =>
      (exec (A.addr (A.obj c)) (A.size (A.obj c)) p i s.mem (s.bufs t)).map fun r =>
        { s with mem := r.1, bufs := Function.update s.bufs t r.2.1,
                 thr := Function.update s.thr t (.busy c r.2.2.1 r.2.2.2 ph) }
  | .inner q e =>
    if K.inner e then (K.step (s.locks q) e).map fun l => { s with locks := Function.update s.locks q l } else none

def start (mem : ℕ → β) (m : Tid → Bufs Buf β) : St Tid Call Slot α Buf β σ :=
  ⟨mem, m, fun _ => .idle, fun _ => K.start, [], [], []⟩

def sys (mem : ℕ → β) : Lts.Sys (St Tid Call Slot α Buf β σ) (Ev Tid Call Slot Buf β ε) where
  init s := ∃ m, s = start K mem m
  step s e s' := step A K s e = some s'

inductive Moves (s : St Tid Call Slot α Buf β σ) : Ev Tid Call Slot Buf β ε → St Tid Call Slot α Buf β σ → Prop
  | call (t : Tid) (c : Call) (m : Bufs Buf β) : s.thr t = .idle → Moves s (.call t c m)
      { s with thr := Function.update s.thr t (.busy c (A.code c) 0 .before), bufs := Function.update s.bufs t m }
  | ret (t : Tid) (c : Call) (r : Option Bool) (i : ℕ) (ph : Phase) : s.thr t = .busy c (.ret r) i ph → Moves s (.run t)
      { s with thr := Function.update s.thr t .idle, results := s.results ++ [(ph.ticket, ⟨s.bufs t, r⟩)] }
  | enter (t : Tid) (c : Call) (a : α) (k : Prog α Buf) (i : ℕ) (ph : Phase) (l : σ) : s.thr t = .busy c (.lock a k) i ph →
      K.step (s.locks (A.slotOf c)) (K.lock t a) = some l →
      Moves s (.run t) { s with locks := Function.update s.locks (A.slotOf c) l }
  | take (t : Tid) (c : Call) (a : α) (k : Prog α Buf) (i : ℕ) (ph : Phase) : s.thr t = .busy c (.lock a k) i ph →
      K.place (s.locks (A.slotOf c)) t = .held → Moves s (.run t)
      { s with thr := Function.update s.thr t (.busy c k 0 (.inside s.log.length)),
               log := s.log ++ [⟨s.log.length, t, c, s.bufs t⟩] }
  | release (t : Tid) (c : Call) (a : α) (k : Prog α Buf) (i : ℕ) (ph : Phase) (l : σ) :
      s.thr t = .busy c (.unlock a k) i ph → (∀ n, ph ≠ .after n) →
      K.step (s.locks (A.slotOf c)) (K.unlock t a) = some l → Moves s (.run t)
      { s with thr := Function.update s.thr t (.busy c (.unlock a k) i (.after ph.ticket)),
               locks := Function.update s.locks (A.slotOf c) l,
               released := s.released ++ [ph.ticket] }
  | back (t : Tid) (c : Call) (a : α) (k : Prog α Buf) (i n : ℕ) : s.thr t = .busy c (.unlock a k) i (.after n) →
      K.place (s.locks (A.slotOf c)) t = .out →
      Moves s (.run t) { s with thr := Function.update s.thr t (.busy c k 0 (.after n)) }
  | exec (t : Tid) (c : Call) (p p' : Prog α Buf) (i i' : ℕ) (ph : Phase) (mem' : ℕ → β) (m' : Bufs Buf β) :
      s.thr t = .busy c p i ph →
      exec (A.addr (A.obj c)) (A.size (A.obj c)) p i s.mem (s.bufs t) = some (mem', m', p', i') → Moves s (.run t)
      { s with mem := mem', bufs := Function.update s.bufs t m', thr := Function.update s.thr t (.busy c p' i' ph) }
  | inner (q : Slot) (e : ε) (l : σ) : K.inner e = true → K.step (s.locks q) e = some l →
      Moves s (.inner q e) { s with locks := Function.update s.locks q l }

variable {A K}

theorem step_moves {s s' : St Tid Call Slot α Buf β σ} {e : Ev Tid Call Slot Buf β ε} (h : step A K s e = some s') :
    Moves A K s e s' := by
  cases e with
  | call t c m =>
    simp only [step] at h
    split at h
    · rename_i ht; cases h; exact .call t c m ht
    · cases h
  | run t =>
    simp only [step] at h
    split at h
    · cases h
    · rename_i c r i ph ht
      cases h
      exact .ret t c r i ph ht
    · rename_i c a k i ph ht
      split at h
      · obtain ⟨l, hl, rfl⟩ := Option.map_eq_some_iff.mp h
        exact .enter t c a k i ph l ht hl
      · rename_i hp
        cases h
        exact .take t c a k i ph ht hp
      · cases h
    · rename_i c a k i n ht
      split at h
      · rename_i hp
        cases h
        exact .back t c a k i n ht hp
      · cases h
    · rename_i c a k i ph hph ht
      obtain ⟨l, hl, rfl⟩ := Option.map_eq_some_iff.mp h
      exact .release t c a k i ph l ht hph hl
    · rename_i c p i ph _ _ _ _ ht
      obtain ⟨⟨mem', m', p', i'⟩, hx, rfl⟩ := Option.map_eq_some_iff.mp h
      exact .exec t c p p' i i' ph mem' m' ht hx
  | inner q e =>
    simp only [step] at h
    split at h
    · rename_i he
      obtain ⟨l, hl, rfl⟩ := Option.map_eq_some_iff.mp h
      exact .inner q e l he hl
    · cases h

/-! ## The simulation -/

variable (A) in
/-- Whether a thread is at place `p` of the lock of slot `q`, given where its program is. -/
def Fits (q : Slot) (p : Place) : Thr Call α Buf → Prop
  | .idle => p = .out
  | .busy c r _ ph => (A.slotOf c ≠ q ∧ p = .out) ∨ (A.slotOf c = q ∧
      match ph with
      | .before => p ≠ .unlocking
      | .inside _ => p = .held
      | .after _ => p = .out ∨ p = .unlocking ∧ ∃ a k, r = .unlock a k)

/-- Over the abstract mutex `unlock` has no rest. -/
def settled : Thr Call α Buf → Thr Call α Buf
  | .busy c (.unlock _ k) _ (.after n) => .busy c k 0 (.after n)
  | th => th

variable (A K) in
structure Rel (mem : ℕ → β) (s : St Tid Call Slot α Buf β σ) (u : Critical.St Tid Call Slot α Buf β) : Prop where
  reach : (A.sys mem).Reach u
  mem : u.mem = s.mem
  bufs : u.bufs = s.bufs
  thr : ∀ t, u.thr t = settled (s.thr t)
  log : u.log = s.log
  released : u.released = s.released
  results : u.results = s.results
  locks : ∀ q, K.sys.Reach (s.locks q)
  fits : ∀ q t, Fits A q (K.place (s.locks q) t) (s.thr t)

variable (A K) in
def label (s : St Tid Call Slot α Buf β σ) (e : Ev Tid Call Slot Buf β ε) (_ : St Tid Call Slot α Buf β σ) :
    Option (Critical.Ev Tid Call Buf β) :=
  match e with
  | .call t c m => some (.call t c m)
  | .inner _ _ => none
  | .run t =>
    match s.thr t with
    | .busy c (.lock _ _) _ _ => if K.place (s.locks (A.slotOf c)) t = .held then some (.run t) else none
    | .busy _ (.unlock _ _) _ (.after _) => none
    | _ => some (.run t)

section
variable {mem : ℕ → β} {s : St Tid Call Slot α Buf β σ} {u : Critical.St Tid Call Slot α Buf β} {t : Tid}

omit [DecidableEq Tid] [DecidableEq Slot] [DecidableEq Buf] [DecidableEq β] in
theorem settled_within (th : Thr Call α Buf) : (settled th).within = th.within := by
  unfold settled
  split <;> rfl

omit [DecidableEq Tid] [DecidableEq Slot] [DecidableEq Buf] [DecidableEq β] in
theorem settled_eq {c : Call} {p : Prog α Buf} {i : ℕ} {ph : Phase}
    (h : (∀ a k, p ≠ .unlock a k) ∨ ∀ n, ph ≠ .after n) : settled (.busy c p i ph) = .busy c p i ph := by
  unfold settled
  split
  · rename_i heq
    cases heq
    rcases h with h | h
    · exact absurd rfl (h _ _)
    · exact absurd rfl (h _)
  · rfl

omit [DecidableEq Tid] [DecidableEq Slot] [DecidableEq Buf] [DecidableEq β] in
theorem settled_after {c : Call} {p : Prog α Buf} {i n : ℕ} (h : p.after = true) :
    settled (.busy c p i (.after n)) = .busy c p i (.after n) :=
  settled_eq (Or.inl fun a k e => by rw [e] at h; cases h)

omit [DecidableEq Slot] [DecidableEq Buf] [DecidableEq β] in
theorem settled_update {f g : Tid → Thr Call α Buf} (h : ∀ t, f t = settled (g t)) {th th' : Thr Call α Buf}
    (hth : th = settled th') (t v : Tid) : Function.update f t th v = settled (Function.update g t th' v) := by
  by_cases e : v = t
  · subst e; simpa using hth
  · rw [Function.update_of_ne e, Function.update_of_ne e, h v]

omit [DecidableEq Slot] [DecidableEq Buf] [DecidableEq β] in
theorem fits_thr (h : ∀ q v, Fits A q (K.place (s.locks q) v) (s.thr v)) {th : Thr Call α Buf}
    (ht : ∀ q, Fits A q (K.place (s.locks q) t) th) (q : Slot) (v : Tid) :
    Fits A q (K.place (s.locks q) v) (Function.update s.thr t th v) := by
  by_cases e : v = t
  · subst e; simpa using ht q
  · rw [Function.update_of_ne e]; exact h q v

omit [DecidableEq Tid] [DecidableEq Buf] [DecidableEq β] in
theorem fits_lock {f : Tid → Thr Call α Buf} (h : ∀ q v, Fits A q (K.place (s.locks q) v) (f v)) {q : Slot} {l : σ}
    (hl : ∀ v, Fits A q (K.place l v) (f v)) (q' : Slot) (v : Tid) :
    Fits A q' (K.place (Function.update s.locks q l q') v) (f v) := by
  by_cases e : q' = q
  · subst e; simpa using hl v
  · rw [Function.update_of_ne e]; exact h q' v

omit [DecidableEq Tid] [DecidableEq Buf] [DecidableEq β] in
theorem reach_lock (h : ∀ q, K.sys.Reach (s.locks q)) {q : Slot} {l : σ} {e : ε} (hl : K.step (s.locks q) e = some l)
    (q' : Slot) : K.sys.Reach (Function.update s.locks q l q') := by
  by_cases e' : q' = q
  · subst e'
    rw [Function.update_self]
    exact .step e (h q') hl
  · rw [Function.update_of_ne e']; exact h q'

omit [DecidableEq Tid] [DecidableEq Slot] [DecidableEq Buf] [DecidableEq β] in
theorem Fits.inner {q : Slot} {p p' : Place} {th : Thr Call α Buf} (h : Fits A q p th) (hp : p.Inner p') :
    Fits A q p' th := by
  rcases hp with rfl | ⟨rfl, rfl⟩ | ⟨rfl, rfl⟩
  · exact h
  · cases th with
    | idle => cases h
    | busy c r i ph =>
      rcases h with ⟨-, h⟩ | ⟨hq, h⟩
      · cases h
      · cases ph with
        | before => exact Or.inr ⟨hq, fun e => by cases e⟩
        | inside n => cases h
        | after n => rcases h with h | ⟨h, -⟩ <;> cases h
  · cases th with
    | idle => cases h
    | busy c r i ph =>
      rcases h with ⟨-, h⟩ | ⟨hq, h⟩
      · cases h
      · cases ph with
        | before => exact absurd rfl h
        | inside n => cases h
        | after n => exact Or.inr ⟨hq, Or.inl rfl⟩

omit [DecidableEq Tid] [DecidableEq Slot] [DecidableEq Buf] [DecidableEq β] in
theorem Fits.within {q : Slot} {p : Place} {th : Thr Call α Buf} (h : Fits A q p th) {c : Call} {n : ℕ}
    (hw : th.within = some (c, n)) (hc : A.slotOf c = q) : p = .held := by
  cases th with
  | idle => cases hw
  | busy c' r i ph =>
    cases ph with
    | before => cases hw
    | after n' => cases hw
    | inside n' =>
      cases hw
      rcases h with ⟨hne, -⟩ | ⟨-, h⟩
      · exact absurd hc hne
      · exact h

omit [DecidableEq Tid] [DecidableEq Slot] [DecidableEq Buf] [DecidableEq β] in
/-- A thread that goes on in its call is where it was at the locks of other slots. -/
theorem Fits.same_call {q : Slot} {p : Place} {c : Call} {r r' : Prog α Buf} {i i' : ℕ} {ph ph' : Phase}
    (h : Fits A q p (.busy c r i ph)) (h' : A.slotOf c = q → Fits A q p (.busy c r' i' ph')) :
    Fits A q p (.busy c r' i' ph') := by
  rcases h with h | ⟨hq, -⟩
  · exact Or.inl h
  · exact h' hq

variable [DecidableEq Obj]

theorem Rel.inv (h : Rel A K mem s u) : Api.Inv (Api.seqRun A.meaning (A.contents mem) u.log) u := Api.inv h.reach

/-- With a thread about to return from `lock`, no thread is within a section of the slot. -/
theorem Rel.owner_none (hK : K.Excludes) (h : Rel A K mem s u) {c : Call} (hw : (s.thr t).within = none)
    (hp : K.place (s.locks (A.slotOf c)) t = .held) : u.owner (A.slotOf c) = none := by
  rcases ho : u.owner (A.slotOf c) with _ | v
  · rfl
  · obtain ⟨c', n, hw', hs⟩ := h.inv.owner _ v ho
    rw [h.thr v, settled_within] at hw'
    have hv := (h.fits (A.slotOf c) v).within hw' hs
    obtain rfl : t = v := hK _ (h.locks _) t v hp hv
    rw [hw] at hw'
    cases hw'

/-- At its `lock` a thread has not begun its program. -/
theorem Rel.enters (h : Rel A K mem s u) {c : Call} {a : α} {k : Prog α Buf} {i : ℕ} {ph : Phase}
    (ht : s.thr t = .busy c (.lock a k) i ph) : ph = .before ∧ A.code c = .lock a k ∧ k.inside = true := by
  have hu : u.thr t = .busy c (.lock a k) i ph := by rw [h.thr t, ht]; rfl
  exact h.inv.enters hu

/-- At its `unlock` a thread is within its section, as the holder, or has left it. -/
theorem Rel.leaves (h : Rel A K mem s u) {c : Call} {a : α} {k : Prog α Buf} {i : ℕ} {ph : Phase}
    (ht : s.thr t = .busy c (.unlock a k) i ph) (hph : ∀ n, ph ≠ .after n) :
    u.thr t = .busy c (.unlock a k) i ph ∧ u.owner (A.slotOf c) = some t ∧ ∃ n, ph = .inside n := by
  have hu : u.thr t = .busy c (.unlock a k) i ph := by
    rw [h.thr t, ht]
    exact settled_eq (Or.inr hph)
  have hok := h.inv.thr t
  rw [hu] at hok
  cases ph with
  | after n => exact absurd rfl (hph n)
  | inside n => exact ⟨hu, hok.2.1, n, rfl⟩
  | before =>
    have hcl := A.closed c
    rw [← hok.1] at hcl
    cases hcl

/-- A thread in the code of `lock` is at the lock of its program. -/
theorem Rel.locking (h : Rel A K mem s u) {q : Slot} (hp : K.place (s.locks q) t = .locking) :
    ∃ c a k i ph, s.thr t = .busy c (.lock a k) i ph ∧ A.slotOf c = q := by
  have hf := h.fits q t
  rw [hp] at hf
  cases ht : s.thr t with
  | idle => rw [ht] at hf; cases hf
  | busy c p i ph =>
    rw [ht] at hf
    rcases hf with ⟨-, hf⟩ | ⟨hq, hf⟩
    · cases hf
    · cases ph with
      | inside n => cases hf
      | after n => rcases hf with hf | ⟨hf, -⟩ <;> cases hf
      | before =>
        have hu : u.thr t = .busy c p i .before := by
          rw [h.thr t, ht]
          exact settled_eq (Or.inr fun n e => by cases e)
        have hok := h.inv.thr t
        rw [hu] at hok
        have hcl := A.closed c
        rw [← hok.1] at hcl
        cases p with
        | lock a k => exact ⟨c, a, k, i, .before, rfl, hq⟩
        | _ => cases hcl

/-! ### The steps -/

omit [DecidableEq Obj] in
theorem Rel.call (h : Rel A K mem s u) {c : Call} {m : Bufs Buf β} (ht : s.thr t = .idle) :
    ∃ u', A.step u (.call t c m) = some u' ∧ Rel A K mem
      { s with thr := Function.update s.thr t (.busy c (A.code c) 0 .before), bufs := Function.update s.bufs t m } u' := by
  have hu : u.thr t = .idle := by rw [h.thr t, ht]; rfl
  have hst : A.step u (.call t c m) = some
      { u with thr := Function.update u.thr t (.busy c (A.code c) 0 .before), bufs := Function.update u.bufs t m } := by
    simp only [Api.step, hu]
  have hset : (.busy c (A.code c) 0 .before : Thr Call α Buf) = settled (.busy c (A.code c) 0 .before) :=
    (settled_eq (Or.inr fun n e => by cases e)).symm
  refine ⟨_, hst, .step _ h.reach hst, h.mem, by rw [h.bufs], settled_update h.thr hset t, h.log, h.released, h.results,
    h.locks, fits_thr h.fits fun q => ?_⟩
  have hout := h.fits q t
  rw [ht] at hout
  rw [show K.place (s.locks q) t = .out from hout]
  by_cases e : A.slotOf c = q
  · exact Or.inr ⟨e, fun e => by cases e⟩
  · exact Or.inl ⟨e, rfl⟩

theorem Rel.ret (h : Rel A K mem s u) {c : Call} {r : Option Bool} {i : ℕ} {ph : Phase}
    (ht : s.thr t = .busy c (.ret r) i ph) :
    ∃ u', A.step u (.run t) = some u' ∧ Rel A K mem
      { s with thr := Function.update s.thr t .idle, results := s.results ++ [(ph.ticket, ⟨s.bufs t, r⟩)] } u' := by
  have hu : u.thr t = .busy c (.ret r) i ph := by rw [h.thr t, ht]; rfl
  have hst : A.step u (.run t) = some
      { u with thr := Function.update u.thr t .idle, results := u.results ++ [(ph.ticket, ⟨u.bufs t, r⟩)] } := by
    simp only [Api.step, hu]
  have hset : (.idle : Thr Call α Buf) = settled .idle := rfl
  refine ⟨_, hst, .step _ h.reach hst, h.mem, h.bufs, settled_update h.thr hset t, h.log, h.released,
    by rw [h.results, h.bufs], h.locks, fits_thr h.fits fun q => ?_⟩
  have hq := h.fits q t
  have hok := h.inv.thr t
  rw [hu] at hok
  rw [ht] at hq
  rcases hq with ⟨-, hq⟩ | ⟨-, hq⟩
  · exact hq
  · cases ph with
    | before =>
      have hcl := A.closed c
      rw [← hok.1] at hcl
      cases hcl
    | inside n => cases hok.1
    | after n =>
      rcases hq with hq | ⟨-, a, k, hr⟩
      · exact hq
      · cases hr

theorem Rel.enter (h : Rel A K mem s u) {c : Call} {a : α} {k : Prog α Buf} {i : ℕ} {ph : Phase} {l : σ}
    (ht : s.thr t = .busy c (.lock a k) i ph) (hl : K.step (s.locks (A.slotOf c)) (K.lock t a) = some l) :
    Rel A K mem { s with locks := Function.update s.locks (A.slotOf c) l } u := by
  obtain ⟨-, hin, hother⟩ := K.place_lock _ _ _ _ hl
  obtain ⟨rfl, -, -⟩ := h.enters ht
  refine ⟨h.reach, h.mem, h.bufs, h.thr, h.log, h.released, h.results, reach_lock h.locks hl,
    fits_lock h.fits fun v => ?_⟩
  by_cases e : v = t
  · subst e
    rw [ht]
    refine Or.inr ⟨rfl, fun e => ?_⟩
    rw [e] at hin
    rcases hin with hin | hin <;> cases hin
  · rw [hother v e]
    exact h.fits _ v

/-- The return from `lock` takes the abstract mutex. -/
theorem Rel.take (hK : K.Excludes) (h : Rel A K mem s u) {c : Call} {a : α} {k : Prog α Buf} {i : ℕ} {ph : Phase}
    (ht : s.thr t = .busy c (.lock a k) i ph) (hp : K.place (s.locks (A.slotOf c)) t = .held) :
    ∃ u', A.step u (.run t) = some u' ∧ Rel A K mem
      { s with thr := Function.update s.thr t (.busy c k 0 (.inside s.log.length)),
               log := s.log ++ [⟨s.log.length, t, c, s.bufs t⟩] } u' := by
  obtain ⟨rfl, -, -⟩ := h.enters ht
  have hu : u.thr t = .busy c (.lock a k) i .before := by rw [h.thr t, ht]; rfl
  have hfree := h.owner_none hK (c := c) (by rw [ht]; rfl) hp
  have hst : A.step u (.run t) = some
      { u with thr := Function.update u.thr t (.busy c k 0 (.inside u.log.length)),
               owner := Function.update u.owner (A.slotOf c) (some t),
               log := u.log ++ [⟨u.log.length, t, c, u.bufs t⟩] } := by
    simp only [Api.step, hu, Mutex.step_take.mpr ⟨hfree, rfl⟩, Option.map_some]
  have hset : (.busy c k 0 (.inside u.log.length) : Thr Call α Buf) = settled (.busy c k 0 (.inside s.log.length)) := by
    rw [h.log]
    exact (settled_eq (Or.inr fun n e => by cases e)).symm
  refine ⟨_, hst, .step _ h.reach hst, h.mem, h.bufs, settled_update h.thr hset t, by rw [h.log, h.bufs], h.released,
    h.results, h.locks, fits_thr h.fits fun q => ?_⟩
  have hq := h.fits q t
  rw [ht] at hq
  refine hq.same_call fun e => ?_
  subst e
  exact Or.inr ⟨rfl, hp⟩

/-- The first step of `unlock` releases it. -/
theorem Rel.release (h : Rel A K mem s u) {c : Call} {a : α} {k : Prog α Buf} {i : ℕ} {ph : Phase} {l : σ}
    (ht : s.thr t = .busy c (.unlock a k) i ph) (hph : ∀ n, ph ≠ .after n)
    (hl : K.step (s.locks (A.slotOf c)) (K.unlock t a) = some l) :
    ∃ u', A.step u (.run t) = some u' ∧ Rel A K mem
      { s with thr := Function.update s.thr t (.busy c (.unlock a k) i (.after ph.ticket)),
               locks := Function.update s.locks (A.slotOf c) l,
               released := s.released ++ [ph.ticket] } u' := by
  obtain ⟨-, hout, hother⟩ := K.place_unlock _ _ _ _ hl
  obtain ⟨hu, hown, -⟩ := h.leaves ht hph
  have hst : A.step u (.run t) = some
      { u with thr := Function.update u.thr t (.busy c k 0 (.after ph.ticket)),
               owner := Function.update u.owner (A.slotOf c) none,
               released := u.released ++ [ph.ticket] } := by
    simp only [Api.step, hu, Mutex.step_release.mpr ⟨hown, rfl⟩, Option.map_some]
  have hset : (.busy c k 0 (.after ph.ticket) : Thr Call α Buf) = settled (.busy c (.unlock a k) i (.after ph.ticket)) := rfl
  refine ⟨_, hst, .step _ h.reach hst, h.mem, h.bufs, settled_update h.thr hset t, h.log, by rw [h.released], h.results,
    reach_lock h.locks hl, fun q v => ?_⟩
  by_cases e : v = t
  · subst e
    have hq := h.fits q v
    rw [ht] at hq
    simp only [Function.update_self]
    by_cases e' : q = A.slotOf c
    · subst e'
      rw [Function.update_self]
      refine Or.inr ⟨rfl, ?_⟩
      rcases hout with hout | hout
      · exact Or.inr ⟨hout, a, k, rfl⟩
      · exact Or.inl hout
    · rw [Function.update_of_ne e']
      exact hq.same_call fun e => absurd e.symm e'
  · simp only [Function.update_of_ne e]
    by_cases e' : q = A.slotOf c
    · subst e'
      rw [Function.update_self, hother v e]
      exact h.fits _ v
    · rw [Function.update_of_ne e']
      exact h.fits q v

theorem Rel.back (h : Rel A K mem s u) {c : Call} {a : α} {k : Prog α Buf} {i n : ℕ}
    (ht : s.thr t = .busy c (.unlock a k) i (.after n)) (hp : K.place (s.locks (A.slotOf c)) t = .out) :
    Rel A K mem { s with thr := Function.update s.thr t (.busy c k 0 (.after n)) } u := by
  have hu : u.thr t = .busy c k 0 (.after n) := by rw [h.thr t, ht]; rfl
  have hok := h.inv.thr t
  rw [hu] at hok
  refine ⟨h.reach, h.mem, h.bufs, fun v => ?_, h.log, h.released, h.results, h.locks, fits_thr h.fits fun q => ?_⟩
  · by_cases e : v = t
    · subst e
      simp only [Function.update_self, settled_after hok.1, hu]
    · simp only [Function.update_of_ne e]
      exact h.thr v
  · have hq := h.fits q t
    rw [ht] at hq
    refine hq.same_call fun e => ?_
    subst e
    exact Or.inr ⟨rfl, Or.inl hp⟩

omit [DecidableEq Obj] in
theorem step_exec {c : Call} {p p' : Prog α Buf} {i i' : ℕ} {ph : Phase} {mem' : ℕ → β} {m' : Bufs Buf β}
    (ht : u.thr t = .busy c p i ph)
    (hx : exec (A.addr (A.obj c)) (A.size (A.obj c)) p i u.mem (u.bufs t) = some (mem', m', p', i')) :
    A.step u (.run t) = some { u with mem := mem', bufs := Function.update u.bufs t m',
                                      thr := Function.update u.thr t (.busy c p' i' ph) } := by
  cases p with
  | ret r => cases hx
  | lock a k => cases hx
  | unlock a k => cases hx
  | _ => simp only [Api.step, ht, hx, Option.map_some]

theorem Rel.exec (h : Rel A K mem s u) {c : Call} {p p' : Prog α Buf} {i i' : ℕ} {ph : Phase} {mem' : ℕ → β}
    {m' : Bufs Buf β} (ht : s.thr t = .busy c p i ph)
    (hx : exec (A.addr (A.obj c)) (A.size (A.obj c)) p i s.mem (s.bufs t) = some (mem', m', p', i')) :
    ∃ u', A.step u (.run t) = some u' ∧ Rel A K mem
      { s with mem := mem', bufs := Function.update s.bufs t m', thr := Function.update s.thr t (.busy c p' i' ph) } u' := by
  have hne : ∀ a k, p ≠ .unlock a k := by rintro a k rfl; cases hx
  have hu : u.thr t = .busy c p i ph := by
    rw [h.thr t, ht]
    exact settled_eq (Or.inl hne)
  have hok := h.inv.thr t
  rw [hu] at hok
  have hst := step_exec hu (by rw [h.mem, h.bufs]; exact hx)
  -- a copy or comparison is within the section, or of buffers after it
  have hset : (.busy c p' i' ph : Thr Call α Buf) = settled (.busy c p' i' ph) := by
    cases ph with
    | after n => exact (settled_after (exec_after hx hok.1).2).symm
    | before => exact (settled_eq (Or.inr fun n e => by cases e)).symm
    | inside n => exact (settled_eq (Or.inr fun n e => by cases e)).symm
  refine ⟨_, hst, .step _ h.reach hst, rfl, by rw [h.bufs], settled_update h.thr hset t, h.log, h.released, h.results,
    h.locks, fits_thr h.fits fun q => ?_⟩
  have hq := h.fits q t
  rw [ht] at hq
  rcases hq with hq | ⟨e, hq⟩
  · exact Or.inl hq
  · refine Or.inr ⟨e, ?_⟩
    cases ph with
    | before => exact hq
    | inside n => exact hq
    | after n =>
      rcases hq with hq | ⟨-, a, k, e⟩
      · exact Or.inl hq
      · exact absurd e (hne a k)

/-- Every step over the locks is a step over abstract mutexes, or none. -/
theorem simulates (hK : K.Excludes) : Lts.Sys.Sim (sys A K mem) (A.sys mem) (Rel A K mem) (label A K) := by
  refine .of_stepOf (fun s h0 => ?_) fun s e s' u _ h hs => ?_
  · obtain ⟨m, rfl⟩ := h0
    refine ⟨Api.start mem m, ⟨m, rfl⟩, .init ⟨m, rfl⟩, rfl, rfl, fun _ => rfl, rfl, rfl, rfl, fun _ => .init rfl, ?_⟩
    exact fun _ t => K.place_start t
  · cases step_moves hs with
    | call t c m ht => exact h.call ht
    | ret t c r i ph ht =>
      simp only [label, ht]
      exact h.ret ht
    | enter t c a k i ph l ht hl =>
      have hout := (K.place_lock _ _ _ _ hl).1
      simp only [label, ht, hout, reduceCtorEq, if_false]
      exact ⟨u, rfl, h.enter ht hl⟩
    | take t c a k i ph ht hp =>
      simp only [label, ht, hp, if_true]
      exact h.take hK ht hp
    | release t c a k i ph l ht hph hl =>
      have hlabel : ∀ s', label A K s (.run t) s' = some (.run t) := by
        intro s'
        cases ph with
        | after n => exact absurd rfl (hph n)
        | before => simp only [label, ht]
        | inside n => simp only [label, ht]
      rw [hlabel]
      exact h.release ht hph hl
    | back t c a k i n ht hp =>
      simp only [label, ht]
      exact ⟨u, rfl, h.back ht hp⟩
    | exec t c p p' i i' ph mem' m' ht hx =>
      have hlabel : ∀ s', label A K s (.run t) s' = some (.run t) := by
        intro s'
        cases p with
        | ret r => cases hx
        | lock a k => cases hx
        | unlock a k => cases hx
        | _ => simp only [label, ht]
      rw [hlabel]
      exact h.exec ht hx
    | inner q e l he hl =>
      refine ⟨u, rfl, h.reach, h.mem, h.bufs, h.thr, h.log, h.released, h.results, reach_lock h.locks hl,
        fits_lock h.fits fun v => ?_⟩
      exact (h.fits q v).inner (K.place_inner _ _ _ he hl v)

/-- The calls whose section is over, in the order in which their `lock` returned. -/
def done (s : St Tid Call Slot α Buf β σ) : List (Entry Tid Call Buf β) :=
  s.log.filter fun x => decide (x.ticket ∈ s.released)

/-- What `Api.linear` says over abstract mutexes: the calls that returned left the results and the
    buffers of the sequential run of the calls that are over; so did memory at every object whose
    lock nobody holds; with no call under way these are all calls, and all have returned. -/
theorem linear (hK : K.Excludes) (h : (sys A K mem).Reach s) :
    (∀ r ∈ s.results, r ∈ (Api.seqRun A.meaning (A.contents mem) (done s)).2) ∧
    (∀ o, (∀ t, K.place (s.locks (A.slot (A.addr o))) t ≠ .held) →
      A.contents s.mem o = (Api.seqRun A.meaning (A.contents mem) (done s)).1 o) ∧
    ((∀ t, s.thr t = .idle) → done s = s.log ∧
      (∀ o, A.contents s.mem o = (Api.seqRun A.meaning (A.contents mem) s.log).1 o) ∧
      ∀ r, r ∈ s.results ↔ r ∈ (Api.seqRun A.meaning (A.contents mem) s.log).2) := by
  obtain ⟨u, hu, hR⟩ := (simulates hK).reach h
  obtain ⟨hres, hobj, hidle⟩ := Api.linear hu
  have hdone : Api.done u = done s := by rw [Api.done, done, hR.log, hR.released]
  rw [hdone, hR.results] at hres
  rw [hdone, hR.mem] at hobj
  rw [hdone, hR.log, hR.mem, hR.results] at hidle
  refine ⟨hres, fun o ho => hobj o ?_, fun hi => hidle fun t => ?_⟩
  · rcases hown : u.owner (A.slot (A.addr o)) with _ | v
    · rfl
    · obtain ⟨c, n, hw, hs⟩ := hR.inv.owner _ v hown
      rw [hR.thr v, settled_within] at hw
      exact absurd ((hR.fits _ v).within hw hs) (ho v)
  · rw [hR.thr t, hi t]
    rfl

/-! ## Real time -/

def ticketOf : Thr Call α Buf → Option ℕ
  | .busy _ _ _ (.inside k) => some k
  | .busy _ _ _ (.after k) => some k
  | _ => none

/-- The log only grows, and a ticket given out is the next one. -/
theorem moves_ticket (hR : Rel A K mem s u) {e : Ev Tid Call Slot Buf β ε} {s' : St Tid Call Slot α Buf β σ} (h : Moves A K s e s') :
    s.log.length ≤ s'.log.length ∧ ∀ k, ticketOf (s'.thr t) = some k → ticketOf (s.thr t) = some k ∨ k = s.log.length := by
  have other : ∀ {v : Tid} {th : Thr Call α Buf}, (∀ k, ticketOf th = some k → ticketOf (s.thr v) = some k ∨ k = s.log.length) →
      ∀ k, ticketOf (Function.update s.thr v th t) = some k → ticketOf (s.thr t) = some k ∨ k = s.log.length := by
    intro v th hth k hk
    by_cases e : t = v
    · subst e; exact hth k (by simpa using hk)
    · rw [Function.update_of_ne e] at hk; exact Or.inl hk
  cases h with
  | call v c m hv => exact ⟨le_rfl, other fun k hk => by cases hk⟩
  | ret v c r i ph hv => exact ⟨le_rfl, other fun k hk => by cases hk⟩
  | enter v c a k i ph l hv hl => exact ⟨le_rfl, fun k hk => Or.inl hk⟩
  | take v c a k i ph hv hp =>
    refine ⟨by simp, other fun n hn => ?_⟩
    cases hn
    exact Or.inr rfl
  | release v c a k i ph l hv hph hl =>
    obtain ⟨-, -, n, rfl⟩ := hR.leaves hv hph
    refine ⟨le_rfl, other fun m hm => ?_⟩
    cases hm
    exact Or.inl (by rw [hv]; rfl)
  | back v c a k i n hv hp =>
    refine ⟨le_rfl, other fun m hm => ?_⟩
    cases hm
    exact Or.inl (by rw [hv]; rfl)
  | exec v c p p' i i' ph mem' m' hv hx =>
    refine ⟨le_rfl, other fun m hm => Or.inl ?_⟩
    rw [hv]
    cases ph with
    | before => cases hm
    | inside n => exact hm
    | after n => exact hm
  | inner q e l he hl => exact ⟨le_rfl, fun k hk => Or.inl hk⟩

/-- The sequential order keeps the order in time: a call made after another returned has a later ticket. -/
theorem ordered (hK : K.Excludes) {n : ℕ} {x : ℕ → St Tid Call Slot α Buf β σ} {e : ℕ → Ev Tid Call Slot Buf β ε}
    (h : (sys A K mem).Run n x e) {i j : ℕ} (hij : i ≤ j) (hj : j ≤ n) {t : Tid} (hidle : (x i).thr t = .idle)
    {r : ℕ × Result Buf β} (hr : r ∈ (x i).results) {k : ℕ} (hk : ticketOf ((x j).thr t) = some k) : r.1 < k := by
  -- whatever ticket `t` has at `j` it was given since `i`
  have later : (x i).log.length ≤ (x j).log.length ∧ ∀ k, ticketOf ((x j).thr t) = some k → (x i).log.length ≤ k := by
    clear hk
    induction j, hij using Nat.le_induction with
    | base => exact ⟨le_rfl, fun k hk => by rw [hidle] at hk; cases hk⟩
    | succ j hij ih =>
      obtain ⟨ihl, ihk⟩ := ih (by omega)
      obtain ⟨u, -, hR⟩ := (simulates hK).reach (h.reach j (by omega))
      obtain ⟨hl, ht⟩ := moves_ticket hR (t := t) (step_moves (h.next j (by omega)))
      refine ⟨ihl.trans hl, fun k hk => ?_⟩
      rcases ht k hk with hk | rfl
      · exact ihk k hk
      · exact ihl
  obtain ⟨u, -, hR⟩ := (simulates hK).reach (h.reach i (hij.trans hj))
  rw [← hR.results] at hr
  have hold := hR.inv.old _ (hR.inv.results r hr).2
  rw [hR.log] at hold
  exact hold.trans_le (later.2 k hk)

end

end

end LockTable
