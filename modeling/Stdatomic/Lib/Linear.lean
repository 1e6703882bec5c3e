/-
  Stdatomic.Lib.Linear — calls with one critical section each, run by any number of
  threads on disjoint objects of one memory, are linearizable in the order in which they
  took their lock.

  The lock of an object is the abstract mutex of the slot of its address; objects may
  share a slot. Every copy and comparison is one cell a step (`exec`), so the steps of
  sections on different slots interleave freely. The state keeps ghost history: `log`,
  the calls in the order in which they took their slot, numbered (`ticket`); `released`,
  the tickets whose section is over; `results`, what the calls returned.

  The invariant (`Inv`) compares the state with the sequential run of the log: what
  remains of the program of a thread within its section evaluates to what the sequential
  run predicts, since its call is the last one on its slot, and an object with no thread
  within has its predicted contents. The calls still within their section are last on
  their object, so that dropping them changes nothing for the others
  (`seqRun_filter`); `linear` is about the calls that are over.
-/

import Stdatomic.Lib.Critical
import Stdatomic.Lib.Mutex
import Mathlib.Data.List.Range

namespace Critical

/-- Objects in one memory, as disjoint ranges of cells. -/
structure Layout (Obj : Type*) where
  addr : Obj → ℕ
  size : Obj → ℕ
  disjoint : ∀ o o' i j, o ≠ o' → i < size o → j < size o' → addr o + i ≠ addr o' + j

def Layout.contents {Obj β : Type*} (L : Layout Obj) (mem : ℕ → β) (o : Obj) : Fin (L.size o) → β :=
  view mem (L.addr o) (L.size o)

/-- Calls on objects: the slot of an address, the object and the program of a call. -/
structure Api (Call Obj Slot α Buf : Type*) extends Layout Obj where
  slot : ℕ → Slot
  obj : Call → Obj
  code : Call → Prog α Buf
  closed : ∀ c, (code c).closed = true

structure Entry (Tid Call Buf β : Type*) where
  ticket : ℕ
  tid : Tid
  call : Call
  bufs : Bufs Buf β

/-- Where a call is: before its section, within it or after it, with its ticket. -/
inductive Phase where
  | before
  | inside (k : ℕ)
  | after (k : ℕ)
  deriving DecidableEq, Repr

def Phase.ticket : Phase → ℕ
  | .before => 0
  | .inside k => k
  | .after k => k

inductive Thr (Call α Buf : Type*) where
  | idle
  | busy (c : Call) (p : Prog α Buf) (i : ℕ) (ph : Phase)

/-- The section a thread is within: its call and ticket. -/
def Thr.within {Call α Buf : Type*} : Thr Call α Buf → Option (Call × ℕ)
  | .busy c _ _ (.inside k) => some (c, k)
  | _ => none

def Thr.past {Call α Buf : Type*} : Thr Call α Buf → Option ℕ
  | .busy _ _ _ (.after k) => some k
  | _ => none

structure St (Tid Call Slot α Buf β : Type*) where
  mem : ℕ → β
  bufs : Tid → Bufs Buf β
  thr : Tid → Thr Call α Buf
  owner : Slot → Option Tid
  /-- Ghost: the calls in the order in which they took their slot. -/
  log : List (Entry Tid Call Buf β)
  /-- Ghost: the tickets whose section is over. -/
  released : List ℕ
  /-- Ghost: what the calls returned, by ticket. -/
  results : List (ℕ × Result Buf β)

inductive Ev (Tid Call Buf β : Type*) where
  /-- `t` calls `c`, with any contents of its buffers. -/
  | call (t : Tid) (c : Call) (m : Bufs Buf β)
  | run (t : Tid)

variable {Tid Call Obj Slot α Buf β ρ : Type*}

section
variable [DecidableEq Tid] [DecidableEq Slot]

/-- Thread `t` enters its section with the next ticket. -/
def St.enter (s : St Tid Call Slot α Buf β) (q : Slot) (t : Tid) (c : Call) (k : Prog α Buf) : St Tid Call Slot α Buf β :=
  { s with thr := Function.update s.thr t (.busy c k 0 (.inside s.log.length)),
           owner := Function.update s.owner q (some t),
           log := s.log ++ [⟨s.log.length, t, c, s.bufs t⟩] }

/-- Thread `t` leaves its section. -/
def St.leave (s : St Tid Call Slot α Buf β) (q : Slot) (t : Tid) (c : Call) (k : Prog α Buf) (n : ℕ) :
    St Tid Call Slot α Buf β :=
  { s with thr := Function.update s.thr t (.busy c k 0 (.after n)),
           owner := Function.update s.owner q none,
           released := s.released ++ [n] }

end

namespace Api

variable (A : Api Call Obj Slot α Buf)

def slotOf (c : Call) : Slot := A.slot (A.addr (A.obj c))

/-- A sequential meaning: what a call does to the contents of its object, and what it leaves. -/
abbrev Meaning (ρ β : Type*) := ∀ c : Call, (Fin (A.size (A.obj c)) → β) → Bufs Buf β → Outcome ρ β (A.size (A.obj c))

section
variable [DecidableEq Tid] [DecidableEq Slot] [DecidableEq Buf] [DecidableEq β]

def meaning : A.Meaning (Result Buf β) β := fun c v m => eval (A.code c) 0 v m

def step (s : St Tid Call Slot α Buf β) : Ev Tid Call Buf β → Option (St Tid Call Slot α Buf β)
  | .call t c m =>
    match s.thr t with
    | .idle =>
      some { s with thr := Function.update s.thr t (.busy c (A.code c) 0 .before),
                    bufs := Function.update s.bufs t m }
    | _ => none
  | .run t =>
    match s.thr t with
    | .idle => none
    | .busy _ (.ret r) _ ph =>
      some { s with thr := Function.update s.thr t .idle, results := s.results ++ [(ph.ticket, ⟨s.bufs t, r⟩)] }
    | .busy c (.lock _ k) _ _ =>
      (Mutex.step (s.owner (A.slotOf c)) (.take t)).map fun o =>
        { s with thr := Function.update s.thr t (.busy c k 0 (.inside s.log.length)),
                 owner := Function.update s.owner (A.slotOf c) o,
                 log := s.log ++ [⟨s.log.length, t, c, s.bufs t⟩] }
    | .busy c (.unlock _ k) _ ph =>
      (Mutex.step (s.owner (A.slotOf c)) (.release t)).map fun o =>
        { s with thr := Function.update s.thr t (.busy c k 0 (.after ph.ticket)),
                 owner := Function.update s.owner (A.slotOf c) o,
                 released := s.released ++ [ph.ticket] }
    | .busy c p i ph =>
      (exec (A.addr (A.obj c)) (A.size (A.obj c)) p i s.mem (s.bufs t)).map fun r =>
        { s with mem := r.1, bufs := Function.update s.bufs t r.2.1,
                 thr := Function.update s.thr t (.busy c r.2.2.1 r.2.2.2 ph) }

inductive Moves (s : St Tid Call Slot α Buf β) : Ev Tid Call Buf β → St Tid Call Slot α Buf β → Prop
  | call (t : Tid) (c : Call) (m : Bufs Buf β) : s.thr t = .idle → Moves s (.call t c m)
      { s with thr := Function.update s.thr t (.busy c (A.code c) 0 .before), bufs := Function.update s.bufs t m }
  | ret (t : Tid) (c : Call) (r : Option Bool) (i : ℕ) (ph : Phase) : s.thr t = .busy c (.ret r) i ph → Moves s (.run t)
      { s with thr := Function.update s.thr t .idle, results := s.results ++ [(ph.ticket, ⟨s.bufs t, r⟩)] }
  | lock (t : Tid) (c : Call) (a : α) (k : Prog α Buf) (i : ℕ) (ph : Phase) : s.thr t = .busy c (.lock a k) i ph →
      s.owner (A.slotOf c) = none → Moves s (.run t)
      { s with thr := Function.update s.thr t (.busy c k 0 (.inside s.log.length)),
               owner := Function.update s.owner (A.slotOf c) (some t),
               log := s.log ++ [⟨s.log.length, t, c, s.bufs t⟩] }
  | unlock (t : Tid) (c : Call) (a : α) (k : Prog α Buf) (i : ℕ) (ph : Phase) : s.thr t = .busy c (.unlock a k) i ph →
      s.owner (A.slotOf c) = some t → Moves s (.run t)
      { s with thr := Function.update s.thr t (.busy c k 0 (.after ph.ticket)),
               owner := Function.update s.owner (A.slotOf c) none,
               released := s.released ++ [ph.ticket] }
  | exec (t : Tid) (c : Call) (p p' : Prog α Buf) (i i' : ℕ) (ph : Phase) (mem' : ℕ → β) (m' : Bufs Buf β) :
      s.thr t = .busy c p i ph →
      exec (A.addr (A.obj c)) (A.size (A.obj c)) p i s.mem (s.bufs t) = some (mem', m', p', i') → Moves s (.run t)
      { s with mem := mem', bufs := Function.update s.bufs t m', thr := Function.update s.thr t (.busy c p' i' ph) }

variable {A}

theorem step_moves {s s' : St Tid Call Slot α Buf β} {e : Ev Tid Call Buf β} (h : A.step s e = some s') :
    A.Moves s e s' := by
  cases e with
  | call t c m =>
    simp only [step] at h
    split at h
    · rename_i ht; cases h; exact .call t c m ht
    · cases h
  | run t =>
    simp only [step] at h
    split at h
    · cases h
    · rename_i c r i ph ht
      cases h
      exact .ret t c r i ph ht
    · rename_i c a k i ph ht
      obtain ⟨o, ho, rfl⟩ := Option.map_eq_some_iff.mp h
      obtain ⟨hfree, rfl⟩ := Mutex.step_take.mp ho
      exact .lock t c a k i ph ht hfree
    · rename_i c a k i ph ht
      obtain ⟨o, ho, rfl⟩ := Option.map_eq_some_iff.mp h
      obtain ⟨hown, rfl⟩ := Mutex.step_release.mp ho
      exact .unlock t c a k i ph ht hown
    · rename_i c p i ph _ _ _ ht
      obtain ⟨⟨mem', m', p', i'⟩, hx, rfl⟩ := Option.map_eq_some_iff.mp h
      exact .exec t c p p' i i' ph mem' m' ht hx

/-- A thread comes within a section by its lock. -/
theorem step_takes {s s' : St Tid Call Slot α Buf β} {e : Ev Tid Call Buf β} (hs : A.step s e = some s') {t : Tid}
    {c : Call} {n : ℕ} (hb : (s.thr t).within = none) (ha : (s'.thr t).within = some (c, n)) :
    ∃ a k i ph, e = .run t ∧ s.thr t = .busy c (.lock a k) i ph := by
  have away : ∀ {u : Tid} {th : Thr Call α Buf}, Function.update s.thr u th t = s'.thr t → u = t ∧ th = s'.thr t := by
    intro u th h
    by_cases e : t = u
    · subst e; exact ⟨rfl, by simpa using h⟩
    · rw [Function.update_of_ne e] at h
      rw [← h, hb] at ha
      cases ha
  cases step_moves hs with
  | call u c' m => obtain ⟨-, h⟩ := away rfl; rw [← h] at ha; cases ha
  | ret u c' r i ph => obtain ⟨-, h⟩ := away rfl; rw [← h] at ha; cases ha
  | lock u c' a k i ph hu =>
    obtain ⟨rfl, h⟩ := away rfl
    rw [← h] at ha
    cases ha
    exact ⟨a, k, i, ph, rfl, hu⟩
  | unlock u c' a k i ph => obtain ⟨-, h⟩ := away rfl; rw [← h] at ha; cases ha
  | exec u c' p p' i i' ph mem' m' hu =>
    obtain ⟨rfl, h⟩ := away rfl
    rw [← h] at ha
    rw [hu] at hb
    cases ph <;> cases ha
    cases hb

end

def start (mem : ℕ → β) (m : Tid → Bufs Buf β) : St Tid Call Slot α Buf β :=
  ⟨mem, m, fun _ => .idle, fun _ => none, [], [], []⟩

def sys [DecidableEq Tid] [DecidableEq Slot] [DecidableEq Buf] [DecidableEq β] (mem : ℕ → β) :
    Lts.Sys (St Tid Call Slot α Buf β) (Ev Tid Call Buf β) where
  init s := ∃ m, s = start mem m
  step s e s' := A.step s e = some s'

end Api

/-- The program a thread still has to run has the annotations of its call's. -/
theorem Api.annotations {A : Api Call Obj Slot α Buf} [DecidableEq Tid] [DecidableEq Slot] [DecidableEq Buf]
    [DecidableEq β] {mem : ℕ → β} {s : St Tid Call Slot α Buf β} (h : (A.sys mem).Reach s) :
    ∀ t c p i ph, s.thr t = .busy c p i ph → p.locks ⊆ (A.code c).locks ∧ p.unlocks ⊆ (A.code c).unlocks := by
  refine h.inv (I := fun s => ∀ t c p i ph, s.thr t = .busy c p i ph →
    p.locks ⊆ (A.code c).locks ∧ p.unlocks ⊆ (A.code c).unlocks) (fun s h0 => ?_) fun s e s' _ hi hs => ?_
  · obtain ⟨m, rfl⟩ := h0
    intro t c p i ph ht
    cases ht
  · intro u c p i ph hu
    have step : ∀ {t : Tid} {th : Thr Call α Buf}, Function.update s.thr t th u = .busy c p i ph →
        (∀ p₀ i₀ ph₀, th = .busy c p₀ i₀ ph₀ → p₀.locks ⊆ (A.code c).locks ∧ p₀.unlocks ⊆ (A.code c).unlocks) →
        p.locks ⊆ (A.code c).locks ∧ p.unlocks ⊆ (A.code c).unlocks := by
      intro t th h hth
      by_cases e : u = t
      · subst e; exact hth p i ph (by simpa using h)
      · rw [Function.update_of_ne e] at h; exact hi u c p i ph h
    cases step_moves hs with
    | call t c' m ht => exact step hu fun p₀ i₀ ph₀ e => by cases e; exact ⟨fun _ h => h, fun _ h => h⟩
    | ret t c' r i' ph' ht => exact step hu fun p₀ i₀ ph₀ e => by cases e
    | lock t c' a k i' ph' ht =>
      refine step hu fun p₀ i₀ ph₀ e => ?_
      cases e
      obtain ⟨h1, h2⟩ := hi t _ _ _ _ ht
      exact ⟨fun x hx => h1 (List.mem_cons_of_mem _ hx), h2⟩
    | unlock t c' a k i' ph' ht =>
      refine step hu fun p₀ i₀ ph₀ e => ?_
      cases e
      obtain ⟨h1, h2⟩ := hi t _ _ _ _ ht
      exact ⟨h1, fun x hx => h2 (List.mem_cons_of_mem _ hx)⟩
    | exec t c' p₁ p' i₁ i' ph' mem' m' ht hx =>
      refine step hu fun p₀ i₀ ph₀ e => ?_
      cases e
      obtain ⟨h1, h2⟩ := hi t _ _ _ _ ht
      obtain ⟨h3, h4⟩ := exec_annotations hx
      exact ⟨fun x hx => h1 (h3 hx), fun x hx => h2 (h4 hx)⟩

/-! ## The sequential run -/

namespace Api

variable {A : Api Call Obj Slot α Buf}

section
variable [DecidableEq Obj]

def seqStep (f : A.Meaning ρ β) (F : (∀ o, Fin (A.size o) → β) × List (ℕ × ρ)) (x : Entry Tid Call Buf β) :
    (∀ o, Fin (A.size o) → β) × List (ℕ × ρ) :=
  let r := f x.call (F.1 (A.obj x.call)) x.bufs
  (Function.update F.1 (A.obj x.call) r.obj, F.2 ++ [(x.ticket, r.res)])

def seqRun (f : A.Meaning ρ β) (σ : ∀ o, Fin (A.size o) → β) (l : List (Entry Tid Call Buf β)) :
    (∀ o, Fin (A.size o) → β) × List (ℕ × ρ) :=
  l.foldl (seqStep f) (σ, [])

variable {f : A.Meaning ρ β} {σ : ∀ o, Fin (A.size o) → β} {l : List (Entry Tid Call Buf β)}
variable {x : Entry Tid Call Buf β}

@[simp] theorem seqRun_append : seqRun f σ (l ++ [x]) = seqStep f (seqRun f σ l) x := by
  simp [seqRun, List.foldl_append]

/-- Meanings that agree on the objects and, by `π`, on what they leave. -/
theorem seqRun_congr {ρ' : Type*} {g : A.Meaning ρ' β} (π : ρ → ρ')
    (h : ∀ c v m, (f c v m).obj = (g c v m).obj ∧ π (f c v m).res = (g c v m).res) :
    seqRun g σ l = ((seqRun f σ l).1, (seqRun f σ l).2.map fun r => (r.1, π r.2)) := by
  induction l using List.reverseRecOn with
  | nil => rfl
  | append_singleton l x ih => simp [seqStep, ih, h]

theorem seqRun_tickets : (seqRun f σ l).2.map Prod.fst = l.map Entry.ticket := by
  induction l using List.reverseRecOn with
  | nil => rfl
  | append_singleton l x ih => simp [seqStep, ih]

/-- Calls that are the last on their object may be left out: the others do the same. -/
theorem seqRun_filter {q : ℕ → Bool}
    (h : l.Pairwise fun x y => q x.ticket = false → A.obj x.call ≠ A.obj y.call) :
    (∀ o, (∀ x ∈ l, q x.ticket = false → A.obj x.call ≠ o) →
      (seqRun f σ (l.filter fun x => q x.ticket)).1 o = (seqRun f σ l).1 o) ∧
    (seqRun f σ (l.filter fun x => q x.ticket)).2 = (seqRun f σ l).2.filter fun r => q r.1 := by
  induction l using List.reverseRecOn with
  | nil => exact ⟨fun _ _ => rfl, rfl⟩
  | append_singleton l x ih =>
    obtain ⟨hl, -, hx⟩ := List.pairwise_append.mp h
    obtain ⟨iho, ihr⟩ := ih hl
    have hlast : ∀ y ∈ l, q y.ticket = false → A.obj y.call ≠ A.obj x.call := fun y hy => hx y hy x (by simp)
    rw [List.filter_append]
    cases hq : q x.ticket with
    | true =>
      have hsame := iho _ hlast
      simp only [List.filter_cons, hq, if_true, List.filter_nil, seqRun_append, seqStep, hsame, ihr,
        List.filter_append]
      refine ⟨fun o ho => ?_, trivial⟩
      by_cases e : o = A.obj x.call
      · subst e; simp
      · rw [Function.update_of_ne e, Function.update_of_ne e]
        exact iho o fun y hy => ho y (by simp [hy])
    | false =>
      simp only [List.filter_cons, hq, Bool.false_eq_true, if_false, List.filter_nil, List.append_nil, seqRun_append,
        seqStep, ihr, List.filter_append]
      refine ⟨fun o ho => ?_, trivial⟩
      rw [Function.update_of_ne (ho x (by simp) hq).symm]
      exact iho o fun y hy => ho y (by simp [hy])

end

/-! ## The invariant -/

section
variable [DecidableEq Buf] [DecidableEq β]

/-- Thread `t` is where it should be, given the sequential run `F` of the log. -/
def ThrOk (F : (∀ o, Fin (A.size o) → β) × List (ℕ × Result Buf β)) (s : St Tid Call Slot α Buf β) (t : Tid) :
    Thr Call α Buf → Prop
  | .idle => True
  | .busy c p i .before => p = A.code c ∧ i = 0
  | .busy c p i (.inside k) => p.inside = true ∧ s.owner (A.slotOf c) = some t ∧ k ∉ s.released ∧
      ∃ r, (k, r) ∈ F.2 ∧ eval p i (A.contents s.mem (A.obj c)) (s.bufs t) = ⟨F.1 (A.obj c), r⟩
  | .busy c p i (.after k) => p.after = true ∧ k ∈ s.released ∧
      ∃ r, (k, r) ∈ F.2 ∧ (eval p i (A.contents s.mem (A.obj c)) (s.bufs t)).res = r

structure Inv (F : (∀ o, Fin (A.size o) → β) × List (ℕ × Result Buf β)) (s : St Tid Call Slot α Buf β) : Prop where
  thr : ∀ t, ThrOk F s t (s.thr t)
  /-- The holder of a slot is within a section on an object of the slot. -/
  owner : ∀ q t, s.owner q = some t → ∃ c k, (s.thr t).within = some (c, k) ∧ A.slotOf c = q
  /-- An object with no thread within has its contents of the sequential run. -/
  free : ∀ o, (∀ t c k, (s.thr t).within = some (c, k) → A.obj c ≠ o) → A.contents s.mem o = F.1 o
  results : ∀ r ∈ s.results, r ∈ F.2 ∧ r.1 ∈ s.released
  tickets : s.log.map Entry.ticket = List.range s.log.length
  old : ∀ k ∈ s.released, k < s.log.length
  /-- A thread within its section is in the log. -/
  entered : ∀ t c k, (s.thr t).within = some (c, k) → ∃ x ∈ s.log, x.ticket = k ∧ x.tid = t ∧ x.call = c
  /-- A logged call is over or within its section. -/
  logged : ∀ x ∈ s.log, x.ticket ∈ s.released ∨ (s.thr x.tid).within = some (x.call, x.ticket)
  returned : ∀ k ∈ s.released, (∃ r, (k, r) ∈ s.results) ∨ ∃ t, (s.thr t).past = some k
  /-- A call within its section is the last on its slot. -/
  last : s.log.Pairwise fun x y => x.ticket ∉ s.released → A.slotOf x.call ≠ A.slotOf y.call

end

section
variable {F F' : (∀ o, Fin (A.size o) → β) × List (ℕ × Result Buf β)} {s s' : St Tid Call Slot α Buf β} {t : Tid}
variable [DecidableEq Buf] [DecidableEq β]

/-- What a step of another thread has to leave. -/
theorem ThrOk.keep {th : Thr Call α Buf} (h : ThrOk F s t th) (hb : s'.bufs t = s.bufs t) (hF : ∀ r ∈ F.2, r ∈ F'.2)
    (hr : ∀ k ∈ s.released, k ∈ s'.released)
    (hin : ∀ c k, th.within = some (c, k) → s.owner (A.slotOf c) = some t → k ∉ s.released →
      s'.owner (A.slotOf c) = some t ∧ k ∉ s'.released ∧
      A.contents s'.mem (A.obj c) = A.contents s.mem (A.obj c) ∧ F'.1 (A.obj c) = F.1 (A.obj c)) :
    ThrOk F' s' t th := by
  cases th with
  | idle => trivial
  | busy c p i ph =>
    cases ph with
    | before => exact h
    | inside k =>
      obtain ⟨hp, ho, hk, r, hmem, hev⟩ := h
      obtain ⟨ho', hk', hc, hf⟩ := hin c k rfl ho hk
      exact ⟨hp, ho', hk', r, hF _ hmem, by rw [hb, hc, hf, hev]⟩
    | after k =>
      obtain ⟨hp, hk, r, hmem, hev⟩ := h
      refine ⟨hp, hr k hk, r, hF _ hmem, ?_⟩
      rw [hb, eval_after hp i _ (A.contents s.mem (A.obj c))]
      exact hev

omit [DecidableEq Buf] [DecidableEq β] in
/-- A thread within a section is not one that is in none. -/
theorem ne_of_within {u : Tid} {x : Call × ℕ} (ht : (s.thr t).within = none) (hu : (s.thr u).within = some x) :
    u ≠ t := by
  intro e
  subst e
  rw [ht] at hu
  cases hu

/-- A thread within a section holds the slot. -/
theorem Inv.holds (h : Inv F s) {c : Call} {k : ℕ} (hw : (s.thr t).within = some (c, k)) :
    s.owner (A.slotOf c) = some t ∧ k ∉ s.released := by
  have ht := h.thr t
  cases hth : s.thr t with
  | idle => rw [hth] at hw; cases hw
  | busy c' p i ph =>
    rw [hth] at hw ht
    cases ph with
    | before => cases hw
    | inside k' => cases hw; exact ⟨ht.2.1, ht.2.2.1⟩
    | after k' => cases hw

/-- Two threads are within sections of different tickets. -/
theorem Inv.ticket_inj (h : Inv F s) {t' : Tid} {c c' : Call} {k : ℕ} (hw : (s.thr t).within = some (c, k))
    (hw' : (s.thr t').within = some (c', k)) : t = t' := by
  obtain ⟨x, hx, hxk, hxt, -⟩ := h.entered t c k hw
  obtain ⟨y, hy, hyk, hyt, -⟩ := h.entered t' c' k hw'
  have hnd : (s.log.map Entry.ticket).Nodup := by rw [h.tickets]; exact List.nodup_range
  have := List.inj_on_of_nodup_map hnd hx hy (hxk.trans hyk.symm)
  rw [← hxt, ← hyt, this]

/-- The program that takes the lock is the call's own, not yet begun. -/
theorem Inv.enters (h : Inv F s) {c : Call} {a : α} {k : Prog α Buf} {i : ℕ} {ph : Phase}
    (ht : s.thr t = .busy c (.lock a k) i ph) :
    ph = .before ∧ A.code c = .lock a k ∧ k.inside = true := by
  have hok := h.thr t
  rw [ht] at hok
  cases ph with
  | before =>
    have hcl := A.closed c
    rw [← hok.1] at hcl
    exact ⟨rfl, hok.1.symm, hcl⟩
  | inside n => cases hok.1
  | after n => cases hok.1

variable [DecidableEq Tid]

omit [DecidableEq Buf] [DecidableEq β] in
theorem within_update (th : Thr Call α Buf) (hth : th.within = (s.thr t).within) (u : Tid) :
    (Function.update s.thr t th u).within = (s.thr u).within := by
  by_cases e : u = t
  · subst e; simpa using hth
  · rw [Function.update_of_ne e]

omit [DecidableEq Buf] [DecidableEq β] in
theorem past_update (th : Thr Call α Buf) (hth : th.past = (s.thr t).past) (u : Tid) :
    (Function.update s.thr t th u).past = (s.thr u).past := by
  by_cases e : u = t
  · subst e; simpa using hth
  · rw [Function.update_of_ne e]

theorem Inv.call (h : Inv F s) {c : Call} {m : Bufs Buf β} (ht : s.thr t = .idle) :
    Inv F { s with thr := Function.update s.thr t (.busy c (A.code c) 0 .before),
                   bufs := Function.update s.bufs t m } := by
  have hw := within_update (s := s) (t := t) (.busy c (A.code c) 0 .before) (by rw [ht]; rfl)
  have hp := past_update (s := s) (t := t) (.busy c (A.code c) 0 .before) (by rw [ht]; rfl)
  constructor <;> simp only [hw, hp]
  case thr =>
    intro u
    by_cases e : u = t
    · subst e
      rw [Function.update_self]
      exact ⟨rfl, rfl⟩
    · rw [Function.update_of_ne e]
      exact (h.thr u).keep (by simp [Function.update_of_ne e]) (fun _ hr => hr) (fun _ hk => hk)
        fun c k _ ho hk => ⟨ho, hk, rfl, rfl⟩
  case owner => exact h.owner
  case free => exact h.free
  case results => exact h.results
  case tickets => exact h.tickets
  case old => exact h.old
  case entered => exact h.entered
  case logged => exact h.logged
  case returned => exact h.returned
  case last => exact h.last

omit [DecidableEq Buf] [DecidableEq β] [DecidableEq Tid] in
theorem contents_frame {mem mem' : ℕ → β} {o o' : Obj} (hne : o' ≠ o)
    (h : ∀ x, (∀ j < A.size o, x ≠ A.addr o + j) → mem' x = mem x) : A.contents mem' o' = A.contents mem o' := by
  funext j
  exact h _ fun i hi => A.disjoint o' o j i hne j.2 hi

theorem Inv.exec (h : Inv F s) {c : Call} {p p' : Prog α Buf} {i i' : ℕ} {ph : Phase} {mem' : ℕ → β} {m' : Bufs Buf β}
    (ht : s.thr t = .busy c p i ph)
    (hx : exec (A.addr (A.obj c)) (A.size (A.obj c)) p i s.mem (s.bufs t) = some (mem', m', p', i')) :
    Inv F { s with mem := mem', bufs := Function.update s.bufs t m',
                   thr := Function.update s.thr t (.busy c p' i' ph) } := by
  have hw := within_update (s := s) (t := t) (.busy c p' i' ph) (by rw [ht]; cases ph <;> rfl)
  have hp := past_update (s := s) (t := t) (.busy c p' i' ph) (by rw [ht]; cases ph <;> rfl)
  have hok := h.thr t
  rw [ht] at hok
  have hev := eval_exec hx
  -- an object some other thread is within, or nobody is, is not touched
  have hframe : ∀ o, (∀ k, (s.thr t).within = some (c, k) → o ≠ A.obj c) → A.contents mem' o = A.contents s.mem o := by
    intro o ho
    cases ph with
    | before =>
      rw [hok.1, exec_closed (A.closed c)] at hx
      cases hx
    | inside k => exact contents_frame (ho k (by rw [ht]; rfl)) fun x => exec_frame hx
    | after k => rw [(exec_after hx hok.1).1]
  constructor <;> simp only [hw, hp]
  case thr =>
    intro u
    by_cases e : u = t
    · subst e
      rw [Function.update_self]
      cases ph with
      | before =>
        rw [hok.1, exec_closed (A.closed c)] at hx
        cases hx
      | inside k =>
        obtain ⟨hpi, ho, hk, r, hmem, he⟩ := hok
        refine ⟨exec_inside hx hpi, ho, hk, r, hmem, ?_⟩
        simp only [Function.update_self]
        exact hev.trans he
      | after k =>
        obtain ⟨hpa, hk, r, hmem, he⟩ := hok
        refine ⟨(exec_after hx hpa).2, hk, r, hmem, ?_⟩
        simp only [Function.update_self]
        exact (congrArg Outcome.res hev).trans he
    · rw [Function.update_of_ne e]
      refine (h.thr u).keep (by simp [Function.update_of_ne e]) (fun _ hr => hr) (fun _ hk => hk)
        fun c' k hc' ho hk => ⟨ho, hk, hframe _ fun k' hk' heq => ?_, rfl⟩
      have h1 := (h.holds hk').1
      rw [slotOf, ← heq] at h1
      rw [slotOf, h1] at ho
      exact e (Option.some.inj ho).symm
  case owner => exact h.owner
  case free =>
    intro o ho
    rw [hframe o fun k hk => (ho t c k hk).symm]
    exact h.free o ho
  case results => exact h.results
  case tickets => exact h.tickets
  case old => exact h.old
  case entered => exact h.entered
  case logged => exact h.logged
  case returned => exact h.returned
  case last => exact h.last

theorem Inv.ret (h : Inv F s) {c : Call} {r : Option Bool} {i : ℕ} {ph : Phase} (ht : s.thr t = .busy c (.ret r) i ph) :
    Inv F { s with thr := Function.update s.thr t .idle, results := s.results ++ [(ph.ticket, ⟨s.bufs t, r⟩)] } := by
  have hok := h.thr t
  rw [ht] at hok
  cases ph with
  | before =>
    have hcl := A.closed c
    rw [← hok.1] at hcl
    cases hcl
  | inside k => cases hok.1
  | after k =>
    obtain ⟨-, hk, r', hmem, rfl⟩ := hok
    have hw := within_update (s := s) (t := t) .idle (by rw [ht]; rfl)
    constructor <;> simp only [hw]
    case thr =>
      intro u
      by_cases e : u = t
      · subst e; rw [Function.update_self]; trivial
      · rw [Function.update_of_ne e]
        exact (h.thr u).keep rfl (fun _ hr => hr) (fun _ hk => hk) fun c k _ ho hk => ⟨ho, hk, rfl, rfl⟩
    case results =>
      intro x hx
      rcases List.mem_append.mp hx with hx | hx
      · exact h.results x hx
      · obtain rfl := List.mem_singleton.mp hx
        exact ⟨hmem, hk⟩
    case returned =>
      intro k' hk'
      rcases h.returned k' hk' with ⟨r, hr⟩ | ⟨u, hu⟩
      · exact Or.inl ⟨r, List.mem_append_left _ hr⟩
      · by_cases e : u = t
        · subst e
          rw [ht] at hu
          obtain rfl : k = k' := Option.some.inj hu
          exact Or.inl ⟨_, List.mem_append_right _ (List.mem_singleton.mpr rfl)⟩
        · exact Or.inr ⟨u, by rwa [Function.update_of_ne e]⟩
    case owner => exact h.owner
    case free => exact h.free
    case tickets => exact h.tickets
    case old => exact h.old
    case entered => exact h.entered
    case logged => exact h.logged
    case last => exact h.last

variable [DecidableEq Slot]

/-! A thread leaves its section. -/

section
variable {c : Call} {a : α} {k : Prog α Buf} {i n : ℕ}

omit [DecidableEq Buf] [DecidableEq β] in
theorem leave_other {q : Slot} {u : Tid} (hu : u ≠ t) : (s.leave q t c k n).thr u = s.thr u := Function.update_of_ne hu _ _

omit [DecidableEq Buf] [DecidableEq β] in
theorem within_leave {q : Slot} {u : Tid} {x : Call × ℕ} (h : ((s.leave q t c k n).thr u).within = some x) :
    u ≠ t ∧ (s.thr u).within = some x := by
  by_cases e : u = t
  · subst e
    simp [St.leave, Thr.within] at h
  · rw [leave_other e] at h
    exact ⟨e, h⟩

omit [DecidableEq Tid] [DecidableEq Slot] in
/-- Two threads within sections are on different slots. -/
theorem Inv.apart (h : Inv F s) (hw : (s.thr t).within = some (c, n)) {u : Tid} {c' : Call} {k' : ℕ} (hu : u ≠ t)
    (hw' : (s.thr u).within = some (c', k')) : A.slotOf c' ≠ A.slotOf c ∧ k' ≠ n := by
  refine ⟨fun heq => ?_, fun heq => ?_⟩
  · have h1 := (h.holds hw').1
    rw [heq, (h.holds hw).1] at h1
    exact hu (Option.some.inj h1).symm
  · subst heq
    exact hu (h.ticket_inj hw' hw)

omit [DecidableEq Tid] [DecidableEq Slot] in
/-- At the unlock the object is done with. -/
theorem Inv.contents_at_unlock (h : Inv F s) (ht : s.thr t = .busy c (.unlock a k) i (.inside n)) :
    A.contents s.mem (A.obj c) = F.1 (A.obj c) := by
  have hok := h.thr t
  rw [ht] at hok
  obtain ⟨hka, -, -, r, -, hev⟩ := hok
  have hrest := eval_after (show k.after = true from hka) 0 (A.contents s.mem (A.obj c)) (A.contents s.mem (A.obj c)) (s.bufs t)
  rw [show eval k 0 (A.contents s.mem (A.obj c)) (s.bufs t) = ⟨F.1 (A.obj c), r⟩ from hev] at hrest
  exact (congrArg Outcome.obj hrest).symm

theorem Inv.leave_thr (h : Inv F s) (ht : s.thr t = .busy c (.unlock a k) i (.inside n)) (u : Tid) :
    ThrOk F (s.leave (A.slotOf c) t c k n) u ((s.leave (A.slotOf c) t c k n).thr u) := by
  have hok := h.thr t
  rw [ht] at hok
  obtain ⟨hka, -, -, r, hmem, hev⟩ := hok
  have hw : (s.thr t).within = some (c, n) := by rw [ht]; rfl
  by_cases e : u = t
  · subst e
    rw [show (s.leave (A.slotOf c) u c k n).thr u = .busy c k 0 (.after n) from Function.update_self ..]
    exact ⟨hka, List.mem_append_right _ (List.mem_singleton.mpr rfl), r, hmem, congrArg Outcome.res hev⟩
  · rw [leave_other e]
    refine (h.thr u).keep rfl (fun _ hr => hr) (fun _ hk => List.mem_append_left _ hk)
      fun c' k' hc' ho hk => ⟨?_, ?_, rfl, rfl⟩
    · exact (Function.update_of_ne (h.apart hw e hc').1 _ _).trans ho
    · rw [St.leave, List.mem_append, List.mem_singleton, not_or]
      exact ⟨hk, (h.apart hw e hc').2⟩

theorem Inv.leave_owner (h : Inv F s) (hw : (s.thr t).within = some (c, n)) (q : Slot) (u : Tid)
    (hq : (s.leave (A.slotOf c) t c k n).owner q = some u) :
    ∃ c' k', ((s.leave (A.slotOf c) t c k n).thr u).within = some (c', k') ∧ A.slotOf c' = q := by
  by_cases e : q = A.slotOf c
  · subst e
    simp [St.leave] at hq
  · replace hq : s.owner q = some u := by simpa [St.leave, e] using hq
    obtain ⟨c', k', hw', hs'⟩ := h.owner q u hq
    have hu : u ≠ t := by
      intro e
      subst e
      rw [hw] at hw'
      cases hw'
      exact e hs'.symm
    exact ⟨c', k', by rw [leave_other hu, hw'], hs'⟩

theorem Inv.leave_free (h : Inv F s) (ht : s.thr t = .busy c (.unlock a k) i (.inside n)) (o : Obj)
    (ho : ∀ u c' k', ((s.leave (A.slotOf c) t c k n).thr u).within = some (c', k') → A.obj c' ≠ o) :
    A.contents s.mem o = F.1 o := by
  by_cases e : A.obj c = o
  · subst e
    exact h.contents_at_unlock ht
  · refine h.free o fun u c' k' hw' => ?_
    by_cases hu : u = t
    · subst hu
      rw [ht] at hw'
      cases hw'
      exact e
    · exact ho u c' k' (by rw [leave_other hu, hw'])

theorem Inv.leave_logged (h : Inv F s) (hw : (s.thr t).within = some (c, n)) (x : Entry Tid Call Buf β) (hx : x ∈ s.log) :
    x.ticket ∈ s.released ++ [n] ∨
      ((s.leave (A.slotOf c) t c k n).thr x.tid).within = some (x.call, x.ticket) := by
  rcases h.logged x hx with hr | hw'
  · exact Or.inl (List.mem_append_left _ hr)
  · by_cases hu : x.tid = t
    · rw [hu, hw] at hw'
      exact Or.inl (List.mem_append_right _ (by simpa using (congrArg Prod.snd (Option.some.inj hw')).symm))
    · exact Or.inr (by rw [leave_other hu, hw'])

theorem Inv.leave_returned (h : Inv F s) (ht : s.thr t = .busy c (.unlock a k) i (.inside n)) (k' : ℕ)
    (hk' : k' ∈ s.released ++ [n]) :
    (∃ r, (k', r) ∈ s.results) ∨ ∃ u, ((s.leave (A.slotOf c) t c k n).thr u).past = some k' := by
  rcases List.mem_append.mp hk' with hk' | hk'
  · rcases h.returned k' hk' with hr | ⟨u, hu⟩
    · exact Or.inl hr
    · have hne : u ≠ t := by intro e; subst e; rw [ht] at hu; cases hu
      exact Or.inr ⟨u, by rw [leave_other hne, hu]⟩
  · obtain rfl := List.mem_singleton.mp hk'
    exact Or.inr ⟨t, by simp [St.leave, Thr.past]⟩

omit [DecidableEq Tid] [DecidableEq Slot] in
theorem Inv.leave_old (h : Inv F s) (hw : (s.thr t).within = some (c, n)) (k' : ℕ) (hk' : k' ∈ s.released ++ [n]) :
    k' < s.log.length := by
  rcases List.mem_append.mp hk' with hk' | hk'
  · exact h.old k' hk'
  · obtain rfl := List.mem_singleton.mp hk'
    obtain ⟨x, hx, hxk, -⟩ := h.entered t c _ hw
    have hmem := List.mem_map_of_mem (f := Entry.ticket) hx
    rw [h.tickets, hxk] at hmem
    exact List.mem_range.mp hmem

end

theorem Inv.unlock (h : Inv F s) {c : Call} {a : α} {k : Prog α Buf} {i : ℕ} {ph : Phase}
    (ht : s.thr t = .busy c (.unlock a k) i ph) : Inv F (s.leave (A.slotOf c) t c k ph.ticket) := by
  have hok := h.thr t
  rw [ht] at hok
  cases ph with
  | before =>
    have hcl := A.closed c
    rw [← hok.1] at hcl
    cases hcl
  | after n => cases hok.1
  | inside n =>
    have hw : (s.thr t).within = some (c, n) := by rw [ht]; rfl
    exact
      { thr := h.leave_thr ht
        owner := h.leave_owner hw
        free := h.leave_free ht
        results := fun r hr => ⟨(h.results r hr).1, List.mem_append_left _ (h.results r hr).2⟩
        tickets := h.tickets
        old := h.leave_old hw
        entered := fun u c' k' hw' => h.entered u c' k' (within_leave hw').2
        logged := h.leave_logged hw
        returned := h.leave_returned ht
        last := h.last.imp fun hxy hr => hxy fun hm => hr (List.mem_append_left _ hm) }

variable [DecidableEq Obj]

/-! A thread enters its section. -/

section
variable {c : Call} {a : α} {k : Prog α Buf} {i : ℕ} {ph : Phase}

omit [DecidableEq Buf] [DecidableEq β] [DecidableEq Obj] in
theorem enter_self {q : Slot} : (s.enter q t c k).thr t = .busy c k 0 (.inside s.log.length) := Function.update_self ..

omit [DecidableEq Buf] [DecidableEq β] [DecidableEq Obj] in
theorem enter_other {q : Slot} {u : Tid} (hu : u ≠ t) : (s.enter q t c k).thr u = s.thr u := Function.update_of_ne hu _ _

omit [DecidableEq Tid] [DecidableEq Slot] [DecidableEq Obj] in
/-- No thread is within a section of a free slot. -/
theorem Inv.slot_ne (h : Inv F s) (hfree : s.owner (A.slotOf c) = none) {u : Tid} {c' : Call} {k' : ℕ}
    (hw : (s.thr u).within = some (c', k')) : A.slotOf c' ≠ A.slotOf c := by
  intro heq
  have hown := (h.holds hw).1
  rw [heq, hfree] at hown
  cases hown

omit [DecidableEq Tid] [DecidableEq Slot] [DecidableEq Obj] in
theorem Inv.obj_ne (h : Inv F s) (hfree : s.owner (A.slotOf c) = none) {u : Tid} {c' : Call} {k' : ℕ}
    (hw : (s.thr u).within = some (c', k')) : A.obj c' ≠ A.obj c :=
  fun heq => h.slot_ne hfree hw (by rw [slotOf, slotOf, heq])

theorem Inv.enter_thr (h : Inv F s) (ht : s.thr t = .busy c (.lock a k) i ph) (hfree : s.owner (A.slotOf c) = none)
    (u : Tid) : ThrOk (seqStep A.meaning F ⟨s.log.length, t, c, s.bufs t⟩) (s.enter (A.slotOf c) t c k) u
      ((s.enter (A.slotOf c) t c k).thr u) := by
  obtain ⟨-, hcode, hki⟩ := h.enters ht
  have hcont : A.contents s.mem (A.obj c) = F.1 (A.obj c) := h.free _ fun _ _ _ hw => h.obj_ne hfree hw
  by_cases e : u = t
  · subst e
    rw [enter_self]
    refine ⟨hki, by simp [St.enter], fun hm => absurd (h.old _ hm) (Nat.lt_irrefl _), _,
      List.mem_append_right _ (List.mem_singleton.mpr rfl), ?_⟩
    simp only [St.enter, seqStep, hcont, Function.update_self, meaning, hcode]
    rfl
  · rw [enter_other e]
    refine (h.thr u).keep rfl (fun _ hr => List.mem_append_left _ hr) (fun _ hk => hk)
      fun c' k' hc' ho hk => ⟨?_, hk, rfl, ?_⟩
    · exact (Function.update_of_ne (h.slot_ne hfree hc') _ _).trans ho
    · exact Function.update_of_ne (h.obj_ne hfree hc') _ _

omit [DecidableEq Obj] in
theorem Inv.enter_owner (h : Inv F s) (hwt : (s.thr t).within = none) (q : Slot) (u : Tid)
    (hq : (s.enter (A.slotOf c) t c k).owner q = some u) :
    ∃ c' k', ((s.enter (A.slotOf c) t c k).thr u).within = some (c', k') ∧ A.slotOf c' = q := by
  by_cases e : q = A.slotOf c
  · subst e
    obtain rfl : t = u := by simpa [St.enter] using hq
    exact ⟨c, s.log.length, by rw [enter_self]; rfl, rfl⟩
  · replace hq : s.owner q = some u := by simpa [St.enter, e] using hq
    obtain ⟨c', k', hw', hs'⟩ := h.owner q u hq
    exact ⟨c', k', by rw [enter_other (ne_of_within hwt hw'), hw'], hs'⟩

theorem Inv.enter_free (h : Inv F s) (hwt : (s.thr t).within = none) (o : Obj)
    (ho : ∀ u c' k', ((s.enter (A.slotOf c) t c k).thr u).within = some (c', k') → A.obj c' ≠ o) :
    A.contents s.mem o = (seqStep A.meaning F ⟨s.log.length, t, c, s.bufs t⟩).1 o := by
  have hne : o ≠ A.obj c := (ho t c s.log.length (by rw [enter_self]; rfl)).symm
  have hfree : A.contents s.mem o = F.1 o :=
    h.free o fun u c' k' hw' => ho u c' k' (by rw [enter_other (ne_of_within hwt hw'), hw'])
  simpa [seqStep, hne] using hfree

omit [DecidableEq Obj] in
theorem Inv.enter_entered (h : Inv F s) (u : Tid) (c' : Call) (k' : ℕ)
    (hw' : ((s.enter (A.slotOf c) t c k).thr u).within = some (c', k')) :
    ∃ x ∈ (s.enter (A.slotOf c) t c k).log, x.ticket = k' ∧ x.tid = u ∧ x.call = c' := by
  by_cases hu : u = t
  · subst hu
    rw [enter_self] at hw'
    cases hw'
    exact ⟨_, List.mem_append_right _ (List.mem_singleton.mpr rfl), rfl, rfl, rfl⟩
  · rw [enter_other hu] at hw'
    obtain ⟨x, hx, hxs⟩ := h.entered u c' k' hw'
    exact ⟨x, List.mem_append_left _ hx, hxs⟩

omit [DecidableEq Obj] in
theorem Inv.enter_logged (h : Inv F s) (hwt : (s.thr t).within = none) (x : Entry Tid Call Buf β)
    (hx : x ∈ (s.enter (A.slotOf c) t c k).log) :
    x.ticket ∈ s.released ∨ ((s.enter (A.slotOf c) t c k).thr x.tid).within = some (x.call, x.ticket) := by
  rcases List.mem_append.mp hx with hx | hx
  · rcases h.logged x hx with hr | hw'
    · exact Or.inl hr
    · exact Or.inr (by rw [enter_other (ne_of_within hwt hw'), hw'])
  · obtain rfl := List.mem_singleton.mp hx
    exact Or.inr (by rw [enter_self]; rfl)

omit [DecidableEq Obj] in
theorem Inv.enter_returned (h : Inv F s) (ht : s.thr t = .busy c (.lock a k) i .before) (k' : ℕ) (hk' : k' ∈ s.released) :
    (∃ r, (k', r) ∈ s.results) ∨ ∃ u, ((s.enter (A.slotOf c) t c k).thr u).past = some k' := by
  rcases h.returned k' hk' with hr | ⟨u, hu⟩
  · exact Or.inl hr
  · have hne : u ≠ t := by intro e; subst e; rw [ht] at hu; cases hu
    exact Or.inr ⟨u, by rw [enter_other hne, hu]⟩

omit [DecidableEq Obj] in
theorem Inv.enter_last (h : Inv F s) (hfree : s.owner (A.slotOf c) = none) : (s.enter (A.slotOf c) t c k).log.Pairwise
    fun x y => x.ticket ∉ s.released → A.slotOf x.call ≠ A.slotOf y.call := by
  refine List.pairwise_append.mpr ⟨h.last, List.pairwise_singleton _ _, fun x hx y hy hr => ?_⟩
  obtain rfl := List.mem_singleton.mp hy
  exact h.slot_ne hfree ((h.logged x hx).resolve_left hr)

end

theorem Inv.lock (h : Inv F s) {c : Call} {a : α} {k : Prog α Buf} {i : ℕ} {ph : Phase}
    (ht : s.thr t = .busy c (.lock a k) i ph) (hfree : s.owner (A.slotOf c) = none) :
    Inv (seqStep A.meaning F ⟨s.log.length, t, c, s.bufs t⟩) (s.enter (A.slotOf c) t c k) := by
  obtain ⟨rfl, -, -⟩ := h.enters ht
  have hwt : (s.thr t).within = none := by rw [ht]; rfl
  exact
    { thr := h.enter_thr ht hfree
      owner := h.enter_owner hwt
      free := h.enter_free hwt
      results := fun r hr => ⟨List.mem_append_left _ (h.results r hr).1, (h.results r hr).2⟩
      tickets := by simp [St.enter, h.tickets, List.range_succ]
      old := fun k' hk' => (h.old k' hk').trans_le (by simp [St.enter])
      entered := h.enter_entered
      logged := h.enter_logged hwt
      returned := h.enter_returned ht
      last := h.enter_last hfree }

omit [DecidableEq Tid] [DecidableEq Slot] [DecidableEq Obj] in
theorem start_inv (mem : ℕ → β) (m : Tid → Bufs Buf β) :
    Inv (A := A) (A.contents mem, []) (start mem m) where
  thr _ := trivial
  owner _ _ h := by cases h
  free _ _ := rfl
  results _ h := by cases h
  tickets := rfl
  old _ h := by cases h
  entered _ _ _ h := by cases h
  logged _ h := by cases h
  returned _ h := by cases h
  last := .nil

theorem step_inv {σ : ∀ o, Fin (A.size o) → β} (h : Inv (seqRun A.meaning σ s.log) s) {e : Ev Tid Call Buf β}
    (hs : A.step s e = some s') : Inv (seqRun A.meaning σ s'.log) s' := by
  cases step_moves hs with
  | call t c m ht => exact h.call ht
  | ret t c r i ph ht => exact h.ret ht
  | lock t c a k i ph ht hfree => rw [seqRun_append]; exact h.lock ht hfree
  | unlock t c a k i ph ht hown => exact h.unlock ht
  | exec t c p p' i i' ph mem' m' ht hx => exact h.exec ht hx

theorem inv {mem : ℕ → β} (h : (A.sys mem).Reach s) : Inv (seqRun A.meaning (A.contents mem) s.log) s := by
  refine h.inv (I := fun s => Inv (seqRun A.meaning (A.contents mem) s.log) s) (fun s h0 => ?_)
    fun s e s' _ hi hs => step_inv hi hs
  obtain ⟨m, rfl⟩ := h0
  exact start_inv mem m

/-- The calls whose section is over, in the order in which they took their slot. -/
def done (s : St Tid Call Slot α Buf β) : List (Entry Tid Call Buf β) :=
  s.log.filter fun x => decide (x.ticket ∈ s.released)

/-- With no thread in its section or past it, the calls that took their slot are over and have returned what the
    sequential run gives; and so for memory. -/
theorem linear_between {mem : ℕ → β} (h : (A.sys mem).Reach s) (hw : ∀ t, (s.thr t).within = none)
    (hp : ∀ t, (s.thr t).past = none) :
    done s = s.log ∧ (∀ o, A.contents s.mem o = (seqRun A.meaning (A.contents mem) s.log).1 o) ∧
    ∀ r, r ∈ s.results ↔ r ∈ (seqRun A.meaning (A.contents mem) s.log).2 := by
  have hi := inv h
  have hall : ∀ x ∈ s.log, x.ticket ∈ s.released := by
    intro x hx
    rcases hi.logged x hx with hr | hx
    · exact hr
    · rw [hw] at hx; cases hx
  refine ⟨List.filter_eq_self.mpr fun x hx => by simpa using hall x hx, fun o => hi.free o fun t c k hk => ?_,
    fun r => ⟨fun hr => (hi.results r hr).1, fun hr => ?_⟩⟩
  · rw [hw] at hk; cases hk
  have hnd : ((seqRun A.meaning (A.contents mem) s.log).2.map Prod.fst).Nodup := by
    rw [seqRun_tickets, hi.tickets]
    exact List.nodup_range
  have hk := List.mem_map_of_mem (f := Prod.fst) hr
  rw [seqRun_tickets, List.mem_map] at hk
  obtain ⟨x, hx, hxr⟩ := hk
  rcases hi.returned _ (hall x hx) with ⟨r', hr'⟩ | ⟨t, ht⟩
  · have heq := List.inj_on_of_nodup_map hnd hr (hi.results _ hr').1 hxr.symm
    rwa [heq]
  · rw [hp] at ht; cases ht

/-- Every call that returned left the result and the buffers of the sequential run of the calls
    that are over; so did memory at every object whose slot is free; and when no call is under
    way, these are all the calls and all have returned. -/
theorem linear {mem : ℕ → β} (h : (A.sys mem).Reach s) :
    (∀ r ∈ s.results, r ∈ (seqRun A.meaning (A.contents mem) (done s)).2) ∧
    (∀ o, s.owner (A.slot (A.addr o)) = none →
      A.contents s.mem o = (seqRun A.meaning (A.contents mem) (done s)).1 o) ∧
    ((∀ t, s.thr t = .idle) → done s = s.log ∧
      (∀ o, A.contents s.mem o = (seqRun A.meaning (A.contents mem) s.log).1 o) ∧
      ∀ r, r ∈ s.results ↔ r ∈ (seqRun A.meaning (A.contents mem) s.log).2) := by
  have hi := inv h
  have hlast : s.log.Pairwise fun x y => decide (x.ticket ∈ s.released) = false → A.obj x.call ≠ A.obj y.call :=
    hi.last.imp fun hxy hr heq => hxy (by simpa using hr) (by rw [slotOf, slotOf, heq])
  obtain ⟨hobj, hres⟩ := seqRun_filter (f := A.meaning) (σ := A.contents mem) (q := fun k => decide (k ∈ s.released)) hlast
  refine ⟨fun r hr => ?_, fun o ho => ?_, fun hidle => ?_⟩
  · rw [done, hres, List.mem_filter]
    exact ⟨(hi.results r hr).1, by simpa using (hi.results r hr).2⟩
  · have hout : ∀ t c k, (s.thr t).within = some (c, k) → A.obj c ≠ o := by
      rintro t c k hw rfl
      rw [← slotOf, (hi.holds hw).1] at ho
      cases ho
    rw [done, hobj o fun x hx hr => ?_]
    · exact hi.free o hout
    · rcases hi.logged x hx with hr' | hw
      · simp [hr'] at hr
      · exact hout _ _ _ hw
  · exact linear_between h (fun t => by rw [hidle]; rfl) fun t => by rw [hidle]; rfl

end

end Api
end Critical
