/-
  Stdatomic.Generic.Mixed — sized and unsized functions on one object.

  Lock-based, any mix is linearizable. Lock-free it is not: nothing keeps an instruction
  out of a section, and `lost_update` is an addition between the comparison and the copy of
  a compare_exchange. The mix is linearizable in the runs in which no instruction changes
  the object while a thread is between the two steps of an exchange or compare_exchange
  (`Quiet`).

  A call takes effect in its last access to the object (`log`). The invariant (`Inv`) is
  that the object is as the sequential run of `log` leaves it, and that every section
  within still finds what its first step found: other sections are kept out by the lock,
  instructions by `Quiet`.
-/

import Stdatomic.Generic.Sized
import Stdatomic.Lib.Mutex
import Mathlib.Data.List.Permutation
import Mathlib.Data.List.Sublists

namespace Stdatomic.Mixed

open CInt Arith

variable {w : ℕ} {Tid : Type}

/-! ## Runs -/

/-- A started call, with the calls that had returned by then. -/
structure Entry (w : ℕ) where
  ticket : ℕ
  call : Call w
  past : List ℕ
  deriving DecidableEq

inductive Thr (w : ℕ) where
  | idle
  | busy (x : Entry w) (p : Pc w)

structure St (Tid : Type) (w : ℕ) where
  obj : BitVec w
  /-- The slot lock of the object. -/
  owner : Option Tid
  thr : Tid → Thr w
  /-- Ghost: the calls, as they started. -/
  calls : List (Entry w)
  /-- Ghost: the calls, as they took effect. -/
  log : List (Entry w)
  /-- Ghost: what the calls returned, by ticket. -/
  results : List (ℕ × Res w)

inductive Ev (Tid : Type) (w : ℕ) where
  | call (t : Tid) (c : Call w)
  | run (t : Tid)

section
variable [DecidableEq Tid]

namespace St

variable (s : St Tid w) (t : Tid) (x : Entry w)

def goto (p : Pc w) : St Tid w := { s with thr := Function.update s.thr t (.busy x p) }

/-- An access that leaves `v`; the call takes effect if its result is settled then. -/
def access (p : Pc w) (v : BitVec w) : St Tid w :=
  { s.goto t x p with obj := v, log := if p.final.isSome then s.log ++ [x] else s.log }

def run : Pc w → Option (St Tid w)
  | .lock k l => (Mutex.step s.owner (.take t)).map fun o => { s.goto t x (.inside k l) with owner := o }
  | .unlock r l => (Mutex.step s.owner (.release t)).map fun o => { s.goto t x (.back r l) with owner := o }
  | .ret r => some { s with thr := Function.update s.thr t .idle, results := s.results ++ [(x.ticket, r)] }
  | p => (p.access s.obj).map fun r => s.access t x r.2 r.1

end St

variable (C : Impl) (T : IntTy) (inst : Inst)

def step (s : St Tid T.width) : Ev Tid T.width → Option (St Tid T.width)
  | .call t c =>
    match s.thr t with
    | .idle =>
      let x := ⟨s.calls.length, c, s.results.map Prod.fst⟩
      some { s.goto t x (code C T inst c) with calls := s.calls ++ [x] }
    | .busy _ _ => none
  | .run t =>
    match s.thr t with
    | .idle => none
    | .busy x p => s.run t x p

def start (v₀ : BitVec w) : St Tid w := ⟨v₀, none, fun _ => .idle, [], [], []⟩

def sys (v₀ : BitVec T.width) : Lts.Sys (St Tid T.width) (Ev Tid T.width) where
  init s := s = start v₀
  step s e s' := step C T inst s e = some s'

end

def Thr.between : Thr w → Bool
  | .busy _ (.inside k _) => k.between
  | _ => false

/-- The next step of the thread is an instruction that changes the object, whose value is `v`. -/
def Thr.writes (v : BitVec w) : Thr w → Bool
  | .busy _ p => p.isInstr && (p.access v).any fun r => r.1 ≠ v
  | .idle => false

/-- No instruction changes the object while a thread is between the two steps of a section. -/
def Quiet (s : St Tid w) : Ev Tid w → Prop
  | .call _ _ => True
  | .run t => (s.thr t).writes s.obj = true → ∀ u, (s.thr u).between = false

/-! ## Linearizability -/

def seqStep (F : BitVec w × List (ℕ × Res w)) (x : Entry w) : BitVec w × List (ℕ × Res w) :=
  ((x.call.spec F.1).1, F.2 ++ [(x.ticket, (x.call.spec F.1).2)])

/-- The calls of `l` one after the other: the object at the end, and the results. -/
def sequential (v₀ : BitVec w) (l : List (Entry w)) : BitVec w × List (ℕ × Res w) := l.foldl seqStep (v₀, [])

/-- The sequential order `l` accounts for `s`: it has started calls only, each once, and none before
    a call that had returned when it started; the calls that returned did so with its results,
    and the object has its value. -/
structure Explains (v₀ : BitVec w) (s : St Tid w) (l : List (Entry w)) : Prop where
  started : ∀ x ∈ l, x ∈ s.calls
  once : (l.map Entry.ticket).Nodup
  order : l.Pairwise fun x y => y.ticket ∉ x.past
  results : ∀ r ∈ s.results, r ∈ (sequential v₀ l).2
  object : (sequential v₀ l).1 = s.obj

/-! ## The steps -/

theorem Pc.found_of_between {p : Pc w} {x : Entry w} (h : (Thr.busy x p).between = false) (v : BitVec w) :
    p.Found v := by
  cases p with
  | inside k l => cases k <;> trivial
  | _ => trivial

section
variable [DecidableEq Tid] {C : Impl} {T : IntTy} {inst : Inst} {s s' : St Tid T.width}

variable (C inst) in
inductive Moves (s : St Tid T.width) : Ev Tid T.width → St Tid T.width → Prop
  | call (t : Tid) (c : Call T.width) : s.thr t = .idle →
      Moves s (.call t c) { s.goto t ⟨s.calls.length, c, s.results.map Prod.fst⟩ (code C T inst c) with
        calls := s.calls ++ [⟨s.calls.length, c, s.results.map Prod.fst⟩] }
  | access (t : Tid) (x : Entry T.width) (p p' : Pc T.width) (v : BitVec T.width) : s.thr t = .busy x p →
      p.access s.obj = some (v, p') → Moves s (.run t) (s.access t x p' v)
  | lock (t : Tid) (x : Entry T.width) (k : Sec T.width) (l : Option (Loop T.width × BitVec T.width)) :
      s.thr t = .busy x (.lock k l) → s.owner = none →
      Moves s (.run t) { s.goto t x (.inside k l) with owner := some t }
  | unlock (t : Tid) (x : Entry T.width) (r : Res T.width) (l : Option (Loop T.width × BitVec T.width)) :
      s.thr t = .busy x (.unlock r l) → s.owner = some t →
      Moves s (.run t) { s.goto t x (.back r l) with owner := none }
  | ret (t : Tid) (x : Entry T.width) (r : Res T.width) : s.thr t = .busy x (.ret r) →
      Moves s (.run t) { s with thr := Function.update s.thr t .idle, results := s.results ++ [(x.ticket, r)] }

theorem step_moves {e : Ev Tid T.width} (h : step C T inst s e = some s') : Moves C inst s e s' := by
  cases e with
  | call t c =>
    simp only [step] at h
    split at h
    · rename_i ht
      cases h
      exact .call t c ht
    · cases h
  | run t =>
    simp only [step] at h
    split at h
    · cases h
    · rename_i x p ht
      cases p with
      | lock k l =>
        simp only [St.run, Option.map_eq_some_iff, Mutex.step_take] at h
        obtain ⟨o, ⟨ho, rfl⟩, rfl⟩ := h
        exact .lock t x k l ht ho
      | unlock r l =>
        simp only [St.run, Option.map_eq_some_iff, Mutex.step_release] at h
        obtain ⟨o, ⟨ho, rfl⟩, rfl⟩ := h
        exact .unlock t x r l ht ho
      | ret r =>
        cases h
        exact .ret t x r ht
      | instr f | attempt l E R | inside k l =>
        simp only [St.run, Option.map_eq_some_iff] at h
        obtain ⟨⟨v, p'⟩, hp, rfl⟩ := h
        exact .access t x _ p' v ht hp

/-! ## The invariant -/

structure ThrOk (v₀ : BitVec w) (s : St Tid w) (t : Tid) (x : Entry w) (p : Pc w) : Prop where
  started : x ∈ s.calls
  running : x.ticket ∉ s.results.map Prod.fst
  settled : ∀ r, p.final = some r → (x.ticket, r) ∈ (sequential v₀ s.log).2
  open_ : p.final = none → x.ticket ∉ s.log.map Entry.ticket
  ok : p.Ok x.call
  owner : p.holds = true → s.owner = some t
  found : p.Found s.obj

structure Inv (v₀ : BitVec w) (s : St Tid w) : Prop extends Explains v₀ s s.log where
  thr : ∀ t x p, s.thr t = .busy x p → ThrOk v₀ s t x p
  alone : ∀ t u x y p q, s.thr t = .busy x p → s.thr u = .busy y q → x.ticket = y.ticket → t = u
  tickets : s.calls.map Entry.ticket = List.range s.calls.length
  past : ∀ x ∈ s.calls, ∀ k ∈ x.past, k ∈ s.results.map Prod.fst
  finished : ∀ x ∈ s.calls, x.ticket ∈ s.results.map Prod.fst ∨ ∃ t p, s.thr t = .busy x p

theorem sequential_append (v₀ : BitVec w) (l : List (Entry w)) (x : Entry w) :
    sequential v₀ (l ++ [x]) = seqStep (sequential v₀ l) x := by
  simp [sequential, List.foldl_append]

theorem sequential_tickets (v₀ : BitVec w) (l : List (Entry w)) :
    (sequential v₀ l).2.map Prod.fst = l.map Entry.ticket := by
  induction l using List.reverseRecOn with
  | nil => rfl
  | append_singleton l x ih => simp [sequential_append, seqStep, ih]

section
variable {v₀ : BitVec T.width} {t u : Tid} {x y : Entry T.width} {p p' q : Pc T.width} {v : BitVec T.width}

omit [DecidableEq Tid] in
/-- A thread that a step of another leaves alone. -/
theorem ThrOk.keep {σ σ' : St Tid T.width} (h : ThrOk v₀ σ u y q) (hcalls : ∀ x ∈ σ.calls, x ∈ σ'.calls)
    (hres : y.ticket ∉ σ'.results.map Prod.fst) (hlog : ∀ r ∈ (sequential v₀ σ.log).2, r ∈ (sequential v₀ σ'.log).2)
    (hopen : y.ticket ∉ σ.log.map Entry.ticket → y.ticket ∉ σ'.log.map Entry.ticket)
    (howner : σ.owner = some u → σ'.owner = some u) (hfound : q.Found σ.obj → q.Found σ'.obj) :
    ThrOk v₀ σ' u y q where
  started := hcalls _ h.started
  running := hres
  settled r hr := hlog _ (h.settled r hr)
  open_ hq := hopen (h.open_ hq)
  ok := h.ok
  owner hq := howner (h.owner hq)
  found := hfound h.found

theorem goto_busy (h : (s.goto t x p).thr u = .busy y q) :
    (u = t ∧ y = x ∧ q = p) ∨ (u ≠ t ∧ s.thr u = .busy y q) := by
  by_cases e : u = t
  · subst e
    simp only [St.goto, Function.update_self] at h
    cases h
    exact Or.inl ⟨rfl, rfl, rfl⟩
  · simp only [St.goto, Function.update_of_ne e] at h
    exact Or.inr ⟨e, h⟩

/-- A thread that goes on within its call keeps the calls apart. -/
theorem Inv.goto_calls (h : Inv v₀ s) (ht : s.thr t = .busy x p) :
    (∀ u v y z q q', (s.goto t x p').thr u = .busy y q → (s.goto t x p').thr v = .busy z q' → y.ticket = z.ticket →
      u = v) ∧
    ∀ y ∈ s.calls, y.ticket ∈ s.results.map Prod.fst ∨ ∃ u q, (s.goto t x p').thr u = .busy y q := by
  have before : ∀ u y q, (s.goto t x p').thr u = .busy y q → ∃ q, s.thr u = .busy y q := by
    intro u y q hu
    rcases goto_busy hu with ⟨rfl, rfl, -⟩ | ⟨-, hu⟩
    · exact ⟨p, ht⟩
    · exact ⟨q, hu⟩
  refine ⟨fun u v y z q q' hu hv he => ?_, fun y hy => ?_⟩
  · obtain ⟨q₁, hu⟩ := before u y q hu
    obtain ⟨q₂, hv⟩ := before v z q' hv
    exact h.alone u v y z q₁ q₂ hu hv he
  · rcases h.finished y hy with hr | ⟨u, q, hu⟩
    · exact Or.inl hr
    · by_cases e : u = t
      · subst e
        rw [ht] at hu
        cases hu
        exact Or.inr ⟨u, p', Function.update_self ..⟩
      · exact Or.inr ⟨u, q, (Function.update_of_ne e _ _).trans hu⟩

theorem Inv.goto {o : Option Tid} (h : Inv v₀ s) (ht : s.thr t = .busy x p) (hfin : p'.final = p.final)
    (hok : p'.Ok x.call) (howner : ∀ u, u ≠ t → s.owner = some u → o = some u) (hown : p'.holds = true → o = some t)
    (hfound : p'.Found s.obj) : Inv v₀ { s.goto t x p' with owner := o } where
  toExplains := ⟨h.started, h.once, h.order, h.results, h.object⟩
  thr u y q hu := by
    rcases goto_busy hu with ⟨rfl, rfl, rfl⟩ | ⟨hne, hu⟩
    · have hx := h.thr u y p ht
      exact ⟨hx.started, hx.running, fun r hr => hx.settled r (hfin ▸ hr), fun hn => hx.open_ (hfin ▸ hn), hok, hown,
        hfound⟩
    · have hy := h.thr u y q hu
      exact hy.keep (fun _ hx => hx) hy.running (fun _ hr => hr) (fun hn => hn) (howner u hne) fun hf => hf
  alone := (h.goto_calls ht).1
  tickets := h.tickets
  past := h.past
  finished := (h.goto_calls ht).2

theorem Inv.settle {r : Res T.width} (h : Inv v₀ s) (ht : s.thr t = .busy x p) (hp : p.final = none)
    (hr : p'.final = some r) (hspec : x.call.spec s.obj = (v, r)) (hok : p'.Ok x.call) (hown : p'.holds = p.holds)
    (hfound : p'.Found v) (hothers : ∀ u y q, u ≠ t → s.thr u = .busy y q → q.Found s.obj → q.Found v) :
    Inv v₀ (s.access t x p' v) := by
  have hx := h.thr t x p ht
  have hlog : (s.access t x p' v).log = s.log ++ [x] := by simp [St.access, hr]
  have hseq : sequential v₀ (s.log ++ [x]) = (v, (sequential v₀ s.log).2 ++ [(x.ticket, r)]) := by
    rw [sequential_append, seqStep, h.object, hspec]
  refine ⟨⟨?_, ?_, ?_, ?_, ?_⟩, ?_, (h.goto_calls ht).1, h.tickets, h.past, (h.goto_calls ht).2⟩
  · intro y hy
    rw [hlog, List.mem_append, List.mem_singleton] at hy
    rcases hy with hy | rfl
    · exact h.started y hy
    · exact hx.started
  · rw [hlog, List.map_append, List.nodup_append]
    refine ⟨h.once, List.nodup_singleton _, fun k hk k' hk' heq => ?_⟩
    rw [List.mem_singleton.mp hk'] at heq
    exact hx.open_ hp (heq ▸ hk)
  · rw [hlog]
    refine List.pairwise_append.mpr ⟨h.order, List.pairwise_singleton _ _, fun y hy z hz hpast => ?_⟩
    rw [List.mem_singleton.mp hz] at hpast
    exact hx.running (h.past y (h.started y hy) _ hpast)
  · intro r' hr'
    rw [hlog, hseq]
    exact List.mem_append_left _ (h.results r' hr')
  · rw [hlog, hseq]
    rfl
  · intro u y q hu
    rcases goto_busy hu with ⟨rfl, rfl, rfl⟩ | ⟨hne, hu⟩
    · refine ⟨hx.started, hx.running, fun r' hr' => ?_, fun hn => ?_, hok, fun hq => hx.owner (hown ▸ hq), hfound⟩
      · rw [hr] at hr'
        cases hr'
        rw [hlog, hseq]
        exact List.mem_append_right _ (List.mem_singleton.mpr rfl)
      · rw [hr] at hn
        cases hn
    · refine (h.thr u y q hu).keep (fun _ hx => hx) (h.thr u y q hu).running (fun r' hr' => ?_) (fun hn => ?_)
        (fun ho => ho) (hothers u y q hne hu)
      · rw [hlog, hseq]
        exact List.mem_append_left _ hr'
      · rw [hlog, List.map_append, List.mem_append, not_or]
        exact ⟨hn, fun hk => hne (h.alone u t y x q p hu ht (List.mem_singleton.mp hk))⟩

theorem Inv.call (h : Inv v₀ s) (ht : s.thr t = .idle) (c : Call T.width) :
    Inv v₀ { s.goto t ⟨s.calls.length, c, s.results.map Prod.fst⟩ (code C T inst c) with
      calls := s.calls ++ [⟨s.calls.length, c, s.results.map Prod.fst⟩] } := by
  have hnew : ∀ x ∈ s.calls, x.ticket < s.calls.length := by
    intro x hx
    have := List.mem_map_of_mem (f := Entry.ticket) hx
    rw [h.tickets] at this
    exact List.mem_range.mp this
  have hlog : s.calls.length ∉ s.log.map Entry.ticket := by
    intro hk
    obtain ⟨x, hx, hxk⟩ := List.mem_map.mp hk
    have := hnew x (h.started x hx)
    omega
  have hres : s.calls.length ∉ s.results.map Prod.fst := by
    intro hk
    obtain ⟨r, hr, hrk⟩ := List.mem_map.mp hk
    have := List.mem_map_of_mem (f := Prod.fst) (h.results r hr)
    rw [sequential_tickets, hrk] at this
    exact hlog this
  have hfresh := code_fresh (C := C) inst c
  refine ⟨⟨fun x hx => List.mem_append_left _ (h.started x hx), h.once, h.order, h.results, h.object⟩,
    ?_, ?_, ?_, ?_, ?_⟩
  · intro u y q hu
    rcases goto_busy hu with ⟨rfl, rfl, rfl⟩ | ⟨hne, hu⟩
    · refine ⟨List.mem_append_right _ (List.mem_singleton.mpr rfl), hres, fun r hr => ?_, fun _ => hlog,
        code_ok inst c, fun hq => ?_, hfresh.found _⟩
      · rw [hfresh.final] at hr
        cases hr
      · rw [hfresh.holds] at hq
        cases hq
    · exact (h.thr u y q hu).keep (fun _ hx => List.mem_append_left _ hx) (h.thr u y q hu).running (fun _ hr => hr)
        (fun hn => hn) (fun ho => ho) fun hf => hf
  · intro u v y z q q' hu hv he
    rcases goto_busy hu with ⟨rfl, rfl, -⟩ | ⟨-, hu'⟩ <;> rcases goto_busy hv with ⟨rfl, rfl, -⟩ | ⟨-, hv'⟩
    · rfl
    · exact absurd he.symm (hnew z (h.thr v z q' hv').started).ne
    · exact absurd he (hnew y (h.thr u y q hu').started).ne
    · exact h.alone u v y z q q' hu' hv' he
  · simp [h.tickets, List.range_succ]
  · intro x hx k hk
    rcases List.mem_append.mp hx with hx | hx
    · exact h.past x hx k hk
    · rw [List.mem_singleton.mp hx] at hk
      exact hk
  · intro x hx
    rcases List.mem_append.mp hx with hx | hx
    · rcases h.finished x hx with hr | ⟨u, q, hu⟩
      · exact Or.inl hr
      · refine Or.inr ⟨u, q, ?_⟩
        have hne : u ≠ t := by intro e; subst e; rw [ht] at hu; cases hu
        exact (Function.update_of_ne hne _ _).trans hu
    · rw [List.mem_singleton.mp hx]
      exact Or.inr ⟨t, _, Function.update_self ..⟩

theorem Inv.ret {r : Res T.width} (h : Inv v₀ s) (ht : s.thr t = .busy x (.ret r)) :
    Inv v₀ { s with thr := Function.update s.thr t .idle, results := s.results ++ [(x.ticket, r)] } := by
  have hx := h.thr t x _ ht
  have hbusy : ∀ {u y q}, Function.update s.thr t .idle u = .busy y q → u ≠ t ∧ s.thr u = .busy y q := by
    intro u y q hu
    by_cases e : u = t
    · subst e
      rw [Function.update_self] at hu
      cases hu
    · rw [Function.update_of_ne e] at hu
      exact ⟨e, hu⟩
  refine ⟨⟨h.started, h.once, h.order, fun r' hr' => ?_, h.object⟩, ?_, ?_, h.tickets, ?_, ?_⟩
  · rcases List.mem_append.mp hr' with hr' | hr'
    · exact h.results r' hr'
    · rw [List.mem_singleton.mp hr']
      exact hx.settled r rfl
  · intro u y q hu
    obtain ⟨hne, hu⟩ := hbusy hu
    refine (h.thr u y q hu).keep (fun _ hx => hx) ?_ (fun _ hr => hr) (fun hn => hn) (fun ho => ho) fun hf => hf
    rw [List.map_append, List.mem_append, not_or]
    exact ⟨(h.thr u y q hu).running, fun hk => hne (h.alone u t y x q _ hu ht (List.mem_singleton.mp hk))⟩
  · intro u v y z q q' hu hv he
    exact h.alone u v y z q q' (hbusy hu).2 (hbusy hv).2 he
  · intro y hy k hk
    rw [List.map_append]
    exact List.mem_append_left _ (h.past y hy k hk)
  · intro y hy
    rw [List.map_append]
    rcases h.finished y hy with hr | ⟨u, q, hu⟩
    · exact Or.inl (List.mem_append_left _ hr)
    · by_cases e : u = t
      · subst e
        rw [ht] at hu
        cases hu
        exact Or.inl (List.mem_append_right _ (List.mem_singleton.mpr rfl))
      · exact Or.inr ⟨u, q, (Function.update_of_ne e _ _).trans hu⟩

end

theorem step_inv {v₀ : BitVec T.width} (h : Inv v₀ s) {e : Ev Tid T.width} (hq : Quiet s e)
    (hs : step C T inst s e = some s') : Inv v₀ s' := by
  cases step_moves hs with
  | call t c ht => exact h.call ht c
  | ret t x r ht => exact h.ret ht
  | lock t x k l ht ho =>
    have hx := h.thr t x _ ht
    exact h.goto ht rfl hx.ok.2 (fun u _ hu => by rw [ho] at hu; cases hu) (fun _ => rfl) (hx.ok.1 _)
  | unlock t x r l ht ho =>
    have hx := h.thr t x _ ht
    obtain ⟨hok, hfin, hholds, hfound⟩ := Pc.back_ok (r := r) (l := l)
    refine h.goto ht hfin (hok _ hx.ok) (fun u hne hu => ?_) (fun hq => ?_) (hfound _)
    · rw [ho] at hu
      exact absurd (Option.some.inj hu).symm hne
    · rw [hholds] at hq
      cases hq
  | access t x p p' v ht hp =>
    have hx := h.thr t x p ht
    obtain ⟨hok, hfound, hholds, hleft, hspec⟩ := Pc.access_ok hx.ok hx.found hp
    obtain ⟨hopen, hkind⟩ := Pc.access_open hp
    cases hfin : p'.final with
    | none =>
      obtain rfl := hleft hfin
      have hstep : s.access t x p' s.obj = { s.goto t x p' with owner := s.owner } := by
        simp [St.access, hfin, St.goto]
      rw [hstep]
      exact h.goto ht (hfin.trans hopen.symm) hok (fun _ _ hu => hu) (fun hq => hx.owner (hholds ▸ hq)) hfound
    | some r =>
      refine h.settle ht hopen hfin (hspec r hfin) hok hholds hfound fun u y q hne hu hf => ?_
      rcases hkind with hinstr | hheld
      · by_cases hv : v = s.obj
        · exact hv ▸ hf
        · have hw : (s.thr t).writes s.obj = true := by simp [ht, Thr.writes, hinstr, hp, hv]
          have := hq hw u
          rw [hu] at this
          exact Pc.found_of_between this v
      · refine Pc.found_of_holds ?_ v
        by_contra hqh
        have ho := hx.owner hheld
        rw [(h.thr u y q hu).owner (by simpa using hqh)] at ho
        exact hne (Option.some.inj ho)

omit [DecidableEq Tid] in
theorem start_inv (v₀ : BitVec T.width) : Inv v₀ (start v₀ : St Tid T.width) where
  started _ h := by cases h
  once := .nil
  order := .nil
  results _ h := by cases h
  object := rfl
  thr _ _ _ h := by cases h
  alone _ _ _ _ _ _ h := by cases h
  tickets := rfl
  past _ h := by cases h
  finished _ h := by cases h

theorem quiet_inv {v₀ : BitVec T.width} (h : ((sys C T inst v₀).restrict Quiet).Reach s) : Inv v₀ s := by
  refine h.inv (I := Inv v₀) (fun s h0 => ?_) fun s e s' _ hi hs => ?_
  · obtain rfl : s = start v₀ := h0
    exact start_inv v₀
  · obtain ⟨hq, hs⟩ := hs
    exact step_inv hi hq hs

/-! ## Lock-based there are no instructions -/

omit [DecidableEq Tid] in
theorem access_locked {p p' : Pc w} {v v' : BitVec w} (hp : p.isInstr = false) (h : p.access v = some (v', p')) :
    p'.isInstr = false := by
  cases p with
  | inside k l =>
    simp only [Pc.access] at h
    split at h <;> cases h <;> rfl
  | instr | attempt => cases hp
  | lock | unlock | ret => cases h

/-- A thread that goes on outside the instructions is no exception. -/
theorem goto_locked (h : ∀ t x p, s.thr t = .busy x p → p.isInstr = false) (hp : p.isInstr = false)
    (hu : (s.goto t x p).thr u = .busy y q) : q.isInstr = false := by
  rcases goto_busy hu with ⟨-, -, rfl⟩ | ⟨-, hu⟩
  · exact hp
  · exact h u y q hu

theorem lockBased_locked {v₀ : BitVec T.width} (h : (sys C T .lockBased v₀).Reach s) :
    ∀ t x p, s.thr t = .busy x p → p.isInstr = false := by
  refine h.inv (I := fun s => ∀ t x p, s.thr t = .busy x p → p.isInstr = false) (fun s h0 => ?_)
    fun s e s' _ hi hs => ?_
  · obtain rfl : s = start v₀ := h0
    intro t x p ht
    cases ht
  · intro u y q hu
    cases step_moves hs with
    | call t c ht => exact goto_locked hi (by cases c <;> rfl) hu
    | access t x p p' v ht hp => exact goto_locked hi (access_locked (hi t x p ht) hp) hu
    | lock t x k l ht ho => exact goto_locked hi rfl hu
    | unlock t x r l ht ho =>
      refine goto_locked hi ?_ hu
      rcases Pc.back_cases r l with ⟨r', hb⟩ | ⟨k, l', hb⟩ <;> rw [hb] <;> rfl
    | ret t x r ht =>
      by_cases e : u = t
      · subst e
        simp only [Function.update_self, reduceCtorEq] at hu
      · simp only [Function.update_of_ne e] at hu
        exact hi u y q hu

theorem lockBased_quiet {v₀ : BitVec T.width} (h : (sys C T .lockBased v₀).Reach s) (e : Ev Tid T.width) :
    Quiet s e := by
  cases e with
  | call t c => trivial
  | run t =>
    intro hw
    cases ht : s.thr t with
    | idle => simp [ht, Thr.writes] at hw
    | busy x p => simp [ht, Thr.writes, lockBased_locked h t x p ht] at hw

omit [DecidableEq Tid] in
theorem Inv.all {v₀ : BitVec T.width} (h : Inv v₀ s) (hidle : ∀ t, s.thr t = .idle) : s.log.Perm s.calls := by
  have hcalls : (s.calls.map Entry.ticket).Nodup := h.tickets ▸ List.nodup_range
  refine (List.perm_ext_iff_of_nodup (.of_map _ h.once) (.of_map _ hcalls)).mpr fun x => ⟨h.started x, fun hx => ?_⟩
  rcases h.finished x hx with hr | ⟨t, p, ht⟩
  · obtain ⟨r, hr, hrx⟩ := List.mem_map.mp hr
    have hk := List.mem_map_of_mem (f := Prod.fst) (h.results r hr)
    rw [sequential_tickets, hrx] at hk
    obtain ⟨y, hy, hyx⟩ := List.mem_map.mp hk
    rwa [← List.inj_on_of_nodup_map hcalls (h.started y hy) hx hyx]
  · rw [hidle] at ht
    cases ht

end

/-- For any type of object, any number of threads and any calls of both families on it:
    with the lock-based functions, every reachable state is accounted for by a sequential order of
    the calls; with the lock-free ones, every state that is reached without an instruction that
    changes the object while a thread is between the two steps of an unsized exchange or
    compare_exchange. The order has all the calls once none is under way. -/
theorem mixed_linearizable {Tid : Type} [DecidableEq Tid] (C : Impl) (T : IntTy) (v₀ : BitVec T.width) :
    (∀ s : St Tid T.width, (sys C T .lockBased v₀).Reach s →
      ∃ l, Explains v₀ s l ∧ ((∀ t, s.thr t = .idle) → l.Perm s.calls)) ∧
    (∀ (h : Header) (s : St Tid T.width), ((sys C T (.lockFree h) v₀).restrict Quiet).Reach s →
      ∃ l, Explains v₀ s l ∧ ((∀ t, s.thr t = .idle) → l.Perm s.calls)) := by
  have explained : ∀ inst (s : St Tid T.width), ((sys C T inst v₀).restrict Quiet).Reach s →
      ∃ l, Explains v₀ s l ∧ ((∀ t, s.thr t = .idle) → l.Perm s.calls) :=
    fun _ s hs => ⟨s.log, (quiet_inv hs).toExplains, (quiet_inv hs).all⟩
  exact ⟨fun s hs => explained _ s (hs.restrict fun _ _ _ hr _ => lockBased_quiet hr _),
    fun h => explained (.lockFree h)⟩

/-! ## Runs of two threads -/

def runEvs (inst : Inst) (l : List (Ev Bool uint8.width)) : Option (St Bool uint8.width) :=
  Lts.Sys.runList (step int32 uint8 inst) (start 0) l

theorem reach_runEvs {inst : Inst} {l : List (Ev Bool uint8.width)} (h : (runEvs inst l).isSome = true) :
    (sys int32 uint8 inst 0).Reach ((runEvs inst l).get h) :=
  .runList (fun _ _ _ h => h) (.init rfl) (Option.some_get h).symm

instance (s : St Bool w) : (e : Ev Bool w) → Decidable (Quiet s e)
  | .call _ _ => .isTrue trivial
  | .run t => inferInstanceAs (Decidable ((s.thr t).writes s.obj = true → ∀ u, (s.thr u).between = false))

def runQuiet (inst : Inst) (l : List (Ev Bool uint8.width)) : Option (St Bool uint8.width) :=
  Lts.Sys.runList (fun s e => if Quiet s e then step int32 uint8 inst s e else none) (start 0) l

theorem reach_runQuiet {inst : Inst} {l : List (Ev Bool uint8.width)} (h : (runQuiet inst l).isSome = true) :
    ((sys int32 uint8 inst 0).restrict Quiet).Reach ((runQuiet inst l).get h) := by
  refine .runList (f := fun s e => if Quiet s e then step int32 uint8 inst s e else none) (fun s e s' h => ?_)
    (.init rfl) (Option.some_get h).symm
  split at h
  · rename_i hq
    exact ⟨hq, h⟩
  · cases h

/-- A compare_exchange from 0 to 1 finds 0; an addition of 5 by an instruction; the copy. -/
def lostEvs : List (Ev Bool uint8.width) :=
  [.call false (.unsized (.compareExchange 0 1 .seqCst .seqCst)), .call true (.arith .add true 5 .seqCst),
    .run false, .run false, .run true, .run false, .run false, .run false, .run true]

theorem lost_isSome : (runEvs (.lockFree .gccAtomic) lostEvs).isSome = true := by decide

def lost : St Bool uint8.width := (runEvs (.lockFree .gccAtomic) lostEvs).get lost_isSome

/-- Both calls return that they found 0, and the object is 1: the addition is lost. No sequential order
    of the two accounts for it. -/
theorem lost_update : (sys int32 uint8 (.lockFree .gccAtomic) 0).Reach lost ∧ (∀ t, lost.thr t = .idle) ∧
    ¬ ∃ l, Explains 0 lost l := by
  refine ⟨reach_runEvs lost_isSome, fun t => match t with | false => rfl | true => rfl, ?_⟩
  rintro ⟨l, hl⟩
  obtain ⟨l', hperm, hsub⟩ : l.Subperm lost.calls := List.subperm_of_subset (.of_map _ hl.once) hl.started
  have hno : ∀ l' ∈ lost.calls.sublists, ∀ l ∈ l'.permutations',
      ¬ ((∀ r ∈ lost.results, r ∈ (sequential 0 l).2) ∧ (sequential 0 l).1 = lost.obj) := by decide
  exact hno l' (List.mem_sublists.mpr hsub) l (List.mem_permutations'.mpr hperm.symm) ⟨hl.results, hl.object⟩

/-- An exchange loop fails an attempt before an unsized exchange and one after it; a nand loop fails
    one before an unsized compare_exchange and one after it. -/
def quietEvs : List (Ev Bool uint8.width) :=
  [.call false (.unsized (.exchange 3 .acqRel)), .call true (.sized (.exchange 7 .release)), .run true, .run false,
    .run false, .run false, .run true, .run false, .run false, .run true, .run true,
    .call false (.arith .nand true 6 .seqCst), .call true (.unsized (.compareExchange 7 9 .seqCst .acquire)),
    .run false, .run true, .run true, .run true, .run false, .run true, .run true, .run false, .run false]

theorem quiet_isSome : (runQuiet (.lockFree .gccSync) quietEvs).isSome = true := by decide

/-- An addition of three attempts; an unsized store takes the lock after the first. -/
def lockedEvs : List (Ev Bool uint8.width) :=
  [.call true (.unsized (.store 4 .release)), .run true, .run true, .run true, .run true,
    .call false (.arith .add false 5 .seqCst), .call true (.unsized (.store 8 .release)), .run false, .run false,
    .run false, .run false, .run true, .run true, .run true, .run true] ++ List.replicate 9 (.run false)

theorem locked_isSome : (runEvs .lockBased lockedEvs).isSome = true := by decide

theorem mixed_runs :
    (∃ l, Explains 0 ((runEvs .lockBased lockedEvs).get locked_isSome) l) ∧
    (∃ l, Explains 0 ((runQuiet (.lockFree .gccSync) quietEvs).get quiet_isSome) l) := by
  obtain ⟨l, hl, -⟩ := (mixed_linearizable int32 uint8 0).1 _ (reach_runEvs locked_isSome)
  obtain ⟨l', hl', -⟩ := (mixed_linearizable int32 uint8 0).2 .gccSync _ (reach_runQuiet quiet_isSome)
  exact ⟨⟨l, hl⟩, ⟨l', hl'⟩⟩

end Stdatomic.Mixed
