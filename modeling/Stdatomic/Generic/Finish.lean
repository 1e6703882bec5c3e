/-
  Stdatomic.Generic.Finish — how far sized and unsized functions get over a lock that is
  `Lively`, as the futex lock is.

  A step of the calls lowers what is left of them until one takes effect
  (`Mixed.step_toDo`). In between come steps that are none for the calls: `lock` is called,
  a thread goes on within the lock, or comes out of `unlock`. These make a thread the holder
  that has waited (`waiting`), lower the lock's measure, or get a thread out of `unlock`
  (`leaving`). So `remaining`, in this order, is lowered by every step but those of the
  environment and those in which a call takes effect (`remaining_lt`).

  Here the environment is a `FUTEX_WAIT` that returns spuriously. Without it calls take effect
  for ever in a run that goes on for ever (`locked_effects`), and without new calls every
  schedule comes to an end with all calls returned and the word 0 (`locked_return`).
-/

import Stdatomic.Generic.Locked

namespace Stdatomic.Locked

open CInt Arith Family
open LockTable (Lock Place)
open Mixed (Call Entry Header Inst Loop Pc Res Sec Thr)

variable {Tid σ ε M : Type} {w : ℕ}

def Undisturbed (env : ε → Bool) : Ev Tid w ε → Prop
  | .inner e => env e = false
  | _ => True

def atLock : Thr w → Bool
  | .busy _ (.lock _ _) => true
  | _ => false

def atUnlock : Thr w → Bool
  | .busy _ (.unlock _ _) => true
  | _ => false

section
variable (K : Lock Tid MemoryOrder σ ε)

def waiting (s : St Tid w σ) (t : Tid) : Bool :=
  atLock (settled (K.place s.lock t) (s.base.thr t)) && decide (K.place s.lock t ≠ .held)

/-- The thread has called `unlock`, and is still to come out. -/
def leaving (s : St Tid w σ) (t : Tid) : Bool := atUnlock (s.base.thr t) && decide (K.place s.lock t ≠ .held)

/-- What is left to do until a call takes effect. -/
def remaining [Fintype Tid] (μ : σ → M) (s : St Tid w σ) : (ℕ ×ₗ ℕ ×ₗ ℕ) ×ₗ ℕ ×ₗ M ×ₗ ℕ :=
  toLex (Mixed.toDo (s.abs K), toLex (count id (waiting K s), toLex (μ s.lock, count id (leaving K s))))

end

section
variable {K : Lock Tid MemoryOrder σ ε} {T : IntTy} {s s' : St Tid T.width σ} {t : Tid}

/-- A thread waits only if it did, when what it stands for is what it was and it keeps what it holds. -/
theorem waiting_mono (habs : settled (K.place s'.lock t) (s'.base.thr t) = settled (K.place s.lock t) (s.base.thr t))
    (hheld : K.place s.lock t = .held → K.place s'.lock t = .held) (h : waiting K s' t = true) :
    waiting K s t = true := by
  simp only [waiting, Bool.and_eq_true, decide_eq_true_eq] at h ⊢
  exact ⟨habs ▸ h.1, fun hh => h.2 (hheld hh)⟩

section
variable [Fintype Tid] [PartialOrder M] {μ : σ → M}

theorem remaining_lt_of_toDo (h : Mixed.toDo (s'.abs K) < Mixed.toDo (s.abs K)) : remaining K μ s' < remaining K μ s := by
  simp only [remaining, Prod.Lex.toLex_lt_toLex]
  exact Or.inl h

/-- Without a step of the calls: a thread comes to hold the lock, or its measure is lowered. -/
theorem remaining_lt_of_lock (habs : s'.abs K = s.abs K)
    (hmono : ∀ t, waiting K s' t = true → waiting K s t = true)
    (h : (∃ t, waiting K s t = true ∧ waiting K s' t = false) ∨ μ s'.lock < μ s.lock) :
    remaining K μ s' < remaining K μ s := by
  simp only [remaining, habs, Prod.Lex.toLex_lt_toLex]
  refine Or.inr ⟨trivial, ?_⟩
  rcases h with ⟨t, ht, ht'⟩ | h
  · exact Or.inl (count_lt_of hmono ht ht')
  · exact (count_le_of hmono).lt_or_eq.imp id fun heq => ⟨heq, Or.inl h⟩

/-- Or a thread comes out of it. -/
theorem remaining_lt_of_leaving (habs : s'.abs K = s.abs K) (hlock : s'.lock = s.lock)
    (hmono : ∀ t, waiting K s' t = true → waiting K s t = true)
    (h : count id (leaving K s') < count id (leaving K s)) : remaining K μ s' < remaining K μ s := by
  simp only [remaining, habs, hlock, Prod.Lex.toLex_lt_toLex]
  exact Or.inr ⟨trivial, (count_le_of hmono).lt_or_eq.imp id fun heq => ⟨heq, Or.inr ⟨trivial, h⟩⟩⟩

end

theorem Fits.waits (h : Fits (K.place s.lock t) (s.base.thr t)) (hp : K.place s.lock t = .locking) :
    waiting K s t = true := by
  rw [hp] at h
  cases ht : s.base.thr t with
  | idle => rw [ht] at h; cases h
  | busy x p =>
    rw [ht] at h
    cases p with
    | lock k l => simp [waiting, ht, hp, settled, atLock]
    | unlock r l => exact absurd rfl h
    | _ => cases h

variable [DecidableEq Tid] {C : Impl} {inst : Inst} {a : Mixed.St Tid T.width} {env : ε → Bool} {v₀ : BitVec T.width}

omit [DecidableEq Tid] in
theorem remaining_lt_of_step [Fintype Tid] [PartialOrder M] {μ : σ → M} (hL : K.Lively env μ) (h : Rel K s a) {e : ε}
    (he : env e = false) (hs : K.step s.lock e = some s'.lock) (habs : s'.abs K = s.abs K)
    (hkeep : ∀ u, K.place s.lock u = .held → K.place s'.lock u = .held)
    (htake : ∀ u, K.place s.lock u ≠ .held → K.place s'.lock u = .held → waiting K s u = true) :
    remaining K μ s' < remaining K μ s := by
  refine remaining_lt_of_lock habs (fun u => waiting_mono (congrFun (congrArg Mixed.St.thr habs) u) (hkeep u)) ?_
  rcases hL.descends _ e _ h.lock he hs with ⟨u, hu, hu'⟩ | hlt
  · exact Or.inl ⟨u, htake u hu hu', by simp [waiting, hu']⟩
  · exact Or.inr hlt

/-- A call takes effect, or less is left to do until one does. -/
theorem remaining_lt [Fintype Tid] [PartialOrder M] {μ : σ → M} (hK : K.Excludes) (hL : K.Lively env μ) (h : Rel K s a)
    {e : Ev Tid T.width ε} (he : Undisturbed env e) (hs : step C T inst K s e = some s') :
    s.base.log.length < s'.base.log.length ∨ remaining K μ s' < remaining K μ s := by
  obtain ⟨a', ha, hR⟩ := h.matched 0 hK hs
  have habs := h.abs
  have habs' := hR.abs
  subst habs habs'
  cases hb : lbl K s e s' with
  | some b =>
    rw [hb] at ha
    exact (Mixed.step_toDo ha).imp id remaining_lt_of_toDo
  | none =>
    rw [hb] at ha
    have habs : s'.abs K = s.abs K := ha
    refine Or.inr ?_
    cases step_moves hs with
    | call t c b hb' => cases hb
    | take t x k l ht hp => simp [lbl, ht, hp] at hb
    | release t x r l m ht hm => simp [lbl, ht, (K.place_unlock _ _ _ _ hm).1] at hb
    | own t x p b ht hlock hunlock hb' =>
      rw [lbl_own ht hlock hunlock] at hb
      cases hb
    | enter t x k l m ht hm =>
      obtain ⟨hout, -, hother⟩ := K.place_lock _ _ _ _ hm
      have hne : ∀ u, K.place s.lock u = .held → u ≠ t := by
        rintro u hu rfl
        rw [hout] at hu
        cases hu
      refine remaining_lt_of_step hL h (hL.calls t _).1 hm habs (fun u hu => ?_) fun u hu hu' => ?_
      · exact (hother u (hne u hu)).trans hu
      · obtain rfl : u = t := by
          by_contra hn
          exact hu ((hother u hn).symm.trans hu')
        simp [waiting, ht, hout, settled, atLock]
    | inner e m hin hm =>
      have hplace := K.place_inner _ _ _ hin hm
      refine remaining_lt_of_step hL h he hm habs (fun u hu => ?_) fun u hu hu' => ?_
      · rcases hplace u with hp | ⟨hp, -⟩ | ⟨hp, -⟩
        · exact hp.trans hu
        · rw [hu] at hp
          cases hp
        · rw [hu] at hp
          cases hp
      · refine (h.fits u).waits ?_
        rcases hplace u with hp | ⟨hp, -⟩ | ⟨-, hp⟩
        · exact absurd (hp ▸ hu') hu
        · exact hp
        · have hp' : K.place m u = .held := hu'
          rw [hp'] at hp
          cases hp
    | back t x r l ht hp =>
      refine remaining_lt_of_leaving habs rfl
        (fun u => waiting_mono (congrFun (congrArg Mixed.St.thr habs) u) fun hu => hu) (count_lt_of (i := t) (fun u hu => ?_) ?_ ?_)
      · by_cases e : u = t
        · subst e
          simp [leaving, ht, hp, atUnlock]
        · simpa [leaving, Mixed.St.goto, Function.update_of_ne e] using hu
      · simp [leaving, ht, hp, atUnlock]
      · have hb : atUnlock (.busy x (Pc.back r l)) = false := by
          rcases Pc.back_cases r l with ⟨r', hb⟩ | ⟨k, l', hb⟩ <;> rw [hb] <;> rfl
        simp [leaving, Mixed.St.goto, hb]

/-! ## Where no step is left -/

omit [DecidableEq Tid] in
theorem access_isSome {p : Pc w} {v : BitVec w} (hlock : ∀ k l, p ≠ .lock k l) (hunlock : ∀ r l, p ≠ .unlock r l)
    (hret : ∀ r, p ≠ .ret r) : ∃ r, p.access v = some r := by
  cases p with
  | lock k l => exact absurd rfl (hlock k l)
  | unlock r l => exact absurd rfl (hunlock r l)
  | ret r => exact absurd rfl (hret r)
  | instr | attempt => exact ⟨_, rfl⟩
  | inside k l =>
    simp only [Pc.access]
    split <;> exact ⟨_, rfl⟩

/-- Between two calls of the lock a thread has a step of its own. -/
theorem own_steps {x : Entry T.width} {p : Pc T.width} (ht : s.base.thr t = .busy x p) (hlock : ∀ k l, p ≠ .lock k l)
    (hunlock : ∀ r l, p ≠ .unlock r l) : ∃ s', step C T inst K s (.run t) = some s' := by
  cases p with
  | lock k l => exact absurd rfl (hlock k l)
  | unlock r l => exact absurd rfl (hunlock r l)
  | ret r => exact ⟨_, by simp only [step, ht, St.run, Mixed.St.run, Option.map_some]; rfl⟩
  | instr | attempt | inside =>
    obtain ⟨r, hr⟩ := access_isSome (v := s.base.obj) hlock hunlock fun r e => by cases e
    exact ⟨_, by simp only [step, ht, St.run, Mixed.St.run, hr, Option.map_some]; rfl⟩

/-- A thread that holds the lock can go on. -/
theorem Rel.holder_steps [LT M] {μ : σ → M} (hL : K.Lively env μ) (h : Rel K s a) (hp : K.place s.lock t = .held) :
    ∃ s', step C T inst K s (.run t) = some s' := by
  have hf := h.fits t
  rw [hp] at hf
  cases ht : s.base.thr t with
  | idle => rw [ht] at hf; cases hf
  | busy x p =>
    cases p with
    | lock k l => exact ⟨_, by simp only [step, ht, St.run, hp]; rfl⟩
    | unlock r l =>
      obtain ⟨m, hm⟩ := hL.leave _ t (unlockOrder x.call r) h.lock hp
      exact ⟨_, by simp only [step, ht, St.run, hp, hm, Option.map_some]; rfl⟩
    | _ => exact own_steps ht (fun _ _ e => by cases e) fun _ _ e => by cases e

/-- With a call under way there is a step that is neither a new call nor one of the environment. -/
theorem Rel.busy_steps [LT M] {μ : σ → M} (hL : K.Lively env μ) (h : Rel K s a) {x : Entry T.width} {p : Pc T.width}
    (ht : s.base.thr t = .busy x p) :
    ∃ e s', (∀ t c, e ≠ .call t c) ∧ Undisturbed env e ∧ step C T inst K s e = some s' := by
  have run : ∀ u, (∃ s', step C T inst K s (.run u) = some s') →
      ∃ e s', (∀ t c, e ≠ .call t c) ∧ Undisturbed env e ∧ step C T inst K s e = some s' :=
    fun u ⟨s', hs⟩ => ⟨.run u, s', (fun _ _ e => by cases e), trivial, hs⟩
  by_cases hp : K.place s.lock t = .out
  · refine run t ?_
    cases p with
    | lock k l =>
      obtain ⟨m, hm⟩ := hL.enter _ t (mol (mos x.call)) h.lock hp
      exact ⟨_, by simp only [step, ht, St.run, hp, hm, Option.map_some]; rfl⟩
    | unlock r l => exact ⟨_, by simp only [step, ht, St.run, hp]; rfl⟩
    | _ => exact own_steps ht (fun _ _ e => by cases e) fun _ _ e => by cases e
  · rcases hL.live _ t h.lock hp with ⟨u, hu⟩ | ⟨e, m, hin, he, hm⟩
    · exact run u (h.holder_steps hL hu)
    · exact ⟨.inner e, _, (fun _ _ e => by cases e), he, by simp only [step, hin, if_true, hm, Option.map_some]; rfl⟩

/-! ## The calls still open -/

omit [DecidableEq Tid] in
variable (K) in
def openCalls [Fintype Tid] (s : St Tid T.width σ) : ℕ := count Thr.isOpen (s.abs K).thr

theorem step_openCalls [Fintype Tid] (hK : K.Excludes) (h : Rel K s a) {e : Ev Tid T.width ε} (he : ∀ t c, e ≠ .call t c)
    (hs : step C T inst K s e = some s') : openCalls K s' < openCalls K s ∨
      openCalls K s' = openCalls K s ∧ s'.base.log.length = s.base.log.length := by
  obtain ⟨a', ha, hR⟩ := h.matched 0 hK hs
  have habs := h.abs
  have habs' := hR.abs
  subst habs habs'
  cases hb : lbl K s e s' with
  | none =>
    rw [hb] at ha
    have habs : s'.abs K = s.abs K := ha
    have hlog : (s'.abs K).log = (s.abs K).log := by rw [habs]
    exact Or.inr ⟨by rw [openCalls, habs, openCalls], congrArg List.length hlog⟩
  | some b =>
    rw [hb] at ha
    refine Mixed.step_open ha fun u c hbc => ?_
    subst hbc
    -- only a call is one
    cases e with
    | call t c => exact he t c rfl
    | inner e => cases hb
    | run t =>
      simp only [lbl] at hb
      split at hb
      · split at hb <;> cases hb
      · split at hb <;> cases hb
      · cases hb

/-! ## Runs -/

section
variable [Fintype Tid] [PartialOrder M] [WellFoundedLT M] {μ : σ → M}
variable {x : ℕ → St Tid T.width σ} {e : ℕ → Ev Tid T.width ε}

theorem effects_of_lively (hK : K.Excludes) (hL : K.Lively env μ) (h0 : (sys C T inst K v₀).Reach (x 0))
    (hx : ∀ i, Undisturbed env (e i) ∧ step C T inst K (x i) (e i) = some (x (i + 1))) (i : ℕ) :
    ∃ j, i ≤ j ∧ (x j).base.log.length < (x (j + 1)).base.log.length := by
  have hlt : ∀ j, 0 ≤ j → (x j).base.log.length < (x (j + 1)).base.log.length ∨
      remaining K μ (x (j + 1)) < remaining K μ (x j) := by
    intro j _
    obtain ⟨a, -, hR⟩ := (matches_mixed C inst hK v₀).reach (h0.path (fun i => (hx i).2) j)
    exact remaining_lt hK hL hR (hx j).1 (hx j).2
  exact Lts.infinitely_often (remaining K μ) hlt i

/-- Each effect leaves fewer calls open, so without new ones there is an end. -/
theorem finite_of_lively (hK : K.Excludes) (hL : K.Lively env μ) (h0 : (sys C T inst K v₀).Reach (x 0)) :
    ¬ ∀ i, (∀ t c, e i ≠ .call t c) ∧ Undisturbed env (e i) ∧ step C T inst K (x i) (e i) = some (x (i + 1)) := by
  intro hx
  have hopen : ∀ i, openCalls K (x (i + 1)) < openCalls K (x i) ∨ openCalls K (x (i + 1)) = openCalls K (x i) ∧
      (x (i + 1)).base.log.length = (x i).base.log.length := by
    intro i
    obtain ⟨a, -, hR⟩ := (matches_mixed C inst hK v₀).reach (h0.path (fun i => (hx i).2.2) i)
    exact step_openCalls hK hR (hx i).1 (hx i).2.2
  refine Lts.finitely_lowered (m := fun i => openCalls K (x i))
    (fun i => (hopen i).elim (fun h => h.le) fun h => h.1.le) fun i => ?_
  obtain ⟨j, hj, heffect⟩ := effects_of_lively hK hL h0 (fun i => (hx i).2) i
  exact ⟨j, hj, (hopen j).resolve_right fun h => heffect.ne h.2.symm⟩

end

end

/-- Sized and unsized functions on one object over a futex lock, lock-based or lock-free, any mix of calls by any number of
    threads up to the capacity, any schedule without spurious returns from `FUTEX_WAIT`: in a run that goes on for ever
    calls take effect again and again; without new calls no run goes on for ever, and where no step is left all calls
    have returned and the word is 0. -/
theorem locked_finish (N : ℕ) (hN : N ≤ 2 ^ 31 - 1) (sm : Futex.Unsigned) (C : Impl) (T : IntTy) (inst : Inst)
    (v₀ : BitVec T.width) :
    (∀ (x : ℕ → St (Fin N) T.width (Futex.St N)) (e : ℕ → Ev (Fin N) T.width (Futex.Ev N)),
      (sys C T inst (Generic.futexLock N sm) v₀).Reach (x 0) →
      (∀ i, Undisturbed Generic.isSpurious (e i) ∧
        step C T inst (Generic.futexLock N sm) (x i) (e i) = some (x (i + 1))) →
      ∀ i, ∃ j, i ≤ j ∧ (x j).base.log.length < (x (j + 1)).base.log.length) ∧
    (∀ (x : ℕ → St (Fin N) T.width (Futex.St N)) (e : ℕ → Ev (Fin N) T.width (Futex.Ev N)),
      (sys C T inst (Generic.futexLock N sm) v₀).Reach (x 0) →
      ¬ ∀ i, (∀ t c, e i ≠ .call t c) ∧ Undisturbed Generic.isSpurious (e i) ∧
        step C T inst (Generic.futexLock N sm) (x i) (e i) = some (x (i + 1))) ∧
    ∀ s : St (Fin N) T.width (Futex.St N), (sys C T inst (Generic.futexLock N sm) v₀).Reach s →
      (∀ e s', (∀ t c, e ≠ .call t c) → Undisturbed Generic.isSpurious e →
        step C T inst (Generic.futexLock N sm) s e ≠ some s') →
      (∀ t, s.base.thr t = .idle) ∧ s.lock.word = 0 := by
  have hK := Generic.futex_excludes hN sm
  have hL := Generic.futex_lively hN sm
  refine ⟨fun x e h0 hx => effects_of_lively hK hL h0 hx, fun x e h0 => finite_of_lively hK hL h0,
    fun s hs hstuck => ?_⟩
  obtain ⟨a, -, hR⟩ := (matches_mixed C inst hK v₀).reach hs
  have hidle : ∀ t, s.base.thr t = .idle := by
    intro t
    cases ht : s.base.thr t with
    | idle => rfl
    | busy x p =>
      obtain ⟨e, s', hc, he, hst⟩ : ∃ e s', _ ∧ Undisturbed Generic.isSpurious e ∧
          step C T inst (Generic.futexLock N sm) s e = some s' := hR.busy_steps hL ht
      exact absurd hst (hstuck e s' hc he)
  -- an idle thread is outside the lock
  have hout : ∀ t, s.lock.pc t = .out := by
    intro t
    have hf := hR.fits t
    rw [hidle t] at hf
    exact Generic.futexPlace_out.mp hf
  exact ⟨hidle, Futex.word_free (Futex.inv hN hR.lock) fun t => by rw [hout t]; rfl⟩

/-- With all calls returned and nobody at the lock, only calls and spurious returns are left. -/
theorem idle_stuck {N : ℕ} {sm : Futex.Unsigned} {C : Impl} {T : IntTy} {inst : Inst} {s s' : St (Fin N) T.width (Futex.St N)}
    {e : Ev (Fin N) T.width (Futex.Ev N)} (hidle : ∀ t, s.base.thr t = .idle) (hout : ∀ t, s.lock.pc t = .out)
    (hc : ∀ t c, e ≠ .call t c) : step C T inst (Generic.futexLock N sm) s e ≠ some s' := by
  intro hs
  cases e with
  | call t c => exact hc t c rfl
  | run t =>
    simp only [step, hidle t] at hs
    cases hs
  | inner e =>
    simp only [step] at hs
    split at hs
    · rename_i hin
      obtain ⟨m, hm, -⟩ := Option.map_eq_some_iff.mp hs
      cases Futex.step_moves hm with
      | lock t mo => cases hin
      | unlock t mo ht => cases hin
      | run t w q ha => rw [hout t] at ha; cases ha
      | spurious t q hq => rw [hout t] at hq; cases hq
      | wakeOne t u l ht => rw [hout t] at ht; cases ht
      | wakeNone t ht => rw [hout t] at ht; cases ht
    · cases hs

def addEvs : List (Ev (Fin 2) uint8.width (Futex.Ev 2)) :=
  let t := ⟨0, by decide⟩
  [.call t (.arith .add false 5 .seqCst), .run t, .inner (.run t)] ++ List.replicate 6 (.run t)

theorem added_isSome : (Lts.Sys.runList (step int32 uint8 .lockBased (Generic.futexLock 2 10))
    (start (Generic.futexLock 2 10) 0) addEvs).isSome = true := by decide

def added : St (Fin 2) uint8.width (Futex.St 2) :=
  (Lts.Sys.runList (step int32 uint8 .lockBased (Generic.futexLock 2 10)) (start (Generic.futexLock 2 10) 0) addEvs).get
    added_isSome

theorem added_reach : (sys int32 uint8 .lockBased (Generic.futexLock 2 10) 0).Reach added :=
  .runList (fun _ _ _ h => h) (.init rfl) (Option.some_get added_isSome).symm

theorem added_idle (t : Fin 2) : added.base.thr t = .idle := by
  have hidle : ∀ t, (added.base.thr t).isIdle = true := by decide
  have ht := hidle t
  cases h : added.base.thr t with
  | idle => rfl
  | busy x p =>
    rw [h] at ht
    cases ht

theorem added_free : added.base.obj = 5 ∧ added.lock.word = 0 :=
  ⟨by decide, ((locked_finish 2 (by decide) 10 int32 uint8 .lockBased 0).2.2 added added_reach fun _ _ hc _ =>
    idle_stuck added_idle (by decide) hc).2⟩

end Stdatomic.Locked
