/-
  Stdatomic.Generic.Library — the generic operations over the locks of `table[LEN]`.

  `Generic.Ops` has abstract mutexes in the slots. Here each slot has a lock word of its
  own, and `__impl_mut_lock` and `__impl_mut_unlock` run step by step between the bytes that
  the sections copy: the futex lock (`futexLock`), and the spinning strategies
  (`spinLock`). By `LockTable.simulates` whatever lock refines the abstract mutex will
  do:
  - `strategies_linearize`: with any of the locks that are in the repository the
    operations are linearizable, in an order that keeps real time;
  - `operations_finish`: over futex locks every schedule brings the calls that are under
    way to their end, with the results of the sequential run.
-/

import Stdatomic.Generic.Ops
import Stdatomic.Lib.Drain
import Stdatomic.Futex.Live
import Stdatomic.Locks.Flag
import Stdatomic.Locks.Spin

namespace Stdatomic.Generic

open Critical LockTable

/-! ## The locks -/

def futexPlace : Futex.Pc → Place
  | .out => .out
  | .held => .held
  | .wake => .unlocking
  | _ => .locking

def futexInner {N : ℕ} : Futex.Ev N → Bool
  | .run _ => true
  | .spurious _ => true
  | .wake _ _ => true
  | _ => false

section
variable {N : ℕ} {sm : Futex.Unsigned} {s s' : Futex.St N}

theorem futexPlace_atomic {w w' : Futex.Unsigned} {p q : Futex.Pc} (h : Futex.atomic sm w p = some (w', q)) :
    futexPlace p = .locking ∧ (futexPlace q = .locking ∨ futexPlace q = .held) := by
  cases p <;> simp only [Futex.atomic, Option.some.injEq, Prod.mk.injEq, reduceCtorEq] at h <;> obtain ⟨-, rfl⟩ := h <;>
    refine ⟨rfl, ?_⟩ <;> (repeat' split) <;> first | exact Or.inl rfl | exact Or.inr rfl

theorem futexPlace_resume {p q : Futex.Pc} (h : Futex.resumeWait p = some q) :
    futexPlace p = .locking ∧ futexPlace q = .locking := by
  cases p <;> simp only [Futex.resumeWait, Option.some.injEq, reduceCtorEq] at h <;> subst h <;> exact ⟨rfl, rfl⟩

theorem futexPlace_update {f : Fin N → Futex.Pc} {t : Fin N} {q : Futex.Pc} (h : (futexPlace (f t)).Inner (futexPlace q))
    (u : Fin N) : (futexPlace (f u)).Inner (futexPlace (Function.update f t q u)) := by
  by_cases e : u = t
  · subst e; simpa using h
  · rw [Function.update_of_ne e]; exact Or.inl rfl

theorem futexPlace_inner {e : Futex.Ev N} (he : futexInner e = true) (hs : Futex.step sm s e = some s') (u : Fin N) :
    (futexPlace (s.pc u)).Inner (futexPlace (s'.pc u)) := by
  cases Futex.step_moves hs with
  | lock t mo ht => cases he
  | unlock t mo ht => cases he
  | run t w q ha =>
    obtain ⟨hp, hq⟩ := futexPlace_atomic ha
    refine futexPlace_update ?_ u
    rcases hq with hq | hq
    · exact Or.inl (hq.trans hp.symm)
    · exact Or.inr (Or.inl ⟨hp, hq⟩)
  | spurious t q hq =>
    obtain ⟨h1, h2⟩ := futexPlace_resume hq
    exact futexPlace_update (Or.inl (h2.trans h1.symm)) u
  | wakeOne t v l ht hv =>
    -- two threads move: the waker comes out, the sleeper goes on
    have hne : v ≠ t := by intro e; subst e; rw [ht] at hv; cases hv
    by_cases e : u = v
    · subst e
      rw [hv]
      simp only [Futex.goto, Function.update_self]
      exact Or.inl rfl
    · rw [Futex.goto_pc, Function.update_of_ne e]
      exact futexPlace_update (by rw [ht]; exact Or.inr (Or.inr ⟨rfl, rfl⟩)) u
  | wakeNone t ht => exact futexPlace_update (by rw [ht]; exact Or.inr (Or.inr ⟨rfl, rfl⟩)) u

end

/-- The futex lock of one slot, run by `N` threads. -/
def futexLock (N : ℕ) (sm : Futex.Unsigned) : Lock (Fin N) MemoryOrder (Futex.St N) (Futex.Ev N) where
  start := Futex.init
  step := Futex.step sm
  lock := .lock
  unlock := .unlock
  inner := futexInner
  place s t := futexPlace (s.pc t)
  place_start _ := rfl
  place_lock s t a s' h := by
    cases Futex.step_moves h with
    | lock t mo ht =>
      refine ⟨by rw [ht]; rfl, Or.inl (by simp [futexPlace]), fun u hu => ?_⟩
      rw [Futex.goto_pc, Function.update_of_ne hu]
  place_unlock s t a s' h := by
    cases Futex.step_moves h with
    | unlock t mo ht =>
      refine ⟨by rw [ht]; rfl, ?_, fun u hu => by simp only [Function.update_of_ne hu]⟩
      simp only [Function.update_self]
      unfold Futex.afterSub
      split
      · exact Or.inl rfl
      · exact Or.inr rfl
  place_inner s e s' he h := futexPlace_inner he h

def spinPlace {P : Type} : SpinLock.Pc P → Place
  | .out => .out
  | .trying _ => .locking
  | .held => .held
  | .leaving => .unlocking

def spinInner {ι : Type} : SpinLock.Ev ι MemoryOrder → Bool
  | .attempt _ => true
  | .leave _ => true
  | _ => false

def spinLock {W P : Type} (L : SpinLock.Alg W MemoryOrder P) (ι : Type) [DecidableEq ι] :
    Lock ι MemoryOrder (SpinLock.St ι W P) (SpinLock.Ev ι MemoryOrder) where
  start := SpinLock.start L
  step := SpinLock.step L
  lock := .lock
  unlock := .unlock
  inner := spinInner
  place s t := spinPlace (s.pc t)
  place_start _ := rfl
  place_lock s t a s' h := by
    cases SpinLock.step_moves h with
    | lock t a ht => exact ⟨by rw [ht]; rfl, Or.inl (by simp [spinPlace]), fun u hu => by simp only [Function.update_of_ne hu]⟩
  place_unlock s t a s' h := by
    cases SpinLock.step_moves h with
    | unlock t a ht =>
      refine ⟨by rw [ht]; rfl, ?_, fun u hu => by simp only [Function.update_of_ne hu]⟩
      simp only [Function.update_self]
      split
      · exact Or.inl rfl
      · exact Or.inr rfl
  place_inner s e s' he h u := by
    cases SpinLock.step_moves h with
    | lock t a ht => cases he
    | unlock t a ht => cases he
    | attempt t k ht =>
      by_cases e : u = t
      · subst e
        simp only [ht, Function.update_self]
        cases (L.attempt k s.word).2 with
        | none => exact Or.inr (Or.inl ⟨rfl, rfl⟩)
        | some k' => exact Or.inl rfl
      · simp only [Function.update_of_ne e]
        exact Or.inl rfl
    | leave t ht =>
      by_cases e : u = t
      · subst e
        simp only [ht, Function.update_self]
        exact Or.inr (Or.inr ⟨rfl, rfl⟩)
      · simp only [Function.update_of_ne e]
        exact Or.inl rfl

theorem futexPlace_held {p : Futex.Pc} : futexPlace p = .held ↔ p = .held := by
  cases p <;> simp [futexPlace]

theorem futexPlace_out {p : Futex.Pc} : futexPlace p = .out ↔ p = .out := by
  cases p <;> simp [futexPlace]

theorem futex_excludes {N : ℕ} (hN : N ≤ 2 ^ 31 - 1) (sm : Futex.Unsigned) : (futexLock N sm).Excludes :=
  Lock.excludes_of_sim (K := futexLock N sm) (Futex.futex_refines_mutex hN sm) fun s o t hR hp =>
    (hR t).mp (by rw [futexPlace_held.mp hp]; rfl)

theorem spin_excludes {W P ι : Type} [DecidableEq ι] {L : SpinLock.Alg W MemoryOrder P} {taken : W}
    (hL : SpinLock.Sound L taken) : (spinLock L ι).Excludes :=
  Lock.excludes_of_sim (K := spinLock L ι) (SpinLock.refines_mutex hL) fun s o t hR hp => by
    refine (hR.pc t).mp ?_
    cases hpc : s.pc t with
    | held => rfl
    | _ => rw [show (spinLock L ι).place s t = spinPlace (s.pc t) from rfl, hpc] at hp; cases hp

/-! ## Linearizability -/

section
variable {Tid Obj Slot U σ ε : Type} [DecidableEq Tid] [DecidableEq Obj] [DecidableEq Slot] [DecidableEq U]

def gave (s : LockTable.St Tid (Call Obj U) Slot MemoryOrder (Buf U) Byte σ) : List (ℕ × Result U Byte) :=
  s.results.map fun r => (r.1, userResult r.2)

/-- The run `x` of `n` steps is linear: what the operations returned is what they give one after the other in
    the order of their tickets; the bytes of an object whose lock nobody holds are those of that sequence;
    with no operation under way it has all of them; and an operation called after another
    returned comes after it. -/
structure Linear (L : Layout Obj) (hash : ℕ → Slot) (mem : ℕ → Byte) (K : Lock Tid MemoryOrder σ ε) (n : ℕ)
    (x : ℕ → LockTable.St Tid (Call Obj U) Slot MemoryOrder (Buf U) Byte σ) : Prop where
  results : ∀ r ∈ gave (x n), r ∈ (sequential L hash (L.contents mem) (LockTable.done (x n))).2
  contents : ∀ o, (∀ t, K.place ((x n).locks (hash (L.addr o))) t ≠ .held) →
    L.contents (x n).mem o = (sequential L hash (L.contents mem) (LockTable.done (x n))).1 o
  all : (∀ t, (x n).thr t = .idle) → LockTable.done (x n) = (x n).log ∧
    (∀ o, L.contents (x n).mem o = (sequential L hash (L.contents mem) (x n).log).1 o) ∧
    ∀ r, r ∈ gave (x n) ↔ r ∈ (sequential L hash (L.contents mem) (x n).log).2
  order : ∀ i j t r k, i ≤ j → j ≤ n → (x i).thr t = .idle → r ∈ gave (x i) → ticketOf ((x j).thr t) = some k → r.1 < k

end

/-- Over the lock `K` in every slot, the operations are linearizable, on any objects, with any hash of the
    address and any buffers. -/
def Linearizes {Tid σ ε : Type} [DecidableEq Tid] (K : Lock Tid MemoryOrder σ ε) : Prop :=
  ∀ (Obj Slot U : Type) [DecidableEq Obj] [DecidableEq Slot] [DecidableEq U] (L : Layout Obj) (hash : ℕ → Slot)
    (mem : ℕ → Byte) (n : ℕ) (x : ℕ → LockTable.St Tid (Call Obj U) Slot MemoryOrder (Buf U) Byte σ)
    (e : ℕ → LockTable.Ev Tid (Call Obj U) Slot (Buf U) Byte ε),
    (LockTable.sys (api L hash) K mem).Run n x e → Linear L hash mem K n x

/-- A lock that excludes is all it takes. -/
theorem linearizes_of_excludes {Tid σ ε : Type} [DecidableEq Tid] {K : Lock Tid MemoryOrder σ ε} (hK : K.Excludes) :
    Linearizes K := by
  intro Obj Slot U _ _ _ L hash mem n x e h
  obtain ⟨hres, hobj, hidle⟩ := LockTable.linear hK (h.reach n le_rfl)
  refine ⟨?_, ?_, fun hi => ?_, fun i j t r k hij hj ht hr hk => ?_⟩
  · rw [sequential_eq]
    intro r hr
    obtain ⟨r', hr', rfl⟩ := List.mem_map.mp hr
    exact List.mem_map.mpr ⟨r', hres r' hr', rfl⟩
  · rw [sequential_eq]
    exact hobj
  · obtain ⟨hall, hcont, hiff⟩ := hidle hi
    rw [sequential_eq]
    exact ⟨hall, hcont, fun r => by simp only [gave, List.mem_map, hiff]; exact Iff.rfl⟩
  · obtain ⟨r', hr', rfl⟩ := List.mem_map.mp hr
    exact ordered hK h hij hj ht hr' hk

/-- Every lock of the repository linearizes the operations: the futex lock up to its capacity, for any spin budget; the
    futex fast path with the replacement slow path; CMPXCHG; and the flags where they exclude. -/
theorem strategies_linearize (N : ℕ) (hN : N ≤ 2 ^ 31 - 1) (sm : Futex.Unsigned) (ι : Type) [DecidableEq ι]
    (tv : Locks.SetValue) :
    Linearizes (futexLock N sm) ∧ Linearizes (spinLock Locks.replacement ι) ∧ Linearizes (spinLock Locks.cmpxchg ι) ∧
    ∀ v, v = .flag .cas ∨ tv.val = 1 → Linearizes (spinLock (Locks.lockOf tv v) ι) :=
  ⟨linearizes_of_excludes (futex_excludes hN sm), linearizes_of_excludes (spin_excludes Locks.replacement_sound),
    linearizes_of_excludes (spin_excludes Locks.cmpxchg_sound),
    fun _ hv => linearizes_of_excludes (spin_excludes (Locks.lock_sound hv))⟩

theorem two_threads_linearize : Linearizes (futexLock 2 10) :=
  (strategies_linearize 2 (by decide) 10 Bool ⟨1, by decide⟩).1

/-! ## The operations finish -/

/-- A return from `FUTEX_WAIT` that is not the lock's doing. -/
def isSpurious {N : ℕ} : Futex.Ev N → Bool
  | .spurious _ => true
  | _ => false

theorem futex_lively {N : ℕ} (hN : N ≤ 2 ^ 31 - 1) (sm : Futex.Unsigned) :
    (futexLock N sm).Lively isSpurious (Futex.toDo fun _ => sm) where
  enter s t a _ hp := by
    have ht : s.pc t = .out := futexPlace_out.mp hp
    exact ⟨Futex.goto s t (.fast a), by simp only [futexLock, Futex.step, ht, if_true]⟩
  leave s t a _ hp := by
    have ht : s.pc t = .held := futexPlace_held.mp hp
    exact ⟨⟨s.word - Futex.contrib, Function.update s.pc t (Futex.afterSub s.word)⟩,
      by simp only [futexLock, Futex.step, ht, if_true]⟩
  live s t hr hp := by
    have ht : s.pc t ≠ .out := fun h => hp (futexPlace_out.mpr h)
    rcases Futex.live hN (Futex.inv hN hr) (Futex.watched hN hr) ht with ⟨u, hu⟩ | ⟨u, hu⟩ | ⟨u, hu⟩
    · exact Or.inl ⟨u, futexPlace_held.mpr hu⟩
    · obtain ⟨s', hs⟩ : ∃ s', Futex.step sm s (.run u) = some s' := Futex.contends_steps hu
      exact Or.inr ⟨.run u, s', rfl, rfl, hs⟩
    · obtain ⟨v, s', hs⟩ : ∃ v s', Futex.step sm s (.wake u v) = some s' := Futex.wake_steps hu
      exact Or.inr ⟨.wake u v, s', rfl, rfl, hs⟩
  descends s e s' hr he hs := by
    have hsp : ∀ t, e ≠ .spurious t := by rintro t rfl; cases he
    rcases Futex.descends (fun _ => sm) hN (Futex.inv hN hr) hsp hs (Or.inr rfl) with ⟨t, hb, ha⟩ | hlt
    · refine Or.inl ⟨t, fun hh => ?_, futexPlace_held.mpr (Futex.holds_iff.mp ha)⟩
      rw [futexPlace_held.mp hh] at hb
      cases hb
    · rw [Function.update_eq_self] at hlt
      exact Or.inr hlt
  calls _ _ := ⟨rfl, rfl⟩

section
variable {Obj Slot U : Type} [DecidableEq Obj] [DecidableEq Slot] [Fintype Slot] [DecidableEq U]

/-- Over a table of futex locks, any objects, hash and memory, from any reachable state: once no more operations are
    called and no wait returns spuriously, every schedule comes to an end, fair or not. Where no step is left all
    operations have returned what they give one after the other in the order of the log, memory is what that
    sequence leaves, and every lock word is 0. -/
theorem operations_finish (N : ℕ) (hN : N ≤ 2 ^ 31 - 1) (sm : Futex.Unsigned) (L : Layout Obj) (hash : ℕ → Slot)
    (mem : ℕ → Byte) :
    (∀ (x : ℕ → LockTable.St (Fin N) (Call Obj U) Slot MemoryOrder (Buf U) Byte (Futex.St N))
        (e : ℕ → LockTable.Ev (Fin N) (Call Obj U) Slot (Buf U) Byte (Futex.Ev N)),
      (LockTable.sys (api L hash) (futexLock N sm) mem).Reach (x 0) →
      ¬ ∀ i, Quiet isSpurious (e i) ∧ LockTable.step (api L hash) (futexLock N sm) (x i) (e i) = some (x (i + 1))) ∧
    ∀ s : LockTable.St (Fin N) (Call Obj U) Slot MemoryOrder (Buf U) Byte (Futex.St N),
      (LockTable.sys (api L hash) (futexLock N sm) mem).Reach s →
      (∀ e s', Quiet isSpurious e → LockTable.step (api L hash) (futexLock N sm) s e ≠ some s') →
      (∀ t, s.thr t = .idle) ∧
      (∀ o, L.contents s.mem o = (sequential L hash (L.contents mem) s.log).1 o) ∧
      (∀ r, r ∈ gave s ↔ r ∈ (sequential L hash (L.contents mem) s.log).2) ∧
      ∀ q, (s.locks q).word = 0 := by
  have hK := futex_excludes hN sm
  have hL := futex_lively hN sm
  refine ⟨fun x e h0 => quiet_finite hK hL x e h0, fun s hs hstuck => ?_⟩
  obtain ⟨u, -, hR⟩ := (simulates hK).reach hs
  have hidle := stuck_idle hL hR hstuck
  obtain ⟨-, -, hall⟩ := LockTable.linear hK hs
  obtain ⟨-, hcont, hiff⟩ := hall hidle
  rw [sequential_eq]
  refine ⟨hidle, hcont, fun r => by simp only [gave, List.mem_map, hiff]; exact Iff.rfl, fun q => ?_⟩
  -- an idle thread is outside every lock
  have hout : ∀ t, (s.locks q).pc t = .out := by
    intro t
    have hf := hR.fits q t
    rw [hidle t] at hf
    exact futexPlace_out.mp hf
  exact Futex.word_free (Futex.inv hN (hR.locks q)) fun t => by rw [hout t]; rfl

end

/-- With all operations returned and nobody at a lock, only calls and spurious returns are left. -/
theorem idle_stuck {Obj Slot U : Type} [DecidableEq Obj] [DecidableEq Slot] [DecidableEq U] {N : ℕ} {sm : Futex.Unsigned}
    {L : Layout Obj} {hash : ℕ → Slot} {s s' : LockTable.St (Fin N) (Call Obj U) Slot MemoryOrder (Buf U) Byte (Futex.St N)}
    {e : LockTable.Ev (Fin N) (Call Obj U) Slot (Buf U) Byte (Futex.Ev N)} (hidle : ∀ t, s.thr t = .idle)
    (hout : ∀ q t, (s.locks q).pc t = .out) (he : Quiet isSpurious e) :
    LockTable.step (api L hash) (futexLock N sm) s e ≠ some s' := by
  intro hs
  cases e with
  | call t c m => exact he
  | run t =>
    simp only [LockTable.step, hidle t] at hs
    cases hs
  | inner q e =>
    simp only [LockTable.step] at hs
    split at hs
    · rename_i hin
      obtain ⟨l, hl, -⟩ := Option.map_eq_some_iff.mp hs
      cases Futex.step_moves hl with
      | lock t mo => cases hin
      | unlock t mo ht => cases hin
      | run t w p ha => rw [hout q t] at ha; cases ha
      | spurious t p hp => rw [hout q t] at hp; cases hp
      | wakeOne t u l ht => rw [hout q t] at ht; cases ht
      | wakeNone t ht => rw [hout q t] at ht; cases ht
    · cases hs

/-- A load goes to sleep while a store of 7 to the same object holds the lock, is woken by its unlock, and reads. -/
def sleptEvs : List (LockTable.Ev (Fin 2) (Call (Fin 2) (Fin 2)) Unit (Buf (Fin 2)) Byte (Futex.Ev 2)) :=
  let t := ⟨0, Nat.two_pos⟩
  let u := ⟨1, Nat.one_lt_two⟩
  [.call t (.store t t .seqCst) fun _ _ => 7, .run t, .inner () (.run t), .run t,
    .call u (.load t u .seqCst) fun _ _ => 1, .run u] ++ List.replicate 5 (.inner () (.run u)) ++
    [.run t, .run t, .run t, .run t, .inner () (.wake t (some u)), .run t, .run t, .inner () (.run u)] ++
    List.replicate 7 (.run u)

def sleptRun : Option (LockTable.St (Fin 2) (Call (Fin 2) (Fin 2)) Unit MemoryOrder (Buf (Fin 2)) Byte (Futex.St 2)) :=
  Lts.Sys.runList (LockTable.step (api twoObjects fun _ => ()) (futexLock 2 1))
    (LockTable.start (futexLock 2 1) (fun _ => 9) fun _ _ _ => 0) sleptEvs

theorem sleptRun_isSome : sleptRun.isSome = true := by decide

def slept : LockTable.St (Fin 2) (Call (Fin 2) (Fin 2)) Unit MemoryOrder (Buf (Fin 2)) Byte (Futex.St 2) :=
  sleptRun.get sleptRun_isSome

theorem slept_reach : (LockTable.sys (api twoObjects fun _ => ()) (futexLock 2 1) fun _ => 9).Reach slept :=
  .runList (fun _ _ _ h => h) (.init ⟨_, rfl⟩) (Option.some_get sleptRun_isSome).symm

theorem slept_idle : ∀ t, slept.thr t = .idle := Fin.forall_fin_two.mpr ⟨rfl, rfl⟩

theorem slept_finished : slept.mem 0 = 7 ∧ slept.results.length = 2 ∧
    (∀ r, r ∈ gave slept ↔
      r ∈ (sequential twoObjects (fun _ => ()) (twoObjects.contents fun _ => 9) slept.log).2) ∧
    (slept.locks ()).word = 0 := by
  obtain ⟨-, -, hres, hword⟩ := (operations_finish 2 (by decide) 1 twoObjects (fun _ => ()) fun _ => 9).2 slept slept_reach
    fun e s' he => idle_stuck slept_idle (by decide) he
  exact ⟨by decide, by decide, hres, hword ()⟩

end Stdatomic.Generic
