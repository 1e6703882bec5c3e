/-
  Stdatomic.Generic.Inject — the operations with a fault in `__impl_mut_lock`.

  With `ATOMIC_INJECT` a thread whose `atomic_faulty` is set calls `atomic_inject` right after
  it has acquired the lock, at the end of `__impl_mut_lock`. The `atomic_inject` of
  `atomic_futex_lock.c` is empty, and weak: a program that injects faults has its own. Here
  any thread may be faulty at any acquisition, and `atomic_inject` does not return (one
  that returns is a delay, as the schedules of `Generic.Library` have them): the thread
  halts in the sense of `LockTable.halts`.

  `faults_contained`: over futex locks a fault costs the slot it happens on, and no more.
-/

import Stdatomic.Generic.Library
import Stdatomic.Lib.Halts

namespace Stdatomic.Generic

open Critical LockTable

variable {N : ℕ}

theorem futexPlace_unlocking {p : Futex.Pc} : futexPlace p = .unlocking ↔ p = .wake := by
  cases p <;> simp [futexPlace]

theorem futex_frees (N : ℕ) (sm : Futex.Unsigned) : (futexLock N sm).Frees isSpurious := by
  intro s t _ hp
  obtain ⟨v, s', hs⟩ : ∃ v s', Futex.step sm s (.wake t v) = some s' := Futex.wake_steps (futexPlace_unlocking.mp hp)
  exact ⟨.wake t v, s', rfl, rfl, hs⟩

/-- In `__impl_mut_lock` a thread that has no step sleeps. -/
theorem asleep_of_stuck {sm : Futex.Unsigned} {s : Futex.St N} {t : Fin N} (hp : futexPlace (s.pc t) = .locking)
    (hs : ∀ s', Futex.step sm s (.run t) ≠ some s') : ∃ l, s.pc t = .asleep l := by
  have hc : Futex.contends (s.pc t) ≠ true := by
    intro hc
    obtain ⟨s', hs'⟩ : ∃ s', Futex.step sm s (.run t) = some s' := Futex.contends_steps hc
    exact hs s' hs'
  cases hpc : s.pc t with
  | asleep l => exact ⟨l, rfl⟩
  | out => rw [hpc] at hp; cases hp
  | held => rw [hpc] at hp; cases hp
  | wake => rw [hpc] at hp; cases hp
  | _ => rw [hpc] at hc; exact absurd rfl hc

section
variable {Obj Slot U : Type} [DecidableEq Obj] [DecidableEq Slot] [Fintype Slot] [DecidableEq U]

/-- Asleep in `FUTEX_WAIT` on the lock of slot `q`, which a halted thread holds. -/
def SleepsOn (q : Slot) (s : HSt (Fin N) (Call Obj U) Slot MemoryOrder (Buf U) Byte (Futex.St N)) (t : Fin N) : Prop :=
  (∃ l, (s.base.locks q).pc t = .asleep l) ∧ ∃ v, s.halted v = true ∧ (s.base.locks q).pc v = .held

/-- Over a table of futex locks, any objects, hash and memory, where threads halt in `atomic_inject` at any
    acquisitions. From then on no operation takes effect on the slot of a halted thread. Once no more operations are
    called and no wait returns spuriously every schedule comes to an end, fair or not; where no step is left,
    each thread that has not halted has returned from its operation, or sleeps at the lock of such a slot; and
    memory and results are those of the operations that took effect, one after the other. -/
theorem faults_contained (N : ℕ) (hN : N ≤ 2 ^ 31 - 1) (sm : Futex.Unsigned) (L : Layout Obj) (hash : ℕ → Slot)
    (mem : ℕ → Byte) :
    (∀ (n : ℕ) (x : ℕ → HSt (Fin N) (Call Obj U) Slot MemoryOrder (Buf U) Byte (Futex.St N))
        (e : ℕ → HEv (Fin N) (Call Obj U) Slot (Buf U) Byte (Futex.Ev N)),
      (halts (api L hash) (futexLock N sm) mem).Reach (x 0) →
      (∀ i < n, hstep (api L hash) (futexLock N sm) (x i) (e i) = some (x (i + 1))) →
      ∀ t c p i ph, (x 0).halted t = true → (x 0).base.thr t = .busy c p i ph →
      takenOn (api L hash) (hash (L.addr c.ptr)) (x n) = takenOn (api L hash) (hash (L.addr c.ptr)) (x 0)) ∧
    (∀ (x : ℕ → HSt (Fin N) (Call Obj U) Slot MemoryOrder (Buf U) Byte (Futex.St N))
        (e : ℕ → HEv (Fin N) (Call Obj U) Slot (Buf U) Byte (Futex.Ev N)),
      (halts (api L hash) (futexLock N sm) mem).Reach (x 0) →
      ¬ ∀ i, HQuiet isSpurious (e i) ∧ hstep (api L hash) (futexLock N sm) (x i) (e i) = some (x (i + 1))) ∧
    ∀ s : HSt (Fin N) (Call Obj U) Slot MemoryOrder (Buf U) Byte (Futex.St N),
      (halts (api L hash) (futexLock N sm) mem).Reach s →
      (∀ e s', Quiet isSpurious e → hstep (api L hash) (futexLock N sm) s (.go e) ≠ some s') →
      (∀ t, s.base.thr t = .idle ∨ s.halted t = true ∨ ∃ c mo k i ph, s.base.thr t = .busy c (.lock mo k) i ph ∧
        SleepsOn (hash (L.addr c.ptr)) s t) ∧
      (∀ o, L.contents s.base.mem o = (sequential L hash (L.contents mem) s.base.log).1 o) ∧
      ∀ r, r ∈ gave s.base ↔ r ∈ (sequential L hash (L.contents mem) s.base.log).2 := by
  have hK := futex_excludes hN sm
  have hL := futex_lively hN sm
  have hF := futex_frees N sm
  refine ⟨fun n x e h0 hx t c p i ph ht hc => nothing_taken hK h0 hx ht hc, fun x e h0 => halts_finite hK hL x e h0,
    fun s hs hstuck => ⟨fun t => ?_, ?_⟩⟩
  · rcases halts_stuck hK hL hF (hinv hs) hstuck t with ht | ht | ⟨c, a, k, i, ph, v, ht, hp, hv, hheld⟩
    · exact Or.inl ht
    · exact Or.inr (Or.inl ht)
    · have hno : ∀ l, Futex.step sm (s.base.locks (hash (L.addr c.ptr))) (.run t) ≠ some l :=
        fun l => stuck_inner hstuck (q := hash (L.addr c.ptr)) (e := .run t) (l := l) rfl rfl
      exact Or.inr (Or.inr ⟨c, a, k, i, ph, ht, asleep_of_stuck hp hno, v, hv, futexPlace_held.mp hheld⟩)
  · obtain ⟨hmem, hres⟩ := halts_linear hK hL hF (hinv hs) hstuck
    rw [sequential_eq]
    exact ⟨hmem, fun r => by simp only [gave, List.mem_map, hres]; exact Iff.rfl⟩

end

/-- One of two threads halts with the lock for a store; a load of another object on the slot goes to sleep. -/
def faultEvs : List (HEv (Fin 2) (Call (Fin 2) (Fin 2)) Unit (Buf (Fin 2)) Byte (Futex.Ev 2)) :=
  let t := ⟨0, Nat.two_pos⟩
  let u := ⟨1, Nat.one_lt_two⟩
  [.go (.call t (.store t t .seqCst) fun _ _ => 7), .go (.run t), .go (.inner () (.run t)), .halt t,
    .go (.call u (.load u u .seqCst) fun _ _ => 7), .go (.run u)] ++ List.replicate 5 (.go (.inner () (.run u)))

def faultRun : Option (HSt (Fin 2) (Call (Fin 2) (Fin 2)) Unit MemoryOrder (Buf (Fin 2)) Byte (Futex.St 2)) :=
  Lts.Sys.runList (hstep (api twoObjects fun _ => ()) (futexLock 2 1))
    ⟨LockTable.start (futexLock 2 1) (fun _ => 9) fun _ _ _ => 0, fun _ => false⟩ faultEvs

theorem faultRun_isSome : faultRun.isSome = true := by decide

def faulted : HSt (Fin 2) (Call (Fin 2) (Fin 2)) Unit MemoryOrder (Buf (Fin 2)) Byte (Futex.St 2) :=
  faultRun.get faultRun_isSome

theorem faulted_reach : (halts (api twoObjects fun _ => ()) (futexLock 2 1) fun _ => 9).Reach faulted :=
  .runList (fun _ _ _ h => h) (.init ⟨_, rfl⟩) (Option.some_get faultRun_isSome).symm

theorem faulted_stuck (e : LockTable.Ev (Fin 2) (Call (Fin 2) (Fin 2)) Unit (Buf (Fin 2)) Byte (Futex.Ev 2))
    (s' : HSt (Fin 2) (Call (Fin 2) (Fin 2)) Unit MemoryOrder (Buf (Fin 2)) Byte (Futex.St 2))
    (he : Quiet isSpurious e) : hstep (api twoObjects fun _ => ()) (futexLock 2 1) faulted (.go e) ≠ some s' := by
  intro hs
  have hrun : ∀ t, (hstep (api twoObjects fun _ => ()) (futexLock 2 1) faulted (.go (.run t))).isNone = true := by decide
  have hlock : ∀ t, (Futex.atomic 1 (faulted.base.locks ()).word ((faulted.base.locks ()).pc t)).isNone = true ∧
      (faulted.base.locks ()).pc t ≠ .wake := by decide
  cases e with
  | call t c m => exact he
  | run t =>
    have ht := hrun t
    rw [hs] at ht
    cases ht
  | inner q e =>
    have hm := LockTable.step_moves (hstep_go hs).2.1
    generalize s'.base = b at hm
    cases hm with
    | inner q e l hin hl =>
      cases Futex.step_moves hl with
      | lock t mo => cases hin
      | unlock t mo ht => cases hin
      | spurious t q hq => cases he
      | run t w q ha =>
        have ht := (hlock t).1
        rw [ha] at ht
        cases ht
      | wakeOne t u l ht => exact (hlock t).2 ht
      | wakeNone t ht => exact (hlock t).2 ht

theorem faulted_sleeps : SleepsOn () faulted ⟨1, by decide⟩ := by
  have hwaits : pending (api twoObjects fun _ => ()) (futexLock 2 1) faulted.base ⟨1, by decide⟩ = true := by decide
  rcases ((faults_contained 2 (by decide) 1 twoObjects (fun _ => ()) fun _ => 9).2.2 faulted faulted_reach
    faulted_stuck).1 ⟨1, by decide⟩ with h | h | ⟨c, mo, k, i, ph, -, hs⟩
  · obtain ⟨c, a, k, i, ph, ht, -⟩ := pending_iff.mp hwaits
    rw [h] at ht
    cases ht
  · exact absurd h (by decide)
  · exact hs

end Stdatomic.Generic
