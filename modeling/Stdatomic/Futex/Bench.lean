/-
  Stdatomic.Futex.Bench — the statistics of `__impl_mut_lock_slow` with `BENCH` defined.

  A call goes from its first compare-exchange to the one that takes the lock. What it
  meets from the outside (`Met`) is the word, at each of its operations, and the return of
  its `FUTEX_WAIT`; both are arbitrary. Its moves are those of the lock (`atomic`), and
  `account` gives what the `ACCOUNT`s on the way add to its counters. `rounds` is what the
  statistic is for: how often `--spins` was executed. Every call in a run of the lock
  is one of these (`run_meets`), and so is what it accounts (`run_accounts`).

  The amounts `sm-spins` and `sm` are right at every exit but one. The `fetch_add` comes
  with `spins` 0, after `sm` has been accounted; if it finds the lock bit clear, the
  block at `BIT_UNSET` accounts `sm-spins`, that is `sm`, again (`spin_statistic_iff`).
-/

import Stdatomic.Futex.Lock
import Mathlib.Data.Nat.ModEq

namespace Stdatomic.Futex

open Lts.Sys (runList)

/-- The counters of a call, before `size_t` wraps around. -/
structure Counters where
  slow : ℕ
  futex : ℕ
  wouldblock : ℕ
  spin : ℕ
  deriving DecidableEq, Repr

namespace Counters

def zero : Counters := ⟨0, 0, 0, 0⟩

def add (c d : Counters) : Counters := ⟨c.slow + d.slow, c.futex + d.futex, c.wouldblock + d.wouldblock, c.spin + d.spin⟩

end Counters

/-- `ACCOUNT(spin, n)` and `ACCOUNT(slow, 1)`. -/
def spinAndSlow (n : Unsigned) : Counters := ⟨1, 0, 0, n.toNat⟩

/-- What is accounted with the next operation of a call at `pc` on the word `w`, up to the one after it. -/
def account (sm w : Unsigned) : Pc → Counters
  | .first l =>
    let r := compareExchange w (guess l.val).1 (guess l.val).2
    if r.ok then spinAndSlow (sm - l.spins) else if l.spins - 1 = 0 then ⟨0, 0, 0, sm.toNat⟩ else .zero
  | .add l => if locked (1 + w) then .zero else spinAndSlow (sm - l.spins)
  | .spin l =>
    let r := compareExchange w (l.val - contrib) (l.val - 1)
    if r.ok then spinAndSlow (sm - l.spins) else if !locked r.expected then spinAndSlow (sm - l.spins) else .zero
  | .wait l => ⟨0, 1, if w = l.val then 0 else 1, 0⟩
  | .retry l =>
    let r := compareExchange w (l.val - contrib) (l.val - 1)
    if r.ok then spinAndSlow (sm - l.spins) else if !locked r.expected then spinAndSlow (sm - l.spins) else .zero
  | _ => .zero

def decrements (w : Unsigned) : Pc → ℕ
  | .first l => if (compareExchange w (guess l.val).1 (guess l.val).2).ok then 0 else 1
  | .spin l =>
    let r := compareExchange w (l.val - contrib) (l.val - 1)
    if r.ok then 0 else if !locked r.expected then 0 else 1
  | _ => 0

structure Call where
  pc : Pc
  counters : Counters
  rounds : ℕ
  deriving DecidableEq, Repr

inductive Met where
  /-- The word, at its next operation. -/
  | word (w : Unsigned)
  /-- Its `FUTEX_WAIT` returns, without a look at the word or after it has slept. -/
  | resume
  deriving DecidableEq, Repr

/-- A `FUTEX_WAIT` that has not looked at the word is accounted as well. -/
def accountResume : Pc → Counters
  | .wait _ => ⟨0, 1, 0, 0⟩
  | _ => .zero

def callStep (sm : Unsigned) (c : Call) : Met → Option Call
  | .word w => (atomic sm w c.pc).map fun r => ⟨r.2, c.counters.add (account sm w c.pc), c.rounds + decrements w c.pc⟩
  | .resume => (resumeWait c.pc).map fun q => ⟨q, c.counters.add (accountResume c.pc), c.rounds⟩

/-- `__impl_mut_lock_slow(loc, val, mo)` with `sm` for `spins_max`. -/
def callStart (sm val : Unsigned) (mo : MemoryOrder) : Call := ⟨.first ⟨val, sm, mo⟩, .zero, 0⟩

structure Statistics where
  total : ℕ
  counters : Counters
  deriving DecidableEq, Repr

def finish (g : Statistics) (c : Call) : Statistics := ⟨g.total + 1, g.counters.add c.counters⟩

/-! ## What is accounted -/

/-- The rounds made since `spins` was set, which the next exit accounts. -/
def pending (sm : Unsigned) : Pc → ℕ
  | .first l => sm.toNat - l.spins.toNat
  | .spin l => sm.toNat - l.spins.toNat
  | .wait l => sm.toNat - l.spins.toNat
  | .asleep l => sm.toNat - l.spins.toNat
  | .retry l => sm.toNat - l.spins.toNat
  | _ => 0

/-- The places of a call, with the values that `spins` has there. -/
def SpinsOk (sm : Unsigned) : Pc → Prop
  | .first l => 0 < l.spins.toNat ∧ l.spins.toNat ≤ sm.toNat
  | .add l => l.spins = 0
  | .spin l => 0 < l.spins.toNat ∧ l.spins.toNat ≤ sm.toNat
  | .wait l => l.spins = 0
  | .asleep l => l.spins = 0
  | .retry l => l.spins = 0
  | .unset _ => True
  | .held => True
  | _ => False

def addsClear : Pc → Met → Bool
  | .add _, .word w => !locked (1 + w)
  | _, _ => false

def clearAdds (sm : Unsigned) : Call → List Met → ℕ
  | _, [] => 0
  | c, m :: ms => (callStep sm c m).elim 0 fun c' => (addsClear c.pc m).toNat + clearAdds sm c' ms

@[simp] theorem addsClear_resume (p : Pc) : addsClear p .resume = false := by cases p <;> rfl

section
variable {sm : Unsigned}

theorem toNat_sub_spins {n : Unsigned} (h : n.toNat ≤ sm.toNat) : (sm - n).toNat = sm.toNat - n.toNat :=
  BitVec.toNat_sub_of_le h

theorem spins_pos (hsm : sm ≠ 0) : 0 < sm.toNat :=
  Nat.pos_of_ne_zero fun h0 => hsm (BitVec.eq_of_toNat_eq h0)

theorem spins_round {n : Unsigned} (h0 : 0 < n.toNat) (hle : n.toNat ≤ sm.toNat) :
    sm.toNat - (n - 1).toNat = sm.toNat - n.toNat + 1 ∧ (n - 1 = 0 → sm.toNat = sm.toNat - n.toNat + 1) ∧
    (n - 1 ≠ 0 → 0 < (n - 1).toNat ∧ (n - 1).toNat ≤ sm.toNat) := by
  have hlt := n.isLt
  have hnat : (n - 1).toNat = n.toNat - 1 := by
    rw [BitVec.toNat_sub]
    simp
    omega
  have hzero : n - 1 = 0 ↔ n.toNat = 1 := by
    rw [← BitVec.toNat_inj, hnat]
    simp
    omega
  refine ⟨by omega, fun hz => ?_, fun hz => ?_⟩
  · have h1 := hzero.mp hz
    omega
  · have h1 : n.toNat ≠ 1 := fun h1 => hz (hzero.mpr h1)
    omega

variable {w w' : Unsigned} {p q : Pc}

/-- A compare-exchange that succeeds ends the call. -/
theorem atomic_exit {d : Unsigned} (hc : casArgs p = some (w, d)) (h : atomic sm w p = some (w', q)) :
    w' = d ∧ q = .held := by
  rw [atomic_cas hc] at h
  cases h
  exact ⟨rfl, rfl⟩

/-- The operation at `p`, which goes on at `q`, accounts the rounds that are no longer pending there, and `sm` more if
    it is a `fetch_add` that finds the lock bit clear. -/
def Accounts (sm w : Unsigned) (p q : Pc) : Prop :=
  SpinsOk sm q ∧ (account sm w p).spin + pending sm q =
    pending sm p + decrements w p + sm.toNat * (addsClear p (.word w)).toNat

variable {l : Slow}

theorem first_account (h0 : 0 < l.spins.toNat) (hle : l.spins.toNat ≤ sm.toNat)
    (h : atomic sm w (.first l) = some (w', q)) : Accounts sm w (.first l) q := by
  unfold Accounts
  by_cases hw : w = (guess l.val).1
  · subst hw
    obtain ⟨-, rfl⟩ := atomic_exit (p := .first l) rfl h
    simp [SpinsOk, account, spinAndSlow, decrements, pending, addsClear, toNat_sub_spins hle]
  · rw [atomic_first_ne hw] at h
    obtain ⟨-, rfl⟩ := Prod.mk.inj (Option.some.inj h)
    simp only [account, decrements, compareExchange_ne hw, Bool.false_eq_true, if_false, addsClear, Bool.toNat_false]
    obtain ⟨hround, hlast, hnext⟩ := spins_round h0 hle
    split
    · rename_i hz
      have hall := hlast hz
      exact ⟨hz, by simp only [pending]; omega⟩
    · rename_i hz
      exact ⟨hnext hz, by simp only [pending, Counters.zero]; omega⟩

/-- It accounts `sm` without a round, unless the lock bit is set. -/
theorem add_account (hpos : 0 < sm.toNat) (hz : l.spins = 0) (h : atomic sm w (.add l) = some (w', q)) :
    Accounts sm w (.add l) q := by
  unfold Accounts
  simp only [atomic, Option.some.injEq, Prod.mk.injEq] at h
  obtain ⟨-, rfl⟩ := h
  simp only [account, decrements, addsClear]
  cases hl : locked (1 + w)
  · simp only [SpinsOk, Bool.false_eq_true, if_false, spinAndSlow, pending, hz, Bool.not_false,
      Bool.toNat_true]
    exact ⟨trivial, by simp⟩
  · simp only [SpinsOk, if_true, Counters.zero, pending, Bool.not_true, Bool.toNat_false]
    omega

theorem spin_account (h0 : 0 < l.spins.toNat) (hle : l.spins.toNat ≤ sm.toNat)
    (h : atomic sm w (.spin l) = some (w', q)) : Accounts sm w (.spin l) q := by
  unfold Accounts
  by_cases hw : w = l.val - contrib
  · subst hw
    obtain ⟨-, rfl⟩ := atomic_exit (p := .spin l) rfl h
    simp [SpinsOk, account, spinAndSlow, decrements, pending, addsClear, toNat_sub_spins hle]
  · rw [atomic_spin_ne hw] at h
    obtain ⟨-, rfl⟩ := Prod.mk.inj (Option.some.inj h)
    simp only [account, decrements, compareExchange_ne hw, Bool.false_eq_true, if_false, addsClear, Bool.toNat_false]
    cases hl : locked w
    · simp only [SpinsOk, Bool.not_false, if_true, spinAndSlow, pending, toNat_sub_spins hle]
      exact ⟨trivial, by omega⟩
    · simp only [Bool.not_true, Bool.false_eq_true, if_false, Counters.zero]
      obtain ⟨hround, -, hnext⟩ := spins_round h0 hle
      split
      · rename_i hz
        exact ⟨hz, by simp only [pending]; omega⟩
      · rename_i hz
        exact ⟨hnext hz, by simp only [pending]; omega⟩

theorem wait_account (hz : l.spins = 0) (h : atomic sm w (.wait l) = some (w', q)) : Accounts sm w (.wait l) q := by
  unfold Accounts
  obtain ⟨-, rfl⟩ := Prod.mk.inj (Option.some.inj h)
  simp only [account, decrements, addsClear, Bool.toNat_false]
  split
  · exact ⟨hz, by simp only [pending]; omega⟩
  · exact ⟨hz, by simp only [pending]; omega⟩

theorem retry_account (hz : l.spins = 0) (h : atomic sm w (.retry l) = some (w', q)) : Accounts sm w (.retry l) q := by
  unfold Accounts
  by_cases hw : w = l.val - contrib
  · subst hw
    obtain ⟨-, rfl⟩ := atomic_exit (p := .retry l) rfl h
    simp [SpinsOk, account, spinAndSlow, decrements, pending, addsClear, hz]
  · rw [atomic_retry_ne hw] at h
    obtain ⟨-, rfl⟩ := Prod.mk.inj (Option.some.inj h)
    simp only [account, decrements, compareExchange_ne hw, Bool.false_eq_true, if_false, addsClear, Bool.toNat_false]
    cases hl : locked w
    · simp [SpinsOk, spinAndSlow, pending, hz]
    · simpa [SpinsOk, Counters.zero, pending] using hz

theorem unset_account (hpos : 0 < sm.toNat) (h : atomic sm w (.unset l) = some (w', q)) : Accounts sm w (.unset l) q := by
  unfold Accounts
  by_cases hw : w = l.val
  · subst hw
    obtain ⟨-, rfl⟩ := atomic_exit (p := .unset l) rfl h
    simp [SpinsOk, account, Counters.zero, decrements, pending, addsClear]
  · rw [atomic_unset_ne hw] at h
    obtain ⟨-, rfl⟩ := Prod.mk.inj (Option.some.inj h)
    simp only [account, decrements, addsClear, Counters.zero, Bool.toNat_false]
    cases locked w
    · simp [SpinsOk, pending]
    · simpa [SpinsOk, pending] using hpos

theorem atomic_account (hsm : sm ≠ 0) (hok : SpinsOk sm p) (h : atomic sm w p = some (w', q)) : Accounts sm w p q := by
  have hpos := spins_pos hsm
  cases p with
  | out | asleep | held | wake => cases h
  | fast mo => cases hok
  | first l => exact first_account hok.1 hok.2 h
  | add l => exact add_account hpos hok h
  | spin l => exact spin_account hok.1 hok.2 h
  | wait l => exact wait_account hok h
  | retry l => exact retry_account hok h
  | unset l => exact unset_account hpos h

/-- So does a `FUTEX_WAIT` that returns: `spins` is 0 there. -/
theorem resume_account (hok : SpinsOk sm p) (h : resumeWait p = some q) :
    SpinsOk sm q ∧ (accountResume p).spin + pending sm q = pending sm p := by
  cases p with
  | wait l =>
    cases h
    exact ⟨hok, by simp [accountResume, pending]⟩
  | asleep l =>
    cases h
    exact ⟨hok, by simp [accountResume, Counters.zero, pending]⟩
  | out | fast | first | add | spin | retry | unset | held | wake => cases h

variable {c c' : Call} {m : Met} {ms : List Met}

theorem callStep_account (hsm : sm ≠ 0) (hok : SpinsOk sm c.pc) (h : callStep sm c m = some c') :
    SpinsOk sm c'.pc ∧ c'.counters.spin + pending sm c'.pc + c.rounds =
      c.counters.spin + pending sm c.pc + c'.rounds + sm.toNat * (addsClear c.pc m).toNat := by
  cases m with
  | word w =>
    obtain ⟨⟨w', q⟩, ha, rfl⟩ := Option.map_eq_some_iff.mp h
    obtain ⟨hq, hacc⟩ := atomic_account hsm hok ha
    refine ⟨hq, ?_⟩
    simp only [Counters.add]
    omega
  | resume =>
    obtain ⟨q, ha, rfl⟩ := Option.map_eq_some_iff.mp h
    obtain ⟨hq, hacc⟩ := resume_account hok ha
    refine ⟨hq, ?_⟩
    simp only [Counters.add, addsClear_resume, Bool.toNat_false]
    omega

/-- The same for the moves of a call together. -/
theorem calls_account (hsm : sm ≠ 0) (hok : SpinsOk sm c.pc) (h : runList (callStep sm) c ms = some c') :
    SpinsOk sm c'.pc ∧ c'.counters.spin + pending sm c'.pc + c.rounds =
      c.counters.spin + pending sm c.pc + c'.rounds + sm.toNat * clearAdds sm c ms := by
  induction ms generalizing c with
  | nil =>
    cases h
    exact ⟨hok, by simp [clearAdds]⟩
  | cons m ms ih =>
    obtain ⟨c₁, h1, h2⟩ := Option.bind_eq_some_iff.mp h
    obtain ⟨hok₁, hacc₁⟩ := callStep_account hsm hok h1
    obtain ⟨hok₂, hacc₂⟩ := ih hok₁ h2
    refine ⟨hok₂, ?_⟩
    simp only [clearAdds, h1, Option.elim_some, Nat.mul_add]
    omega

/-! A call makes one `fetch_add` at most. -/

def early : Pc → Bool
  | .first _ => true
  | .add _ => true
  | _ => false

theorem atomic_early (hok : SpinsOk sm p) (h : atomic sm w p = some (w', q)) :
    (addsClear p (.word w)).toNat + (early q).toNat ≤ (early p).toNat := by
  cases p with
  | out => cases h
  | fast mo => cases hok
  | asleep l => cases h
  | held => cases h
  | wake => cases h
  | first l => simpa [addsClear, early] using Bool.toNat_le (early q)
  | add l =>
    simp only [atomic, Option.some.injEq, Prod.mk.injEq] at h
    obtain ⟨-, rfl⟩ := h
    split_ifs <;> exact Bool.toNat_le (!locked (1 + w))
  | spin l | wait l | retry l | unset l =>
    simp only [atomic, Option.some.injEq, Prod.mk.injEq] at h
    obtain ⟨-, rfl⟩ := h
    split_ifs <;> exact Nat.le_refl 0

theorem resume_early (h : resumeWait p = some q) : early q = false := by
  cases p <;> cases h <;> rfl

theorem clearAdds_le (hsm : sm ≠ 0) (hok : SpinsOk sm c.pc) : clearAdds sm c ms ≤ (early c.pc).toNat := by
  induction ms generalizing c with
  | nil => exact Nat.zero_le _
  | cons m ms ih =>
    cases h : callStep sm c m with
    | none => simp [clearAdds, h]
    | some c₁ =>
      have hrest := ih (callStep_account hsm hok h).1
      have hstep : (addsClear c.pc m).toNat + (early c₁.pc).toNat ≤ (early c.pc).toNat := by
        cases m with
        | word w =>
          obtain ⟨⟨w', q⟩, ha, rfl⟩ := Option.map_eq_some_iff.mp h
          exact atomic_early hok ha
        | resume =>
          obtain ⟨q, ha, rfl⟩ := Option.map_eq_some_iff.mp h
          simp [resume_early ha, addsClear_resume]
      simp only [clearAdds, h, Option.elim_some]
      omega

theorem start_ok (hsm : sm ≠ 0) {val : Unsigned} {mo : MemoryOrder} : SpinsOk sm (callStart sm val mo).pc :=
  ⟨spins_pos hsm, Nat.le_refl _⟩

/-- What a call accounts to `spin` until it holds the lock. -/
theorem held_account (hsm : sm ≠ 0) {val : Unsigned} {mo : MemoryOrder}
    (h : runList (callStep sm) (callStart sm val mo) ms = some c) (hheld : c.pc = .held) :
    c.counters.spin = c.rounds + sm.toNat * clearAdds sm (callStart sm val mo) ms := by
  have hok : SpinsOk sm (callStart sm val mo).pc := start_ok hsm
  have hacc := (calls_account hsm hok h).2
  simp only [hheld, pending, callStart, Counters.zero] at hacc ⊢
  omega

end

/-! ## The calls of a run -/

section
variable {sm : Unsigned} {N : ℕ} {s s' : St N} {t : Fin N}

/-- A failed compare-exchange of `__impl_mut_lock` calls the slow path. -/
theorem fast_starts {w : Unsigned} {mo : MemoryOrder} (h : w ≠ 0) :
    atomic sm w (.fast mo) = some (w, (callStart sm w mo).pc) := atomic_fast_ne h

theorem callStep_word {c : Call} {w w' : Unsigned} {q : Pc} (h : atomic sm w c.pc = some (w', q)) :
    callStep sm c (.word w) = some ⟨q, c.counters.add (account sm w c.pc), c.rounds + decrements w c.pc⟩ := by
  simp only [callStep, h, Option.map_some]

theorem callStep_resume {c : Call} {q : Pc} (h : resumeWait c.pc = some q) :
    callStep sm c .resume = some ⟨q, c.counters.add (accountResume c.pc), c.rounds⟩ := by
  simp only [callStep, h, Option.map_some]

theorem update_meets {f : Fin N → Pc} {c : Call} (hpc : f t = c.pc) {r : Fin N} {q : Pc}
    (hq : r = t → ∃ m c', callStep sm c m = some c' ∧ q = c'.pc) :
    Function.update f r q t = c.pc ∨ ∃ m c', callStep sm c m = some c' ∧ Function.update f r q t = c'.pc := by
  by_cases hr : t = r
  · subst hr
    rw [Function.update_self]
    exact .inr (hq rfl)
  · rw [Function.update_of_ne hr]
    exact .inl hpc

/-- A step of the lock leaves a call where it is, or is its next move. -/
theorem step_meets {e : Ev N} {c : Call} (hok : SpinsOk sm c.pc) (hpc : s.pc t = c.pc) (hheld : c.pc ≠ .held)
    (h : step sm s e = some s') : s'.pc t = c.pc ∨ ∃ m c', callStep sm c m = some c' ∧ s'.pc t = c'.pc := by
  have hwake : c.pc ≠ .wake := fun hw => by rw [hw] at hok; exact hok
  have hout : c.pc ≠ .out := fun ho => by rw [ho] at hok; exact hok
  cases step_moves h with
  | lock r mo hr => exact update_meets hpc fun e => absurd (hpc ▸ e ▸ hr) hout
  | run r w q ha =>
    refine update_meets hpc fun e => ?_
    subst e
    exact ⟨.word s.word, _, callStep_word (hpc ▸ ha), rfl⟩
  | spurious r q hq =>
    refine update_meets hpc fun e => ?_
    subst e
    exact ⟨.resume, _, callStep_resume (hpc ▸ hq), rfl⟩
  | unlock r mo hr => exact update_meets hpc fun e => absurd (hpc ▸ e ▸ hr) hheld
  | wakeOne r u l hr hu =>
    have hrt : t ≠ r := fun e => hwake (hpc ▸ e ▸ hr)
    have hother : Function.update s.pc r .out t = c.pc := by rw [Function.update_of_ne hrt, hpc]
    refine update_meets hother fun e => ?_
    subst e
    exact ⟨.resume, _, callStep_resume (q := .retry l) (by rw [← hpc, hu]; rfl), rfl⟩
  | wakeNone r hr _ => exact update_meets hpc fun e => absurd (hpc ▸ e ▸ hr) hwake

/-- In every run of the lock, what a thread does while it acquires the lock is such a call. -/
theorem run_meets {n : ℕ} {x : ℕ → St N} {e : ℕ → Ev N} (hx : (sys N sm).Run n x e) (hsm : sm ≠ 0) {k : ℕ} :
    ∀ {i : ℕ} {c : Call}, i + k ≤ n → SpinsOk sm c.pc → (x i).pc t = c.pc →
      (∀ j, i ≤ j → j < i + k → (x j).pc t ≠ .held) →
        ∃ ms c', runList (callStep sm) c ms = some c' ∧ (x (i + k)).pc t = c'.pc := by
  induction k with
  | zero => intro i c _ _ hpc _; exact ⟨[], c, rfl, hpc⟩
  | succ k ih =>
    intro i c hi hok hpc hheld
    have hnext := step_meets hok hpc (hpc ▸ hheld i (Nat.le_refl i) (by omega)) (hx.next i (by omega))
    have hlater : ∀ j, i + 1 ≤ j → j < i + 1 + k → (x j).pc t ≠ .held := fun j h1 h2 => hheld j (by omega) (by omega)
    rw [show i + (k + 1) = i + 1 + k by omega]
    obtain hsame | ⟨m, c₁, hm, hc₁⟩ := hnext
    · exact ih (by omega) hok hsame hlater
    · obtain ⟨ms, c', hms, hc'⟩ := ih (by omega) (callStep_account hsm hok hm).1 hc₁ hlater
      exact ⟨m :: ms, c', by simp only [runList, hm, Option.bind_some, hms], hc'⟩

/-- So in every run: from the compare-exchange of `__impl_mut_lock` that fails to the lock a thread accounts the rounds
    it makes, and `sm` more if its `fetch_add` finds the lock bit clear. -/
theorem run_accounts {n : ℕ} {x : ℕ → St N} {e : ℕ → Ev N} (hx : (sys N sm).Run n x e) (hsm : sm ≠ 0) {i k : ℕ}
    {mo : MemoryOrder} (hi : i + 1 + k ≤ n) (hfast : (x i).pc t = .fast mo) (hrun : e i = .run t) (hfail : (x i).word ≠ 0)
    (hwaits : ∀ j, i + 1 ≤ j → j < i + 1 + k → (x j).pc t ≠ .held) (hheld : (x (i + 1 + k)).pc t = .held) :
    ∃ ms c, runList (callStep sm) (callStart sm (x i).word mo) ms = some c ∧ c.pc = .held ∧
      c.counters.spin = c.rounds + sm.toNat * clearAdds sm (callStart sm (x i).word mo) ms ∧
      clearAdds sm (callStart sm (x i).word mo) ms ≤ 1 := by
  have hstep : step sm (x i) (.run t) = some (x (i + 1)) := hrun ▸ hx.next i (by omega)
  have hpc : (x (i + 1)).pc t = (callStart sm (x i).word mo).pc := by
    simp only [step, hfast, fast_starts hfail, Option.map_some, Option.some.injEq] at hstep
    rw [← hstep]
    exact Function.update_self ..
  obtain ⟨ms, c, hms, hc⟩ := run_meets hx hsm hi (start_ok hsm) hpc hwaits
  have hcheld : c.pc = .held := hc.symm.trans hheld
  exact ⟨ms, c, hms, hcheld, held_account hsm hms hcheld, clearAdds_le hsm (start_ok hsm)⟩

end

/-! ## The spin statistic -/

/-- The spin statistic counts the spins of a call just if its `fetch_add`, where it makes
    one, finds the lock bit set. A `size_t` of 32 bits or more does not hide the difference. -/
theorem spin_statistic_iff (sm val : Unsigned) (mo : MemoryOrder) (g : Statistics) (ms : List Met) (c : Call)
    (hsm : sm ≠ 0) (hrun : runList (callStep sm) (callStart sm val mo) ms = some c) (hheld : c.pc = .held) :
    ((finish g c).counters.spin = g.counters.spin + c.rounds ↔ clearAdds sm (callStart sm val mo) ms = 0) ∧
      ∀ p, 32 ≤ p → ((finish g c).counters.spin ≡ g.counters.spin + c.rounds [MOD 2 ^ p] ↔
        clearAdds sm (callStart sm val mo) ms = 0) := by
  have hspin := held_account hsm hrun hheld
  have hone : clearAdds sm (callStart sm val mo) ms ≤ 1 := clearAdds_le hsm (start_ok hsm)
  have hpos := spins_pos hsm
  have hfin : (finish g c).counters.spin =
      g.counters.spin + c.rounds + sm.toNat * clearAdds sm (callStart sm val mo) ms := by
    simp only [finish, Counters.add, hspin]
    omega
  rw [hfin]
  obtain h0 | h1 : clearAdds sm (callStart sm val mo) ms = 0 ∨ clearAdds sm (callStart sm val mo) ms = 1 := by omega
  · simp [h0, Nat.ModEq.refl]
  · refine ⟨by simp [h1, hpos.ne'], fun p hp => iff_of_false (fun h => ?_) (by simp [h1])⟩
    have hdvd : 2 ^ p ∣ sm.toNat := by
      rw [h1, Nat.mul_one] at h
      exact Nat.modEq_zero_iff_dvd.mp (Nat.ModEq.add_left_cancel' _ h)
    have hlt : sm.toNat < 2 ^ p := Nat.lt_of_lt_of_le sm.isLt (Nat.pow_le_pow_right (by decide) hp)
    exact absurd (Nat.le_of_dvd hpos hdvd) (by omega)

/-- `spins_max` before a calibration. -/
def spinsMax : Unsigned := 10

def statistics : Statistics := ⟨0, .zero⟩

/-- Another thread holds the lock during the first loop. -/
def heldThrough : List Met := List.replicate 10 (.word contrib)

/-- That thread releases it before the `fetch_add`: 10 rounds, and 20 accounted. -/
theorem release_before_add :
    ∃ c, runList (callStep spinsMax) (callStart spinsMax contrib .seqCst) (heldThrough ++ [.word 0, .word 1]) =
      some c ∧ c.pc = .held ∧ (finish statistics c).counters.spin ≠ statistics.counters.spin + c.rounds :=
  ⟨⟨.held, ⟨1, 0, 0, 20⟩, 10⟩, by decide, rfl, by decide⟩

/-- It releases it after the `fetch_add`. -/
theorem release_after_add :
    ∃ c, runList (callStep spinsMax) (callStart spinsMax contrib .seqCst) (heldThrough ++ [.word contrib, .word 1]) =
      some c ∧ c.pc = .held ∧ (finish statistics c).counters.spin = statistics.counters.spin + c.rounds :=
  ⟨⟨.held, ⟨1, 0, 0, 10⟩, 10⟩, by decide, rfl,
    (spin_statistic_iff spinsMax contrib .seqCst statistics (heldThrough ++ [.word contrib, .word 1])
      ⟨.held, ⟨1, 0, 0, 10⟩, 10⟩ (by decide) (by decide) rfl).1.mpr (by decide)⟩

end Stdatomic.Futex
