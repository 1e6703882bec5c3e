/-
  Stdatomic.Futex.Invariant — what the word of the futex lock says.

  A registered thread is counted in the word: the holder, from its acquiring
  compare-exchange to its `fetch_sub`, and every thread past the `fetch_add` of the slow
  path that has not acquired yet. The invariant (`Inv`): the word is `2^31` times the
  number of holders plus the number of registered threads, there is at most one holder,
  and what a thread remembers of the word is a value the word can have (`Ok`), so that
  the value its next compare-exchange expects has the lock bit clear.

  One operation of one thread (`atomic_effect`) takes the lock, registers the thread, or
  leaves the word alone; each keeps the invariant (`step_inv`), hence `inv`.
-/

import Stdatomic.Futex.Lock
import Stdatomic.Lib.Count

namespace Stdatomic.Futex

open Family

/-! ## The word -/

theorem lockbit_toNat : lockbit.toNat = 2 ^ 31 := by decide

theorem contrib_toNat : contrib.toNat = 2 ^ 31 + 1 := by decide

theorem locked_iff {v : Unsigned} : locked v = true ↔ 2 ^ 31 ≤ v.toNat := by
  have h : lockbit = BitVec.twoPow 32 31 := by decide
  have h0 : BitVec.twoPow 32 31 ≠ 0 := by decide
  have hm : v.getLsbD 31 = v.msb := by simp [BitVec.msb, BitVec.getMsbD]
  rw [locked, h, BitVec.and_twoPow, hm, BitVec.msb_eq_decide]
  by_cases e : 2 ^ 31 ≤ v.toNat <;> simp

theorem not_locked_iff {v : Unsigned} : locked v = false ↔ v.toNat < 2 ^ 31 := by
  rw [← Bool.not_eq_true, locked_iff, Nat.not_le]

theorem or_lockbit {v : Unsigned} (h : v.toNat < 2 ^ 31) : v ||| lockbit = v + lockbit := by
  have h0 : v &&& lockbit = 0 := by simpa [locked] using not_locked_iff.mpr h
  exact (BitVec.add_eq_or_of_and_eq_zero _ _ h0).symm

def counter (v : Unsigned) : ℕ := v.toNat % 2 ^ 31

/-! ## Threads -/

def holds : Pc → Bool
  | .held => true
  | _ => false

def registered : Pc → Bool
  | .spin _ => true
  | .wait _ => true
  | .asleep _ => true
  | .retry _ => true
  | .unset _ => true
  | .held => true
  | _ => false

@[simp] theorem holds_held : holds .held = true := rfl

@[simp] theorem registered_held : registered .held = true := rfl

theorem holds_iff {p : Pc} : holds p = true ↔ p = .held := by
  cases p <;> simp [holds]

theorem registered_of_holds {p : Pc} (h : holds p = true) : registered p = true := by
  cases p <;> simp_all [holds, registered]

/-- A value of the word: the lock bit comes with the holder's count. -/
def Seen (v : Unsigned) : Prop := 2 ^ 31 ≤ v.toNat → 2 ^ 31 < v.toNat

def Ok : Pc → Prop
  | .first l => Seen l.val
  | .spin l => 2 ^ 31 < l.val.toNat
  | .wait l => 2 ^ 31 < l.val.toNat
  | .asleep l => 2 ^ 31 < l.val.toNat
  | .retry l => 2 ^ 31 < l.val.toNat
  | .unset l => l.val.toNat < 2 ^ 31
  | _ => True

/-- What the next operation of a thread at `p` does to the word, and where it leaves the thread. -/
inductive Effect (p : Pc) (w : Unsigned) : Unsigned → Pc → Prop
  /-- A compare-exchange succeeds. -/
  | take : holds p = false → w.toNat < 2 ^ 31 →
      Effect p w (w + if registered p then lockbit else contrib) .held
  /-- The `fetch_add`. -/
  | enlist (l : Slow) (q : Pc) : p = .add l → holds q = false → registered q = true → (Seen (w + 1) → Ok q) →
      Effect p w (w + 1) q
  | keep (q : Pc) : holds p = false → holds q = false → registered q = registered p → Ok q → Effect p w w q

theorem ok_of_seen {v : Unsigned} (h : Seen v) (hl : locked v = true) : 2 ^ 31 < v.toNat := h (locked_iff.mp hl)

/-- Both guesses of the first loop add `contrib` to a value with the lock bit clear. -/
theorem guess_spec {v : Unsigned} (h : Seen v) :
    (guess v).2 = (guess v).1 + contrib ∧ (guess v).1.toNat < 2 ^ 31 := by
  have hc := contrib_toNat
  unfold guess
  by_cases e : locked v = true
  · have hv := ok_of_seen h e
    simp only [e, if_true]
    exact ⟨by bv_omega, by rw [BitVec.toNat_sub]; omega⟩
  · have hv := not_locked_iff.mp (Bool.not_eq_true _ ▸ e)
    simp only [e, Bool.false_eq_true, if_false]
    exact ⟨trivial, hv⟩

/-- The guess of the spin and futex loops adds the lock bit to a value with the bit clear. -/
theorem sub_spec {v : Unsigned} (h : 2 ^ 31 < v.toNat) :
    v - 1 = v - contrib + lockbit ∧ (v - contrib).toNat < 2 ^ 31 := by
  have hc := contrib_toNat
  have hl := lockbit_toNat
  have hd : lockbit + 1 = contrib := by decide
  exact ⟨by bv_omega, by rw [BitVec.toNat_sub]; omega⟩

/-- Every compare-exchange expects the lock bit clear and adds what its thread does not yet contribute. -/
theorem cas_spec {p : Pc} {exp des : Unsigned} (hp : Ok p) (h : casArgs p = some (exp, des)) :
    holds p = false ∧ exp.toNat < 2 ^ 31 ∧ des = exp + if registered p then lockbit else contrib := by
  cases p with
  | fast mo =>
    cases h
    exact ⟨rfl, by decide, (BitVec.zero_add contrib).symm⟩
  | first l =>
    obtain ⟨hd, hlt⟩ := guess_spec hp
    rw [Option.some.inj h] at hd hlt
    exact ⟨rfl, hlt, hd⟩
  | spin l | retry l =>
    obtain ⟨hd, hlt⟩ := sub_spec hp
    cases h
    exact ⟨rfl, hlt, hd⟩
  | unset l =>
    cases h
    exact ⟨rfl, hp, or_lockbit hp⟩
  | out | add | wait | asleep | held | wake => cases h

theorem atomic_effect {sm w w' : Unsigned} {p q : Pc} (hp : Ok p) (hw : Seen w)
    (h : atomic sm w p = some (w', q)) : Effect p w w' q := by
  by_cases hc : ∃ d, casArgs p = some (w, d)
  · obtain ⟨d, hc⟩ := hc
    obtain ⟨hh, hlt, hd⟩ := cas_spec hp hc
    rw [atomic_cas hc] at h
    cases h
    rw [hd]
    exact .take hh hlt
  have fails : ∀ {exp des}, casArgs p = some (exp, des) → w ≠ exp := fun h' e => hc ⟨_, e ▸ h'⟩
  -- a thread that read the word to `val` goes on by its lock bit
  have unlocked : locked w = false → w.toNat < 2 ^ 31 := not_locked_iff.mp
  have held : locked w = true → 2 ^ 31 < w.toNat := ok_of_seen hw
  cases p with
  | out | held | wake | asleep => cases h
  | fast mo =>
    rw [atomic_fast_ne (fails rfl)] at h
    cases h
    exact .keep _ rfl rfl rfl hw
  | first l =>
    rw [atomic_first_ne (fails rfl)] at h
    cases h
    split
    · exact .keep _ rfl rfl rfl trivial
    · exact .keep _ rfl rfl rfl hw
  | add l =>
    simp only [atomic, Option.some.injEq, Prod.mk.injEq] at h
    obtain ⟨rfl, rfl⟩ := h
    rw [BitVec.add_comm 1 w]
    split
    · rename_i hl
      exact .enlist l _ rfl rfl rfl fun hs => ok_of_seen hs hl
    · rename_i hl
      exact .enlist l _ rfl rfl rfl fun _ => not_locked_iff.mp (Bool.not_eq_true _ ▸ hl)
  | spin l =>
    rw [atomic_spin_ne (fails rfl)] at h
    cases h
    cases hl : locked w with
    | false => exact .keep _ rfl rfl rfl (unlocked hl)
    | true =>
      simp only [Bool.not_true, Bool.false_eq_true, if_false]
      split
      · exact .keep _ rfl rfl rfl (held hl)
      · exact .keep _ rfl rfl rfl (held hl)
  | wait l =>
    simp only [atomic, Option.some.injEq, Prod.mk.injEq] at h
    obtain ⟨rfl, rfl⟩ := h
    split
    · exact .keep _ rfl rfl rfl hp
    · exact .keep _ rfl rfl rfl hp
  | retry l =>
    rw [atomic_retry_ne (fails rfl)] at h
    cases h
    cases hl : locked w with
    | false => exact .keep _ rfl rfl rfl (unlocked hl)
    | true => exact .keep _ rfl rfl rfl (held hl)
  | unset l =>
    rw [atomic_unset_ne (fails rfl)] at h
    cases h
    cases hl : locked w with
    | false => exact .keep _ rfl rfl rfl (unlocked hl)
    | true => exact .keep _ rfl rfl rfl (held hl)

/-! ## The invariant -/

structure Inv (s : St N) : Prop where
  word : s.word.toNat = 2 ^ 31 * count holds s.pc + count registered s.pc
  one : count holds s.pc ≤ 1
  ok : ∀ t, Ok (s.pc t)

theorem holds_le_registered (f : Fin N → Pc) : count holds f ≤ count registered f :=
  count_mono fun _ h => registered_of_holds h

theorem registered_le (f : Fin N → Pc) : count registered f ≤ N := by
  simpa using count_le_card (p := registered) (f := f)

/-- A thread that is not registered leaves room in the counter. -/
theorem registered_lt {f : Fin N → Pc} {t : Fin N} (h : registered (f t) = false) : count registered f < N := by
  simpa using count_lt h

theorem Inv.seen {s : St N} (h : Inv s) (hN : N ≤ 2 ^ 31 - 1) : Seen s.word := by
  have h1 := h.word
  have h2 := h.one
  have h3 := holds_le_registered s.pc
  have h4 := registered_le s.pc
  unfold Seen
  omega

theorem Inv.holds_zero {s : St N} (h : Inv s) (hw : s.word.toNat < 2 ^ 31) : count holds s.pc = 0 := by
  have := h.word
  omega

theorem ok_update {s : St N} (h : Inv s) {t : Fin N} {q : Pc} (hq : Ok q) (u : Fin N) :
    Ok (Function.update s.pc t q u) := by
  by_cases e : u = t
  · subst e; simpa using hq
  · simpa [Function.update_of_ne e] using h.ok u

/-- A thread that changes its place but not its class leaves the invariant. -/
theorem Inv.move {s : St N} (h : Inv s) {t : Fin N} {q : Pc} (hq : Ok q) (hh : holds q = holds (s.pc t))
    (hr : registered q = registered (s.pc t)) : Inv (goto s t q) := by
  have e1 := count_update_eq hh
  have e2 := count_update_eq hr
  exact ⟨by simp only [goto, e1, e2, h.word], by simp only [goto, e1, h.one], ok_update h hq⟩

theorem Inv.take {s : St N} (h : Inv s) (hN : N ≤ 2 ^ 31 - 1) {t : Fin N} (hh : holds (s.pc t) = false)
    (hw : s.word.toNat < 2 ^ 31) :
    Inv ⟨s.word + if registered (s.pc t) then lockbit else contrib, Function.update s.pc t .held⟩ := by
  have hc := contrib_toNat
  have hl := lockbit_toNat
  have hword := h.word
  have h0 := h.holds_zero hw
  have h1 := count_update (p := holds) (f := s.pc) t .held
  have h2 := count_update (p := registered) (f := s.pc) t .held
  simp only [hh, holds_held, registered_held, Bool.toNat_true, Bool.toNat_false] at h1 h2
  refine ⟨?_, by simp only; omega, ok_update h trivial⟩
  show (s.word + if registered (s.pc t) then lockbit else contrib).toNat = _
  rw [BitVec.toNat_add]
  by_cases hr : registered (s.pc t) = true
  · rw [if_pos hr, hl]
    rw [hr, Bool.toNat_true] at h2
    simp only
    omega
  · have hr' : registered (s.pc t) = false := by simpa using hr
    have := registered_lt hr'
    rw [if_neg hr, hc]
    rw [hr', Bool.toNat_false] at h2
    simp only
    omega

theorem Inv.enlist {s : St N} (h : Inv s) (hN : N ≤ 2 ^ 31 - 1) {t : Fin N} {q : Pc} (hh : holds (s.pc t) = false)
    (hr : registered (s.pc t) = false) (hh' : holds q = false) (hr' : registered q = true)
    (hok : Seen (s.word + 1) → Ok q) : Inv ⟨s.word + 1, Function.update s.pc t q⟩ := by
  have hword := h.word
  have hone := h.one
  have hlt := registered_lt hr
  have hle := holds_le_registered s.pc
  have h1 := count_update (p := holds) (f := s.pc) t q
  have h2 := count_update (p := registered) (f := s.pc) t q
  simp only [hh, hh', hr, hr', Bool.toNat_true, Bool.toNat_false] at h1 h2
  have hw : (s.word + 1).toNat = s.word.toNat + 1 := by
    rw [BitVec.toNat_add, show (1 : Unsigned).toNat = 1 from rfl]
    omega
  refine ⟨by simp only [hw]; omega, by simp only; omega, ok_update h (hok ?_)⟩
  unfold Seen
  omega

theorem Inv.effect {s : St N} (h : Inv s) (hN : N ≤ 2 ^ 31 - 1) {t : Fin N} {w : Unsigned} {q : Pc}
    (he : Effect (s.pc t) s.word w q) : Inv ⟨w, Function.update s.pc t q⟩ := by
  cases he with
  | take hh hw => exact h.take hN hh hw
  | enlist l q hp hh hr hok => exact h.enlist hN (by rw [hp]; rfl) (by rw [hp]; rfl) hh hr hok
  | keep q hh hh' hr hok => exact h.move hok (hh'.trans hh.symm) hr

/-- The `fetch_sub` takes the holder's contribution out of the word. -/
theorem Inv.release {s : St N} (h : Inv s) {t : Fin N} (ht : s.pc t = .held) :
    Inv ⟨s.word - contrib, Function.update s.pc t (afterSub s.word)⟩ := by
  have hc := contrib_toNat
  have hq : holds (afterSub s.word) = false ∧ registered (afterSub s.word) = false ∧ Ok (afterSub s.word) := by
    unfold afterSub; split <;> exact ⟨rfl, rfl, trivial⟩
  have hword := h.word
  have hone := h.one
  have hle := holds_le_registered s.pc
  have h1 := count_update (p := holds) (f := s.pc) t (afterSub s.word)
  have h2 := count_update (p := registered) (f := s.pc) t (afterSub s.word)
  rw [ht, hq.1] at h1
  rw [ht, hq.2.1] at h2
  simp only [holds_held, registered_held, Bool.toNat_true, Bool.toNat_false] at h1 h2
  have hw : (s.word - contrib).toNat = s.word.toNat - (2 ^ 31 + 1) := by
    rw [BitVec.toNat_sub, hc]; omega
  exact ⟨by simp only [hw]; omega, by simp only; omega, ok_update h hq.2.2⟩

theorem resumeWait_spec {p q : Pc} (h : resumeWait p = some q) :
    (Ok p → Ok q) ∧ holds q = false ∧ holds p = false ∧ registered q = true ∧ registered p = true := by
  cases p <;> simp only [resumeWait, Option.some.injEq, reduceCtorEq] at h <;> subst h <;>
    exact ⟨id, rfl, rfl, rfl, rfl⟩

theorem Inv.resume {s : St N} (h : Inv s) {t : Fin N} {q : Pc} (hq : resumeWait (s.pc t) = some q) :
    Inv (goto s t q) := by
  obtain ⟨ho, hh, hh', hr, hr'⟩ := resumeWait_spec hq
  exact h.move (ho (h.ok t)) (hh.trans hh'.symm) (hr.trans hr'.symm)

theorem init_inv : Inv (init : St N) := by
  have h1 : count holds (fun _ : Fin N => Pc.out) = 0 := count_eq_zero.mpr fun _ => rfl
  have h2 : count registered (fun _ : Fin N => Pc.out) = 0 := count_eq_zero.mpr fun _ => rfl
  exact ⟨by simp [init, h1, h2], by simp [init, h1], fun _ => trivial⟩

theorem step_inv {sm : Unsigned} {s s' : St N} {e : Ev N} (hN : N ≤ 2 ^ 31 - 1) (h : Inv s)
    (hs : step sm s e = some s') : Inv s' := by
  cases step_moves hs with
  | lock t mo ht => exact h.move trivial (by rw [ht]; rfl) (by rw [ht]; rfl)
  | run t w q ha => exact h.effect hN (atomic_effect (h.ok t) (h.seen hN) ha)
  | spurious t q hq => exact h.resume hq
  | unlock t mo ht => exact h.release ht
  | wakeOne t u l ht hu =>
    have hout : Inv (goto s t .out) := h.move trivial (by rw [ht]; rfl) (by rw [ht]; rfl)
    have hne : u ≠ t := by intro e; subst e; rw [ht] at hu; cases hu
    exact hout.resume (by simp [goto, Function.update_of_ne hne, hu, resumeWait])
  | wakeNone t ht => exact h.move trivial (by rw [ht]; rfl) (by rw [ht]; rfl)

theorem inv {sm : Unsigned} (hN : N ≤ 2 ^ 31 - 1) {s : St N} (h : (sys N sm).Reach s) : Inv s := by
  refine h.inv (I := Inv) (fun s h0 => ?_) fun s e s' _ hi hs => step_inv hN hi hs
  rw [show s = init from h0]
  exact init_inv

/-! ## Mutual exclusion -/

theorem Inv.locked_iff_held {s : St N} (h : Inv s) (hN : N ≤ 2 ^ 31 - 1) :
    locked s.word = true ↔ ∃ t, holds (s.pc t) = true := by
  have h1 := h.word
  have h2 := h.one
  have h3 := registered_le s.pc
  rw [locked_iff, ← count_pos]
  omega

theorem Inv.counter_eq {s : St N} (h : Inv s) (hN : N ≤ 2 ^ 31 - 1) : counter s.word = count registered s.pc := by
  have h1 := h.word
  have h3 := registered_le s.pc
  unfold counter
  omega

/-- A successful compare-exchange sets the clear lock bit, and counts the thread unless it is counted already. -/
theorem Inv.cas_sets {s : St N} (h : Inv s) (hN : N ≤ 2 ^ 31 - 1) {t : Fin N} {d : Unsigned}
    (hc : casArgs (s.pc t) = some (s.word, d)) :
    locked s.word = false ∧ locked d = true ∧
      counter d = counter s.word + if registered (s.pc t) then 0 else 1 := by
  obtain ⟨hh, hw, rfl⟩ := cas_spec (h.ok t) hc
  have hi := h.take hN hh hw
  have h2 := count_update (p := registered) (f := s.pc) t .held
  refine ⟨not_locked_iff.mpr hw, (hi.locked_iff_held hN).mpr ⟨t, by simp⟩, ?_⟩
  rw [h.counter_eq hN, hi.counter_eq hN]
  cases hr : registered (s.pc t) <;> simp [hr] at h2 ⊢ <;> omega

/-- The `fetch_add` counts its thread and leaves the lock bit. -/
theorem Inv.add_counts {s : St N} (h : Inv s) (hN : N ≤ 2 ^ 31 - 1) {t : Fin N} {l : Slow} (ht : s.pc t = .add l) :
    counter (s.word + 1) = counter s.word + 1 ∧ locked (s.word + 1) = locked s.word := by
  have hlt := registered_lt (f := s.pc) (t := t) (by rw [ht]; rfl)
  have hc := h.counter_eq hN
  unfold counter at hc ⊢
  have hw : (s.word + 1).toNat = s.word.toNat + 1 := by
    rw [BitVec.toNat_add, show (1 : Unsigned).toNat = 1 from rfl]
    omega
  exact ⟨by omega, by rw [Bool.eq_iff_iff, locked_iff, locked_iff]; omega⟩

/-- The `fetch_sub` takes the holder's count and the lock bit. -/
theorem Inv.sub_counts {s : St N} (h : Inv s) (hN : N ≤ 2 ^ 31 - 1) {t : Fin N} (ht : s.pc t = .held) :
    counter (s.word - contrib) + 1 = counter s.word ∧ locked s.word = true ∧ locked (s.word - contrib) = false := by
  have hl : locked s.word = true := (h.locked_iff_held hN).mpr ⟨t, by rw [ht]; rfl⟩
  have hs := ok_of_seen (h.seen hN) hl
  have hw : (s.word - contrib).toNat = s.word.toNat - (2 ^ 31 + 1) := by
    rw [BitVec.toNat_sub, contrib_toNat]; omega
  refine ⟨?_, hl, by rw [not_locked_iff]; omega⟩
  unfold counter
  omega

/-- The word is the lock bit of the holder and the number of registered threads; at most one
    thread holds the lock; a compare-exchange succeeds only from lock bit clear to set; the
    counter never carries into the lock bit or borrows from it; with nobody registered the
    word is 0. -/
theorem word_represents (N : ℕ) (hN : N ≤ 2 ^ 31 - 1) (sm : Unsigned) (s : St N) (h : (sys N sm).Reach s) :
    s.word.toNat = 2 ^ 31 * (if ∃ t, holds (s.pc t) = true then 1 else 0) + count registered s.pc ∧
    (∀ t u, holds (s.pc t) = true → holds (s.pc u) = true → t = u) ∧
    (∀ t exp des, casArgs (s.pc t) = some (exp, des) → s.word = exp → locked exp = false ∧ locked des = true ∧
      counter des = counter exp + (if registered (s.pc t) then 0 else 1) ∧
      step sm s (.run t) = some ⟨des, Function.update s.pc t .held⟩) ∧
    (∀ t l, s.pc t = .add l → counter (s.word + 1) = counter s.word + 1 ∧ locked (s.word + 1) = locked s.word) ∧
    (∀ t, s.pc t = .held → counter (s.word - contrib) + 1 = counter s.word ∧ locked s.word = true ∧
      locked (s.word - contrib) = false) ∧
    counter s.word = count registered s.pc ∧
    ((∀ t, registered (s.pc t) = false) → s.word = 0) := by
  have hi := inv hN h
  have hone := hi.one
  refine ⟨?_, fun t u ht hu => eq_of_count_le_one hone ht hu, ?_, fun t l => hi.add_counts hN,
    fun t => hi.sub_counts hN, hi.counter_eq hN, ?_⟩
  · rw [hi.word]
    split
    · rename_i hex
      have := count_pos.mpr hex
      omega
    · rename_i hex
      have : ¬ 0 < count holds s.pc := fun hp => hex (count_pos.mp hp)
      omega
  · rintro t exp des hc rfl
    obtain ⟨h1, h2, h3⟩ := hi.cas_sets hN hc
    exact ⟨h1, h2, h3, by simp [step, atomic_cas hc]⟩
  · intro hr
    have h0 := count_eq_zero.mpr hr
    have hw := hi.word
    have hle := holds_le_registered s.pc
    exact BitVec.eq_of_toNat_eq (by rw [hw]; simp; omega)

/-- Thread 0 holds the lock, thread 1 sleeps: the slow path taken to its end. -/
def contended : St 2 := ⟨0x80000002, ![.held, .asleep ⟨0x80000002, 0, .seqCst⟩]⟩

theorem contended_reach : (sys 2 1).Reach contended :=
  reach_of_runEvs [.lock 0 .seqCst, .run 0, .lock 1 .seqCst, .run 1, .run 1, .run 1, .run 1, .run 1] (by decide)

theorem contended_word : contended.word.toNat = 2 ^ 31 * (if ∃ t, holds (contended.pc t) = true then 1 else 0) + 
    count registered contended.pc :=
  (word_represents 2 (by decide) 1 contended contended_reach).1

end Stdatomic.Futex
