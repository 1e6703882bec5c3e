/-
  Stdatomic.Lib.SpinLock — locks on one word that are taken by attempts, repeated until one
  succeeds, run by any number of threads.

  A lock (`Alg`) gives the word of a free lock, what an attempt does to the word, and what
  unlocking does. An attempt is made at a place in the code of lock (`K`) and succeeds
  or goes on at another place; unlocking may have a rest to do after the word is changed.

  A lock is sound for a word `taken` (`Sound`) if an attempt turns the free word into
  `taken`, fails on `taken` and leaves it, and unlocking turns `taken` back. Then it is a
  mutex: the word says at any time whether there is a holder, and every run is one of the
  abstract mutex (`refines_mutex`, `sound_mutex`). Where a second attempt succeeds as the
  first did, two threads hold it at once (`two_holders`).
-/

import Stdatomic.Lib.Mutex
import Mathlib.Logic.Function.Basic

namespace SpinLock

universe u v w x

structure Alg (W : Type u) (A : Type v) (K : Type w) where
  free : W
  /-- Where a call makes its first attempt. -/
  enter : A → K
  /-- The word after an attempt, and where the next one is made if it failed. -/
  attempt : K → W → W × Option K
  /-- The word after unlocking, and whether there is a rest to do. -/
  release : A → W → W × Bool

inductive Pc (K : Type w) where
  | out
  | trying (k : K)
  | held
  | leaving
  deriving DecidableEq, Repr

structure St (ι : Type x) (W : Type u) (K : Type w) where
  word : W
  pc : ι → Pc K

inductive Ev (ι : Type x) (A : Type v) where
  | lock (t : ι) (a : A)
  | attempt (t : ι)
  | unlock (t : ι) (a : A)
  | leave (t : ι)
  deriving DecidableEq, Repr

variable {W : Type u} {A : Type v} {K : Type w} (L : Alg W A K) {ι : Type x} [DecidableEq ι]

def afterAttempt : Option K → Pc K
  | none => .held
  | some k => .trying k

def step (s : St ι W K) : Ev ι A → Option (St ι W K)
  | .lock t a =>
    match s.pc t with
    | .out => some { s with pc := Function.update s.pc t (.trying (L.enter a)) }
    | _ => none
  | .attempt t =>
    match s.pc t with
    | .trying k => some ⟨(L.attempt k s.word).1, Function.update s.pc t (afterAttempt (L.attempt k s.word).2)⟩
    | _ => none
  | .unlock t a =>
    match s.pc t with
    | .held => some ⟨(L.release a s.word).1, Function.update s.pc t (if (L.release a s.word).2 then .leaving else .out)⟩
    | _ => none
  | .leave t =>
    match s.pc t with
    | .leaving => some { s with pc := Function.update s.pc t .out }
    | _ => none

def start : St ι W K := ⟨L.free, fun _ => .out⟩

def sys (ι : Type x) [DecidableEq ι] : Lts.Sys (St ι W K) (Ev ι A) where
  init s := s = start L
  step s e s' := step L s e = some s'

inductive Moves (s : St ι W K) : Ev ι A → St ι W K → Prop
  | lock (t : ι) (a : A) : s.pc t = .out → Moves s (.lock t a) { s with pc := Function.update s.pc t (.trying (L.enter a)) }
  | attempt (t : ι) (k : K) : s.pc t = .trying k →
      Moves s (.attempt t) ⟨(L.attempt k s.word).1, Function.update s.pc t (afterAttempt (L.attempt k s.word).2)⟩
  | unlock (t : ι) (a : A) : s.pc t = .held → Moves s (.unlock t a)
      ⟨(L.release a s.word).1, Function.update s.pc t (if (L.release a s.word).2 then .leaving else .out)⟩
  | leave (t : ι) : s.pc t = .leaving → Moves s (.leave t) { s with pc := Function.update s.pc t .out }

variable {L}

theorem step_moves {s s' : St ι W K} {e : Ev ι A} (h : step L s e = some s') : Moves L s e s' := by
  cases e with
  | lock t a =>
    simp only [step] at h
    split at h
    · cases h; exact .lock t a ‹_›
    · cases h
  | attempt t =>
    simp only [step] at h
    split at h
    · cases h; exact .attempt t _ ‹_›
    · cases h
  | unlock t a =>
    simp only [step] at h
    split at h
    · cases h; exact .unlock t a ‹_›
    · cases h
  | leave t =>
    simp only [step] at h
    split at h
    · cases h; exact .leave t ‹_›
    · cases h

/-! ## Soundness -/

/-- The free word and `taken` are the states of a mutex. -/
structure Sound (L : Alg W A K) (taken : W) : Prop where
  ne : taken ≠ L.free
  take : ∀ k, L.attempt k L.free = (taken, none)
  fail : ∀ k, ∃ k', L.attempt k taken = (taken, some k')
  release : ∀ a, L.release a taken = (L.free, false)

structure Holder (L : Alg W A K) (taken : W) (s : St ι W K) (o : Option ι) : Prop where
  pc : ∀ t, s.pc t = .held ↔ o = some t
  word : s.word = if o.isSome then taken else L.free
  back : ∀ t, s.pc t ≠ .leaving

def isHeld : Pc K → Bool
  | .held => true
  | _ => false

def label (_ : St ι W K) (e : Ev ι A) (s' : St ι W K) : Option (Mutex.Ev ι) :=
  match e with
  | .attempt t => if isHeld (s'.pc t) then some (.take t) else none
  | .unlock t _ => some (.release t)
  | _ => none

section
variable {taken : W} {s : St ι W K} {o o' : Option ι}

omit [DecidableEq ι] in
theorem Holder.word_of_held (h : Holder L taken s o) {t : ι} (ht : s.pc t = .held) : s.word = taken := by
  rw [h.word, (h.pc t).mp ht]
  rfl

/-- One thread moves; the holder changes with it or stays. -/
theorem Holder.update (h : Holder L taken s o) {t : ι} {q : Pc K} {w : W} (hq : q = .held ↔ o' = some t)
    (hne : q ≠ .leaving) (hother : ∀ u, u ≠ t → (o = some u ↔ o' = some u))
    (hw : w = if o'.isSome then taken else L.free) : Holder L taken ⟨w, Function.update s.pc t q⟩ o' := by
  refine ⟨fun u => ?_, hw, fun u => ?_⟩
  · by_cases e : u = t
    · subst e
      simpa using hq
    · simp only [Function.update_of_ne e]
      exact (h.pc u).trans (hother u e)
  · by_cases e : u = t
    · subst e
      simpa using hne
    · simp only [Function.update_of_ne e]
      exact h.back u

/-- A thread that does not hold the lock goes where it does not either. -/
theorem Holder.move (h : Holder L taken s o) {t : ι} {q : Pc K} (hp : s.pc t ≠ .held) (hq : q ≠ .held)
    (hne : q ≠ .leaving) : Holder L taken ⟨s.word, Function.update s.pc t q⟩ o :=
  h.update ⟨fun hh => absurd hh hq, fun ho => absurd ((h.pc t).mpr ho) hp⟩ hne (fun _ _ => Iff.rfl) h.word

/-- With the lock free, a thread becomes its holder. -/
theorem Holder.takes (h : Holder L taken s none) (t : ι) :
    Holder L taken ⟨taken, Function.update s.pc t .held⟩ (some t) :=
  h.update ⟨fun _ => rfl, fun _ => rfl⟩ nofun (fun _ hu => ⟨nofun, fun ho => absurd (Option.some.inj ho).symm hu⟩) rfl

theorem Holder.releases {t : ι} (h : Holder L taken s (some t)) :
    Holder L taken ⟨L.free, Function.update s.pc t .out⟩ none :=
  h.update ⟨nofun, nofun⟩ nofun (fun _ hu => ⟨fun ho => absurd (Option.some.inj ho).symm hu, nofun⟩) rfl

omit [DecidableEq ι] in
/-- An attempt on a free lock takes it. -/
theorem Holder.attempt_free (hL : Sound L taken) (h : Holder L taken s none) (k : K) :
    L.attempt k s.word = (taken, none) := by
  rw [h.word]
  exact hL.take k

omit [DecidableEq ι] in
theorem Holder.attempt_taken (hL : Sound L taken) {u : ι} (h : Holder L taken s (some u)) (k : K) :
    ∃ k', L.attempt k s.word = (s.word, some k') := by
  rw [h.word]
  exact hL.fail k

end

/-- A sound lock refines the abstract mutex; its word says whether there is a holder. -/
theorem refines_mutex {taken : W} (hL : Sound L taken) :
    Lts.Sys.Sim (sys L ι) (Mutex.sys ι) (Holder L taken) label where
  init s h := by
    refine ⟨none, rfl, ?_⟩
    rw [show s = start L from h]
    exact ⟨fun t => ⟨nofun, nofun⟩, rfl, fun t => nofun⟩
  stutter s e s' o _ hR hs hl := by
    cases step_moves hs with
    | lock t a ht => exact hR.move (by rw [ht]; nofun) nofun nofun
    | attempt t k ht =>
      cases o with
      | none =>
        have htake := hR.attempt_free hL k
        simp [label, htake, afterAttempt, isHeld] at hl
      | some u =>
        obtain ⟨k', hfail⟩ := hR.attempt_taken hL k
        rw [hfail]
        exact hR.move (by rw [ht]; nofun) nofun nofun
    | unlock t a ht => nomatch hl
    | leave t ht => exact absurd ht (hR.back t)
  step s e s' o b _ hR hs hl := by
    cases step_moves hs with
    | lock t a ht => nomatch hl
    | attempt t k ht =>
      cases o with
      | none =>
        have htake := hR.attempt_free hL k
        have hb : b = .take t := by simpa [label, htake, afterAttempt, isHeld, eq_comm] using hl
        subst hb
        rw [htake]
        exact ⟨some t, Mutex.step_take.mpr ⟨rfl, rfl⟩, hR.takes t⟩
      | some u =>
        obtain ⟨k', hfail⟩ := hR.attempt_taken hL k
        simp [label, hfail, afterAttempt, isHeld] at hl
    | unlock t a ht =>
      have ho : o = some t := (hR.pc t).mp ht
      subst ho
      have hrel : L.release a s.word = (L.free, false) := by rw [hR.word]; exact hL.release a
      have hb : b = .release t := (Option.some.inj hl).symm
      subst hb
      rw [hrel]
      exact ⟨none, Mutex.step_release.mpr ⟨rfl, rfl⟩, hR.releases⟩
    | leave t ht => nomatch hl

/-- A lock run by the threads `ι` is a mutex, with `taken` in the word while it is held. -/
structure IsMutex (L : Alg W A K) (taken : W) (ι : Type x) [DecidableEq ι] : Prop where
  word : ∀ s, (sys L ι).Reach s → s.word = L.free ∨ s.word = taken
  one : ∀ s, (sys L ι).Reach s → ∀ t u, s.pc t = .held → s.pc u = .held → t = u
  held : ∀ s, (sys L ι).Reach s → (s.word = taken ↔ ∃ t, s.pc t = .held)
  back : ∀ s, (sys L ι).Reach s → ∀ t, s.pc t ≠ .leaving
  run : ∀ n x e, (sys L ι).Run n x e → ∃ y : ℕ → Option ι, y 0 = none ∧
    (∀ i ≤ n, ∀ t, (x i).pc t = .held ↔ y i = some t) ∧
    ∀ i < n, (Mutex.sys ι).stepOf (label (x i) (e i) (x (i + 1))) (y i) (y (i + 1))

theorem sound_mutex {taken : W} (hL : Sound L taken) : IsMutex L taken ι := by
  have inv : ∀ s, (sys L ι).Reach s → ∃ o, Holder L taken s o := by
    intro s h
    obtain ⟨o, -, hR⟩ := (refines_mutex hL).reach h
    exact ⟨o, hR⟩
  refine ⟨fun s h => ?_, fun s h t u ht hu => ?_, fun s h => ?_, fun s h t => ?_, fun n x e hx => ?_⟩
  · obtain ⟨o, hR⟩ := inv s h
    rw [hR.word]
    cases o with
    | none => exact Or.inl rfl
    | some t => exact Or.inr rfl
  · obtain ⟨o, hR⟩ := inv s h
    exact Option.some.inj (((hR.pc t).mp ht).symm.trans ((hR.pc u).mp hu))
  · obtain ⟨o, hR⟩ := inv s h
    constructor
    · intro hw
      cases o with
      | none => exact absurd (hw.symm.trans hR.word) hL.ne
      | some t => exact ⟨t, (hR.pc t).mpr rfl⟩
    · rintro ⟨t, ht⟩
      exact hR.word_of_held ht
  · obtain ⟨o, hR⟩ := inv s h
    exact hR.back t
  · obtain ⟨y, h0, hR, hs⟩ := (refines_mutex hL).run hx
    exact ⟨y, h0, fun i hi => (hR i hi).pc, hs⟩

/-- If the first attempt on the word that a first attempt leaves succeeds too, a second thread gets in. -/
theorem two_holders {a : A} {w w' : W} (h : L.attempt (L.enter a) L.free = (w, none))
    (h' : L.attempt (L.enter a) w = (w', none)) :
    ∃ s, (sys L Bool).Reach s ∧ s.pc false = .held ∧ s.pc true = .held := by
  have hpc : Function.update (Function.update (fun _ => (.out : Pc K)) false .held) true .held = fun _ => .held := by
    funext t
    cases t <;> rfl
  have hrun : Lts.Sys.runList (step L) (start L) [.lock false a, .attempt false, .lock true a, .attempt true] =
      some ⟨w', fun _ => .held⟩ := by
    simp [Lts.Sys.runList, step, start, h, h', afterAttempt, hpc]
  exact ⟨_, .runList (fun _ _ _ h => h) (.init rfl) hrun, rfl, rfl⟩

end SpinLock
