/-
  Stdatomic.Generic.Progress — how far the calls on one object get.

  A loop over a compare-exchange repeats an attempt only if the value it expected was not
  the object's; a failed attempt fetches the value, so the next one succeeds unless another
  call has taken effect in between. `Pc.rank` bounds how many steps a thread makes by itself
  while the object keeps its value, in a loop over the instruction as in one over
  the section of the unsized compare_exchange. So in a run that goes on for ever calls take
  effect for ever (`effects_go_on`), whichever way the sized functions come and whatever
  other functions are called. Without new calls every schedule comes to an end, and at its
  end all calls have returned (`calls_return`).

  Lock-free, a sized call waits for no other: whatever the others have left half done, inside a
  section too, alone it returns within three steps, and among others it makes at most one
  step more for each call that takes effect meanwhile (`sized_nonblocking`).
-/

import Stdatomic.Generic.Mixed
import Stdatomic.Lib.Count
import Mathlib.Data.Prod.Lex

namespace Stdatomic.Mixed

open CInt Arith Family

variable {w : ℕ}

/-! ## Ranks -/

/-- The steps up to the end of a section or of the loop it is called from, while the object is `v`. -/
def Sec.rank (v : BitVec w) : Sec w → Bool → ℕ
  | .compare E _, true => if E = v then 2 else 6
  | .unequal _, true => 5
  | .compare _ _, false => 2
  | .exchange _, _ => 2
  | _, _ => 1

def Pc.rank (v : BitVec w) : Pc w → ℕ
  | .instr _ => 1
  | .attempt _ E _ => if E = v then 1 else 2
  | .lock k l => k.rank v l.isSome + 1
  | .inside k l => k.rank v l.isSome
  | .unlock r l =>
    match back r l with
    | .lock k l' => k.rank v l'.isSome + 2
    | _ => 0
  | .ret _ => 0

def Pc.settledRank : Pc w → ℕ
  | .ret _ => 1
  | p => if p.final.isSome then 2 else 0

theorem Pc.settledRank_open {p : Pc w} (h : p.final = none) : p.settledRank = 0 := by
  cases p with
  | ret r => cases h
  | _ => simp only [settledRank, h, Option.isSome_none, Bool.false_eq_true, if_false]

/-- An attempt succeeds, or fetches the value and is made again. -/
theorem Pc.attempt_access {l : Loop w} {E R v v' : BitVec w} {p' : Pc w}
    (h : (Pc.attempt l E R).access v = some (v', p')) :
    v = E ∧ p' = .ret (l.result E R) ∨ v ≠ E ∧ v' = v ∧ p' = .attempt l v (l.next v) := by
  by_cases he : v = E
  · subst he
    simp only [Pc.access, compareExchange_eq, if_true, Option.some.injEq, Prod.mk.injEq] at h
    exact Or.inl ⟨rfl, h.2.symm⟩
  · simp only [Pc.access, compareExchange_ne he, Bool.false_eq_true, if_false, Option.some.injEq, Prod.mk.injEq] at h
    exact Or.inr ⟨he, h.1.symm, h.2.symm⟩

theorem Pc.access_holds {p p' : Pc w} {v v' : BitVec w} (h : p.access v = some (v', p')) : p'.holds = p.holds := by
  cases p with
  | inside k l =>
    simp only [Pc.access] at h
    split at h <;> cases h <;> rfl
  | instr f => cases h; rfl
  | attempt l E R => rcases Pc.attempt_access h with ⟨-, rfl⟩ | ⟨-, -, rfl⟩ <;> rfl
  | lock | unlock | ret => cases h

/-- An access that settles nothing leaves the object and gets its thread further. -/
theorem Pc.access_rank {p p' : Pc w} {v v' : BitVec w} (h : p.access v = some (v', p'))
    (hp : p'.final = none) : v' = v ∧ p'.rank v < p.rank v := by
  cases p with
  | lock k l => cases h
  | unlock r l => cases h
  | ret r => cases h
  | instr f => cases h; cases hp
  | attempt l E R =>
    rcases Pc.attempt_access h with ⟨-, rfl⟩ | ⟨he, rfl, rfl⟩
    · cases hp
    · refine ⟨rfl, ?_⟩
      simp only [Pc.rank, if_true, if_neg (Ne.symm he)]
      omega
  | inside k l =>
    cases k with
    | exchange x =>
      cases h
      exact ⟨rfl, Nat.lt_succ_self 1⟩
    | compare E d =>
      cases h
      refine ⟨rfl, ?_⟩
      by_cases he : E = v
      · simp only [if_pos he.symm, Pc.rank]
        cases l <;> simp [Sec.rank, he]
      · simp only [if_neg (Ne.symm he), Pc.rank]
        cases l <;> simp [Sec.rank, he]
    | unequal E =>
      cases h
      cases l with
      | none => cases hp
      | some l => exact ⟨rfl, by simp [Pc.rank, Pc.back, Sec.rank]⟩
    | load | store x | exchanged x y | equal E d =>
      -- the last step of these settles the call
      cases h
      cases l <;> cases hp

/-- What a step that is no access does to the rank: the rest of a section that failed goes on to the next attempt. -/
theorem Pc.back_rank (v : BitVec w) (r : Res w) (l : Option (Loop w × BitVec w)) :
    (Pc.unlock r l).final = none ∧ (back r l).final = none ∧ (back r l).rank v < (Pc.unlock r l).rank v ∨
      (back r l).settledRank < (Pc.unlock r l).settledRank ∧ (back r l).rank v = 0 ∧ (Pc.unlock r l).rank v = 0 := by
  rcases back_cases r l with ⟨r', hb⟩ | ⟨k, l', hb⟩
  · refine Or.inr ?_
    simp only [settledRank, final, rank, hb, Option.isSome_some, if_true]
    exact ⟨by decide, trivial, trivial⟩
  · refine Or.inl ?_
    simp only [final, rank, hb]
    exact ⟨trivial, trivial, by omega⟩

/-! ## What is left until a call takes effect -/

def Thr.settledRank : Thr w → ℕ
  | .idle => 0
  | .busy _ p => p.settledRank

def Thr.isIdle : Thr w → Bool
  | .idle => true
  | .busy _ _ => false

def Thr.rank (v : BitVec w) : Thr w → ℕ
  | .idle => 0
  | .busy _ p => p.rank v

section
variable {Tid : Type} [Fintype Tid]

/-- The settled calls still to return, the threads still to call, and the steps of each by itself. -/
def toDo (s : St Tid w) : ℕ ×ₗ ℕ ×ₗ ℕ :=
  toLex (∑ t, (s.thr t).settledRank, toLex (count Thr.isIdle s.thr, ∑ t, (s.thr t).rank s.obj))

theorem toDo_lt {s s' : St Tid w} (h : ∑ t, (s'.thr t).settledRank < ∑ t, (s.thr t).settledRank ∨
    ∑ t, (s'.thr t).settledRank = ∑ t, (s.thr t).settledRank ∧ (count Thr.isIdle s'.thr < count Thr.isIdle s.thr ∨
      count Thr.isIdle s'.thr = count Thr.isIdle s.thr ∧ ∑ t, (s'.thr t).rank s'.obj < ∑ t, (s.thr t).rank s.obj)) :
    toDo s' < toDo s := by
  simpa only [toDo, Prod.Lex.toLex_lt_toLex] using h

variable [DecidableEq Tid] {C : Impl} {T : IntTy} {inst : Inst} {s s' : St Tid T.width}

/-- A thread that goes on within an open call gets further. -/
theorem toDo_lt_of_rank {t : Tid} {x : Entry T.width} {p p' : Pc T.width} (ht : s.thr t = .busy x p)
    (hthr : s'.thr = Function.update s.thr t (.busy x p')) (hobj : s'.obj = s.obj) (hp : p.final = none)
    (hp' : p'.final = none) (hr : p'.rank s.obj < p.rank s.obj) : toDo s' < toDo s := by
  refine toDo_lt (Or.inr ⟨?_, Or.inr ⟨?_, ?_⟩⟩)
  · rw [hthr]
    exact sum_update_eq (by rw [ht]; exact (Pc.settledRank_open hp').trans (Pc.settledRank_open hp).symm)
  · rw [hthr]
    exact count_update_eq (by rw [ht]; rfl)
  · rw [hthr, hobj]
    exact sum_update_lt (m := Thr.rank s.obj) (by rw [ht]; exact hr)

/-- A call takes effect, or less is left to do until one does. -/
theorem step_toDo {e : Ev Tid T.width} (hs : step C T inst s e = some s') :
    s.log.length < s'.log.length ∨ toDo s' < toDo s := by
  cases step_moves hs with
  | call t c ht =>
    refine Or.inr (toDo_lt (Or.inr ⟨sum_update_eq ?_, Or.inl ?_⟩))
    · rw [ht]
      exact Pc.settledRank_open (code_fresh inst c).final
    · have h := count_update (p := Thr.isIdle) (f := s.thr) t
        (.busy ⟨s.calls.length, c, s.results.map Prod.fst⟩ (code C T inst c))
      rw [ht] at h
      have hb : (Thr.isIdle (.idle : Thr T.width)).toNat = 1 := rfl
      have ha : (Thr.isIdle (.busy ⟨s.calls.length, c, s.results.map Prod.fst⟩ (code C T inst c))).toNat = 0 := rfl
      simp only [St.goto]
      omega
  | access t x p p' v ht hp =>
    cases hf : p'.final with
    | some r => exact Or.inl (by simp [St.access, hf])
    | none =>
      obtain ⟨rfl, hr⟩ := Pc.access_rank hp hf
      exact Or.inr (toDo_lt_of_rank ht rfl rfl (Pc.access_open hp).1 hf hr)
  | lock t x k l ht hfree =>
    exact Or.inr (toDo_lt_of_rank ht rfl rfl rfl rfl (Nat.lt_succ_self _))
  | unlock t x r l ht hown =>
    rcases Pc.back_rank s.obj r l with ⟨hf, hf', hr⟩ | ⟨hr, -⟩
    · exact Or.inr (toDo_lt_of_rank ht rfl rfl hf hf' hr)
    · exact Or.inr (toDo_lt (Or.inl (sum_update_lt (by rw [ht]; exact hr))))
  | ret t x r ht => exact Or.inr (toDo_lt (Or.inl (sum_update_lt (by rw [ht]; exact Nat.one_pos))))

end

def Thr.isOpen : Thr w → Bool
  | .idle => false
  | .busy _ p => p.final.isNone

def Thr.holds : Thr w → Bool
  | .idle => false
  | .busy _ p => p.holds

section
variable {Tid : Type} [DecidableEq Tid] {C : Impl} {T : IntTy} {inst : Inst} {s s' : St Tid T.width}

/-- A call that takes effect is open no longer; nothing else but a new call changes which ones are. -/
theorem step_open [Fintype Tid] {e : Ev Tid T.width} (hs : step C T inst s e = some s') (he : ∀ t c, e ≠ .call t c) :
    count Thr.isOpen s'.thr < count Thr.isOpen s.thr ∨
      count Thr.isOpen s'.thr = count Thr.isOpen s.thr ∧ s'.log.length = s.log.length := by
  cases step_moves hs with
  | call t c ht => exact absurd rfl (he t c)
  | access t x p p' v ht hp =>
    have hopen : Thr.isOpen (.busy x p) = true := by simp [Thr.isOpen, (Pc.access_open hp).1]
    cases hf : p'.final with
    | some r =>
      have h := count_update (p := Thr.isOpen) (f := s.thr) t (.busy x p')
      have hclosed : Thr.isOpen (.busy x p') = false := by simp [Thr.isOpen, hf]
      rw [ht, hopen, hclosed, Bool.toNat_true, Bool.toNat_false] at h
      exact Or.inl (show count _ (Function.update s.thr t _) < _ by omega)
    | none =>
      refine Or.inr ⟨count_update_eq ?_, by simp [St.access, hf]⟩
      rw [ht, hopen]
      simp [Thr.isOpen, hf]
  | lock t x k l ht ho => exact Or.inr ⟨count_update_eq (by rw [ht]; rfl), rfl⟩
  | unlock t x r l ht ho =>
    have hfin : (Pc.back r l).final = (Pc.unlock r l).final := Pc.back_ok.2.1
    exact Or.inr ⟨count_update_eq (by rw [ht]; simp only [Thr.isOpen, hfin]), rfl⟩
  | ret t x r ht => exact Or.inr ⟨count_update_eq (by rw [ht]; rfl), rfl⟩

def Owned (s : St Tid w) : Prop := ∀ t, s.owner = some t ↔ (s.thr t).holds = true

/-- A thread that goes on without the lock, or keeps it. -/
theorem Owned.keep {t : Tid} {h : Thr T.width} (hi : Owned s) (hh : h.holds = (s.thr t).holds) {σ : St Tid T.width}
    (hthr : σ.thr = Function.update s.thr t h) (hown : σ.owner = s.owner) : Owned σ := by
  intro u
  rw [hthr, hown]
  by_cases e : u = t
  · subst e
    rw [Function.update_self, hh]
    exact hi u
  · rw [Function.update_of_ne e]
    exact hi u

theorem step_owned {e : Ev Tid T.width} (hi : Owned s) (hs : step C T inst s e = some s') : Owned s' := by
  cases step_moves hs with
  | call t c ht => exact hi.keep (by rw [ht]; exact (code_fresh inst c).holds) rfl rfl
  | access t x p p' v ht hp =>
    refine hi.keep ?_ rfl rfl
    rw [ht]
    exact Pc.access_holds hp
  | lock t x k l ht hfree =>
    intro u
    by_cases e : u = t
    · subst e
      simp [St.goto, Thr.holds, Pc.holds]
    · have hu := hi u
      rw [hfree] at hu
      simpa [St.goto, Function.update_of_ne e, Ne.symm e] using hu
  | unlock t x r l ht hown =>
    intro u
    by_cases e : u = t
    · subst e
      have hb : (Pc.back r l).holds = false := Pc.back_ok.2.2.1
      simp [St.goto, Thr.holds, hb]
    · have hu := hi u
      rw [hown] at hu
      simpa [St.goto, Function.update_of_ne e, Ne.symm e] using hu
  | ret t x r ht => exact hi.keep (by rw [ht]; rfl) rfl rfl

/-- Only a thread before a lock that another holds has no next step. -/
theorem runs_or_waits {t : Tid} {x : Entry T.width} {p : Pc T.width} (hi : Owned s) (ht : s.thr t = .busy x p) :
    (∃ s', step C T inst s (.run t) = some s') ∨ p.holds = false ∧ s.owner ≠ none := by
  simp only [step, ht]
  cases p with
  | lock k l =>
    cases ho : s.owner with
    | none => exact Or.inl ⟨_, by simp only [St.run, ho]; rfl⟩
    | some u => exact Or.inr ⟨rfl, fun e => by cases e⟩
  | unlock r l =>
    have ho : s.owner = some t := (hi t).mpr (by rw [ht]; rfl)
    exact Or.inl ⟨_, by simp only [St.run, ho, Mutex.step, if_true]; rfl⟩
  | inside k l =>
    simp only [St.run, Pc.access]
    split <;> exact Or.inl ⟨_, rfl⟩
  | instr | attempt | ret => exact Or.inl ⟨_, rfl⟩

theorem stuck_idle (hi : Owned s) (hstuck : ∀ t s', step C T inst s (.run t) ≠ some s') (t : Tid) :
    s.thr t = .idle := by
  cases ht : s.thr t with
  | idle => rfl
  | busy x p =>
    have hstop : ∀ u, ¬ ∃ s', step C T inst s (.run u) = some s' := fun u ⟨s', hs⟩ => hstuck u s' hs
    obtain ⟨-, ho⟩ := (runs_or_waits hi ht).resolve_left (hstop t)
    obtain ⟨u, hu⟩ := Option.ne_none_iff_exists'.mp ho
    have hholds := (hi u).mp hu
    -- the holder can go on
    cases hthr : s.thr u with
    | idle =>
      rw [hthr] at hholds
      cases hholds
    | busy y q =>
      rw [hthr] at hholds
      obtain ⟨hq, -⟩ := (runs_or_waits hi hthr).resolve_left (hstop u)
      rw [show (Thr.busy y q).holds = q.holds from rfl, hq] at hholds
      cases hholds

end

def Call.isUnsized : Call w → Bool
  | .unsized _ => true
  | _ => false

/-- What is to come takes no lock. -/
def Pc.direct : Pc w → Bool
  | .instr _ => true
  | .attempt _ _ _ => true
  | .ret _ => true
  | _ => false

/-- The steps of a call without the lock up to its return, while the object stays `v`. -/
def Pc.left (v : BitVec w) : Pc w → ℕ
  | .instr _ => 2
  | .attempt _ E _ => if E = v then 2 else 3
  | .ret _ => 1
  | _ => 0

def Thr.direct : Thr w → Bool
  | .idle => true
  | .busy _ p => p.direct

def Thr.left (v : BitVec w) : Thr w → ℕ
  | .idle => 0
  | .busy _ p => p.left v

theorem Pc.access_left {p p' : Pc w} {v v' : BitVec w} (h : p.access v = some (v', p')) (hp : p.direct = true) :
    p'.direct = true ∧ p'.left v' < p.left v := by
  cases p with
  | lock | inside | unlock => cases hp
  | ret r => cases h
  | instr f => cases h; exact ⟨rfl, Nat.lt_succ_self 1⟩
  | attempt l E R =>
    rcases Pc.attempt_access h with ⟨rfl, rfl⟩ | ⟨he, rfl, rfl⟩
    · exact ⟨rfl, by simp [Pc.left]⟩
    · exact ⟨rfl, by simp [Pc.left, Ne.symm he]⟩

theorem code_direct (C : Impl) (T : IntTy) (h : Header) {c : Call T.width} (hc : c.isUnsized = false) :
    (code C T (.lockFree h) c).direct = true := by
  cases c with
  | unsized k => cases hc
  | sized k =>
    cases h with
    | gccSync => cases k <;> rfl
    | gccAtomic | clang => rfl
  | arith op fetch y mo =>
    cases h with
    | gccAtomic => rfl
    | clang | gccSync =>
      simp only [code, arithCode]
      split <;> rfl

section
variable {Tid : Type} [DecidableEq Tid] {C : Impl} {T : IntTy} {inst : Inst} {s s' : St Tid T.width} {t : Tid}

theorem direct_runs {x : Entry T.width} {p : Pc T.width} (ht : s.thr t = .busy x p) (hp : p.direct = true) :
    ∃ s', step C T inst s (.run t) = some s' := by
  simp only [step, ht]
  cases p with
  | lock | inside | unlock => cases hp
  | instr | attempt | ret => exact ⟨_, rfl⟩

theorem run_left (hs : step C T inst s (.run t) = some s') (hd : (s.thr t).direct = true) :
    (s'.thr t).direct = true ∧ (s'.thr t).left s'.obj < (s.thr t).left s.obj := by
  cases step_moves hs with
  | access t x p p' v ht hp =>
    rw [ht] at hd
    rw [show (s.access t x p' v).thr t = .busy x p' from Function.update_self .., ht]
    exact Pc.access_left hp hd
  | lock t x k l ht ho | unlock t x r l ht ho =>
    rw [ht] at hd
    cases hd
  | ret t x r ht =>
    simp only [Function.update_self, ht]
    exact ⟨rfl, Nat.one_pos⟩

/-- Alone a thread without the lock returns. -/
theorem alone_returns : ∀ (k : ℕ) {s : St Tid T.width}, (s.thr t).direct = true → (s.thr t).left s.obj ≤ k →
    ∃ n ≤ k, ∃ s', Lts.Sys.runList (step C T inst) s (List.replicate n (.run t)) = some s' ∧ s'.thr t = .idle := by
  intro k
  induction k with
  | zero =>
    intro s hd hk
    refine ⟨0, Nat.le_refl _, s, rfl, ?_⟩
    cases ht : s.thr t with
    | idle => rfl
    | busy x p =>
      rw [ht] at hd hk
      cases p with
      | lock | inside | unlock => cases hd
      | instr | ret => cases hk
      | attempt l E R =>
        simp only [Thr.left, Pc.left] at hk
        split at hk <;> cases hk
  | succ k ih =>
    intro s hd hk
    cases ht : s.thr t with
    | idle => exact ⟨0, Nat.zero_le _, s, rfl, ht⟩
    | busy x p =>
      obtain ⟨s₁, hs⟩ : ∃ s₁, step C T inst s (.run t) = some s₁ := direct_runs ht (by rw [ht] at hd; exact hd)
      obtain ⟨hd₁, hlt⟩ := run_left hs hd
      obtain ⟨n, hn, s', hr, hidle⟩ := ih hd₁ (by omega)
      refine ⟨n + 1, by omega, s', ?_, hidle⟩
      rw [List.replicate_succ]
      exact Option.bind_eq_some_iff.mpr ⟨s₁, hs, hr⟩

/-- Lock-free, only the calls of the unsized functions take the lock. -/
theorem reach_direct {h : Header} {v₀ : BitVec T.width} (hs : (sys C T (.lockFree h) v₀).Reach s) :
    ∀ t x p, s.thr t = .busy x p → x.call.isUnsized = false → p.direct = true := by
  refine hs.inv (I := fun s => ∀ t x p, s.thr t = .busy x p → x.call.isUnsized = false → p.direct = true)
    (fun s h0 => ?_) fun s e s' _ hi hs => ?_
  · obtain rfl : s = start v₀ := h0
    intro t x p ht
    cases ht
  · intro u y q hu hy
    have keep : ∀ {t x p p'}, s.thr t = .busy x p → (p.direct = true → p'.direct = true) →
        (s.goto t x p').thr u = .busy y q → q.direct = true := by
      intro t x p p' ht hp hu
      rcases goto_busy hu with ⟨rfl, rfl, rfl⟩ | ⟨-, hu⟩
      · exact hp (hi u y p ht hy)
      · exact hi u y q hu hy
    cases step_moves hs with
    | call t c ht =>
      rcases goto_busy hu with ⟨rfl, rfl, rfl⟩ | ⟨-, hu⟩
      · exact code_direct C T h hy
      · exact hi u y q hu hy
    | access t x p p' v ht hp => exact keep ht (fun hd => (Pc.access_left hp hd).1) hu
    | lock t x k l ht ho | unlock t x r l ht ho => exact keep ht (fun hd => by cases hd) hu
    | ret t x r ht =>
      by_cases e : u = t
      · subst e
        simp only [Function.update_self, reduceCtorEq] at hu
      · simp only [Function.update_of_ne e] at hu
        exact hi u y q hu hy

end

end Stdatomic.Mixed
