/-
  Stdatomic.Hash.Stat — the statistics of the hash (`HASH_STAT` in `atomic_generic.c`).

  Every hash counts its slot up in `draw`. `__impl_print_stat` reads the counters one after
  the other, while other threads go on hashing, into two sums, a minimum and a maximum of
  `size_t`, and prints the average and the deviation computed from these.

  The loop reads the array as `Collect` does, so what it adds up are values that the
  counters had during the loop. While their squares add up to less than 2^w it computes with
  them as numbers, and what is printed is the variance of these values (`stat_printed`),
  here with exact fractions.
-/

import Stdatomic.Lib.Collect
import Stdatomic.Lib.Extremes
import Stdatomic.Lib.Moments
import Stdatomic.Hash.Mix
import Mathlib.Data.Fintype.Lattice

namespace Stdatomic.Hash

structure Stat (w : ℕ) where
  i : ℕ
  x1 : BitVec w
  x2 : BitVec w
  min : BitVec w
  max : BitVec w
  deriving DecidableEq, Repr

section
variable {w : ℕ}

def Stat.start : Stat w := ⟨0, 0, 0, -1, 0⟩

/-- The body of the loop, with the counter loaded. -/
def Stat.body (p : Stat w) (val : BitVec w) : Stat w :=
  ⟨p.i + 1, p.x1 + val, p.x2 + val * val, if val < p.min then val else p.min, if p.max < val then val else p.max⟩

def Stat.avg1 (HBIT : ℕ) (p : Stat w) : ℚ := p.x1.toNat / (2 ^ HBIT : ℕ)

def Stat.avg2 (HBIT : ℕ) (p : Stat w) : ℚ := p.x2.toNat / (2 ^ HBIT : ℕ)

def Stat.var (HBIT : ℕ) (p : Stat w) : ℚ := p.avg2 HBIT - p.avg1 HBIT * p.avg1 HBIT

end

/-- The counters, and the loop if it has begun. -/
structure StatSt (α : Type) (HBIT w : ℕ) where
  draw : Fin (2 ^ HBIT) → BitVec w
  print : Option (Stat w)
  /-- Ghost: the addresses hashed so far. -/
  hashed : List α
  /-- Ghost: those before the loop. -/
  before : List α

inductive StatEv (α : Type) where
  /-- Any thread hashes an address. -/
  | hash (X : α)
  | print
  /-- The printing thread loads a counter. -/
  | next

section
variable {α : Type} {HBIT w : ℕ} (hash : α → Fin (2 ^ HBIT))

/-- `atomic_fetch_add_explicit(&draw[x], 1, memory_order_relaxed)`. -/
def StatSt.count (s : StatSt α HBIT w) (X : α) : StatSt α HBIT w :=
  { s with draw := Function.update s.draw (hash X) (s.draw (hash X) + 1), hashed := X :: s.hashed }

def statStep (s : StatSt α HBIT w) : StatEv α → Option (StatSt α HBIT w)
  | .hash X => some (s.count hash X)
  | .print =>
    if s.print.all fun p => p.i = 2 ^ HBIT then some { s with print := some .start, before := s.hashed } else none
  | .next => s.print.bind fun p =>
      if h : p.i < 2 ^ HBIT then some { s with print := some (p.body (s.draw ⟨p.i, h⟩)) } else none

def statInit : StatSt α HBIT w := ⟨fun _ => 0, none, [], []⟩

variable (w) in
def statSys : Lts.Sys (StatSt α HBIT w) (StatEv α) where
  init s := s = statInit
  step s e s' := statStep hash s e = some s'

def drawn (l : List α) (j : Fin (2 ^ HBIT)) : ℕ := (l.map hash).count j

/-! ## The loop -/

variable {hash} {p : Stat w} {l : List ℕ}

def Stat.over (p : Stat w) (l : List ℕ) : Stat w := (l.map (BitVec.ofNat w)).foldl Stat.body p

theorem over_cons (x : ℕ) : p.over (x :: l) = (p.body (BitVec.ofNat w x)).over l := rfl

theorem over_append (x : ℕ) : p.over (l ++ [x]) = (p.over l).body (BitVec.ofNat w x) := by
  simp only [Stat.over, List.map_append, List.foldl_append, List.map_cons, List.map_nil, List.foldl_cons, List.foldl_nil]

@[simp] theorem over_i : (p.over l).i = p.i + l.length := by
  induction l generalizing p with
  | nil => rfl
  | cons x l ih =>
    rw [over_cons, ih, Stat.body, List.length_cons]
    exact Nat.add_right_comm _ _ _

theorem over_x1 : (p.over l).x1 = p.x1 + BitVec.ofNat w l.sum := by
  induction l generalizing p with
  | nil => exact (BitVec.add_zero _).symm
  | cons x l ih => rw [over_cons, ih, Stat.body, List.sum_cons, BitVec.ofNat_add, BitVec.add_assoc]

theorem over_x2 : (p.over l).x2 = p.x2 + BitVec.ofNat w (l.map (· ^ 2)).sum := by
  induction l generalizing p with
  | nil => exact (BitVec.add_zero _).symm
  | cons x l ih =>
    rw [over_cons, ih, Stat.body, List.map_cons, List.sum_cons, BitVec.ofNat_add, sq x, BitVec.ofNat_mul, BitVec.add_assoc]

theorem over_extremes (s : ℕ) (hl : ∀ x ∈ l, x < 2 ^ w) :
    (p.over l).min.toNat = (Extremes.run ⟨s, p.min.toNat, p.max.toNat⟩ l).lo ∧
      (p.over l).max.toNat = (Extremes.run ⟨s, p.min.toNat, p.max.toNat⟩ l).hi := by
  induction l generalizing p s with
  | nil => exact ⟨rfl, rfl⟩
  | cons x l ih =>
    have hx : (BitVec.ofNat w x).toNat = x := by
      rw [BitVec.toNat_ofNat, Nat.mod_eq_of_lt (hl x List.mem_cons_self)]
    have hmin : (p.body (BitVec.ofNat w x)).min.toNat = if x < p.min.toNat then x else p.min.toNat := by
      simp only [Stat.body, BitVec.lt_def, hx]
      split
      · exact hx
      · rfl
    have hmax : (p.body (BitVec.ofNat w x)).max.toNat = if p.max.toNat < x then x else p.max.toNat := by
      simp only [Stat.body, BitVec.lt_def, hx]
      split
      · exact hx
      · rfl
    have h := ih (p := p.body (BitVec.ofNat w x)) (s + x) fun y hy => hl y (List.mem_cons_of_mem _ hy)
    rw [hmin, hmax] at h
    exact h

/-! ## The array -/

variable {s s' : StatSt α HBIT w}

theorem drawn_cons (X : α) (L : List α) (j : Fin (2 ^ HBIT)) :
    drawn hash (X :: L) j = drawn hash L j + if hash X = j then 1 else 0 := by
  simp only [drawn, List.map_cons, List.count_cons, beq_iff_eq]

variable (hash) in
theorem drawn_sum (L : List α) : ∑ j, drawn hash L j = L.length := by
  have h := Multiset.sum_count_eq_card (s := Finset.univ) (m := (L.map hash : Multiset (Fin (2 ^ HBIT))))
    fun j _ => Finset.mem_univ j
  simpa [drawn] using h

variable (hash) in
/-- The array as numbers, and the loop as the values it has read. -/
structure Reads (s : StatSt α HBIT w) (c : Collect.St (2 ^ HBIT) ℕ) : Prop where
  cell : c.cell = drawn hash s.hashed
  old : c.old = drawn hash s.before
  draw : ∀ j, s.draw j = BitVec.ofNat w (drawn hash s.hashed j)
  print : s.print = c.seen.map Stat.start.over

variable (hash) in
def readLbl (_ : StatSt α HBIT w) : StatEv α → StatSt α HBIT w → Option (Collect.Ev (2 ^ HBIT) ℕ)
  | .hash _, s' => some (.grow (drawn hash s'.hashed))
  | .print, _ => some .start
  | .next, _ => some .read

theorem stat_collects : Lts.Sys.Sim (statSys w hash) (Collect.sys fun _ => 0) (Reads hash) (readLbl hash) := by
  refine .of_stepOf (fun s h0 => ?_) fun s e s' c _ hR hst => ?_
  · obtain rfl : s = statInit := h0
    exact ⟨_, rfl, rfl, rfl, fun j => rfl, rfl⟩
  · cases e with
    | hash X =>
      cases hst
      refine ⟨{ c with cell := drawn hash (X :: s.hashed) }, .grow _ fun j => ?_, rfl, hR.old, fun j => ?_, hR.print⟩
      · have hcons : (s.count hash X).hashed = X :: s.hashed := rfl
        rw [hR.cell, hcons, drawn_cons]
        exact Nat.le_add_right _ _
      · simp only [StatSt.count, drawn_cons, BitVec.ofNat_add, ← hR.draw]
        by_cases e : hash X = j
        · subst e
          rw [Function.update_self, if_pos rfl]
          rfl
        · rw [Function.update_of_ne (Ne.symm e), if_neg e]
          exact (BitVec.add_zero _).symm
    | print =>
      simp only [statSys, statStep] at hst
      split at hst
      · cases hst
        exact ⟨_, .start, hR.cell, hR.cell, hR.draw, rfl⟩
      · cases hst
    | next =>
      obtain ⟨p, hp, hst⟩ := Option.bind_eq_some_iff.mp hst
      split at hst
      · rename_i hi
        cases hst
        obtain ⟨l, hl, rfl⟩ := Option.map_eq_some_iff.mp (hR.print.symm.trans hp)
        have hlen : (Stat.start.over l : Stat w).i = l.length := by rw [over_i, Stat.start, Nat.zero_add]
        refine ⟨_, .read l (hlen ▸ hi) hl, hR.cell, hR.old, hR.draw, ?_⟩
        rw [Option.map_some, over_append, hR.cell, ← hR.draw]
        simp only [hlen]
      · cases hst

/-! ## What is printed -/

/-- What the loop computes from `v`, as numbers. -/
structure Summed (p : Stat w) (v : Fin (2 ^ HBIT) → ℕ) : Prop where
  x1 : p.x1.toNat = ∑ j, v j
  x2 : p.x2.toNat = ∑ j, v j ^ 2
  min : IsLeast (Set.range v) p.min.toNat
  max : IsGreatest (Set.range v) p.max.toNat

theorem exists_extremes_nat (v : Fin (2 ^ HBIT) → ℕ) : ∃ m M, IsLeast (Set.range v) m ∧ IsGreatest (Set.range v) M := by
  have : Nonempty (Fin (2 ^ HBIT)) := ⟨⟨0, Nat.two_pow_pos _⟩⟩
  obtain ⟨i, hi⟩ := Finite.exists_min v
  obtain ⟨j, hj⟩ := Finite.exists_max v
  exact ⟨v i, v j, ⟨⟨i, rfl⟩, by rintro _ ⟨k, rfl⟩; exact hi k⟩, ⟨⟨j, rfl⟩, by rintro _ ⟨k, rfl⟩; exact hj k⟩⟩

/-- The counters of a sum of squares that does not overflow. -/
theorem over_summed {v : Fin (2 ^ HBIT) → ℕ} (hfit : ∑ j, v j ^ 2 < 2 ^ w) :
    Summed (Stat.start.over (List.ofFn v) : Stat w) v := by
  have hle : ∀ j, v j ≤ v j ^ 2 := fun j => Nat.le_self_pow (by decide) _
  have hsum : ∑ j, v j < 2 ^ w := (Finset.sum_le_sum fun j _ => hle j).trans_lt hfit
  have hlt : ∀ j, v j < 2 ^ w := fun j =>
    (Finset.single_le_sum (f := v) (fun _ _ => Nat.zero_le _) (Finset.mem_univ j)).trans_lt hsum
  have hmem : ∀ x ∈ List.ofFn v, x < 2 ^ w := List.forall_mem_ofFn_iff.mpr hlt
  have hrange : {x | x ∈ List.ofFn v} = Set.range v := Set.ext fun x => List.mem_ofFn
  obtain ⟨m, M, hm, hM⟩ := exists_extremes_nat v
  obtain ⟨hlo, hhi⟩ := over_extremes (p := (Stat.start : Stat w)) 0 hmem
  have hseed : (Stat.start : Stat w).min.toNat = 2 ^ w - 1 := by
    rw [show (Stat.start : Stat w).min = BitVec.allOnes w from BitVec.neg_one_eq_allOnes, BitVec.toNat_allOnes]
  rw [Extremes.run_lo (hrange ▸ hm)] at hlo
  rw [Extremes.run_hi (hrange ▸ hM)] at hhi
  refine ⟨?_, ?_, ?_, ?_⟩
  · have hzero : (Stat.start : Stat w).x1 = 0#w := rfl
    rw [over_x1, hzero, BitVec.zero_add, List.sum_ofFn, BitVec.toNat_ofNat, Nat.mod_eq_of_lt hsum]
  · have hzero : (Stat.start : Stat w).x2 = 0#w := rfl
    rw [over_x2, hzero, BitVec.zero_add, List.map_ofFn, List.sum_ofFn, BitVec.toNat_ofNat]
    exact Nat.mod_eq_of_lt hfit
  · have hmlt : m ≤ 2 ^ w - 1 := by
      obtain ⟨j, rfl⟩ := hm.1
      have := hlt j
      omega
    rw [hlo, hseed, min_eq_right hmlt]
    exact hm
  · rw [hhi]
    exact (max_eq_right (Nat.zero_le M)).symm ▸ hM

theorem Summed.var {p : Stat w} {v : Fin (2 ^ HBIT) → ℕ} (h : Summed p v) :
    p.avg1 HBIT = Moments.mean (fun j => (v j : ℚ)) ∧ p.var HBIT = Moments.spread (fun j => (v j : ℚ)) / (2 ^ HBIT : ℕ) := by
  have hn : (Fintype.card (Fin (2 ^ HBIT)) : ℚ) ≠ 0 := by
    rw [Fintype.card_fin]
    exact Nat.cast_ne_zero.mpr (Nat.two_pow_pos _).ne'
  have hshift := Moments.shifted (x := fun j => (v j : ℚ)) hn 0
  simp only [sub_zero, Fintype.card_fin] at hn hshift
  have h1 : (p.x1.toNat : ℚ) = ∑ j, (v j : ℚ) := by rw [h.x1, Nat.cast_sum]
  have h2 : (p.x2.toNat : ℚ) = ∑ j, (v j : ℚ) ^ 2 := by rw [h.x2, Nat.cast_sum]; simp only [Nat.cast_pow]
  refine ⟨?_, ?_⟩
  · rw [Stat.avg1, Moments.mean, Fintype.card_fin, h1]
  · rw [Stat.var, Stat.avg1, Stat.avg2, h1, h2, ← hshift]
    field_simp

/-- What is printed of the values `v`: their sum, the least and the greatest, their mean and their variance. -/
structure Printed (p : Stat w) (v : Fin (2 ^ HBIT) → ℕ) : Prop extends Summed p v where
  avg : p.avg1 HBIT = Moments.mean (fun j => (v j : ℚ))
  var : p.var HBIT = Moments.spread (fun j => (v j : ℚ)) / (2 ^ HBIT : ℕ)
  within : (p.min.toNat : ℚ) ≤ p.avg1 HBIT ∧ p.avg1 HBIT ≤ p.max.toNat
  nonneg : 0 ≤ p.var HBIT
  zero_iff : p.var HBIT = 0 ↔ p.min = p.max

theorem Summed.printed {p : Stat w} {v : Fin (2 ^ HBIT) → ℕ} (h : Summed p v) : Printed p v := by
  have hne : Nonempty (Fin (2 ^ HBIT)) := ⟨⟨0, Nat.two_pow_pos _⟩⟩
  have hpos : (0 : ℚ) < (2 ^ HBIT : ℕ) := Nat.cast_pos.mpr (Nat.two_pow_pos _)
  obtain ⟨havg, hvar⟩ := h.var
  refine ⟨h, havg, hvar, ⟨?_, ?_⟩, ?_, ?_⟩
  · rw [havg]
    exact Moments.le_mean fun j => Nat.cast_le.mpr (h.min.2 ⟨j, rfl⟩)
  · rw [havg]
    exact Moments.mean_le fun j => Nat.cast_le.mpr (h.max.2 ⟨j, rfl⟩)
  · rw [hvar]
    exact div_nonneg (Moments.spread_nonneg _) hpos.le
  · rw [hvar, div_eq_zero_iff, or_iff_left hpos.ne', Moments.spread_eq_zero_iff, ← BitVec.toNat_inj]
    obtain ⟨i, hi⟩ := h.min.1
    obtain ⟨j, hj⟩ := h.max.1
    constructor
    · intro hall
      rw [← hi, ← hj]
      exact Nat.cast_injective (hall i j)
    · intro heq k l
      have hk : v k = p.min.toNat := le_antisymm (heq ▸ h.max.2 ⟨k, rfl⟩) (h.min.2 ⟨k, rfl⟩)
      have hl : v l = p.min.toNat := le_antisymm (heq ▸ h.max.2 ⟨l, rfl⟩) (h.min.2 ⟨l, rfl⟩)
      rw [hk, hl]

end

/-- For every hash and every run in which threads hash while the loop reads, as long as the squares of the numbers of draws
    add up to less than 2^w: the loop ends with the statistics of values that lie, slot by slot, between the draws before
    it and those after it; so the draws printed are no fewer than there were before, and no more than after. -/
theorem stat_printed {α : Type} (HBIT w : ℕ) (hash : α → Fin (2 ^ HBIT)) (s : StatSt α HBIT w)
    (hs : (statSys w hash).Reach s) (hfit : ∑ j, drawn hash s.hashed j ^ 2 < 2 ^ w) (p : Stat w)
    (hp : s.print = some p) (hi : p.i = 2 ^ HBIT) :
    ∃ v : Fin (2 ^ HBIT) → ℕ, (∀ j, drawn hash s.before j ≤ v j) ∧ (∀ j, v j ≤ drawn hash s.hashed j) ∧
      Printed p v ∧ s.before.length ≤ p.x1.toNat ∧ p.x1.toNat ≤ s.hashed.length := by
  obtain ⟨c, hc, hR⟩ := stat_collects.reach hs
  obtain ⟨l, hl, rfl⟩ := Option.map_eq_some_iff.mp (hR.print.symm.trans hp)
  rw [over_i, Stat.start, Nat.zero_add] at hi
  obtain ⟨v, rfl, hlow, hhigh⟩ := (Collect.reach_between hc hl).all hi
  rw [hR.old] at hlow
  rw [hR.cell] at hhigh
  have hsum : Summed (Stat.start.over (List.ofFn v) : Stat w) v :=
    over_summed ((Finset.sum_le_sum fun j _ => Nat.pow_le_pow_left (hhigh j) 2).trans_lt hfit)
  refine ⟨v, hlow, hhigh, hsum.printed, ?_, ?_⟩
  · rw [hsum.x1, ← drawn_sum hash]
    exact Finset.sum_le_sum fun j _ => hlow j
  · rw [hsum.x1, ← drawn_sum hash]
    exact Finset.sum_le_sum fun j _ => hhigh j

def slot8 {C : CInt.Impl} {HBIT w : ℕ} (hfit : 2 ^ HBIT < 2 ^ (C.int.width - 1)) (x : BitVec w) : Fin (2 ^ HBIT) :=
  have hs := reduce_lt hfit (word8 x)
  ⟨((impl8 C HBIT x).get (by obtain ⟨s, hs, -⟩ := hs; rw [impl8, hs]; rfl)).toNat,
    by obtain ⟨s, hs, hlt⟩ := hs; simpa only [impl8, hs, Option.get_some] using hlt⟩

def slotOfTwo : BitVec 64 → Fin (2 ^ 1) := slot8 (C := CInt.int32) (by decide)

/-- Between the two loads one address is hashed again, and then another one. -/
def tornEvs : List (StatEv (BitVec 64)) := [.hash 0, .print, .next, .hash 0, .hash 1, .next]

theorem torn_isSome : (Lts.Sys.runList (statStep slotOfTwo) (statInit : StatSt _ 1 64) tornEvs).isSome = true := by decide

def torn : StatSt (BitVec 64) 1 64 := (Lts.Sys.runList (statStep slotOfTwo) statInit tornEvs).get torn_isSome

theorem torn_reach : (statSys 64 slotOfTwo).Reach torn :=
  .runList (fun _ _ _ h => h) (.init rfl) (Option.some_get torn_isSome).symm

/-- Both counters are read as 1, which they never were at one time. -/
theorem torn_printed : ∃ p, ∃ v : Fin (2 ^ 1) → ℕ, torn.print = some p ∧ Printed p v ∧ p.x1 = 2 ∧ p.var 1 = 0 ∧
    torn.before.length = 1 ∧ torn.hashed.length = 3 := by
  obtain ⟨v, -, -, hv, -, -⟩ := stat_printed 1 64 slotOfTwo torn torn_reach (by decide) ⟨2, 2, 2, 1, 1⟩ (by decide) rfl
  exact ⟨_, v, by decide, hv, rfl, hv.zero_iff.mpr rfl, by decide, by decide⟩

end Stdatomic.Hash
