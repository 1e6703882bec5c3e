/-
  Stdatomic.Lib.XorLinear — maps on bit vectors that respect the exclusive or, as shifts,
  masks and their sums do.

  - `evenly_of_linear`: such a map spreads a set that is closed under the exclusive or
    evenly over `2^h` slots, if it reaches every single bit from the set.
  - `card_multiples`: `2^(w-a)` of the vectors are multiples of `2^a`.
  - `mul_injective`, `mul_mem_multiples`: multiplication by an odd number permutes them.
  - `xorShift_injective`: so does a shift-xor permute all vectors.
  - `fold`, `xorDigits`: the digits of a vector in base `2^h` folded onto each other.
-/

import Mathlib.Data.BitVec
import Mathlib.Data.Nat.ModEq
import Stdatomic.Lib.Spread

namespace XorLinear

open Spread

variable {w : ℕ}

/-! ## The low bits -/

def low (h : ℕ) (x : BitVec w) : BitVec w := BitVec.ofNat w (x.toNat % 2 ^ h)

theorem toNat_low (h : ℕ) (x : BitVec w) : (low h x).toNat = x.toNat % 2 ^ h := by
  rw [low, BitVec.toNat_ofNat]
  exact Nat.mod_eq_of_lt (Nat.lt_of_le_of_lt (Nat.mod_le _ _) x.isLt)

@[simp] theorem getLsbD_low (h : ℕ) (x : BitVec w) (i : ℕ) : (low h x).getLsbD i = (decide (i < h) && x.getLsbD i) := by
  rw [BitVec.getLsbD, toNat_low, Nat.testBit_mod_two_pow, BitVec.getLsbD]

theorem low_succ (h : ℕ) (x : BitVec w) :
    low (h + 1) x = low h x ^^^ (if x.getLsbD h then BitVec.twoPow w h else 0) := by
  apply BitVec.eq_of_getLsbD_eq
  intro i hi
  rw [BitVec.getLsbD_xor, getLsbD_low, getLsbD_low]
  by_cases e : i = h
  · subst e
    cases hx : x.getLsbD i <;> simp [hi]
  · have hlt : decide (i < h + 1) = decide (i < h) := decide_eq_decide.mpr (by omega)
    have hne : ¬ h = i := fun heq => e heq.symm
    rw [hlt]
    cases hx : x.getLsbD h <;> simp [hne]

theorem low_eq_self {h : ℕ} {x : BitVec w} (hx : x.toNat < 2 ^ h) : low h x = x :=
  BitVec.eq_of_toNat_eq (by rw [toNat_low, Nat.mod_eq_of_lt hx])

/-- What holds of 0 and of the low bits, and is closed under the exclusive or, holds of all that has only low bits. -/
theorem low_induction {P : BitVec w → Prop} {h : ℕ} (h0 : P 0) (hx : ∀ x y, P x → P y → P (x ^^^ y))
    (hbit : ∀ j < h, P (BitVec.twoPow w j)) (v : BitVec w) : P (low h v) := by
  induction h with
  | zero =>
    have hz : low 0 v = 0 := by
      apply BitVec.eq_of_toNat_eq
      rw [toNat_low, Nat.pow_zero, Nat.mod_one]
      simp
    rw [hz]
    exact h0
  | succ h ih =>
    rw [low_succ]
    refine hx _ _ (ih fun j hj => hbit j (by omega)) ?_
    split
    · exact hbit h (Nat.lt_succ_self h)
    · exact h0

/-! ## Linear maps -/

def Linear (f : BitVec w → BitVec w) : Prop := ∀ x y, f (x ^^^ y) = f x ^^^ f y

theorem Linear.zero {f : BitVec w → BitVec w} (hf : Linear f) : f 0 = 0 := by
  have h := hf 0 0
  rwa [BitVec.xor_self, BitVec.xor_self] at h

theorem linear_low (h : ℕ) : Linear (low h : BitVec w → BitVec w) := by
  intro x y
  apply BitVec.eq_of_getLsbD_eq
  intro i hi
  simp only [getLsbD_low, BitVec.getLsbD_xor]
  cases decide (i < h) <;> simp

theorem linear_shift (k : ℕ) : Linear fun x : BitVec w => x >>> k := fun _ _ => BitVec.ushiftRight_xor_distrib _ _ _

theorem Linear.comp {f g : BitVec w → BitVec w} (hf : Linear f) (hg : Linear g) : Linear fun x => f (g x) := by
  intro x y
  simp only [hg x y, hf (g x) (g y)]

theorem Linear.xor {f g : BitVec w → BitVec w} (hf : Linear f) (hg : Linear g) : Linear fun x => f x ^^^ g x := by
  intro x y
  simp only [hf x y, hg x y]
  ac_rfl

/-! ## Slots and multiples -/

instance fintypeBitVec : Fintype (BitVec w) := Fintype.ofEquiv (Fin (2 ^ w)) BitVec.equivFin.toEquiv.symm

theorem card_univ : (Finset.univ : Finset (BitVec w)).card = 2 ^ w := by
  rw [Finset.card_univ, Fintype.card_congr BitVec.equivFin.toEquiv, Fintype.card_fin]

def slots (w h : ℕ) : Finset (BitVec w) := Finset.univ.filter fun x => x.toNat < 2 ^ h

@[simp] theorem mem_slots {h : ℕ} {x : BitVec w} : x ∈ slots w h ↔ x.toNat < 2 ^ h := by simp [slots]

theorem low_mem_slots (h : ℕ) (x : BitVec w) : low h x ∈ slots w h := by
  rw [mem_slots, toNat_low]
  exact Nat.mod_lt _ (Nat.two_pow_pos h)

theorem card_slots {h : ℕ} (hh : h ≤ w) : (slots w h).card = 2 ^ h := by
  have hle : 2 ^ h ≤ 2 ^ w := Nat.pow_le_pow_right (by decide) hh
  rw [← Finset.card_range (2 ^ h)]
  refine Finset.card_bij (fun x _ => x.toNat) (fun x hx => ?_) (fun x _ y _ hxy => BitVec.eq_of_toNat_eq hxy)
    (fun n hn => ?_)
  · exact Finset.mem_range.mpr (mem_slots.mp hx)
  · have hlt := Finset.mem_range.mp hn
    have hmod : n % 2 ^ w = n := Nat.mod_eq_of_lt (by omega)
    exact ⟨BitVec.ofNat w n, by simpa [hmod] using hlt, by simp [hmod]⟩

/-- A linear map that reaches every bit of the slots from `S` spreads `S` evenly. -/
theorem evenly_of_linear {f : BitVec w → BitVec w} {S : Finset (BitVec w)} {h n : ℕ} (hf : Linear f) (hh : h ≤ w)
    (hmaps : ∀ x ∈ S, f x ∈ slots w h) (h0 : 0 ∈ S) (hS : ∀ x ∈ S, ∀ y ∈ S, x ^^^ y ∈ S)
    (hbit : ∀ j < h, ∃ t ∈ S, f t = BitVec.twoPow w j) (hcard : S.card = n * 2 ^ h) : Evenly f S (slots w h) n := by
  have hreach : ∀ v, ∃ t ∈ S, f t = low h v := by
    refine low_induction (P := fun v => ∃ t ∈ S, f t = v) ⟨0, h0, hf.zero⟩ ?_ hbit
    rintro x y ⟨s, hs, rfl⟩ ⟨t, ht, rfl⟩
    exact ⟨s ^^^ t, hS s hs t ht, hf s t⟩
  refine evenly_of_shifts ⟨f 0, hmaps 0 h0⟩ hmaps (fun v hv v' hv' => ?_) (by rw [hcard, card_slots hh])
  obtain ⟨t, ht, hft⟩ := hreach (v ^^^ v')
  have hlow : low h (v ^^^ v') = v ^^^ v' := by
    rw [linear_low, low_eq_self (mem_slots.mp hv), low_eq_self (mem_slots.mp hv')]
  refine ⟨fun x => x ^^^ t, fun x y hxy => (BitVec.xor_left_inj t).mp hxy, fun x hx hxv => ⟨hS x hx t ht, ?_⟩⟩
  rw [hf, hxv, hft, hlow, ← BitVec.xor_assoc, BitVec.xor_self, BitVec.zero_xor]

def multiples (w a : ℕ) : Finset (BitVec w) := Finset.univ.filter fun x => 2 ^ a ∣ x.toNat

@[simp] theorem mem_multiples {a : ℕ} {x : BitVec w} : x ∈ multiples w a ↔ 2 ^ a ∣ x.toNat := by simp [multiples]

theorem mem_multiples_iff {a : ℕ} {x : BitVec w} : x ∈ multiples w a ↔ low a x = 0 := by
  rw [mem_multiples, Nat.dvd_iff_mod_eq_zero, ← BitVec.toNat_inj, toNat_low]
  simp

theorem xor_mem_multiples {a : ℕ} {x y : BitVec w} (hx : x ∈ multiples w a) (hy : y ∈ multiples w a) :
    x ^^^ y ∈ multiples w a := by
  rw [mem_multiples_iff] at hx hy ⊢
  rw [linear_low, hx, hy]
  exact BitVec.xor_self

theorem low_twoPow {h i : ℕ} : low h (BitVec.twoPow w i) = if i < h then BitVec.twoPow w i else 0 := by
  apply BitVec.eq_of_getLsbD_eq
  intro j hj
  rw [getLsbD_low, BitVec.getLsbD_twoPow]
  by_cases hi : i < h
  · rw [if_pos hi, BitVec.getLsbD_twoPow]
    by_cases e : i = j
    · subst e; simp [hi]
    · simp [e]
  · rw [if_neg hi]
    by_cases e : i = j
    · subst e; simp [hi]
    · simp [e]

theorem twoPow_mem_multiples {a i : ℕ} (h : a ≤ i) : BitVec.twoPow w i ∈ multiples w a := by
  rw [mem_multiples_iff, low_twoPow, if_neg (by omega)]

theorem evenly_low {a : ℕ} (ha : a ≤ w) : Evenly (low a) Finset.univ (slots w a) (2 ^ (w - a)) := by
  refine evenly_of_linear (linear_low a) ha (fun x _ => low_mem_slots a x) (Finset.mem_univ 0)
    (fun x _ y _ => Finset.mem_univ _) (fun j hj => ⟨BitVec.twoPow w j, Finset.mem_univ _, ?_⟩) ?_
  · rw [low_twoPow, if_pos hj]
  · rw [card_univ, ← Nat.pow_add, Nat.sub_add_cancel ha]

theorem card_multiples {a : ℕ} (ha : a ≤ w) : (multiples w a).card = 2 ^ (w - a) := by
  have hzero := evenly_low ha 0 (mem_slots.mpr (BitVec.toNat_zero ▸ Nat.two_pow_pos a))
  rw [← hzero]
  refine congrArg Finset.card (Finset.ext fun x => ?_)
  rw [mem_multiples_iff]
  simp

/-! ## Permutations -/

theorem mul_injective {M : ℕ} (hM : M.Coprime 2) : Function.Injective fun x : BitVec w => x * BitVec.ofNat w M := by
  intro x y hxy
  have hmod : x.toNat * M ≡ y.toNat * M [MOD 2 ^ w] := by
    have h := congrArg BitVec.toNat hxy
    simpa [BitVec.toNat_mul, Nat.ModEq] using h
  have hcop : Nat.gcd (2 ^ w) M = 1 := (hM.pow_right w).symm
  have heq := Nat.ModEq.cancel_right_of_coprime hcop hmod
  apply BitVec.eq_of_toNat_eq
  rwa [Nat.ModEq, Nat.mod_eq_of_lt x.isLt, Nat.mod_eq_of_lt y.isLt] at heq

theorem mul_mem_multiples {M a : ℕ} (hM : M.Coprime 2) (ha : a ≤ w) {x : BitVec w} :
    x * BitVec.ofNat w M ∈ multiples w a ↔ x ∈ multiples w a := by
  have hpow : 2 ^ a ∣ 2 ^ w := Nat.pow_dvd_pow 2 ha
  have hcop : Nat.Coprime (2 ^ a) M := (hM.pow_right a).symm
  rw [mem_multiples, mem_multiples, BitVec.toNat_mul, BitVec.toNat_ofNat, Nat.mul_mod_mod, Nat.dvd_mod_iff hpow]
  exact hcop.dvd_mul_right

theorem xor_eq_zero {x y : BitVec w} (h : x ^^^ y = 0) : x = y := by
  rw [← BitVec.xor_zero (x := x), ← BitVec.xor_self (x := y), ← BitVec.xor_assoc, h]
  exact BitVec.zero_xor

theorem eq_zero_of_shift {s : ℕ} (hs : 0 < s) {z : BitVec w} (h : z = z >>> s) : z = 0 := by
  have hnat : z.toNat = z.toNat / 2 ^ s := by
    rw [← Nat.shiftRight_eq_div_pow, ← BitVec.toNat_ushiftRight, ← h]
  by_contra hne
  have hpos : 0 < z.toNat := Nat.pos_of_ne_zero fun h0 => hne (BitVec.eq_of_toNat_eq (by simpa using h0))
  have hlt : z.toNat / 2 ^ s < z.toNat := Nat.div_lt_self hpos (Nat.one_lt_two_pow (by omega))
  omega

theorem xorShift_injective {s : ℕ} (hs : 0 < s) : Function.Injective fun x : BitVec w => x ^^^ x >>> s := by
  intro x y hxy
  have hlin : Linear fun x : BitVec w => x ^^^ x >>> s := Linear.xor (fun _ _ => rfl) (linear_shift s)
  have hz : (x ^^^ y) ^^^ (x ^^^ y) >>> s = 0 := by
    have h := hlin x y
    simp only at h hxy
    rw [h, hxy]
    exact BitVec.xor_self
  exact xor_eq_zero (eq_zero_of_shift hs (xor_eq_zero hz))

/-! ## Folding digits -/

/-- The first `n` shifts by multiples of `h`. -/
def fold (h : ℕ) (x : BitVec w) : ℕ → BitVec w
  | 0 => 0
  | n + 1 => fold h x n ^^^ x >>> (n * h)

def digit (h : ℕ) (x : BitVec w) (k : ℕ) : BitVec w := BitVec.ofNat w (x.toNat / (2 ^ h) ^ k % 2 ^ h)

def xorDigits (h : ℕ) (x : BitVec w) : ℕ → BitVec w
  | 0 => 0
  | n + 1 => xorDigits h x n ^^^ digit h x n

section
variable {h : ℕ} {x : BitVec w}

theorem digit_eq (k : ℕ) : digit h x k = low h (x >>> (k * h)) := by
  rw [digit, low, BitVec.toNat_ushiftRight, Nat.shiftRight_eq_div_pow, ← Nat.pow_mul, Nat.mul_comm]

theorem xorDigits_eq (n : ℕ) : xorDigits h x n = low h (fold h x n) := by
  induction n with
  | zero => exact (linear_low h).zero.symm
  | succ n ih => rw [xorDigits, fold, linear_low, ih, digit_eq]

theorem linear_fold (n : ℕ) : Linear fun x : BitVec w => fold h x n := by
  induction n with
  | zero => exact fun _ _ => BitVec.xor_self.symm
  | succ n ih => exact ih.xor (linear_shift (n * h))

theorem fold_add (m n : ℕ) : fold h x (m + n) = fold h x m ^^^ fold h x n >>> (m * h) := by
  induction n with
  | zero => simp [fold]
  | succ n ih =>
    rw [← Nat.add_assoc, fold, ih, fold, BitVec.ushiftRight_xor_distrib, ← BitVec.shiftRight_add, BitVec.xor_assoc,
      Nat.add_mul, Nat.add_comm (n * h)]

theorem fold_shift (c n : ℕ) : fold h (x >>> c) n = fold h x n >>> c := by
  induction n with
  | zero => simp [fold]
  | succ n ih =>
    rw [fold, ih, fold, BitVec.ushiftRight_xor_distrib, ← BitVec.shiftRight_add, ← BitVec.shiftRight_add, Nat.add_comm]

/-- Folding `x` once halves the shifts that are left. -/
theorem fold_half (m : ℕ) : fold h (x ^^^ x >>> (m * h)) m = fold h x (m + m) := by
  have hsum : fold h (x ^^^ x >>> (m * h)) m = fold h x m ^^^ fold h (x >>> (m * h)) m := linear_fold m _ _
  rw [hsum, fold_shift, fold_add]

theorem fold_of_le {m n : ℕ} (hm : w ≤ m * h) (hmn : m ≤ n) : fold h x n = fold h x m := by
  induction n, hmn using Nat.le_induction with
  | base => rfl
  | succ n hn ih =>
    have hle : w ≤ n * h := Nat.le_trans hm (Nat.mul_le_mul_right h hn)
    rw [fold, ih, BitVec.ushiftRight_eq_zero hle]
    exact BitVec.xor_zero

theorem twoPow_shift {i k : ℕ} (hi : i < w) :
    BitVec.twoPow w i >>> k = if k ≤ i then BitVec.twoPow w (i - k) else 0 := by
  apply BitVec.eq_of_getLsbD_eq
  intro j hj
  rw [BitVec.getLsbD_ushiftRight, BitVec.getLsbD_twoPow]
  by_cases hk : k ≤ i
  · have heq : decide (i = k + j) = decide (i - k = j) := decide_eq_decide.mpr (by omega)
    rw [if_pos hk, BitVec.getLsbD_twoPow, heq]
    simp only [hi, decide_true, show i - k < w by omega]
  · have hne : i ≠ k + j := by omega
    simp [hk, hne]

/-- A single bit is folded to its place in its digit. -/
theorem fold_twoPow (hh : 0 < h) {i : ℕ} (hi : i < w) (n : ℕ) :
    low h (fold h (BitVec.twoPow w i) n) = if i < n * h then BitVec.twoPow w (i % h) else 0 := by
  induction n with
  | zero => simpa [fold] using (linear_low h).zero
  | succ n ih =>
    have hmul : (n + 1) * h = n * h + h := Nat.succ_mul n h
    rw [fold, linear_low, ih, twoPow_shift hi]
    by_cases hlt : i < n * h
    · rw [if_pos hlt, if_neg (show ¬ n * h ≤ i by omega), if_pos (show i < (n + 1) * h by omega), (linear_low h).zero]
      exact BitVec.xor_zero
    · rw [if_neg hlt, if_pos (show n * h ≤ i by omega), low_twoPow]
      by_cases hlt' : i < (n + 1) * h
      · have hmod : i % h = i - n * h := by
          rw [← Nat.sub_mul_mod (show h * n ≤ i by rw [Nat.mul_comm]; omega), Nat.mul_comm h n]
          exact Nat.mod_eq_of_lt (by omega)
        rw [if_pos (show i - n * h < h by omega), if_pos hlt', hmod]
        exact BitVec.zero_xor
      · rw [if_neg (show ¬ i - n * h < h by omega), if_neg hlt']
        exact BitVec.zero_xor

/-- The folded digits spread the multiples of `2^a` evenly, if `n` digits are all. -/
theorem evenly_fold {a n : ℕ} (hh : 0 < h) (ha : a + h ≤ w) (hn : w ≤ n * h) :
    Evenly (fun x => low h (fold h x n)) (multiples w a) (slots w h) (2 ^ (w - a - h)) := by
  have hf : Linear fun x : BitVec w => low h (fold h x n) := (linear_low h).comp (linear_fold n)
  refine evenly_of_linear hf (by omega) (fun x _ => low_mem_slots h _) (mem_multiples.mpr (by simp))
    (fun x hx y hy => xor_mem_multiples hx hy) (fun j hj => ?_) ?_
  · -- of the `h` bits from `a` on, one has `j` as its place
    obtain ⟨i, hi, hij⟩ : ∃ i, (a ≤ i ∧ i < a + h) ∧ i % h = j := by
      refine ⟨a + (h + j - a % h) % h, ⟨Nat.le_add_right _ _, ?_⟩, ?_⟩
      · have := Nat.mod_lt (h + j - a % h) hh
        omega
      · have hdiv := Nat.div_add_mod a h
        have hlt := Nat.mod_lt a hh
        have hsum : a + (h + j - a % h) = h * (a / h + 1) + j := by
          rw [Nat.mul_add]
          omega
        rw [Nat.add_mod_mod, hsum, Nat.mul_add_mod, Nat.mod_eq_of_lt hj]
    refine ⟨BitVec.twoPow w i, twoPow_mem_multiples hi.1, ?_⟩
    simp only [fold_twoPow hh (show i < w by omega)]
    rw [if_pos (show i < n * h by omega), hij]
  · rw [card_multiples (by omega), ← Nat.pow_add]
    congr 1
    omega

end

end XorLinear
