/-
  Stdatomic.Hash.Fold — `__impl_hash` of `atomic_generic.c`, which finds the slot of an
  address, for `w`-bit addresses and a table of `2^HBIT` slots.

  The address is multiplied by `MAGIC` and folded onto itself by dividing by powers of
  `len`, each only if there are so many bits. A power of `len` is computed modulo `2^w`,
  so it is 0 where its guard is false; a division by 0 has no value here (`divide`).

  `len` is `LEN` converted to `uintptr_t`, and `LEN` is `1<<HBIT`, an `int`: it is the size of
  the table as long as this is a positive `int`, and 0 where the bit is shifted out
  (`no_slots`).

  Each step is a shift-xor, guarded or not (`foldStep_eq`), so the four of them and the
  remainder give the exclusive or of all digits of the product in base `2^HBIT`, if 16
  digits are all (`implHash_eq`). Hence the even spread at every alignment
  (`hash_folds_evenly`).
-/

import Stdatomic.Lib.CInt
import Stdatomic.Lib.XorLinear

namespace Stdatomic.Hash

open CInt XorLinear Spread

def LEN (C : Impl) (HBIT : ℕ) : BitVec C.int.width := 1#C.int.width <<< HBIT

abbrev uintptr (w : ℕ) : IntTy := ⟨w, 0, false⟩

def magic : ℕ := 14530039

section
variable {w : ℕ} (C : Impl) (h : ℕ)

def len : BitVec w := conv C.int (uintptr w) (LEN C h)

/-- `len*..*len`, `n` times. -/
def lenProduct : ℕ → BitVec w
  | 0 => 1
  | n + 1 => lenProduct n * len C h

def divide (x y : BitVec w) : Option (BitVec w) := if y = 0 then none else some (x / y)

/-- `if (ptrbit > k*HBIT) x ^= (x / (len*..*len))`. -/
def foldStep (k : ℕ) (x : BitVec w) : Option (BitVec w) :=
  if w > k * h then (divide x (lenProduct C h k)).map fun d => x ^^^ d else some x

def implHash (X : BitVec w) : Option (BitVec w) := do
  let x := X * BitVec.ofNat w magic
  let x ← foldStep C h 8 x
  let x ← foldStep C h 4 x
  let x ← foldStep C h 2 x
  let x ← foldStep C h 1 x
  if len C h = (0 : BitVec w) then none else some (x % len C h)

end

section
variable {C : Impl} {w h : ℕ} {x : BitVec w}

/-- As long as the size of the table is an `int`, it is `LEN`. -/
theorem val_LEN (hfit : 2 ^ h < 2 ^ (C.int.width - 1)) : C.int.val (LEN C h) = (2 ^ h : ℕ) := by
  have hw : 2 * 2 ^ (C.int.width - 1) = 2 ^ C.int.width := by
    rw [Nat.mul_comm, ← Nat.pow_succ, Nat.succ_eq_add_one, Nat.sub_add_cancel (Nat.le_trans (by decide) C.width)]
  have hnat : (LEN C h).toNat = 2 ^ h := by
    rw [LEN, ← BitVec.twoPow_eq, BitVec.toNat_twoPow, Nat.mod_eq_of_lt (by omega)]
  rw [IntTy.val, if_pos C.signed, BitVec.toInt_eq_toNat_of_lt (by rw [hnat]; omega), hnat]

theorem len_eq (hfit : 2 ^ h < 2 ^ (C.int.width - 1)) : (len C h : BitVec w) = BitVec.ofNat w (2 ^ h) := by
  rw [len, conv_eq_ofInt, val_LEN hfit, BitVec.ofInt_natCast]

theorem ne_zero_of_toNat {y : BitVec w} {n : ℕ} (hy : y.toNat = 2 ^ n) : y ≠ 0 := by
  intro h0
  have hz := congrArg BitVec.toNat h0
  rw [hy] at hz
  simp at hz

theorem toNat_lenProduct (hfit : 2 ^ h < 2 ^ (C.int.width - 1)) {n : ℕ} (hn : n * h < w) :
    (lenProduct C h n : BitVec w).toNat = 2 ^ (n * h) := by
  induction n with
  | zero =>
    have hw : 1 < 2 ^ w := Nat.one_lt_two_pow (by omega)
    simp [lenProduct, Nat.mod_eq_of_lt hw]
  | succ n ih =>
    have hmul : (n + 1) * h = n * h + h := Nat.succ_mul n h
    have hlt : 2 ^ (n * h + h) < 2 ^ w := Nat.pow_lt_pow_right (by decide) (by omega)
    rw [lenProduct, BitVec.toNat_mul, ih (by omega), len_eq hfit, BitVec.toNat_ofNat, Nat.mul_mod_mod, ← Nat.pow_add, hmul,
      Nat.mod_eq_of_lt hlt]

/-- Guarded or not, a step is a shift-xor: there is nothing to shift where the guard is false. -/
theorem foldStep_eq (hfit : 2 ^ h < 2 ^ (C.int.width - 1)) (k : ℕ) : foldStep C h k x = some (x ^^^ x >>> (k * h)) := by
  unfold foldStep
  split
  · rename_i hw
    have hprod := toNat_lenProduct hfit (show k * h < w from hw)
    have hne : (lenProduct C h k : BitVec w) ≠ 0 := ne_zero_of_toNat hprod
    have hdiv : x / lenProduct C h k = x >>> (k * h) :=
      BitVec.eq_of_toNat_eq (by rw [BitVec.toNat_udiv, hprod, BitVec.toNat_ushiftRight, Nat.shiftRight_eq_div_pow])
    rw [divide, if_neg hne, hdiv]
    rfl
  · rename_i hw
    rw [BitVec.ushiftRight_eq_zero (by omega)]
    exact congrArg some BitVec.xor_zero.symm

theorem toNat_len (hfit : 2 ^ h < 2 ^ (C.int.width - 1)) (hh : h < w) : (len C h : BitVec w).toNat = 2 ^ h := by
  rw [len_eq hfit, BitVec.toNat_ofNat]
  exact Nat.mod_eq_of_lt (Nat.pow_lt_pow_right (by decide) hh)

theorem mod_len (hfit : 2 ^ h < 2 ^ (C.int.width - 1)) (hh : h < w) : x % len C h = low h x := by
  apply BitVec.eq_of_toNat_eq
  rw [BitVec.toNat_umod, toNat_low, toNat_len hfit hh]

/-- The four steps fold 16 digits. -/
theorem implHash_fold (hfit : 2 ^ h < 2 ^ (C.int.width - 1)) (hh : h < w) (X : BitVec w) :
    implHash C h X = some (low h (fold h (X * BitVec.ofNat w magic) 16)) := by
  have hone : ∀ y : BitVec w, y ^^^ y >>> (1 * h) = fold h y 2 := by
    intro y
    simp [fold]
  simp only [implHash, foldStep_eq hfit, Option.bind_eq_bind, Option.bind_some,
    if_neg (ne_zero_of_toNat (toNat_len hfit hh)), mod_len hfit hh]
  rw [hone, fold_half 2, fold_half 4, fold_half 8]

theorem digits_all (hpos : 0 < h) : w ≤ (w + h - 1) / h * h := by
  have hdiv := Nat.div_add_mod (w + h - 1) h
  have hmod := Nat.mod_lt (w + h - 1) hpos
  rw [Nat.mul_comm]
  omega

theorem digits_le (hpos : 0 < h) (hw : w ≤ 16 * h) : (w + h - 1) / h ≤ 16 :=
  Nat.le_of_lt_succ ((Nat.div_lt_iff_lt_mul hpos).mpr (by omega))

/-- No division is by 0, and the result is the exclusive or of all digits. -/
theorem implHash_eq (hfit : 2 ^ h < 2 ^ (C.int.width - 1)) (hpos : 0 < h) (hh : h < w) (hw : w ≤ 16 * h) (X : BitVec w) :
    implHash C h X = some (xorDigits h (X * BitVec.ofNat w magic) ((w + h - 1) / h)) := by
  rw [implHash_fold hfit hh, xorDigits_eq, fold_of_le (digits_all hpos) (digits_le hpos hw)]

end

theorem magic_odd : magic.Coprime 2 := by decide

/-- Every address has a slot, the exclusive or of all digits of the product, and at every alignment each slot gets the
    same number of addresses. -/
structure FoldsEvenly (C : Impl) (w h : ℕ) : Prop where
  hashed : ∀ X : BitVec w, ∃ s, implHash C h X = some s ∧
    s = xorDigits h (X * BitVec.ofNat w magic) ((w + h - 1) / h) ∧ s.toNat < 2 ^ h
  evenly : ∀ a ≤ w - h, ∀ s : BitVec w, s.toNat < 2 ^ h →
    ((multiples w a).filter fun X => implHash C h X = some s).card = 2 ^ (w - a - h)

/-- For every width of addresses and every size of the table that is an `int`, as long as 16 digits are all. -/
theorem hash_folds_evenly (C : Impl) (w h : ℕ) (hpos : 1 ≤ h) (hh : h < w) (hw : w ≤ 16 * h)
    (hfit : 2 ^ h < 2 ^ (C.int.width - 1)) : FoldsEvenly C w h := by
  refine ⟨fun X => ⟨_, implHash_eq hfit hpos hh hw X, rfl, ?_⟩, fun a ha s hs => ?_⟩
  · rw [xorDigits_eq]
    exact mem_slots.mp (low_mem_slots h _)
  · have hinj := mul_injective (w := w) magic_odd
    have hmul : ∀ X : BitVec w, X * BitVec.ofNat w magic ∈ multiples w a ↔ X ∈ multiples w a := fun X =>
      mul_mem_multiples magic_odd (by omega)
    have heven := (evenly_fold hpos (show a + h ≤ w by omega) hw).comp hinj hmul fun y _ =>
      Finite.surjective_of_injective hinj y
    have hcard := heven s (mem_slots.mpr hs)
    rw [← hcard]
    refine congrArg Finset.card (Finset.filter_congr fun X _ => ?_)
    rw [implHash_fold hfit hh, Option.some.injEq]

/-- The default table of 256 slots, for 64-bit addresses. -/
theorem default_table : FoldsEvenly int32 64 8 := hash_folds_evenly int32 64 8 (by decide) (by decide) (by decide) (by decide)

/-- With a 32-bit `int` and an `HBIT` of 32, `LEN` is 0, and the remainder is a division by 0. -/
theorem no_slots : ¬ FoldsEvenly int32 64 32 := by
  intro h
  obtain ⟨s, hs, -⟩ := h.hashed 4096
  have hnone : implHash int32 32 (4096 : BitVec 64) = none := by decide
  rw [hnone] at hs
  cases hs

end Stdatomic.Hash
