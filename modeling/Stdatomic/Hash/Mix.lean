/-
  Stdatomic.Hash.Mix — `__impl_mix` and `__impl_8` of `atomic_generic.c`, the other hashes
  of an address.

  Before it is reduced to a slot, the address goes through shift-xors and multiplications
  by odd constants, in `uintptr_t` arithmetic. Each of these is a permutation of all
  addresses (`mixWord_bijective`, `word8_bijective`), so every slot gets the
  same number of them (`mix_spread_evenly`), as long as the size of the table is an `int`: the
  remainder is taken by `LEN`, in the common type of `uintptr_t` and `int` (`reduce`).
-/

import Stdatomic.Hash.Fold

namespace Stdatomic.Hash

open CInt XorLinear Spread

section
variable {w : ℕ}

/-- `__impl_mix` up to its reduction. -/
def mixWord (x : BitVec w) : BitVec w :=
  let h := x
  let h := h ^^^ h >>> 16
  let h := h * BitVec.ofNat w 0x85ebca6b
  let h := h ^^^ h >>> 13
  let h := h * BitVec.ofNat w 0xc2b2ae35
  h ^^^ h >>> 16

def word8 (x : BitVec w) : BitVec w :=
  let h := x
  h ^^^ h >>> 8

section
variable (C : Impl) (HBIT : ℕ)

/-- `h %= LEN`. -/
def reduce (h : BitVec w) : Option (BitVec w) := assignRem C (uintptr w) C.int h (LEN C HBIT)

def implMix (x : BitVec w) : Option (BitVec w) := reduce C HBIT (mixWord x)

def impl8 (x : BitVec w) : Option (BitVec w) := reduce C HBIT (word8 x)

end

theorem reduce_eq {C : Impl} {HBIT : ℕ} (hfit : 2 ^ HBIT < 2 ^ (C.int.width - 1)) (h : BitVec w) :
    reduce C HBIT h = some (low HBIT h) :=
  assignRem_unsigned C w (val_LEN hfit) hfit (Nat.two_pow_pos HBIT).ne'

theorem reduce_lt {C : Impl} {HBIT : ℕ} (hfit : 2 ^ HBIT < 2 ^ (C.int.width - 1)) (h : BitVec w) :
    ∃ s, reduce C HBIT h = some s ∧ s.toNat < 2 ^ HBIT :=
  ⟨_, reduce_eq hfit h, mem_slots.mp (low_mem_slots HBIT h)⟩

theorem mixWord_bijective : Function.Bijective (mixWord : BitVec w → BitVec w) := by
  have h16 := xorShift_injective (w := w) (s := 16) (by decide)
  have h13 := xorShift_injective (w := w) (s := 13) (by decide)
  have hmul := mul_injective (w := w) (M := 0x85ebca6b) (by decide)
  have hmul' := mul_injective (w := w) (M := 0xc2b2ae35) (by decide)
  exact Finite.injective_iff_bijective.mp (h16.comp (hmul'.comp (h13.comp (hmul.comp h16))))

theorem word8_bijective : Function.Bijective (word8 : BitVec w → BitVec w) :=
  Finite.injective_iff_bijective.mp (xorShift_injective (by decide))

/-- The reduction of a permutation of the addresses spreads them evenly. -/
theorem reduce_evenly {C : Impl} {HBIT : ℕ} (hfit : 2 ^ HBIT < 2 ^ (C.int.width - 1)) (hh : HBIT ≤ w)
    {σ : BitVec w → BitVec w} (hσ : Function.Bijective σ) {s : BitVec w} (hs : s.toNat < 2 ^ HBIT) :
    (Finset.univ.filter fun x => reduce C HBIT (σ x) = some s).card = 2 ^ (w - HBIT) := by
  have hlow : Evenly (low HBIT) Finset.univ (slots w HBIT) (2 ^ (w - HBIT)) := evenly_low hh
  rw [← hlow.comp hσ.injective (fun x => by simp) (fun y _ => hσ.surjective y) s (mem_slots.mpr hs)]
  refine congrArg Finset.card (Finset.filter_congr fun x _ => ?_)
  rw [reduce_eq hfit, Option.some.injEq]

end

def SpreadsEvenly (C : Impl) (w HBIT : ℕ) : Prop :=
  ∀ s : BitVec w, s.toNat < 2 ^ HBIT →
    (Finset.univ.filter fun x : BitVec w => implMix C HBIT x = some s).card = 2 ^ (w - HBIT) ∧
    (Finset.univ.filter fun x : BitVec w => impl8 C HBIT x = some s).card = 2 ^ (w - HBIT)

/-- For every width of addresses over 16 bits both words are permutations of the addresses, and every table whose
    size is an `int` gets them evenly. -/
theorem mix_spread_evenly (C : Impl) (w HBIT : ℕ) (_ : 16 < w) (hh : HBIT ≤ w) :
    Function.Bijective (mixWord : BitVec w → BitVec w) ∧ Function.Bijective (word8 : BitVec w → BitVec w) ∧
    (2 ^ HBIT < 2 ^ (C.int.width - 1) → SpreadsEvenly C w HBIT) :=
  ⟨mixWord_bijective, word8_bijective, fun hfit _ hs =>
    ⟨reduce_evenly hfit hh mixWord_bijective hs, reduce_evenly hfit hh word8_bijective hs⟩⟩

/-- 64-bit addresses and 256 slots. -/
theorem default_mix : SpreadsEvenly int32 64 8 :=
  (mix_spread_evenly int32 64 8 (by decide) (by decide)).2.2 (by decide)

/-- With a 32-bit `int` and an `HBIT` of 32 the remainder is a division by 0, and no address has a slot. -/
theorem no_slots_mixed : ¬ SpreadsEvenly int32 64 32 := by
  intro h
  have hzero : LEN int32 32 = 0 := by decide
  have hnone : ∀ x : BitVec 64, implMix int32 32 x = none := by
    intro x
    rw [implMix, reduce, hzero]
    exact assignRem_zero int32 (uintptr 64) int32.int (mixWord x)
  have hcard := (h 0 (by decide)).1
  simp [hnone] at hcard

end Stdatomic.Hash
