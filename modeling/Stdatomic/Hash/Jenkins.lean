/-
  Stdatomic.Hash.Jenkins — `__impl_jenkins_one_at_a_time_hash` of `atomic_generic.c`, which
  takes an address byte by byte.

  It adds a byte to the accumulator and mixes this, which is a permutation of all
  accumulators: `x += x << k` multiplies by the odd number `1 + 2^k`, and the rest is a
  shift-xor (`addShift_injective`, `xorShift_injective`). So is what comes at the end.
  Two addresses whose accumulators differ once keep them apart as long as their bytes are the
  same (`jenkins_separates`); so a collision of two that differ in one byte is
  made by the reduction only.
-/

import Stdatomic.Hash.Mix

namespace Stdatomic.Hash

open CInt XorLinear

section
variable {w : ℕ}

def jenkinsByte (x : BitVec w) (b : BitVec 8) : BitVec w :=
  let x := x + b.setWidth w
  let x := x + x <<< 10
  x ^^^ x >>> 6

def jenkinsEnd (x : BitVec w) : BitVec w :=
  let x := x + x <<< 3
  let x := x ^^^ x >>> 11
  x + x <<< 15

def jenkinsLoop (x : BitVec w) (key : List (BitVec 8)) : BitVec w := key.foldl jenkinsByte x

def jenkinsWord (key : List (BitVec 8)) : BitVec w := jenkinsEnd (jenkinsLoop 0 key)

/-- `b` is the address as it is stored. -/
def implJenkins {n : ℕ} (C : Impl) (HBIT : ℕ) (b : Fin n → BitVec 8) : Option (BitVec (8 * n)) :=
  reduce C HBIT (jenkinsWord (List.ofFn b))

/-- `x += x << k` is a multiplication by `1 + 2^k`. -/
theorem addShift_eq (x : BitVec w) (k : ℕ) : x + x <<< k = x * BitVec.ofNat w (1 + 2 ^ k) := by
  have htwo : BitVec.ofNat w (2 ^ k) = BitVec.twoPow w k :=
    BitVec.eq_of_toNat_eq (by rw [BitVec.toNat_ofNat, BitVec.toNat_twoPow])
  rw [BitVec.ofNat_add, BitVec.mul_add, htwo, ← BitVec.shiftLeft_eq_mul_twoPow, BitVec.mul_one]

theorem addShift_injective {k : ℕ} (hk : 0 < k) : Function.Injective fun x : BitVec w => x + x <<< k := by
  obtain ⟨j, rfl⟩ : ∃ j, k = j + 1 := ⟨k - 1, by omega⟩
  have hodd : (1 + 2 ^ (j + 1)).Coprime 2 := by
    rw [pow_succ, Nat.coprime_add_mul_right_left]
    exact Nat.coprime_one_left 2
  simp only [addShift_eq]
  exact mul_injective hodd

theorem jenkinsEnd_injective : Function.Injective (jenkinsEnd : BitVec w → BitVec w) := by
  have h3 := addShift_injective (w := w) (k := 3) (by decide)
  have h11 := xorShift_injective (w := w) (s := 11) (by decide)
  have h15 := addShift_injective (w := w) (k := 15) (by decide)
  exact h15.comp (h11.comp h3)

theorem mix_injective : Function.Injective fun x : BitVec w => (x + x <<< 10) ^^^ (x + x <<< 10) >>> 6 := by
  have h10 := addShift_injective (w := w) (k := 10) (by decide)
  have h6 := xorShift_injective (w := w) (s := 6) (by decide)
  exact h6.comp h10

theorem jenkinsByte_injective (b : BitVec 8) : Function.Injective fun x : BitVec w => jenkinsByte x b :=
  fun _ _ hxy => add_right_cancel (mix_injective hxy)

theorem jenkinsByte_separates (hw : 8 ≤ w) (x : BitVec w) : Function.Injective (jenkinsByte x) := by
  intro b c hbc
  have hwide : b.setWidth w = c.setWidth w := add_left_cancel (mix_injective hbc)
  have hnat := congrArg BitVec.toNat hwide
  rw [BitVec.toNat_setWidth_of_le hw, BitVec.toNat_setWidth_of_le hw] at hnat
  exact BitVec.eq_of_toNat_eq hnat

theorem jenkinsLoop_injective (key : List (BitVec 8)) : Function.Injective fun x : BitVec w => jenkinsLoop x key := by
  induction key with
  | nil => exact Function.injective_id
  | cons b key ih => exact ih.comp (jenkinsByte_injective b)

theorem jenkinsLoop_append (x : BitVec w) (p q : List (BitVec 8)) :
    jenkinsLoop x (p ++ q) = jenkinsLoop (jenkinsLoop x p) q := List.foldl_append

theorem jenkinsWord_set (hw : 8 ≤ w) {key : List (BitVec 8)} {i : ℕ} (hi : i < key.length) {c : BitVec 8} (hc : c ≠ key[i]) :
    (jenkinsWord (key.set i c) : BitVec w) ≠ jenkinsWord key := by
  have hkey : key = key.take i ++ key[i] :: key.drop (i + 1) := by simp
  intro heq
  have hloop : (jenkinsLoop 0 (key.set i c) : BitVec w) = jenkinsLoop 0 key := jenkinsEnd_injective heq
  rw [List.set_eq_take_append_cons_drop, if_pos hi] at hloop
  conv at hloop => rhs; rw [hkey]
  rw [jenkinsLoop_append, jenkinsLoop_append] at hloop
  exact hc (jenkinsByte_separates hw _ (jenkinsLoop_injective _ hloop))

end

/-- For addresses of `n` bytes in any order: the words of two byte strings that end in the same bytes are the same just if
    the accumulators before these are; changing one byte of an address always changes its word; and the slot is
    within the table, whose size is an `int`. -/
theorem jenkins_separates (C : Impl) (n HBIT : ℕ) :
    (∀ p q s : List (BitVec 8), (jenkinsWord (p ++ s) : BitVec (8 * n)) = jenkinsWord (q ++ s) ↔
      (jenkinsLoop 0 p : BitVec (8 * n)) = jenkinsLoop 0 q) ∧
    (∀ (b : Fin n → BitVec 8) (i : Fin n) (c : BitVec 8), c ≠ b i →
      (jenkinsWord (List.ofFn (Function.update b i c)) : BitVec (8 * n)) ≠ jenkinsWord (List.ofFn b)) ∧
    (2 ^ HBIT < 2 ^ (C.int.width - 1) → ∀ b : Fin n → BitVec 8,
      ∃ s, implJenkins C HBIT b = some s ∧ s.toNat < 2 ^ HBIT) := by
  refine ⟨fun p q s => ⟨fun h => ?_, fun h => ?_⟩, fun b i c hc => ?_, fun hfit b => reduce_lt hfit _⟩
  · have hloop := jenkinsEnd_injective h
    rw [jenkinsLoop_append, jenkinsLoop_append] at hloop
    exact jenkinsLoop_injective s hloop
  · rw [jenkinsWord, jenkinsWord, jenkinsLoop_append, jenkinsLoop_append, h]
  · have hset : List.ofFn (Function.update b i c) = (List.ofFn b).set i c := by
      refine List.ext_getElem (by simp) fun j hj hj' => ?_
      by_cases e : j = i
      · subst e
        simp
      · have hne : (⟨j, by simpa using hj⟩ : Fin n) ≠ i := fun h => e (congrArg Fin.val h)
        simp [List.getElem_set_ne (Ne.symm e), Function.update_of_ne hne]
    rw [hset]
    refine jenkinsWord_set ?_ (by simp) (by simpa using hc)
    have := i.pos
    omega

end Stdatomic.Hash
