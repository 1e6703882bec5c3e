/-
  Stdatomic.Lib.CInt — integer types of C with their conversions: integer promotion, the
  usual arithmetic conversions, and operators that are computed in the common type of
  their operands. Values are bit vectors of the type's width; a conversion keeps the
  value modulo the new width.

  - `conv_of_le`, `conv_conv`: conversion to no more bits truncates, whatever the
    signedness, and undoes a conversion to no fewer.
  - `Modular`: operators that commute with truncation; `assign_eq`: for these the
    promotions do not show in `t = x op y`.
  - `remainder`: a remainder has the sign of the dividend, and none is by 0;
    `assignRem_unsigned`: `t %= y`, for an unsigned `t` and an `int`, with all values kept.
-/

import Mathlib.Algebra.Ring.Int.Defs
import Mathlib.Algebra.Ring.Nat

namespace CInt

/-- An integer type. Its rank is its width, then `sub` for types of one width. -/
structure IntTy where
  width : ℕ
  sub : ℕ
  signed : Bool
  deriving DecidableEq, Repr

structure Impl where
  int : IntTy
  signed : int.signed = true
  width : 16 ≤ int.width

def int32 : Impl where
  int := ⟨32, 0, true⟩
  signed := rfl
  width := by decide

namespace IntTy

def rankLe (a b : IntTy) : Bool :=
  decide (a.width < b.width) || (decide (a.width = b.width) && decide (a.sub ≤ b.sub))

theorem width_le_of_rankLe {a b : IntTy} (h : a.rankLe b = true) : a.width ≤ b.width := by
  simp only [rankLe, Bool.or_eq_true, Bool.and_eq_true, decide_eq_true_eq] at h
  omega

theorem width_le_of_not_rankLe {a b : IntTy} (h : a.rankLe b = false) : b.width ≤ a.width := by
  simp only [rankLe, Bool.or_eq_false_iff, decide_eq_false_iff_not] at h
  omega

def val (t : IntTy) (x : BitVec t.width) : ℤ := if t.signed then x.toInt else x.toNat

end IntTy

def conv (t u : IntTy) (x : BitVec t.width) : BitVec u.width :=
  if t.signed then x.signExtend u.width else x.setWidth u.width

section
variable {t u v : IntTy}

theorem conv_of_le (h : u.width ≤ t.width) (x : BitVec t.width) : conv t u x = x.setWidth u.width := by
  unfold conv
  split
  · exact BitVec.signExtend_eq_setWidth_of_le x h
  · rfl

theorem conv_setWidth {n : ℕ} (hn : n ≤ t.width) (hu : n ≤ u.width) (x : BitVec t.width) :
    (conv t u x).setWidth n = x.setWidth n := by
  unfold conv
  split
  · ext i hi
    simp [BitVec.getElem_signExtend, show i < u.width by omega, show i < t.width by omega]
  · exact BitVec.setWidth_setWidth_of_le x hu

theorem conv_conv (hv : v.width ≤ t.width) (hu : v.width ≤ u.width) (x : BitVec t.width) :
    conv u v (conv t u x) = x.setWidth v.width := by
  rw [conv_of_le hu, conv_setWidth hv hu]

theorem conv_eq_ofInt (x : BitVec t.width) : conv t u x = BitVec.ofInt u.width (t.val x) := by
  unfold conv IntTy.val
  split
  · rfl
  · rw [BitVec.ofInt_natCast, BitVec.ofNat_toNat]

theorem conv_zero : conv t u 0#t.width = 0#u.width := by
  unfold conv
  split
  · ext i hi
    simp [BitVec.getElem_signExtend]
  · simp

end

/-! ## Integers modulo `2^w` -/

section
variable {w n : ℕ}

theorem ofInt_eq_iff {a b : ℤ} : BitVec.ofInt w a = BitVec.ofInt w b ↔ ((2 ^ w : ℕ) : ℤ) ∣ a - b := by
  have hpos : ((2 ^ w : ℕ) : ℤ) ≠ 0 := Int.natCast_ne_zero.mpr (Nat.ne_of_gt (Nat.two_pow_pos w))
  have ha := Int.emod_nonneg a hpos
  have hb := Int.emod_nonneg b hpos
  rw [← BitVec.toNat_inj, BitVec.toNat_ofInt, BitVec.toNat_ofInt, Int.dvd_iff_emod_eq_zero,
    ← Int.emod_eq_emod_iff_emod_sub_eq_zero]
  omega

theorem setWidth_ofInt (h : n ≤ w) (z : ℤ) : (BitVec.ofInt w z).setWidth n = BitVec.ofInt n z := by
  have hdvd : ((2 ^ n : ℕ) : ℤ) ∣ (2 ^ w : ℕ) := Int.natCast_dvd_natCast.mpr (Nat.pow_dvd_pow 2 h)
  have hpos : ((2 ^ w : ℕ) : ℤ) ≠ 0 := Int.natCast_ne_zero.mpr (Nat.ne_of_gt (Nat.two_pow_pos w))
  have hz := Int.emod_nonneg z hpos
  apply BitVec.eq_of_toNat_eq
  rw [BitVec.toNat_setWidth, BitVec.toNat_ofInt, BitVec.toNat_ofInt, ← Int.emod_emod_of_dvd z hdvd,
    Int.toNat_emod hz (Int.natCast_nonneg _), Int.toNat_natCast]

end

/-! ## Promotions -/

section
variable (C : Impl) {a b : IntTy}

def promote (t : IntTy) : IntTy :=
  if t.rankLe C.int then if t.width < C.int.width || t.signed then C.int else { C.int with signed := false } else t

theorem width_le_promote (t : IntTy) : t.width ≤ (promote C t).width := by
  unfold promote
  split
  · rename_i h
    have := IntTy.width_le_of_rankLe h
    split <;> exact this
  · exact Nat.le_refl _

/-- The common type of the usual arithmetic conversions. -/
def usual (a b : IntTy) : IntTy :=
  let a := promote C a
  let b := promote C b
  if a.signed = b.signed then if a.rankLe b then b else a
  else
    let u := if a.signed then b else a
    let s := if a.signed then a else b
    if s.rankLe u then u else if u.width < s.width then s else { s with signed := false }

theorem width_le_usual (a b : IntTy) : a.width ≤ (usual C a b).width ∧ b.width ≤ (usual C a b).width := by
  have ha := width_le_promote C a
  have hb := width_le_promote C b
  suffices h : (promote C a).width ≤ (usual C a b).width ∧ (promote C b).width ≤ (usual C a b).width from
    ⟨Nat.le_trans ha h.1, Nat.le_trans hb h.2⟩
  unfold usual
  generalize promote C a = a
  generalize promote C b = b
  simp only
  split
  · split
    · rename_i h
      exact ⟨IntTy.width_le_of_rankLe h, Nat.le_refl _⟩
    · rename_i h
      exact ⟨Nat.le_refl _, IntTy.width_le_of_not_rankLe (by simpa using h)⟩
  · cases hs : a.signed with
    | true =>
      simp only [if_true]
      split
      · rename_i h
        exact ⟨IntTy.width_le_of_rankLe h, Nat.le_refl _⟩
      · rename_i h
        have := IntTy.width_le_of_not_rankLe (by simpa using h)
        split <;> exact ⟨Nat.le_refl _, this⟩
    | false =>
      simp only [Bool.false_eq_true, if_false]
      split
      · rename_i h
        exact ⟨Nat.le_refl _, IntTy.width_le_of_rankLe h⟩
      · rename_i h
        have := IntTy.width_le_of_not_rankLe (by simpa using h)
        split <;> exact ⟨this, Nat.le_refl _⟩

theorem promote_promote (t : IntTy) : promote C (promote C t) = promote C t := by
  have hrank : ∀ b : Bool, ({ C.int with signed := b } : IntTy).rankLe C.int = true := fun b => by simp [IntTy.rankLe]
  unfold promote
  by_cases h : t.rankLe C.int = true
  · simp only [h, if_true]
    split
    · simp [C.signed]
    · simp [hrank false]
  · simp [h]

theorem usual_self (t : IntTy) : usual C t t = promote C t := by
  simp [usual]

/-! ## Operators -/

abbrev BinOp := ∀ w : ℕ, BitVec w → BitVec w → BitVec w

abbrev UnOp := ∀ w : ℕ, BitVec w → BitVec w

/-- `x op y`, in the common type. -/
def binary (op : BinOp) (a b : IntTy) (x : BitVec a.width) (y : BitVec b.width) : BitVec (usual C a b).width :=
  op _ (conv a (usual C a b) x) (conv b (usual C a b) y)

def unary (op : UnOp) (a : IntTy) (x : BitVec a.width) : BitVec (promote C a).width := op _ (conv a (promote C a) x)

def assign (op : BinOp) (t : IntTy) (x y : BitVec t.width) : BitVec t.width := conv _ t (binary C op t t x y)

def assign₁ (op : UnOp) (t : IntTy) (x : BitVec t.width) : BitVec t.width := conv _ t (unary C op t x)

/-- Truncated operands give the truncated result. -/
def Modular (op : BinOp) : Prop :=
  ∀ m n (x y : BitVec m), n ≤ m → (op m x y).setWidth n = op n (x.setWidth n) (y.setWidth n)

def Modular₁ (op : UnOp) : Prop := ∀ m n (x : BitVec m), n ≤ m → (op m x).setWidth n = op n (x.setWidth n)

theorem assign_eq {op : BinOp} (h : Modular op) (t : IntTy) (x y : BitVec t.width) :
    assign C op t x y = op _ x y := by
  have hw := (width_le_usual C t t).1
  rw [assign, binary, conv_of_le hw, h _ _ _ _ hw, conv_setWidth (Nat.le_refl _) hw, conv_setWidth (Nat.le_refl _) hw,
    BitVec.setWidth_eq, BitVec.setWidth_eq]

theorem assign₁_eq {op : UnOp} (h : Modular₁ op) (t : IntTy) (x : BitVec t.width) : assign₁ C op t x = op _ x := by
  have hw := width_le_promote C t
  rw [assign₁, unary, conv_of_le hw, h _ _ _ hw, conv_setWidth (Nat.le_refl _) hw, BitVec.setWidth_eq]

end

/-! ## Remainders -/

def IntTy.Fits (t : IntTy) (n : ℕ) : Prop := n < 2 ^ (if t.signed then t.width - 1 else t.width)

/-- A conversion to a type that has the value keeps it. -/
theorem val_conv {t u : IntTy} {x : BitVec t.width} {n : ℕ} (hx : t.val x = n) (hn : u.Fits n) : u.val (conv t u x) = n := by
  rw [conv_eq_ofInt, hx, BitVec.ofInt_natCast]
  unfold IntTy.Fits at hn
  unfold IntTy.val
  split
  · rename_i hs
    rw [if_pos hs] at hn
    have h2 : 2 * n < 2 ^ u.width := by
      cases hw : u.width with
      | zero => rw [hw] at hn; omega
      | succ k => rw [hw, Nat.add_sub_cancel] at hn; rw [Nat.pow_succ]; omega
    have hmod : (BitVec.ofNat u.width n).toNat = n := by rw [BitVec.toNat_ofNat, Nat.mod_eq_of_lt (by omega)]
    rw [BitVec.toInt_eq_toNat_of_lt (by rwa [hmod]), hmod]
  · rename_i hs
    rw [if_neg hs] at hn
    rw [BitVec.toNat_ofNat, Nat.mod_eq_of_lt hn]

section
variable (C : Impl) (a b : IntTy)

def remainder (x : BitVec a.width) (y : BitVec b.width) : Option (BitVec (usual C a b).width) :=
  let x' := conv a (usual C a b) x
  let y' := conv b (usual C a b) y
  if y' = 0 then none else some (BitVec.ofInt _ (((usual C a b).val x').tmod ((usual C a b).val y')))

def assignRem (x : BitVec a.width) (y : BitVec b.width) : Option (BitVec a.width) :=
  (remainder C a b x y).map (conv (usual C a b) a)

theorem assignRem_zero (x : BitVec a.width) : assignRem C a b x 0 = none := by
  have hzero : conv b (usual C a b) 0 = 0 := conv_zero
  simp only [assignRem, remainder, hzero, if_true, Option.map_none]

variable {C a b} in
theorem assignRem_eq {x : BitVec a.width} {y : BitVec b.width} {m n : ℕ} (hx : a.val x = m) (hy : b.val y = n)
    (hm : (usual C a b).Fits m) (hn : (usual C a b).Fits n) (hpos : n ≠ 0) :
    assignRem C a b x y = some (BitVec.ofNat _ (m % n)) := by
  have hval := val_conv hy hn
  have hne : conv b (usual C a b) y ≠ 0 := by
    intro h0
    rw [h0] at hval
    simp [IntTy.val] at hval
    omega
  have hw := (width_le_usual C a b).1
  rw [assignRem, remainder, if_neg hne, val_conv hx hm, hval, ← Int.ofNat_tmod, Option.map_some, conv_of_le hw,
    setWidth_ofInt hw, BitVec.ofInt_natCast]

variable (w : ℕ)

/-- The common type of an unsigned type and `int`. -/
theorem usual_unsigned : usual C ⟨w, 0, false⟩ C.int =
    if w < C.int.width then C.int else if w = C.int.width then { C.int with signed := false } else ⟨w, 0, false⟩ := by
  have hint : promote C C.int = C.int := by simp [promote, IntTy.rankLe, C.signed]
  rcases Nat.lt_trichotomy w C.int.width with h | h | h
  · have ha : promote C ⟨w, 0, false⟩ = C.int := by simp [promote, IntTy.rankLe, h]
    simp [usual, ha, hint, h]
  · subst h
    have ha : promote C ⟨C.int.width, 0, false⟩ = { C.int with signed := false } := by simp [promote, IntTy.rankLe]
    simp [usual, ha, hint, C.signed, IntTy.rankLe]
  · have ha : promote C ⟨w, 0, false⟩ = ⟨w, 0, false⟩ := by
      simp [promote, IntTy.rankLe, Nat.not_lt.mpr (Nat.le_of_lt h), Nat.ne_of_gt h]
    simp [usual, ha, hint, h, C.signed, IntTy.rankLe, Nat.not_lt.mpr (Nat.le_of_lt h), Nat.ne_of_gt h]

theorem usual_fits {n : ℕ} (h : n < 2 ^ w ∨ n < 2 ^ (C.int.width - 1)) : (usual C ⟨w, 0, false⟩ C.int).Fits n := by
  have hle : ∀ {k l : ℕ}, k ≤ l → 2 ^ k ≤ 2 ^ l := fun hk => Nat.pow_le_pow_right Nat.two_pos hk
  rw [usual_unsigned]
  unfold IntTy.Fits
  split
  · rename_i hlt
    rw [if_pos C.signed]
    exact h.elim (fun h => Nat.lt_of_lt_of_le h (hle (by omega))) id
  · split
    · rename_i heq
      rw [if_neg Bool.false_ne_true]
      exact h.elim (fun h => heq ▸ h) fun h => Nat.lt_of_lt_of_le h (hle (Nat.sub_le ..))
    · rw [if_neg Bool.false_ne_true]
      exact h.elim id fun h => Nat.lt_of_lt_of_le h (hle (show C.int.width - 1 ≤ w by omega))

/-- `x %= y` for an unsigned `x` and an `int` that is positive. -/
theorem assignRem_unsigned {x : BitVec w} {y : BitVec C.int.width} {n : ℕ} (hy : C.int.val y = n)
    (hn : n < 2 ^ (C.int.width - 1)) (hpos : n ≠ 0) :
    assignRem C ⟨w, 0, false⟩ C.int x y = some (BitVec.ofNat w (x.toNat % n)) :=
  assignRem_eq rfl hy (usual_fits C w (Or.inl x.isLt)) (usual_fits C w (Or.inr hn)) hpos

end

section

theorem modular_add : Modular fun _ x y => x + y := fun _ _ x y h => BitVec.setWidth_add x y h

theorem modular_sub : Modular fun _ x y => x - y := by
  intro m n x y h
  show (x - y).setWidth n = x.setWidth n - y.setWidth n
  rw [BitVec.sub_eq_add_neg, BitVec.setWidth_add _ _ h, BitVec.setWidth_neg_of_le h, ← BitVec.sub_eq_add_neg]

theorem modular_and : Modular fun _ x y => x &&& y := fun _ _ _ _ _ => BitVec.setWidth_and

theorem modular_or : Modular fun _ x y => x ||| y := fun _ _ _ _ _ => BitVec.setWidth_or

theorem modular_xor : Modular fun _ x y => x ^^^ y := fun _ _ _ _ _ => BitVec.setWidth_xor

theorem modular_neg : Modular₁ fun _ x => -x := fun _ _ _ h => BitVec.setWidth_neg_of_le h

theorem modular_not : Modular₁ fun _ x => ~~~x := fun _ _ _ h => BitVec.setWidth_not h

end

end CInt
