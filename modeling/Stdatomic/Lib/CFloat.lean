/-
  Stdatomic.Lib.CFloat — floating types of C in the binary interchange formats, with their
  conversions from and to unsigned integers of the same size.

  A conversion keeps the value where it can: from a floating type it drops the fraction,
  and is undefined where the integral part does not fit; to one it is exact where the
  integer is a value of the type, and rounds elsewhere. What is undefined or rounded is
  up to the implementation (`Conversions`).

  Conversion does not keep the representation: minus zero becomes 0 (`toUint_negZero`).
-/

import Mathlib.Algebra.Order.Field.Rat
import Mathlib.Data.BitVec
import Mathlib.Data.List.FinRange

namespace CFloat

/-- A sign bit, `exp` bits of biased exponent and `mant` bits of fraction. -/
structure Format where
  exp : ℕ
  mant : ℕ
  two_le_exp : 2 ≤ exp
  deriving DecidableEq, Repr

inductive Value where
  | fin (q : ℚ)
  | inf (negative : Bool)
  | nan
  deriving DecidableEq, Repr

namespace Format

variable (F : Format)

def width : ℕ := 1 + F.exp + F.mant

def bias : ℕ := 2 ^ (F.exp - 1) - 1

variable (x : BitVec F.width)

def negative : Bool := decide (2 ^ (F.exp + F.mant) ≤ x.toNat)

def exponent : ℕ := x.toNat / 2 ^ F.mant % 2 ^ F.exp

def fraction : ℕ := x.toNat % 2 ^ F.mant

def magnitude : ℚ :=
  if F.exponent x = 0 then F.fraction x * 2 ^ (1 - F.bias - F.mant : ℤ)
  else (2 ^ F.mant + F.fraction x) * 2 ^ (F.exponent x - F.bias - F.mant : ℤ)

def value : Value :=
  if F.exponent x = 2 ^ F.exp - 1 then if F.fraction x = 0 then .inf (F.negative x) else .nan
  else .fin (if F.negative x then -F.magnitude x else F.magnitude x)

def eq (x y : BitVec F.width) : Bool :=
  match F.value x, F.value y with
  | .fin p, .fin q => decide (p = q)
  | .inf a, .inf b => a == b
  | _, _ => false

end Format

/-- What an implementation chooses for the conversions. -/
structure Conversions (F : Format) where
  /-- To an unsigned integer, of what does not fit. -/
  undef : BitVec F.width → BitVec F.width
  ofUint : BitVec F.width → BitVec F.width
  /-- An integer that is a value of the type is kept. -/
  exact : ∀ u x, F.value x = .fin u.toNat → F.value (ofUint u) = .fin u.toNat

variable {F : Format}

def Conversions.toUint (C : Conversions F) (x : BitVec F.width) : BitVec F.width :=
  match F.value x with
  | .fin q =>
    let t := q.num.tdiv q.den
    if 0 ≤ t ∧ t.toNat < 2 ^ F.width then BitVec.ofNat _ t.toNat else C.undef x
  | _ => C.undef x

/-- The first representation of the integer `u`, if there is one. -/
def Format.find (F : Format) (u : BitVec F.width) : Option (BitVec F.width) :=
  ((List.finRange (2 ^ F.width)).map BitVec.ofFin).find? fun x => decide (F.value x = .fin u.toNat)

theorem value_find {u x : BitVec F.width} (h : F.value x = .fin u.toNat) :
    ∃ y, F.find u = some y ∧ F.value y = .fin u.toNat := by
  have hmem : x ∈ (List.finRange (2 ^ F.width)).map BitVec.ofFin :=
    List.mem_map.mpr ⟨x.toFin, List.mem_finRange _, rfl⟩
  have hsome : (F.find u).isSome = true := List.find?_isSome.mpr ⟨x, hmem, decide_eq_true h⟩
  obtain ⟨y, hy⟩ := Option.isSome_iff_exists.mp hsome
  have hv := hy
  unfold Format.find at hv
  have hdec := List.find?_some hv
  exact ⟨y, hy, of_decide_eq_true hdec⟩

/-- A conversion that searches for the integer, and gives 0 where there is none. -/
def Conversions.search (F : Format) : Conversions F where
  undef := id
  ofUint u := (F.find u).getD 0
  exact u x h := by
    obtain ⟨y, hy, hv⟩ := value_find h
    rw [hy]
    exact hv

/-! ## Minus zero -/

def Format.negZero (F : Format) : BitVec F.width := BitVec.ofNat _ (2 ^ (F.exp + F.mant))

theorem toNat_negZero : F.negZero.toNat = 2 ^ (F.exp + F.mant) := by
  rw [Format.negZero, BitVec.toNat_ofNat]
  exact Nat.mod_eq_of_lt (Nat.pow_lt_pow_right (by decide) (by unfold Format.width; omega))

theorem value_negZero : F.value F.negZero = .fin 0 := by
  have hexp : F.exponent F.negZero = 0 := by
    rw [Format.exponent, toNat_negZero, Nat.pow_add, Nat.mul_div_cancel _ (Nat.two_pow_pos _), Nat.mod_self]
  have hfrac : F.fraction F.negZero = 0 := by
    rw [Format.fraction, toNat_negZero, Nat.pow_add, Nat.mul_mod_left]
  have hmax : 0 ≠ 2 ^ F.exp - 1 := by
    have := Nat.pow_le_pow_right (show 0 < 2 by decide) F.two_le_exp
    omega
  simp [Format.value, Format.magnitude, hexp, hfrac, hmax]

theorem toUint_negZero (C : Conversions F) : C.toUint F.negZero = 0 := by
  simp [Conversions.toUint, value_negZero]

theorem negZero_ne_zero : F.negZero ≠ 0 := by
  intro h
  have hz := congrArg BitVec.toNat h
  rw [toNat_negZero] at hz
  simp at hz

def float32 : Format := ⟨8, 23, by decide⟩

end CFloat
