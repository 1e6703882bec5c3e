/-
  Stdatomic.Lib.Spread — functions that spread a finite set evenly over slots: every slot
  gets the same number of members.

  - `evenly_of_shifts`: a function is even if, for any two slots, an injection of the set
    into itself sends the members of the one into the other.
  - `Evenly.comp`: a permutation of the set applied first changes nothing.
-/

import Mathlib.Algebra.BigOperators.Group.Finset.Basic
import Mathlib.Algebra.Order.BigOperators.Group.Finset
import Mathlib.Data.Fintype.EquivFin

namespace Spread

universe u v

variable {α : Type u} {β : Type v} [DecidableEq β]

/-- Every slot gets `n` members of `S`. -/
def Evenly (f : α → β) (S : Finset α) (slots : Finset β) (n : ℕ) : Prop :=
  ∀ v ∈ slots, (S.filter fun x => f x = v).card = n

variable {f : α → β} {S : Finset α} {slots : Finset β} {n : ℕ}

/-- An injection that moves the members of one slot to another makes the other no smaller. -/
theorem card_le_of_shift {v v' : β} (σ : α → α) (hinj : Function.Injective σ)
    (hσ : ∀ x ∈ S, f x = v → σ x ∈ S ∧ f (σ x) = v') :
    (S.filter fun x => f x = v).card ≤ (S.filter fun x => f x = v').card := by
  refine Finset.card_le_card_of_injOn σ (fun x hx => ?_) hinj.injOn
  obtain ⟨hS, hv⟩ := Finset.mem_filter.mp hx
  obtain ⟨hS', hv'⟩ := hσ x hS hv
  exact Finset.mem_filter.mpr ⟨hS', hv'⟩

theorem evenly_of_shifts (hne : slots.Nonempty) (hmaps : ∀ x ∈ S, f x ∈ slots)
    (hshift : ∀ v ∈ slots, ∀ v' ∈ slots, ∃ σ : α → α, Function.Injective σ ∧ ∀ x ∈ S, f x = v → σ x ∈ S ∧ f (σ x) = v')
    (hcard : S.card = n * slots.card) : Evenly f S slots n := by
  have hle : ∀ v ∈ slots, ∀ v' ∈ slots, (S.filter fun x => f x = v).card ≤ (S.filter fun x => f x = v').card := by
    intro v hv v' hv'
    obtain ⟨σ, hinj, hσ⟩ := hshift v hv v' hv'
    exact card_le_of_shift σ hinj hσ
  intro v hv
  have hsum : S.card = slots.card * (S.filter fun x => f x = v).card := by
    calc S.card = ∑ v' ∈ slots, (S.filter fun x => f x = v').card := Finset.card_eq_sum_card_fiberwise hmaps
      _ = slots.card * (S.filter fun x => f x = v).card :=
        Finset.sum_const_nat fun v' hv' => Nat.le_antisymm (hle v' hv' v hv) (hle v hv v' hv')
  have hpos : 0 < slots.card := Finset.card_pos.mpr hne
  have heq : slots.card * (S.filter fun x => f x = v).card = slots.card * n := by
    rw [← hsum, hcard, Nat.mul_comm]
  exact Nat.eq_of_mul_eq_mul_left hpos heq

/-- A permutation of the set first. -/
theorem Evenly.comp (h : Evenly f S slots n) {σ : α → α} (hinj : Function.Injective σ)
    (hmem : ∀ x, σ x ∈ S ↔ x ∈ S) (hsurj : ∀ y ∈ S, ∃ x, σ x = y) : Evenly (fun x => f (σ x)) S slots n := by
  intro v hv
  rw [← h v hv]
  refine Finset.card_bij (fun x _ => σ x) (fun x hx => ?_) (fun x _ y _ hxy => hinj hxy) (fun y hy => ?_)
  · obtain ⟨hS, hfx⟩ := Finset.mem_filter.mp hx
    exact Finset.mem_filter.mpr ⟨(hmem x).mpr hS, hfx⟩
  · obtain ⟨hS, hfy⟩ := Finset.mem_filter.mp hy
    obtain ⟨x, rfl⟩ := hsurj y hS
    exact ⟨x, Finset.mem_filter.mpr ⟨(hmem x).mp hS, hfy⟩, rfl⟩

end Spread
