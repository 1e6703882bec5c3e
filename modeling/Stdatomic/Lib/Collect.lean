/-
  Stdatomic.Lib.Collect — reading the cells of an array one after the other while they grow.

  What is read need never have been in the array at one time. But each value that is read
  lies between the one its cell had when the reading began and the one it has now
  (`reach_between`). So the same goes for what is made of all values in a monotone way, and
  without growth in between the values are those of the array.
-/

import Stdatomic.Lib.System
import Mathlib.Order.Basic

namespace Collect

universe u

variable {n : ℕ} {α : Type u}

structure St (n : ℕ) (α : Type u) where
  cell : Fin n → α
  /-- What has been read, from the first cell on. -/
  seen : Option (List α)
  /-- Ghost: the cells at the beginning. -/
  old : Fin n → α

inductive Ev (n : ℕ) (α : Type u) where
  | grow (cell : Fin n → α)
  | start
  | read

structure Between [LE α] (a b : Fin n → α) (l : List α) : Prop where
  length_le : l.length ≤ n
  low : ∀ (j : ℕ) (h : j < l.length), a ⟨j, by omega⟩ ≤ l[j]
  high : ∀ (j : ℕ) (h : j < l.length), l[j] ≤ b ⟨j, by omega⟩

inductive Step [LE α] (s : St n α) : Ev n α → St n α → Prop
  | grow (cell : Fin n → α) : (∀ j, s.cell j ≤ cell j) → Step s (.grow cell) { s with cell := cell }
  | start : Step s .start ⟨s.cell, some [], s.cell⟩
  | read (l : List α) (h : l.length < n) : s.seen = some l →
      Step s .read { s with seen := some (l ++ [s.cell ⟨l.length, h⟩]) }

variable [Preorder α]

def sys (cell : Fin n → α) : Lts.Sys (St n α) (Ev n α) where
  init s := s = ⟨cell, none, cell⟩
  step := Step

variable {a b c : Fin n → α} {l : List α}

theorem Between.nil : Between a b [] := ⟨Nat.zero_le _, fun _ h => absurd h (Nat.not_lt_zero _), fun _ h =>
  absurd h (Nat.not_lt_zero _)⟩

theorem Between.grow (h : Between a b l) (hc : ∀ j, b j ≤ c j) : Between a c l :=
  ⟨h.length_le, h.low, fun j hj => (h.high j hj).trans (hc _)⟩

theorem Between.read (h : Between a b l) (hab : ∀ j, a j ≤ b j) (hl : l.length < n) :
    Between a b (l ++ [b ⟨l.length, hl⟩]) where
  length_le := by
    rw [List.length_append]
    exact hl
  low j hj := by
    by_cases hj' : j < l.length
    · rw [List.getElem_append_left hj']
      exact h.low j hj'
    · obtain rfl : j = l.length := by
        rw [List.length_append, List.length_singleton] at hj
        omega
      simpa using hab _
  high j hj := by
    by_cases hj' : j < l.length
    · rw [List.getElem_append_left hj']
      exact h.high j hj'
    · obtain rfl : j = l.length := by
        rw [List.length_append, List.length_singleton] at hj
        omega
      simp

theorem Between.all (h : Between a b l) (hl : l.length = n) :
    ∃ v : Fin n → α, l = List.ofFn v ∧ (∀ j, a j ≤ v j) ∧ ∀ j, v j ≤ b j := by
  subst hl
  exact ⟨l.get, (List.ofFn_get l).symm, fun j => h.low j j.isLt, fun j => h.high j j.isLt⟩

theorem reach_grown {cell : Fin n → α} {s : St n α} (hs : (sys cell).Reach s) : ∀ j, s.old j ≤ s.cell j := by
  refine hs.inv (I := fun s => ∀ j, s.old j ≤ s.cell j) (fun s h0 j => ?_) fun s e s' _ hi hst => ?_
  · obtain rfl : s = _ := h0
    exact le_refl _
  · cases hst with
    | grow cell' hle => exact fun j => (hi j).trans (hle j)
    | start => exact fun j => le_refl _
    | read l h hl => exact hi

theorem reach_between {cell : Fin n → α} {s : St n α} (hs : (sys cell).Reach s) (hl : s.seen = some l) :
    Between s.old s.cell l := by
  refine hs.inv (I := fun s => ∀ l, s.seen = some l → Between s.old s.cell l) (fun s h0 l hl => ?_)
    (fun s e s' hr hi hst l' hl' => ?_) l hl
  · obtain rfl : s = _ := h0
    cases hl
  · cases hst with
    | grow cell' hle => exact (hi l' hl').grow hle
    | start =>
      obtain rfl := Option.some.inj hl'
      exact .nil
    | read l h hl =>
      obtain rfl := Option.some.inj hl'
      exact (hi l hl).read (reach_grown hr) h

end Collect
