/-
  Stdatomic.Lib.Views — which finished critical sections the threads of a system have seen, by
  the orders of their accesses to the lock words.

  A section is its ticket. Each thread has the set of the finished sections it has seen, and so has
  each lock word (`VSt`). An access that acquires adds the word's set to the thread's. A
  read-modify-write that releases adds the thread's set to the word's, and one that does not
  leaves the word's; a store that releases puts the thread's set in its place.

  The system is any step function; what its steps are to the views is an `Effect`: none, an access,
  or the access that ends a section, which its thread has seen from then on.
-/

import Stdatomic.Lib.System
import Mathlib.Data.Finset.Insert
import Mathlib.Data.Finset.Lattice.Basic

namespace Views

/-! ## Accesses -/

inductive Kind where
  | load
  | rmw
  | store
  deriving DecidableEq, Repr

structure Access where
  acq : Bool
  rel : Bool
  kind : Kind
  deriving DecidableEq, Repr

def Access.sees (x : Access) (seen word : Finset ℕ) : Finset ℕ := if x.acq then seen ∪ word else seen

/-- What the word has after an access of a thread that has seen `seen`. -/
def Access.leaves (x : Access) (seen word : Finset ℕ) : Finset ℕ :=
  match x.kind with
  | .load => word
  | .rmw => if x.rel then word ∪ seen else word
  | .store => if x.rel then seen else ∅

section
variable {x : Access} {seen word : Finset ℕ}

theorem Access.subset_sees (x : Access) (seen word : Finset ℕ) : seen ⊆ x.sees seen word := by
  unfold Access.sees
  split
  · exact Finset.subset_union_left
  · exact Finset.Subset.refl _

theorem Access.word_subset_sees (h : x.acq = true) : word ⊆ x.sees seen word := by
  rw [Access.sees, if_pos h]
  exact Finset.subset_union_right

theorem Access.mem_sees {j : ℕ} : j ∈ x.sees seen word ↔ j ∈ seen ∨ x.acq = true ∧ j ∈ word := by
  unfold Access.sees
  split
  · rename_i h
    simp [h]
  · rename_i h
    simp [h]

theorem Access.mem_leaves {j : ℕ} (hk : x.kind = .rmw) : j ∈ x.leaves seen word ↔ j ∈ word ∨ x.rel = true ∧ j ∈ seen := by
  unfold Access.leaves
  rw [hk]
  simp only
  split
  · rename_i h
    simp [h]
  · rename_i h
    simp [h]

/-- Only a store takes from the word. -/
theorem Access.word_subset_leaves (h : x.kind ≠ .store) : word ⊆ x.leaves seen word := by
  unfold Access.leaves
  split
  · exact Finset.Subset.refl _
  · split
    · exact Finset.subset_union_left
    · exact Finset.Subset.refl _
  · rename_i hk
    exact absurd hk h

theorem Access.seen_subset_leaves (hk : x.kind ≠ .load) (h : x.rel = true) : seen ⊆ x.leaves seen word := by
  unfold Access.leaves
  split
  · rename_i hl
    exact absurd hl hk
  · rw [if_pos h]
    exact Finset.subset_union_right
  · rw [if_pos h]

end

/-! ## A system with its views -/

/-- A finished section: its call, the order of its unlock, and what its thread had seen then. -/
structure Ended (Call α : Type*) where
  ticket : ℕ
  call : Call
  order : α
  view : Finset ℕ

structure VSt (Tid Slot Call α S : Type*) where
  base : S
  seen : Tid → Finset ℕ
  word : Slot → Finset ℕ
  /-- Ghost. -/
  ended : List (Ended Call α)

inductive Effect (Tid Slot Call α : Type*) where
  | quiet
  /-- An access of `t` to the word of slot `q`. -/
  | access (t : Tid) (q : Slot) (x : Access)
  /-- The same, and the section with ticket `n` of the call `c` ends with order `a`. -/
  | ends (t : Tid) (q : Slot) (x : Access) (n : ℕ) (c : Call) (a : α)

variable {Tid Slot Call α S E : Type*} [DecidableEq Tid] [DecidableEq Slot]

/-- What a step to `s'` does to the views. -/
def transfer (v : VSt Tid Slot Call α S) (s' : S) : Effect Tid Slot Call α → VSt Tid Slot Call α S
  | .quiet => { v with base := s' }
  | .access t q x =>
    let view := x.sees (v.seen t) (v.word q)
    { v with base := s', seen := Function.update v.seen t view,
             word := Function.update v.word q (x.leaves view (v.word q)) }
  | .ends t q x n c a =>
    let view := insert n (x.sees (v.seen t) (v.word q))
    { base := s', seen := Function.update v.seen t view,
      word := Function.update v.word q (x.leaves view (v.word q)),
      ended := v.ended ++ [⟨n, c, a, view⟩] }

variable (step : S → E → Option S) (effect : S → E → Effect Tid Slot Call α)

def vstep (v : VSt Tid Slot Call α S) (e : E) : Option (VSt Tid Slot Call α S) :=
  (step v.base e).map fun s' => transfer v s' (effect v.base e)

/-- Nobody has seen anything at first. -/
def views (init : S → Prop) : Lts.Sys (VSt Tid Slot Call α S) E where
  init v := ∃ s, init s ∧ v = ⟨s, fun _ => ∅, fun _ => ∅, []⟩
  step v e v' := vstep step effect v e = some v'

inductive VMoves (v : VSt Tid Slot Call α S) (s' : S) : Effect Tid Slot Call α → VSt Tid Slot Call α S → Prop
  | quiet : VMoves v s' .quiet { v with base := s' }
  | access (t : Tid) (q : Slot) (x : Access) : VMoves v s' (.access t q x)
      { v with base := s', seen := Function.update v.seen t (x.sees (v.seen t) (v.word q)),
               word := Function.update v.word q (x.leaves (x.sees (v.seen t) (v.word q)) (v.word q)) }
  | ends (t : Tid) (q : Slot) (x : Access) (n : ℕ) (c : Call) (a : α) : VMoves v s' (.ends t q x n c a)
      { base := s', seen := Function.update v.seen t (insert n (x.sees (v.seen t) (v.word q))),
        word := Function.update v.word q (x.leaves (insert n (x.sees (v.seen t) (v.word q))) (v.word q)),
        ended := v.ended ++ [⟨n, c, a, insert n (x.sees (v.seen t) (v.word q))⟩] }

theorem transfer_moves (v : VSt Tid Slot Call α S) (s' : S) (f : Effect Tid Slot Call α) :
    VMoves v s' f (transfer v s' f) := by
  cases f with
  | quiet => exact .quiet
  | access t q x => exact .access t q x
  | ends t q x n c a => exact .ends t q x n c a

variable {step effect} {v v' : VSt Tid Slot Call α S} {s' : S} {e : E} {f : Effect Tid Slot Call α} {init : S → Prop}

theorem vstep_moves (h : vstep step effect v e = some v') :
    ∃ s', step v.base e = some s' ∧ VMoves v s' (effect v.base e) v' := by
  obtain ⟨s', hs, rfl⟩ := Option.map_eq_some_iff.mp h
  exact ⟨s', hs, transfer_moves v s' _⟩

theorem VMoves.base_eq (h : VMoves v s' f v') : v'.base = s' := by cases h <;> rfl

/-- The views are about a run of the system. -/
theorem views_base (h : (views step effect init).Reach v) :
    Lts.Sys.Reach ⟨init, fun s e s' => step s e = some s'⟩ v.base := by
  refine h.inv (I := fun v : VSt Tid Slot Call α S => Lts.Sys.Reach ⟨init, fun s e s' => step s e = some s'⟩ v.base)
    (fun v h0 => ?_) fun v e v' _ hi hs => ?_
  · obtain ⟨s, hs, rfl⟩ := h0
    exact .init hs
  · obtain ⟨s', hst, hm⟩ := vstep_moves hs
    rw [hm.base_eq]
    exact .step e hi hst

/-- What a thread has seen it has seen for good. -/
theorem VMoves.seen_mono (h : VMoves v s' f v') (t : Tid) : v.seen t ⊆ v'.seen t := by
  cases h with
  | quiet => exact Finset.Subset.refl _
  | access w q x =>
    by_cases et : t = w
    · subst et
      simp only [Function.update_self]
      exact x.subset_sees _ _
    · simp only [Function.update_of_ne et]
      exact Finset.Subset.refl _
  | ends w q x n c a =>
    by_cases et : t = w
    · subst et
      simp only [Function.update_self]
      exact (x.subset_sees _ _).trans (Finset.subset_insert _ _)
    · simp only [Function.update_of_ne et]
      exact Finset.Subset.refl _

/-- A thread has seen the section that it has just ended. -/
theorem VMoves.own (h : VMoves v s' f v') (hown : ∀ y ∈ v.ended, y.ticket ∈ y.view) :
    ∀ y ∈ v'.ended, y.ticket ∈ y.view := by
  cases h with
  | quiet => exact hown
  | access t q x => exact hown
  | ends t q x n c a =>
    intro y hy
    rcases List.mem_append.mp hy with hy | hy
    · exact hown y hy
    · obtain rfl := List.mem_singleton.mp hy
      exact Finset.mem_insert_self _ _

end Views
