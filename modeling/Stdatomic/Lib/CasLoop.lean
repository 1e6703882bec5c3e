/-
  Stdatomic.Lib.CasLoop — read-modify-write loops over a compare-exchange. A loop has a
  guess `E` of the object's value and the value `R` to replace it by; an attempt that fails
  reads the object, which becomes the next guess. Other threads may change the object
  before each attempt, by any function; what an attempt meets is what the one before it
  left, so changed (`Meets`).

  If `R` is `f E` for the first guess and is kept so (`next`), the attempt that succeeds
  applies `f` to the object at once, whatever the others do (`loop_atOnce`), and an
  undisturbed second attempt succeeds (`loop_second`).
-/

import Mathlib.Data.Nat.Notation

namespace CasLoop

universe u v

variable {α : Type u} {ρ : Type v}

/-- The attempts, with the object before and after each, and what the call returned. -/
structure History (α : Type u) (ρ : Type v) where
  attempts : List (α × α)
  result : Option ρ

def History.map {σ : Type v} (g : ρ → σ) (h : History α ρ) : History α σ := ⟨h.attempts, h.result.map g⟩

def History.Brief (h : History α ρ) : Prop := h.result.isSome = true ∧ h.attempts.length ≤ 2

/-- The loop at `E` and `R` on the object `obj`; `changes` are what other threads do to the object
    before each attempt, as far as the run goes. -/
def loop [DecidableEq α] (next : α → α) (ret : α → α → ρ) (E R obj : α) : List (α → α) → History α ρ
  | [] => ⟨[], none⟩
  | change :: changes =>
    if change obj = E then ⟨[(E, R)], some (ret E R)⟩
    else
      let v := change obj
      let rest := loop next ret v (next v) v changes
      ⟨(v, v) :: rest.attempts, rest.result⟩

/-- The attempts are on the object, `obj` at first, with the changes made to it before each. -/
def Meets (obj : α) : List (α × α) → List (α → α) → Prop
  | [], _ => True
  | _ :: _, [] => False
  | a :: attempts, change :: changes => a.1 = change obj ∧ Meets a.2 attempts changes

/-- Failed attempts on the object and then, if the call returned, `f` applied to what it was, `e`, with
    `g e` as result; a call that has not returned has failed after every change. -/
structure AtOnce (f : α → α) (g : α → ρ) (obj : α) (changes : List (α → α)) (h : History α ρ) : Prop where
  meets : Meets obj h.attempts changes
  returned : ∀ x, h.result = some x →
    ∃ failed e, h.attempts = failed ++ [(e, f e)] ∧ (∀ a ∈ failed, a.2 = a.1) ∧ x = g e
  running : h.result = none → h.attempts.length = changes.length ∧ ∀ a ∈ h.attempts, a.2 = a.1

section
variable {f : α → α} {g : α → ρ} {h : History α ρ} {obj : α} {changes : List (α → α)}

theorem atOnce_none : AtOnce f g obj [] ⟨[], none⟩ := ⟨trivial, nofun, fun _ => ⟨rfl, nofun⟩⟩

theorem atOnce_one (change : α → α) :
    AtOnce f g obj (change :: changes) ⟨[(change obj, f (change obj))], some (g (change obj))⟩ :=
  ⟨⟨rfl, trivial⟩, fun _ hx => ⟨[], change obj, rfl, nofun, (Option.some.inj hx).symm⟩, nofun⟩

/-- A failed attempt before the others. -/
theorem AtOnce.cons {change : α → α} (hh : AtOnce f g (change obj) changes h) :
    AtOnce f g obj (change :: changes) ⟨(change obj, change obj) :: h.attempts, h.result⟩ := by
  have failed : ∀ l : List (α × α), (∀ a ∈ l, a.2 = a.1) → ∀ a ∈ (change obj, change obj) :: l, a.2 = a.1 := by
    intro l hl a ha
    rcases List.mem_cons.mp ha with rfl | ha
    · rfl
    · exact hl a ha
  refine ⟨⟨rfl, hh.meets⟩, fun x hx => ?_, fun hx => ?_⟩
  · obtain ⟨l, e, hl, hfail, hval⟩ := hh.returned x hx
    exact ⟨(change obj, change obj) :: l, e, by rw [hl]; rfl, failed l hfail, hval⟩
  · obtain ⟨hlen, hfail⟩ := hh.running hx
    exact ⟨congrArg (· + 1) hlen, failed _ hfail⟩

theorem AtOnce.map {σ : Type v} (hh : AtOnce f g obj changes h) (k : ρ → σ) :
    AtOnce f (fun e => k (g e)) obj changes (h.map k) := by
  refine ⟨hh.meets, fun y hy => ?_, fun hn => hh.running (Option.map_eq_none_iff.mp hn)⟩
  obtain ⟨x, hx, hk⟩ := Option.map_eq_some_iff.mp hy
  obtain ⟨l, e, hl, hfail, hval⟩ := hh.returned x hx
  exact ⟨l, e, hl, hfail, by rw [← hk, hval]⟩

theorem History.Brief.map {σ : Type v} (hh : h.Brief) (k : ρ → σ) : (h.map k).Brief :=
  ⟨by rw [History.map, Option.isSome_map]; exact hh.1, hh.2⟩

variable [DecidableEq α] {next : α → α} {ret : α → α → ρ} {E R : α}

/-- The loop keeps `R = f E`. -/
theorem loop_atOnce (hnext : ∀ e, next e = f e) (hret : ∀ e, ret e (f e) = g e) (hR : R = f E) :
    AtOnce f g obj changes (loop next ret E R obj changes) := by
  induction changes generalizing E R obj with
  | nil => exact atOnce_none
  | cons change changes ih =>
    unfold loop
    split
    · rename_i hE
      rw [hR, hret, ← hE]
      exact atOnce_one change
    · exact (ih (hnext (change obj))).cons

/-- An attempt on the value the last one read succeeds. -/
theorem loop_second {change : α → α} : (loop next ret E R obj (change :: id :: changes)).Brief := by
  unfold History.Brief
  by_cases h : change obj = E
  · simp [loop, h]
  · simp [loop, h]

end

end CasLoop
