import Mathlib.Order.Nat
import Mathlib.Tactic.Common

/-!
# Stores into arrays of fixed size

What a program stores where, without the values: a trace is the list of its stores, each an array
with an index. `InBounds` says that no store of a trace is past the end of its array; `fill` is the
trace of a loop over the elements of one array.
-/

namespace Lib

variable {α : Type*}

/-- `array[index] = ..`. -/
structure Store (α : Type*) where
  array : α
  index : Nat
  deriving DecidableEq, Repr

/-- The stores of a loop that fills `n` elements of an array. -/
def fill (array : α) (n : Nat) : List (Store α) := (List.range n).map (⟨array, ·⟩)

/-- Every store is within the size of its array. -/
def InBounds (size : α → Nat) (trace : List (Store α)) : Prop := ∀ s ∈ trace, s.index < size s.array

instance (size : α → Nat) (trace : List (Store α)) : Decidable (InBounds size trace) :=
  inferInstanceAs (Decidable (∀ s ∈ trace, _))

section Bounds

variable {size : α → Nat} {s t : List (Store α)}

@[simp] theorem inBounds_nil : InBounds size ([] : List (Store α)) := by simp [InBounds]

@[simp] theorem inBounds_cons {x : Store α} :
    InBounds size (x :: t) ↔ x.index < size x.array ∧ InBounds size t := by
  simp [InBounds]

@[simp] theorem inBounds_append : InBounds size (s ++ t) ↔ InBounds size s ∧ InBounds size t := by
  simp only [InBounds, List.mem_append, or_imp, forall_and]

theorem inBounds_flatMap {β : Type*} {f : β → List (Store α)} {bs : List β} :
    InBounds size (bs.flatMap f) ↔ ∀ b ∈ bs, InBounds size (f b) := by
  simp only [InBounds, List.mem_flatMap]
  constructor
  · intro h b hb x hx
    exact h x ⟨b, hb, hx⟩
  · rintro h x ⟨b, hb, hx⟩
    exact h b hb x hx

@[simp] theorem inBounds_fill {array : α} {n : Nat} :
    InBounds size (fill array n) ↔ n ≤ size array := by
  induction n with
  | zero => simp [fill]
  | succ n ih =>
    rw [fill, List.range_succ, List.map_append, inBounds_append]
    simp only [List.map_singleton, inBounds_cons, inBounds_nil, and_true]
    rw [show InBounds size (List.map _ (List.range n)) ↔ _ from ih]
    omega

end Bounds

end Lib
