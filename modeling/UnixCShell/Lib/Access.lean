import Mathlib.Tactic.Common

/-!
# Code that reads an array

An `Access` is a piece of straight-line code that reads an array. It is run on the contents of the
array, and tells the indices that it has read and its result, which is missing if its behaviour is
undefined. `Sat` is what holds of such a run: a property of all indices, and one of the result.
There is a rule for every way to build the code.
-/

namespace Lib

universe u

/-- Code that reads an array of `α`: the indices it reads, and its result, if it is defined. -/
def Access (α β : Type u) : Type u := (Nat → α) → List Nat × Option β

namespace Access

variable {α β γ : Type u}

instance : Monad (Access α) where
  pure b := fun _ => ([], some b)
  bind m f := fun a =>
    match m a with
    | (ks, none) => (ks, none)
    | (ks, some b) => (ks ++ (f b a).1, (f b a).2)

/-- Read the entry at an index. -/
def read (k : Nat) : Access α α := fun a => ([k], some (a k))

/-- Undefined behaviour. -/
def undefined : Access α β := fun _ => ([], none)

/-- The behaviour is undefined unless `p` holds. -/
def check (p : Prop) [Decidable p] : Access α PUnit := if p then pure ⟨⟩ else undefined

/-- On the array `a` all indices that are read have the property `P`, and the result has the
property `Q`. -/
structure Sat (a : Nat → α) (P : Nat → Prop) (m : Access α β) (Q : Option β → Prop) : Prop where
  reads  : ∀ k ∈ (m a).1, P k
  result : Q (m a).2

namespace Sat

variable {a : Nat → α} {P : Nat → Prop}

theorem pure {b : β} {Q : Option β → Prop} (h : Q (some b)) : Sat a P (Pure.pure b) Q :=
  ⟨fun _ hk => absurd hk List.not_mem_nil, h⟩

theorem undefined {Q : Option β → Prop} (h : Q none) : Sat a P Access.undefined Q :=
  ⟨fun _ hk => absurd hk List.not_mem_nil, h⟩

theorem read {k : Nat} {Q : Option α → Prop} (hk : P k) (h : Q (some (a k))) :
    Sat a P (Access.read k) Q :=
  ⟨fun _ hmem => List.mem_singleton.mp hmem ▸ hk, h⟩

/-- One piece of code after the other. -/
theorem bind {m : Access α β} {f : β → Access α γ} {R : Option β → Prop} {Q : Option γ → Prop}
    (hm : Sat a P m R) (hnone : R none → Q none) (hsome : ∀ b, R (some b) → Sat a P (f b) Q) :
    Sat a P (m >>= f) Q := by
  obtain ⟨hreads, hresult⟩ := hm
  rcases hma : m a with ⟨ks, b⟩
  rw [hma] at hreads hresult
  cases b with
  | none =>
    have hrun : (m >>= f) a = (ks, none) := by simp only [Bind.bind, hma]
    constructor
    · rw [hrun]
      exact hreads
    · rw [hrun]
      exact hnone hresult
  | some b =>
    have hrun : (m >>= f) a = (ks ++ (f b a).1, (f b a).2) := by simp only [Bind.bind, hma]
    obtain ⟨hreads', hresult'⟩ := hsome b hresult
    constructor
    · rw [hrun]
      intro k hk
      exact (List.mem_append.mp hk).elim (hreads k) (hreads' k)
    · rw [hrun]
      exact hresult'

theorem read_bind {k : Nat} {f : α → Access α β} {Q : Option β → Prop} (hk : P k)
    (h : Sat a P (f (a k)) Q) :
    Sat a P (Access.read k >>= f) Q := by
  have hread : Sat a P (Access.read k) (· = some (a k)) := .read hk rfl
  refine hread.bind (fun hnone => by cases hnone) fun b hb => ?_
  rw [Option.some.inj hb]
  exact h

theorem check_bind {p : Prop} [Decidable p] {f : PUnit → Access α β} {Q : Option β → Prop}
    (hpos : p → Sat a P (f ⟨⟩) Q) (hneg : ¬ p → Q none) : Sat a P (check p >>= f) Q := by
  by_cases hp : p
  · have hcheck : Sat a P (check p) (· = some ⟨⟩) := by
      rw [check, if_pos hp]
      exact .pure rfl
    exact hcheck.bind (fun hnone => by cases hnone) fun _ _ => hpos hp
  · have hcheck : Sat a P (check p) (· = none) := by
      rw [check, if_neg hp]
      exact .undefined rfl
    exact hcheck.bind (fun _ => hneg hp) fun _ hsome => by cases hsome

end Sat
end Access
end Lib
