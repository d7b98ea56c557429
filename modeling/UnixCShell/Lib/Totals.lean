import Mathlib.Algebra.BigOperators.Ring.Finset
import Mathlib.Algebra.Order.BigOperators.Group.Finset
import Mathlib.Data.Fintype.Basic

/-!
# Counting threads

Every thread is at a place, and `total f` adds up what `f` says about the places. When one thread
moves, the total changes by what changes for this thread (`total_update`).
-/

namespace Lib

variable {T K : Type*} [Fintype T] [DecidableEq T]

def total (f : K → Nat) (ks : T → K) : Nat := ∑ t, f (ks t)

theorem total_update (f : K → Nat) (ks : T → K) (t : T) (k : K) :
    total f (Function.update ks t k) + f (ks t) = total f ks + f k := by
  have hrest : ∑ u ∈ Finset.univ.erase t, f (Function.update ks t k u) =
    ∑ u ∈ Finset.univ.erase t, f (ks u) :=
    Finset.sum_congr rfl fun u hu => by rw [Function.update_of_ne (Finset.ne_of_mem_erase hu)]
  unfold total
  rw [← Finset.add_sum_erase _ _ (Finset.mem_univ t),
    ← Finset.add_sum_erase _ (fun u => f (ks u)) (Finset.mem_univ t),
    Function.update_self, hrest]
  omega

omit [DecidableEq T] in
theorem le_total (f : K → Nat) (ks : T → K) (t : T) : f (ks t) ≤ total f ks :=
  Finset.single_le_sum (f := fun u => f (ks u)) (fun _ _ => Nat.zero_le _) (Finset.mem_univ t)

omit [DecidableEq T] in
theorem total_eq_zero_iff {f : K → Nat} {ks : T → K} : total f ks = 0 ↔ ∀ t, f (ks t) = 0 := by
  simp [total]

/-- Two threads count twice. -/
theorem add_le_total (f : K → Nat) (ks : T → K) {t u : T} (h : t ≠ u) :
    f (ks t) + f (ks u) ≤ total f ks := by
  have hsub : ({t, u} : Finset T) ⊆ Finset.univ := Finset.subset_univ _
  have := Finset.sum_le_sum_of_subset (f := fun u => f (ks u)) hsub
  rwa [Finset.sum_pair h] at this

omit [DecidableEq T] in
theorem total_le_mul {f g : K → Nat} {n : Nat} (h : ∀ k, f k ≤ g k * n) (ks : T → K) :
    total f ks ≤ total g ks * n := by
  unfold total
  rw [Finset.sum_mul]
  exact Finset.sum_le_sum fun t _ => h (ks t)

end Lib
