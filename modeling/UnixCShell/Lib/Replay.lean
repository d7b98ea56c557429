import Mathlib.Data.List.Basic
import Mathlib.Logic.Function.Basic
import Mathlib.Tactic.Common

/-!
# Replay

A store with addresses, and writes that are applied to it one after the other. What matters for a
redo log: after the writes `ws` an address holds the last value that `ws` has for it, whatever was
there before (`replay_congr`).
-/

namespace Lib

variable {A V : Type*} [DecidableEq A]

/-- Apply the writes. -/
def replay (d : A → V) (ws : List (A × V)) : A → V :=
  ws.foldl (fun d w => Function.update d w.1 w.2) d

variable {d d' : A → V} {ws : List (A × V)} {a : A}

@[simp] theorem replay_cons (d : A → V) (w : A × V) (ws : List (A × V)) :
    replay d (w :: ws) = replay (Function.update d w.1 w.2) ws := rfl

theorem replay_append (d : A → V) (ws ws' : List (A × V)) :
    replay d (ws ++ ws') = replay (replay d ws) ws' :=
  List.foldl_append

theorem replay_concat (d : A → V) (ws : List (A × V)) (w : A × V) :
    replay d (ws ++ [w]) = Function.update (replay d ws) w.1 w.2 := replay_append d ws [w]

/-- What is not written stays. -/
theorem replay_of_notMem (h : a ∉ ws.map Prod.fst) : replay d ws a = d a := by
  induction ws generalizing d with
  | nil => rfl
  | cons w ws ih =>
    rw [List.map_cons, List.mem_cons, not_or] at h
    rw [replay_cons, ih h.2, Function.update_of_ne h.1]

/-- What is written does not depend on what was there. -/
theorem replay_congr (h : a ∉ ws.map Prod.fst → d a = d' a) : replay d ws a = replay d' ws a := by
  induction ws generalizing d d' with
  | nil => exact h List.not_mem_nil
  | cons w ws ih =>
    rw [replay_cons, replay_cons]
    refine ih fun hnot => ?_
    by_cases ha : a = w.1
    · rw [ha, Function.update_self, Function.update_self]
    · rw [Function.update_of_ne ha, Function.update_of_ne ha]
      exact h (by simp [ha, hnot])

/-- All writes to `a` write `v`. -/
theorem replay_eq_of_forall {v : V} (h : ∀ w ∈ ws, w.1 = a → w.2 = v)
    (hd : a ∉ ws.map Prod.fst → d a = v) :
    replay d ws a = v := by
  induction ws generalizing d with
  | nil => exact hd List.not_mem_nil
  | cons w ws ih =>
    rw [List.forall_mem_cons] at h
    refine ih h.2 fun hnot => ?_
    by_cases ha : a = w.1
    · show Function.update d w.1 w.2 a = v
      rw [ha, Function.update_self]
      exact h.1 ha.symm
    · show Function.update d w.1 w.2 a = v
      rw [Function.update_of_ne ha]
      exact hd (by simp [ha, hnot])

end Lib
