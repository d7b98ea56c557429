import Mathlib.Tactic.Common

/-!
# Queues that are shifted

A queue in the first `count` cells of an array. An element is pushed behind the last one, if there
is a cell left; the first one is taken out by moving all others down, one cell at a time. `contents`
is the list that the queue stands for, `behind` the list of the elements that are left while they
are being moved.
-/

namespace Lib

variable {α : Type*}

structure ShiftQueue (α : Type*) where
  cells : List α
  count : Nat
  deriving DecidableEq, Repr

namespace ShiftQueue

/-- The elements of the queue. -/
def contents (q : ShiftQueue α) : List α := q.cells.take q.count

/-- There are `n` cells, and not more elements than that. -/
structure Valid (n : Nat) (q : ShiftQueue α) : Prop where
  length : q.cells.length = n
  count  : q.count ≤ n

/-- Put an element behind the others; it is lost if `n` elements are there. -/
def push (n : Nat) (q : ShiftQueue α) (a : α) : ShiftQueue α :=
  if q.count < n then { cells := q.cells.set q.count a, count := q.count + 1 } else q

/-- Move the element of the cell `i` down. -/
def shift (q : ShiftQueue α) (i : Nat) : ShiftQueue α :=
  match q.cells[i]? with
  | some a => { q with cells := q.cells.set (i - 1) a }
  | none => q

/-- Give up the last cell. -/
def shrink (q : ShiftQueue α) : ShiftQueue α := { q with count := q.count - 1 }

/-- The elements behind the first one, when those in front of the cell `i` have been moved. -/
def behind (q : ShiftQueue α) (i : Nat) : List α := q.cells.take (i - 1) ++ q.contents.drop i

variable {n i : Nat} {q : ShiftQueue α}

theorem Valid.length_contents (h : q.Valid n) : q.contents.length = q.count := by
  rw [contents, List.length_take, h.length]
  exact Nat.min_eq_left h.count

theorem Valid.push (h : q.Valid n) (a : α) : (q.push n a).Valid n := by
  unfold ShiftQueue.push
  split
  · rename_i hlt
    exact ⟨by simpa using h.length, hlt⟩
  · exact h

theorem contents_push (h : q.Valid n) (a : α) :
    (q.push n a).contents = if q.contents.length < n then q.contents ++ [a] else q.contents := by
  rw [h.length_contents, ShiftQueue.push]
  split
  · rename_i hlt
    have hcell : q.count < (q.cells.set q.count a).length := by simpa [h.length] using hlt
    rw [contents, List.take_add_one, List.getElem?_eq_getElem hcell]
    simp [contents, List.take_set_of_le]
  · rfl

theorem Valid.shift (h : q.Valid n) (i : Nat) : (q.shift i).Valid n := by
  unfold ShiftQueue.shift
  split
  · exact ⟨by simpa using h.length, h.count⟩
  · exact h

@[simp] theorem count_shift (q : ShiftQueue α) (i : Nat) : (q.shift i).count = q.count := by
  unfold shift
  split <;> rfl

theorem Valid.shrink (h : q.Valid n) : q.shrink.Valid n :=
  ⟨h.length, Nat.le_trans (Nat.sub_le _ _) h.count⟩

theorem behind_one (q : ShiftQueue α) : q.behind 1 = q.contents.tail := by
  simp [behind]

/-- Moving an element down does not change the elements that are left. -/
theorem behind_shift (h : q.Valid n) (hpos : 0 < i) (hi : i < q.count) :
    (q.shift i).behind (i + 1) = q.behind i := by
  have hcell : i < q.cells.length := by
    rw [h.length]
    exact Nat.lt_of_lt_of_le hi h.count
  have hset : (q.cells.set (i - 1) q.cells[i]).take i = q.cells.take (i - 1) ++ [q.cells[i]] := by
    obtain ⟨j, rfl⟩ : ∃ j, i = j + 1 := ⟨i - 1, by omega⟩
    have hcell' : j < q.cells.length := by omega
    rw [List.take_add_one]
    simp [List.take_set_of_le, hcell']
  have hdrop : q.contents.drop i = q.cells[i] :: q.contents.drop (i + 1) := by
    have hlt : i < q.contents.length := by rwa [h.length_contents]
    rw [List.drop_eq_getElem_cons hlt]
    simp [contents]
  have hrest : ((q.cells.set (i - 1) q.cells[i]).take q.count).drop (i + 1) =
      q.contents.drop (i + 1) := by
    rw [contents, List.drop_take, List.drop_take, List.drop_set_of_lt (by omega)]
  simp only [behind, shift, List.getElem?_eq_getElem hcell, contents, Nat.add_sub_cancel]
  rw [hset, hrest]
  simp only [contents] at hdrop ⊢
  rw [hdrop, List.append_assoc]
  rfl

/-- When all elements have been moved, the last cell is given up. -/
theorem contents_shrink (h : q.Valid n) : q.shrink.contents = q.behind q.count := by
  have hnil : q.contents.drop q.count = [] :=
    List.drop_eq_nil_of_le (Nat.le_of_eq h.length_contents)
  rw [behind, hnil, List.append_nil]
  rfl

end ShiftQueue

end Lib
