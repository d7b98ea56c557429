import Mathlib.Data.List.TakeWhile
import Mathlib.Tactic.Common

/-!
# Paths

A path as a sequence of names, and its text: every name with a separator before it. Since no name is
empty or holds the separator, the text determines the names (`below_inj`), and a text that continues
another one at a separator is the text of a path below it (`below_append_eq`).
-/

namespace Lib

variable {α : Type*} {sep : α}

/-- The text of a path. -/
def below (sep : α) (names : List (List α)) : List α := names.flatMap (sep :: ·)

@[simp] theorem below_nil : below sep ([] : List (List α)) = [] := rfl

@[simp] theorem below_cons (n : List α) (ns : List (List α)) :
    below sep (n :: ns) = sep :: (n ++ below sep ns) := rfl

@[simp] theorem below_append (ns ns' : List (List α)) :
    below sep (ns ++ ns') = below sep ns ++ below sep ns' :=
  List.flatMap_append

theorem below_eq_nil {ns : List (List α)} : below sep ns = [] ↔ ns = [] := by
  cases ns <;> simp

/-- Where a name ends: at a separator or at the end of the text. -/
def AtSep (sep : α) (s : List α) : Prop := s = [] ∨ s.head? = some sep

theorem atSep_below (ns : List (List α)) : AtSep sep (below sep ns) := by
  cases ns with
  | nil => exact .inl rfl
  | cons n ns => exact .inr rfl

/-- The names of a path. -/
def Names (sep : α) (ns : List (List α)) : Prop := ∀ n ∈ ns, sep ∉ n

section

variable [DecidableEq α] {s t : List α} {n m : List α} {ns ms : List (List α)}

theorem takeWhile_name (hn : sep ∉ n) (hs : AtSep sep s) : (n ++ s).takeWhile (· ≠ sep) = n := by
  have hall : ∀ c ∈ n, decide (c ≠ sep) = true := by
    intro c hc
    exact decide_eq_true fun heq => hn (heq ▸ hc)
  rw [List.takeWhile_append_of_pos hall]
  rcases hs with rfl | hs
  · simp
  · obtain ⟨c, s', rfl⟩ := List.exists_cons_of_ne_nil (l := s) (by rintro rfl; cases hs)
    cases hs
    simp

theorem name_append_inj (hn : sep ∉ n) (hm : sep ∉ m) (hs : AtSep sep s) (ht : AtSep sep t)
    (h : n ++ s = m ++ t) : n = m ∧ s = t := by
  have heq : n = m := by rw [← takeWhile_name hn hs, h, takeWhile_name hm ht]
  subst heq
  exact ⟨rfl, List.append_cancel_left h⟩

/-- A text that goes on at a separator goes on with names. -/
theorem below_append_eq (hns : Names sep ns) (hms : Names sep ms) (hs : AtSep sep s)
    (h : below sep ns ++ s = below sep ms) : ∃ rest, ms = ns ++ rest ∧ s = below sep rest := by
  induction ns generalizing ms with
  | nil => exact ⟨ms, rfl, h⟩
  | cons n ns ih =>
    obtain ⟨hn, hns⟩ := List.forall_mem_cons.mp hns
    cases ms with
    | nil => cases h
    | cons m ms =>
      obtain ⟨hm, hms'⟩ := List.forall_mem_cons.mp hms
      rw [below_cons, below_cons, List.cons_append, List.cons.injEq, List.append_assoc] at h
      have hsep : AtSep sep (below sep ns ++ s) := by
        cases ns with
        | nil => exact hs
        | cons n' ns => exact .inr rfl
      obtain ⟨rfl, htail⟩ := name_append_inj hn hm hsep (atSep_below ms) h.2
      obtain ⟨rest, rfl, hrest⟩ := ih hns hms' htail
      exact ⟨rest, rfl, hrest⟩

theorem below_inj (hns : Names sep ns) (hms : Names sep ms) (h : below sep ns = below sep ms) :
    ns = ms := by
  obtain ⟨rest, rfl, hrest⟩ :=
    below_append_eq hns hms (s := []) (.inl rfl) (by rw [List.append_nil, h])
  rw [below_eq_nil.mp hrest.symm, List.append_nil]

end

end Lib
