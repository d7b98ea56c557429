import Mathlib.Data.List.Basic
import Mathlib.Order.Lattice
import Mathlib.Tactic.Common

/-!
# The first of the largest items

A list is searched for an item with the largest value; the value may be missing, and of several
largest ones the first is meant. It can be found from left to right, with the best item so far kept
(`IsFirstMax.concat_of_le`, `IsFirstMax.of_lt_concat`). When the value of an item grows, this item
is the best one now, or the best one is the same as before (`IsFirstMax.raise`).
-/

namespace Lib

variable {α β : Type*} [LinearOrder β] (f : α → Option β)

/-- The item `a` has the value `b`, those before it have smaller values, and those behind it have no
larger ones. -/
def IsFirstMax (l : List α) (a : α) (b : β) : Prop :=
  ∃ before after, l = before ++ a :: after ∧ f a = some b ∧ (∀ c ∈ before, ∀ v ∈ f c, v < b) ∧
    ∀ c ∈ after, ∀ v ∈ f c, v ≤ b

namespace IsFirstMax

variable {f} {l : List α} {a : α} {b : β}

theorem value (h : IsFirstMax f l a b) : f a = some b := by
  obtain ⟨before, after, -, hvalue, -⟩ := h
  exact hvalue

theorem mem (h : IsFirstMax f l a b) : a ∈ l := by
  obtain ⟨before, after, rfl, -⟩ := h
  simp

theorem le (h : IsFirstMax f l a b) {c : α} (hc : c ∈ l) {v : β} (hv : v ∈ f c) : v ≤ b := by
  obtain ⟨before, after, rfl, hvalue, hbefore, hafter⟩ := h
  rcases List.mem_append.mp hc with hc | hc
  · exact le_of_lt (hbefore c hc v hv)
  · rcases List.mem_cons.mp hc with rfl | hc
    · exact le_of_eq (Option.some.inj (hv.symm.trans hvalue))
    · exact hafter c hc v hv

/-- The next item is not better. -/
theorem concat_of_le (h : IsFirstMax f l a b) {c : α} (hc : ∀ v ∈ f c, v ≤ b) :
    IsFirstMax f (l ++ [c]) a b := by
  obtain ⟨before, after, rfl, hvalue, hbefore, hafter⟩ := h
  refine ⟨before, after ++ [c], by simp, hvalue, hbefore, ?_⟩
  intro d hd
  rcases List.mem_append.mp hd with hd | hd
  · exact hafter d hd
  · rw [List.mem_singleton.mp hd]
    exact hc

/-- The next item is better than all before. -/
theorem of_lt_concat {c : α} (hl : ∀ d ∈ l, ∀ v ∈ f d, v < b) (hc : f c = some b) :
    IsFirstMax f (l ++ [c]) c b :=
  ⟨l, [], rfl, hc, hl, by simp⟩

/-- There is only one such item. -/
theorem unique (h : IsFirstMax f l a b) {a' : α} {b' : β} (h' : IsFirstMax f l a' b') : a = a' := by
  have hle : b ≤ b' := h'.le h.mem h.value
  have hle' : b' ≤ b := h.le h'.mem h'.value
  obtain ⟨before, after, rfl, hvalue, hbefore, -⟩ := h
  obtain ⟨before', after', heq, hvalue', hbefore', -⟩ := h'
  rcases List.append_eq_append_iff.mp heq with ⟨between, rfl, hrest⟩ | ⟨between, rfl, hrest⟩
  · cases between with
    | nil => exact (List.cons.inj hrest).1
    | cons c between =>
      -- `a` comes before `a'`
      obtain ⟨rfl, -⟩ := List.cons.inj hrest
      exact absurd (hbefore' a (by simp) b hvalue) (not_lt_of_ge hle')
  · cases between with
    | nil => exact (List.cons.inj hrest).1.symm
    | cons c between =>
      obtain ⟨rfl, -⟩ := List.cons.inj hrest
      exact absurd (hbefore a' (by simp) b' hvalue') (not_lt_of_ge hle)

/-- An item behind a part of the list. -/
theorem split {u v : List α} {x : α} (h : IsFirstMax f (u ++ x :: v) a b) (hu : a ∉ u) :
    (x = a ∧ (∀ c ∈ u, ∀ w ∈ f c, w < b)) ∨
    ∃ v₁ v₂, v = v₁ ++ a :: v₂ ∧ f a = some b ∧ (∀ c ∈ u ++ x :: v₁, ∀ w ∈ f c, w < b) ∧
      ∀ c ∈ v₂, ∀ w ∈ f c, w ≤ b := by
  obtain ⟨before, after, heq, hvalue, hbefore, hafter⟩ := h
  rcases List.append_eq_append_iff.mp heq with ⟨between, rfl, hrest⟩ | ⟨between, rfl, hrest⟩
  · cases between with
    | nil =>
      obtain ⟨rfl, rfl⟩ := List.cons.inj hrest
      exact .inl ⟨rfl, by simpa using hbefore⟩
    | cons c between =>
      obtain ⟨rfl, rfl⟩ := List.cons.inj hrest
      exact .inr ⟨between, after, rfl, hvalue, hbefore, hafter⟩
  · cases between with
    | nil =>
      obtain ⟨rfl, rfl⟩ := List.cons.inj hrest
      exact .inl ⟨rfl, by simpa using hbefore⟩
    | cons c between =>
      obtain ⟨rfl, -⟩ := List.cons.inj hrest
      exact absurd (by simp) hu

/-- The value of an item grows, where the best one was not before it. -/
theorem raise {u v : List α} {x x' : α} {b' : β} (h : IsFirstMax f (u ++ x :: v) a b) (hu : a ∉ u)
    (hx' : f x' = some b') (hle : ∀ w ∈ f x, w ≤ b') :
    IsFirstMax f (u ++ x' :: v) x' b' ∨ IsFirstMax f (u ++ x' :: v) a b := by
  have hmax : ∀ c ∈ v, ∀ w ∈ f c, w ≤ b := fun c hc w hw => h.le (by simp [hc]) hw
  have hvalue := h.value
  rcases h.split hu with ⟨rfl, hbefore⟩ | ⟨v₁, v₂, rfl, -, hbefore, hafter⟩
  · have hb : b ≤ b' := hle b hvalue
    exact .inl ⟨u, v, rfl, hx', fun c hc w hw => lt_of_lt_of_le (hbefore c hc w hw) hb,
      fun c hc w hw => le_trans (hmax c hc w hw) hb⟩
  · rcases lt_or_ge b' b with hlt | hge
    · refine .inr ⟨u ++ x' :: v₁, v₂, by simp, hvalue, fun c hc w hw => ?_, hafter⟩
      rcases List.mem_append.mp hc with hc | hc
      · exact hbefore c (by simp [hc]) w hw
      · rcases List.mem_cons.mp hc with rfl | hc
        · rw [hx'] at hw
          cases hw
          exact hlt
        · exact hbefore c (by simp [hc]) w hw
    · exact .inl ⟨u, v₁ ++ a :: v₂, rfl, hx',
        fun c hc w hw => lt_of_lt_of_le (hbefore c (by simp [hc]) w hw) hge,
        fun c hc w hw => le_trans (hmax c hc w hw) hge⟩

end IsFirstMax

end Lib
