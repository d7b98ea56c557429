import Mathlib.Data.Fintype.Card
import Mathlib.Data.List.FinRange
import Mathlib.Logic.Function.Basic
import Mathlib.Tactic.Common

/-!
# Tables with a fixed number of slots

`T table[n]` with a `used` flag in every entry: a new entry goes to the first free slot, and is
dropped if there is none; searches run from the first slot to the last.
-/

namespace Lib

/-- A table of `n` slots; a slot that is not used holds `none`. -/
structure Slots (n : Nat) (α : Type*) where
  cell : Fin n → Option α

namespace Slots

variable {n : Nat} {α : Type*}

/-- No slot is used. -/
def empty : Slots n α := ⟨fun _ => none⟩

instance : Membership α (Slots n α) := ⟨fun s a => ∃ i, s.cell i = some a⟩

/-- Write to a slot. -/
def set (s : Slots n α) (i : Fin n) (a : Option α) : Slots n α := ⟨Function.update s.cell i a⟩

/-- The first free slot. -/
def firstFree (s : Slots n α) : Option (Fin n) := (List.finRange n).find? fun i => (s.cell i).isNone

/-- The first used slot whose entry satisfies `p`. -/
def findSlot (s : Slots n α) (p : α → Bool) : Option (Fin n) :=
  (List.finRange n).find? fun i => (s.cell i).any p

/-- Put an entry into the first free slot, if there is one. -/
def insert (s : Slots n α) (a : α) : Slots n α :=
  match s.firstFree with
  | some i => s.set i (some a)
  | none => s

/-- The slots that are used. -/
def used (s : Slots n α) : Finset (Fin n) := {i | (s.cell i).isSome}

variable {s : Slots n α} {i j : Fin n} {a b : α} {p : α → Bool}

theorem mem_iff : a ∈ s ↔ ∃ i, s.cell i = some a := Iff.rfl

theorem not_mem_empty : a ∉ (empty : Slots n α) := by
  rintro ⟨i, hi⟩
  cases hi

@[simp] theorem cell_set_self (s : Slots n α) (i : Fin n) (a : Option α) :
    (s.set i a).cell i = a := by
  simp [set]

theorem cell_set_of_ne (s : Slots n α) (a : Option α) (h : j ≠ i) : (s.set i a).cell j = s.cell j :=
  by simp [set, h]

@[simp] theorem set_set (s : Slots n α) (i : Fin n) (a b : Option α) :
    (s.set i a).set i b = s.set i b := by
  simp [set]

/-- What a table holds after a write: what was written, and the other slots as before. -/
theorem cell_set_eq_some {o : Option α} :
    (s.set i o).cell j = some b ↔ j = i ∧ o = some b ∨ j ≠ i ∧ s.cell j = some b := by
  by_cases hji : j = i
  · subst hji
    simp
  · simp [cell_set_of_ne s o hji, hji]

/-- An entry of a table in which slot `i` was cleared. -/
theorem mem_set_none : b ∈ s.set i none ↔ ∃ j, j ≠ i ∧ s.cell j = some b := by
  simp only [mem_iff, cell_set_eq_some, reduceCtorEq, and_false, false_or]

/-- An entry of a table in which `a` was written to slot `i`. -/
theorem mem_set_some : b ∈ s.set i (some a) ↔ b = a ∨ ∃ j, j ≠ i ∧ s.cell j = some b := by
  simp only [mem_iff, cell_set_eq_some, Option.some.injEq, exists_or, exists_eq_left]
  rw [eq_comm]

theorem firstFree_eq_some (h : s.firstFree = some i) : s.cell i = none := by
  simpa using List.find?_some h

theorem firstFree_isSome (h : s.cell i = none) : ∃ j, s.firstFree = some j := by
  rw [← Option.isSome_iff_exists, firstFree, List.find?_isSome]
  exact ⟨i, List.mem_finRange i, by simp [h]⟩

theorem findSlot_eq_some (h : s.findSlot p = some i) : ∃ a, s.cell i = some a ∧ p a = true := by
  have := List.find?_some h
  simpa [Option.any_eq_true] using this

theorem findSlot_eq_none : s.findSlot p = none ↔ ∀ a ∈ s, p a = false := by
  simp only [findSlot, List.find?_eq_none, List.mem_finRange, forall_true_left, mem_iff,
    Option.any_eq_true, not_exists, not_and, Bool.not_eq_true]
  constructor
  · rintro h a ⟨i, hi⟩
    exact h i a hi
  · intro h i a hi
    exact h a ⟨i, hi⟩

/-- If only one slot can satisfy `p`, the search finds it. -/
theorem findSlot_of_unique (hi : s.cell i = some a) (hp : p a = true)
    (huniq : ∀ j b, s.cell j = some b → p b = true → j = i) : s.findSlot p = some i := by
  cases h : s.findSlot p with
  | none =>
    have := findSlot_eq_none.mp h a ⟨i, hi⟩
    rw [hp] at this
    cases this
  | some j =>
    obtain ⟨b, hb, hpb⟩ := findSlot_eq_some h
    rw [huniq j b hb hpb]

/-- A search over all slots of which only one can succeed. -/
theorem findSome?_finRange {β : Type*} {f : Fin n → Option β} (h : ∀ k, k ≠ i → f k = none) :
    (List.finRange n).findSome? f = f i := by
  cases hi : f i with
  | none =>
    rw [List.findSome?_eq_none_iff]
    intro k _
    by_cases hk : k = i
    · rw [hk, hi]
    · exact h k hk
  | some b =>
    cases hfind : (List.finRange n).findSome? f with
    | none =>
      have := List.findSome?_eq_none_iff.mp hfind i (List.mem_finRange i)
      rw [hi] at this
      cases this
    | some c =>
      obtain ⟨k, -, hk⟩ := List.exists_of_findSome?_eq_some hfind
      have hki : k = i := by
        by_contra hne
        rw [h k hne] at hk
        cases hk
      rw [← hk, hki, hi]

/-! ### Some of the entries

What happens to the entries with a property `q`: writes for other entries leave them as they are. -/

section Some

variable {q : α → Prop} {t u : Slots n α}

/-- The tables have the same entries among those with `q`. -/
def SameOn (q : α → Prop) (s t : Slots n α) : Prop :=
  ∀ k a, q a → (t.cell k = some a ↔ s.cell k = some a)

/-- No two slots hold entries with `q`. -/
def Sole (q : α → Prop) (s : Slots n α) : Prop :=
  ∀ i j a b, s.cell i = some a → s.cell j = some b → q a → q b → i = j

/-- No slot holds an entry with `q`. -/
def Lacks (q : α → Prop) (s : Slots n α) : Prop := ∀ a ∈ s, ¬ q a

theorem SameOn.refl (q : α → Prop) (s : Slots n α) : s.SameOn q s := fun _ _ _ => Iff.rfl

theorem SameOn.trans (h : s.SameOn q t) (h' : t.SameOn q u) : s.SameOn q u :=
  fun k a hq => (h' k a hq).trans (h k a hq)

theorem SameOn.lacks (h : s.SameOn q t) (hs : s.Lacks q) : t.Lacks q := by
  rintro a ⟨k, hk⟩ hq
  exact hs a ⟨k, (h k a hq).mp hk⟩ hq

theorem SameOn.sole (h : s.SameOn q t) (hs : s.Sole q) : t.Sole q := by
  intro i j a b hi hj ha hb
  exact hs i j a b ((h i a ha).mp hi) ((h j b hb).mp hj) ha hb

theorem Lacks.sole (h : s.Lacks q) : s.Sole q := fun i _ a _ hi _ ha _ => absurd ha (h a ⟨i, hi⟩)

/-- An entry without `q` takes a free slot. -/
theorem sameOn_insert (h : ¬ q a) : s.SameOn q (s.insert a) := by
  intro k b hq
  have hab : a ≠ b := by
    rintro rfl
    exact h hq
  unfold insert
  split
  · next i hfree =>
    have hcell := firstFree_eq_some hfree
    rw [cell_set_eq_some, Option.some.injEq]
    constructor
    · rintro (⟨-, heq⟩ | ⟨-, hk⟩)
      · exact absurd heq hab
      · exact hk
    · intro hk
      refine .inr ⟨?_, hk⟩
      rintro rfl
      rw [hcell] at hk
      cases hk
  · exact Iff.rfl

/-- The slot of an entry without `q` is cleared. -/
theorem sameOn_set_none (hi : s.cell i = some a) (h : ¬ q a) : s.SameOn q (s.set i none) := by
  intro k b hq
  rw [cell_set_eq_some]
  constructor
  · rintro (⟨-, heq⟩ | ⟨-, hk⟩)
    · cases heq
    · exact hk
  · intro hk
    refine .inr ⟨?_, hk⟩
    rintro rfl
    exact h (Option.some.inj (hi.symm.trans hk) ▸ hq)

/-- The slot of the only entry with `q` is cleared. -/
theorem Sole.set_none (h : s.Sole q) (hi : s.cell i = some a) (ha : q a) :
    (s.set i none).Lacks q := by
  intro b hb hq
  obtain ⟨j, hji, hj⟩ := mem_set_none.mp hb
  exact hji (h j i b a hj hi hq ha)

/-- The first entry with `q` is written. -/
theorem Lacks.set_sole (h : s.Lacks q) (i : Fin n) (a : α) : (s.set i (some a)).Sole q := by
  have hslot : ∀ j b, (s.set i (some a)).cell j = some b → q b → j = i := by
    intro j b hj hb
    rcases cell_set_eq_some.mp hj with ⟨hji, -⟩ | ⟨-, hs⟩
    · exact hji
    · exact absurd hb (h b ⟨j, hs⟩)
  intro j k b c hj hk hb hc
  rw [hslot j b hj hb, hslot k c hk hc]

end Some

/-! ### How many slots are used -/

@[simp] theorem mem_used : i ∈ s.used ↔ (s.cell i).isSome := by simp [used]

theorem card_used_le (s : Slots n α) : s.used.card ≤ n :=
  (Finset.card_le_univ _).trans_eq (Fintype.card_fin n)

theorem used_set_none (s : Slots n α) (i : Fin n) : (s.set i none).used = s.used.erase i := by
  ext j
  by_cases hji : j = i
  · subst hji
    simp
  · simp [cell_set_of_ne s none hji, hji]

theorem used_set_some (h : s.cell i = some a) (b : α) : (s.set i (some b)).used = s.used := by
  ext j
  by_cases hji : j = i
  · subst hji
    simp [h]
  · simp [cell_set_of_ne s (some b) hji]

/-- Clearing a slot makes room for one entry. -/
theorem card_used_set_none (h : s.cell i = some a) :
    (s.set i none).used.card + 1 = s.used.card := by
  rw [used_set_none]
  exact Finset.card_erase_add_one (by simp [h])

end Slots

end Lib
