import Mathlib.Data.Prod.Lex
import UnixCShell.Lib.Slots

/-!
# Searches in two loops

A table whose entries hold lists, and a search with an outer loop over the slots and an inner loop
over the list in the slot. It stops at the first match, that is at the least one in the
lexicographic order of slots and positions.
-/

namespace Lib.Slots

variable {n : Nat} {α β : Type*}

/-- What stands at position `i` of the list in slot `k`. -/
def item (s : Slots n α) (f : α → List β) (k : Fin n) (i : Nat) : Option β :=
  (s.cell k).bind fun a => (f a)[i]?

/-- The search, which returns the slot and the position. -/
def scan (s : Slots n α) (f : α → List β) (q : β → Bool) : Option (Fin n × Nat) :=
  (s.findSlot fun a => (f a).any q).bind fun k => (s.cell k).map fun a => (k, (f a).findIdx q)

variable {s : Slots n α} {f : α → List β} {q : β → Bool} {k k' : Fin n} {i i' : Nat}
    {a : α} {b b' : β}

theorem item_eq_some : s.item f k i = some b ↔ ∃ a, s.cell k = some a ∧ (f a)[i]? = some b :=
  Option.bind_eq_some_iff

/-- The slots before the one that is found have no match. -/
theorem findSlot_le {p : α → Bool} (h : s.findSlot p = some k) (ha : s.cell k' = some a)
    (hp : p a = true) : k ≤ k' := by
  obtain ⟨-, i, hi, hk, hbefore⟩ := List.find?_eq_some_iff_getElem.mp h
  rw [List.getElem_finRange] at hk
  by_contra hlt
  have hval : k.val = i := by rw [← hk]; rfl
  have := hbefore k'.val (by omega)
  rw [List.getElem_finRange] at this
  simp [ha, hp] at this

theorem findIdx_le {l : List β} (h : l[i]? = some b) (hq : q b = true) : l.findIdx q ≤ i := by
  by_contra hlt
  have := List.not_of_lt_findIdx (Nat.lt_of_not_le hlt)
  rw [(List.getElem?_eq_some_iff.mp h).2, hq] at this
  cases this

theorem scan_eq_some_cell (h : s.scan f q = some (k, i)) :
    s.findSlot (fun a => (f a).any q) = some k ∧ ∃ a, s.cell k = some a ∧ (f a).findIdx q = i := by
  obtain ⟨k₁, hfind, hmap⟩ := Option.bind_eq_some_iff.mp h
  obtain ⟨a, ha, heq⟩ := Option.map_eq_some_iff.mp hmap
  cases heq
  exact ⟨hfind, a, ha, rfl⟩

/-- What is found is a match. -/
theorem scan_item (h : s.scan f q = some (k, i)) : ∃ b, s.item f k i = some b ∧ q b = true := by
  obtain ⟨hfind, a, ha, rfl⟩ := scan_eq_some_cell h
  obtain ⟨a', ha', hany⟩ := findSlot_eq_some hfind
  obtain rfl : a = a' := Option.some.inj (ha.symm.trans ha')
  have hlt : (f a).findIdx q < (f a).length := by
    rw [List.findIdx_lt_length]
    simpa using hany
  exact ⟨_, item_eq_some.mpr ⟨a, ha, List.getElem?_eq_getElem hlt⟩, List.findIdx_getElem (w := hlt)⟩

/-- All matches are at the place that is found or behind it. -/
theorem scan_le (h : s.scan f q = some (k, i)) (hb : s.item f k' i' = some b') (hq : q b' = true) :
    toLex (k, i) ≤ toLex (k', i') := by
  obtain ⟨hfind, a, ha, rfl⟩ := scan_eq_some_cell h
  obtain ⟨a', ha', hi'⟩ := item_eq_some.mp hb
  have hany : (f a').any q = true := List.any_eq_true.mpr ⟨b', List.mem_of_getElem? hi', hq⟩
  rw [Prod.Lex.toLex_le_toLex]
  rcases (findSlot_le hfind ha' hany).lt_or_eq with hlt | rfl
  · exact .inl hlt
  · obtain rfl : a = a' := Option.some.inj (ha.symm.trans ha')
    exact .inr ⟨rfl, findIdx_le hi' hq⟩

theorem scan_isSome (hb : s.item f k i = some b) (hq : q b = true) :
    ∃ k' i', s.scan f q = some (k', i') := by
  obtain ⟨a, ha, hi⟩ := item_eq_some.mp hb
  have hany : (f a).any q = true := List.any_eq_true.mpr ⟨b, List.mem_of_getElem? hi, hq⟩
  cases hfind : s.findSlot fun a => (f a).any q with
  | none =>
    have := findSlot_eq_none.mp hfind a ⟨k, ha⟩
    rw [hany] at this
    cases this
  | some k' =>
    obtain ⟨a', ha', -⟩ := findSlot_eq_some hfind
    exact ⟨k', (f a').findIdx q, by rw [scan, hfind, Option.bind_some, ha', Option.map_some]⟩

end Lib.Slots
