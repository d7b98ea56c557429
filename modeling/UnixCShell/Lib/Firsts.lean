import Mathlib.Data.List.Duplicate
import Mathlib.Data.List.Induction
import Mathlib.Data.List.Nodup
import Mathlib.Tactic.Common

/-!
# The first keys of a history

A table with `n` places that is filled in the order in which keys come: a key that is there already
keeps its place, a new key gets the next place, and when all places are taken new keys are turned
away.
-/

namespace Lib

variable {κ β : Type*} [DecidableEq κ]

/-- The first `n` different keys, in the order in which they come first. -/
def firsts (n : Nat) (ks : List κ) : List κ := ks.eraseDups.take n

variable {n : Nat} {ks : List κ} {k : κ}

theorem eraseDups_concat :
    (ks ++ [k]).eraseDups = if k ∈ ks then ks.eraseDups else ks.eraseDups ++ [k] := by
  rw [List.eraseDups_append]
  by_cases h : k ∈ ks
  · simp [List.removeAll, h]
  · simp [List.removeAll, h, List.eraseDups_cons]

theorem nodup_eraseDups (ks : List κ) : ks.eraseDups.Nodup := by
  induction ks using List.reverseRecOn with
  | nil => exact List.nodup_nil
  | append_singleton ks k ih =>
    rw [eraseDups_concat]
    split
    · exact ih
    · next h =>
      rw [List.nodup_append]
      refine ⟨ih, List.nodup_singleton k, ?_⟩
      rintro a ha b hb rfl
      exact h (List.mem_eraseDups.mp (List.mem_singleton.mp hb ▸ ha))

/-- The keys stand in the order in which they come first. -/
theorem pairwise_idxOf_eraseDups (ks : List κ) :
    ks.eraseDups.Pairwise fun k k' => ks.idxOf k < ks.idxOf k' := by
  induction ks using List.reverseRecOn with
  | nil => exact .nil
  | append_singleton ks k ih =>
    have hfront : ks.eraseDups.Pairwise fun l l' => (ks ++ [k]).idxOf l < (ks ++ [k]).idxOf l' := by
      refine ih.imp_of_mem fun hl hl' hlt => ?_
      rwa [List.idxOf_append_of_mem (List.mem_eraseDups.mp hl),
        List.idxOf_append_of_mem (List.mem_eraseDups.mp hl')]
    rw [eraseDups_concat]
    split
    · exact hfront
    · next hk =>
      rw [List.pairwise_append]
      refine ⟨hfront, List.pairwise_singleton _ _, fun l hl l' hl' => ?_⟩
      rw [List.mem_singleton.mp hl']
      have hmem : l ∈ ks := List.mem_eraseDups.mp hl
      rw [List.idxOf_append_of_mem hmem, List.idxOf_append_of_notMem hk]
      exact Nat.lt_of_lt_of_le (List.idxOf_lt_length_iff.mpr hmem) (Nat.le_add_right _ _)

theorem nodup_firsts (n : Nat) (ks : List κ) : (firsts n ks).Nodup :=
  (nodup_eraseDups ks).sublist (List.take_sublist ..)

theorem length_firsts_le (n : Nat) (ks : List κ) : (firsts n ks).length ≤ n :=
  List.length_take_le ..

/-- One more key. -/
theorem firsts_concat : firsts n (ks ++ [k]) =
    if k ∈ firsts n ks ∨ n ≤ (firsts n ks).length then firsts n ks else firsts n ks ++ [k] := by
  unfold firsts
  rw [eraseDups_concat]
  by_cases hfull : n ≤ ks.eraseDups.length
  · -- all places are taken
    have hlength : n ≤ (ks.eraseDups.take n).length := by
      rw [List.length_take]
      omega
    have htaken : k ∈ ks.eraseDups.take n ∨ n ≤ (ks.eraseDups.take n).length := .inr hlength
    rw [if_pos htaken]
    split
    · rfl
    · rw [List.take_append_of_le_length hfull]
  · have hall : ks.eraseDups.take n = ks.eraseDups := List.take_of_length_le (by omega)
    rw [hall]
    by_cases hmem : k ∈ ks
    · rw [if_pos hmem, if_pos (.inl (List.mem_eraseDups.mpr hmem)), hall]
    · have hnot : ¬ (k ∈ ks.eraseDups ∨ n ≤ ks.eraseDups.length) := by
        rw [List.mem_eraseDups]
        exact not_or.mpr ⟨hmem, hfull⟩
      rw [if_neg hmem, if_neg hnot, List.take_of_length_le]
      rw [List.length_append, List.length_singleton]
      omega

/-- The different keys, in the order in which they come first. -/
def distinct (ks : List κ) : List κ := ks.eraseDups

theorem mem_distinct : k ∈ distinct ks ↔ k ∈ ks := List.mem_eraseDups

theorem nodup_distinct (ks : List κ) : (distinct ks).Nodup := nodup_eraseDups ks

/-- As long as there is room, every key has a place. -/
theorem mem_firsts (hroom : (firsts n ks).length < n) (h : k ∈ ks) : k ∈ firsts n ks := by
  unfold firsts at hroom ⊢
  rw [List.length_take] at hroom
  rw [List.take_of_length_le (by omega), List.mem_eraseDups]
  exact h

/-- Changing the entry at the place of a key changes the entry of that key only. -/
theorem modify_map {f : κ → β} {g : β → β} (hnodup : ks.Nodup) {i : Nat} (hi : ks[i]? = some k) :
    (ks.map f).modify i g = ks.map fun l => if l = k then g (f l) else f l := by
  apply List.ext_getElem?
  intro j
  simp only [List.getElem?_modify, List.getElem?_map]
  cases hj : ks[j]? with
  | none => rfl
  | some l =>
    simp only [Option.map_eq_map, Option.map_some, Option.some.injEq]
    have hiff : i = j ↔ l = k := by
      constructor
      · rintro rfl
        exact Option.some.inj (hj.symm.trans hi)
      · rintro rfl
        exact (List.getElem?_inj (List.getElem?_eq_some_iff.mp hi).1 hnodup).mp (hi.trans hj.symm)
    by_cases hl : l = k
    · rw [if_pos (hiff.mpr hl), if_pos hl]
    · rw [if_neg (mt hiff.mp hl), if_neg hl]

/-! ## Reporting new keys

A loop that remembers the keys in such a table and reports every key that is not in it. As long as
there is room a key is reported once; those that have been turned away are reported each time
(`count_reported`). -/

/-- One round: the table and what has been reported. -/
def reportNew (n : Nat) (s : List κ × List κ) (k : κ) : List κ × List κ :=
  if k ∈ s.1 then s else (if s.1.length < n then s.1 ++ [k] else s.1, s.2 ++ [k])

/-- The keys that are reported. -/
def reported (n : Nat) (ks : List κ) : List κ := (ks.foldl (reportNew n) ([], [])).2

theorem firsts_concat_of_mem (h : k ∈ firsts n ks) : firsts n (ks ++ [k]) = firsts n ks := by
  rw [firsts_concat, if_pos (Or.inl h)]

theorem firsts_concat_of_full (h : n ≤ (firsts n ks).length) :
    firsts n (ks ++ [k]) = firsts n ks := by
  rw [firsts_concat, if_pos (Or.inr h)]

theorem firsts_concat_of_room (h : k ∉ firsts n ks) (hroom : (firsts n ks).length < n) :
    firsts n (ks ++ [k]) = firsts n ks ++ [k] := by
  rw [firsts_concat, if_neg (not_or.mpr ⟨h, Nat.not_le.mpr hroom⟩)]

theorem foldl_reportNew (n : Nat) (ks : List κ) :
    (ks.foldl (reportNew n) ([], [])).1 = firsts n ks := by
  induction ks using List.reverseRecOn with
  | nil => simp [firsts]
  | append_singleton ks k ih =>
    rw [List.foldl_append, List.foldl_cons, List.foldl_nil, reportNew, ih]
    by_cases hk : k ∈ firsts n ks
    · rw [if_pos hk, firsts_concat_of_mem hk, ih]
    · rw [if_neg hk]
      by_cases hroom : (firsts n ks).length < n
      · rw [firsts_concat_of_room hk hroom]
        exact if_pos hroom
      · rw [firsts_concat_of_full (Nat.le_of_not_lt hroom)]
        exact if_neg hroom

theorem reported_concat : reported n (ks ++ [k]) =
    if k ∈ firsts n ks then reported n ks else reported n ks ++ [k] := by
  unfold reported
  rw [List.foldl_append, List.foldl_cons, List.foldl_nil, reportNew, foldl_reportNew]
  split <;> rfl

theorem count_reported (l : κ) :
    (reported n ks).count l = if l ∈ firsts n ks then 1 else ks.count l := by
  induction ks using List.reverseRecOn with
  | nil => simp [reported, firsts]
  | append_singleton ks k ih =>
    rw [reported_concat]
    by_cases hk : k ∈ firsts n ks
    · -- the key is known
      rw [if_pos hk, firsts_concat_of_mem hk, ih]
      by_cases hl : l ∈ firsts n ks
      · rw [if_pos hl, if_pos hl]
      · have hne : k ≠ l := fun heq => hl (heq ▸ hk)
        rw [if_neg hl, if_neg hl, List.count_append, List.count_singleton]
        simp [hne]
    · rw [if_neg hk, List.count_append, ih]
      by_cases hroom : (firsts n ks).length < n
      · have hnew : k ∉ ks := fun hmem => hk (mem_firsts hroom hmem)
        rw [firsts_concat_of_room hk hroom]
        by_cases hl : l = k
        · subst hl
          simp [hk, List.count_eq_zero_of_not_mem hnew]
        · simp [hl, Ne.symm hl, List.count_append]
      · -- it is turned away
        rw [firsts_concat_of_full (Nat.le_of_not_lt hroom)]
        by_cases hl : l ∈ firsts n ks
        · have hne : k ≠ l := fun heq => hk (heq ▸ hl)
          simp [hl, hne]
        · rw [if_neg hl, if_neg hl, List.count_append]

theorem mem_of_mem_reported (h : k ∈ reported n ks) : k ∈ ks := by
  have hcount := List.count_pos_iff.mpr h
  rw [count_reported] at hcount
  split at hcount
  · next hfirst => exact List.mem_eraseDups.mp (List.mem_of_mem_take hfirst)
  · exact List.count_pos_iff.mp hcount

/-- No key is reported twice if those that come twice have a place. -/
theorem nodup_reported_iff :
    (reported n ks).Nodup ↔ ∀ l, List.Duplicate l ks → l ∈ firsts n ks := by
  rw [List.nodup_iff_count_le_one]
  constructor
  · intro h l hl
    by_contra hnot
    have hle := h l
    rw [count_reported, if_neg hnot] at hle
    have htwo := List.duplicate_iff_two_le_count.mp hl
    omega
  · intro h l
    rw [count_reported]
    split
    · exact Nat.le_refl 1
    · next hnot =>
      have hone := mt List.duplicate_iff_two_le_count.mpr (mt (h l) hnot)
      omega

/-- If no key is reported twice, then the keys are reported in the order in which they come
first. -/
theorem reported_eq_distinct (h : (reported n ks).Nodup) : reported n ks = distinct ks := by
  unfold distinct
  induction ks using List.reverseRecOn with
  | nil => rfl
  | append_singleton ks k ih =>
    rw [reported_concat] at h ⊢
    rw [eraseDups_concat]
    split at h
    · next hk =>
      have hmem : k ∈ ks := List.mem_eraseDups.mp (List.mem_of_mem_take hk)
      rw [if_pos hk, if_pos hmem, ih h]
    · next hk =>
      have hfront := (List.nodup_append.mp h).1
      have hnew : k ∉ ks := by
        intro hmem
        have hreported : k ∈ reported n ks := by
          rw [ih hfront]
          exact List.mem_eraseDups.mpr hmem
        exact (List.nodup_append.mp h).2.2 k hreported k (List.mem_singleton_self k) rfl
      rw [if_neg hk, if_neg hnew, ih hfront]

end Lib
