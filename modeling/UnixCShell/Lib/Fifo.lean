import Mathlib.Data.List.Pairwise
import Mathlib.Data.List.Sort
import Mathlib.Data.Prod.Lex

/-!
# FIFO queues without queues

A system of FIFO queues (`Queues`) holds its elements in lists. The same information can be kept
without any list: every element carries the level it belongs to and a stamp, and an element that
goes to the tail of a queue gets a stamp larger than all others. `Stamped` says that stamps describe
a system of queues; the rules `Stamped.join`, `Stamped.leave` and `Stamped.place` say that the
description survives the operations of the queues, provided that new stamps are fresh.

What can be read off the stamps is then what the queues say: sorting by stamp gives the queue
(`Stamped.listing_eq`), and the smallest pair of level and stamp is the first element of the
first queue (`Stamped.firstEligible_eq`).
-/

namespace Lib

variable {ι κ : Type*}

/-- A queue for every level, and a level for every element, whether it is in a queue or not. -/
structure Queues (ι κ : Type*) where
  queue : κ → List ι
  level : ι → κ

namespace Queues

/-- All queues are empty. -/
def empty (k : κ) : Queues ι κ := ⟨fun _ => [], fun _ => k⟩

variable [DecidableEq ι] [DecidableEq κ]

/-- Append `i` to the queue of its level. -/
def join (q : Queues ι κ) (i : ι) : Queues ι κ :=
  { q with queue := Function.update q.queue (q.level i) (q.queue (q.level i) ++ [i]) }

/-- Take `i` out of its queue. -/
def leave (q : Queues ι κ) (i : ι) : Queues ι κ :=
  { q with queue := fun k => (q.queue k).filter (· ≠ i) }

/-- Change the level of `i`, which is in no queue. -/
def setLevel (q : Queues ι κ) (i : ι) (k : κ) : Queues ι κ :=
  { q with level := Function.update q.level i k }

/-- Change the level of `i`; if it is in a queue, it moves to the tail of the new one. -/
def place (q : Queues ι κ) (i : ι) (k : κ) : Queues ι κ :=
  if i ∈ q.queue (q.level i) then ((q.leave i).setLevel i k).join i else q.setLevel i k

/-- The first element that is eligible in the first of `levels` that has one. -/
def firstEligible (q : Queues ι κ) (levels : List κ) (eligible : ι → Bool) : Option ι :=
  levels.findSome? fun k => (q.queue k).find? eligible

theorem place_level (q : Queues ι κ) (i : ι) (k : κ) :
    (q.place i k).level = Function.update q.level i k := by
  unfold place
  split <;> rfl

end Queues

/-! ## Stamps -/

/-- The queues hold exactly the members, each in the queue of its level and in the order of the
stamps, and `next` is larger than all stamps in use. -/
structure Stamped (member : ι → Prop) (stamp : ι → Nat) (next : Nat) (q : Queues ι κ) : Prop where
  mem_iff : ∀ k i, i ∈ q.queue k ↔ member i ∧ q.level i = k
  sorted  : ∀ k, (q.queue k).Pairwise fun i j => stamp i < stamp j
  lt_next : ∀ i, member i → stamp i < next

namespace Stamped

variable {member member' : ι → Prop} {stamp stamp' : ι → Nat} {next next' : Nat} {q : Queues ι κ}
  {i : ι} {k : κ}

theorem empty {k : κ} (h : ∀ i, ¬ member i) : Stamped member stamp next (Queues.empty k) where
  mem_iff := by simp [Queues.empty, h]
  sorted := by simp [Queues.empty]
  lt_next := fun i hi => absurd hi (h i)

/-- Only the members and their stamps matter. -/
theorem congr (h : Stamped member stamp next q) (hmem : ∀ j, member' j ↔ member j)
    (hstamp : ∀ j, member j → stamp' j = stamp j) (hnext : next ≤ next') :
    Stamped member' stamp' next' q where
  mem_iff k j := by rw [h.mem_iff, hmem]
  sorted k := by
    refine (h.sorted k).imp_of_mem ?_
    intro a b ha hb hab
    rwa [hstamp a ((h.mem_iff k a).mp ha).1, hstamp b ((h.mem_iff k b).mp hb).1]
  lt_next j hj := by
    have hj' := (hmem j).mp hj
    rw [hstamp j hj']
    exact Nat.lt_of_lt_of_le (h.lt_next j hj') hnext

/-- Two elements of a queue with the same stamp are one. -/
theorem stamp_inj (h : Stamped member stamp next q) {a b : ι} (ha : a ∈ q.queue k)
    (hb : b ∈ q.queue k) (heq : stamp a = stamp b) : a = b := by
  by_contra hne
  have : Std.Symm fun a b : ι => stamp a ≠ stamp b := ⟨fun _ _ => Ne.symm⟩
  have hpair : (q.queue k).Pairwise fun a b => stamp a ≠ stamp b := (h.sorted k).imp Nat.ne_of_lt
  exact hpair.forall ha hb hne heq

/-- Sorting by stamp gives the queue. -/
theorem listing_eq (h : Stamped member stamp next q) {xs : List ι} (hxs : ∀ i, i ∈ xs)
    (hnodup : xs.Nodup) (p : ι → Bool) (hp : ∀ i, p i = true ↔ member i ∧ q.level i = k) :
    (xs.filter p).insertionSort (fun i j => stamp i ≤ stamp j) = q.queue k := by
  have hqueue : (q.queue k).Nodup := by
    refine (h.sorted k).imp ?_
    rintro a _ hlt rfl
    exact Nat.lt_irrefl _ hlt
  have hmem : ∀ a, a ∈ xs.filter p ↔ a ∈ q.queue k := by
    intro a
    rw [List.mem_filter, hp, h.mem_iff]
    exact and_iff_right (hxs a)
  have hperm := (List.perm_ext_iff_of_nodup (hnodup.filter p) hqueue).mpr hmem
  have : Std.Total fun i j : ι => stamp i ≤ stamp j := ⟨fun _ _ => Nat.le_total _ _⟩
  have : IsTrans ι fun i j => stamp i ≤ stamp j := ⟨fun _ _ _ => Nat.le_trans⟩
  apply ((List.perm_insertionSort _ _).trans hperm).eq_of_pairwise
  · intro a b ha hb hab hba
    rw [List.mem_insertionSort, hmem] at ha
    exact h.stamp_inj ha hb (Nat.le_antisymm hab hba)
  · exact List.pairwise_insertionSort _ _
  · exact (h.sorted k).imp Nat.le_of_lt

/-! ### The operations -/

section Ident

variable [DecidableEq ι]

theorem setLevel (h : Stamped member stamp next q) (hi : ¬ member i) (k : κ) :
    Stamped member stamp next (q.setLevel i k) where
  mem_iff k' j := by
    show j ∈ q.queue k' ↔ _
    rw [h.mem_iff]
    apply and_congr_right
    intro hj
    have : j ≠ i := fun he => hi (he ▸ hj)
    simp [Queues.setLevel, this]
  sorted := h.sorted
  lt_next := h.lt_next

theorem leave (h : Stamped member stamp next q) (i : ι) :
    Stamped (fun j => member j ∧ j ≠ i) stamp next (q.leave i) where
  mem_iff k j := by
    simp only [Queues.leave, List.mem_filter, h.mem_iff, decide_eq_true_eq]
    tauto
  sorted k := (h.sorted k).filter _
  lt_next j hj := h.lt_next j hj.1

end Ident

section Tail

variable [DecidableEq κ]

/-- The element that joins gets the stamp `next`. -/
theorem join (h : Stamped member stamp next q) (hi : ¬ member i)
    (hmem : ∀ j, member' j ↔ member j ∨ j = i) (hstamp : ∀ j, member j → stamp' j = stamp j)
    (hnew : stamp' i = next) : Stamped member' stamp' (next + 1) (q.join i) where
  mem_iff k j := by
    rw [hmem]
    by_cases hk : k = q.level i
    · subst hk
      have : (q.join i).queue (q.level i) = q.queue (q.level i) ++ [i] := by simp [Queues.join]
      rw [this, List.mem_append, List.mem_singleton, h.mem_iff]
      show _ ↔ (member j ∨ j = i) ∧ q.level j = q.level i
      grind
    · have : (q.join i).queue k = q.queue k := by simp [Queues.join, hk]
      rw [this, h.mem_iff]
      show _ ↔ (member j ∨ j = i) ∧ q.level j = k
      grind
  sorted k := by
    have hold : (q.queue k).Pairwise fun a b => stamp' a < stamp' b :=
      (h.congr (fun _ => Iff.rfl) hstamp le_rfl).sorted k
    by_cases hk : k = q.level i
    · subst hk
      have : (q.join i).queue (q.level i) = q.queue (q.level i) ++ [i] := by simp [Queues.join]
      rw [this, List.pairwise_append]
      refine ⟨hold, List.pairwise_singleton _ _, ?_⟩
      intro a ha b hb
      obtain rfl := List.mem_singleton.mp hb
      have ha' := ((h.mem_iff _ a).mp ha).1
      rw [hnew, hstamp a ha']
      exact h.lt_next a ha'
    · have : (q.join i).queue k = q.queue k := by simp [Queues.join, hk]
      rwa [this]
  lt_next j hj := by
    rcases (hmem j).mp hj with hj | rfl
    · rw [hstamp j hj]
      exact Nat.lt_succ_of_lt (h.lt_next j hj)
    · rw [hnew]
      exact Nat.lt_succ_self next

/-- The element that is placed gets the stamp `next`, if it has one. -/
theorem place [DecidableEq ι] (h : Stamped member stamp next q) (k : κ)
    (hmem : ∀ j, member' j ↔ member j) (hstamp : ∀ j, member j → j ≠ i → stamp' j = stamp j)
    (hnew : stamp' i = next) :
    Stamped member' stamp' (next + 1) (q.place i k) := by
  by_cases hi : member i
  · have hin : i ∈ q.queue (q.level i) := (h.mem_iff _ _).mpr ⟨hi, rfl⟩
    rw [Queues.place, if_pos hin]
    apply ((h.leave i).setLevel (fun hi' => hi'.2 rfl) k).join (fun hi' => hi'.2 rfl)
    · intro j
      rw [hmem]
      by_cases hj : j = i
      · subst hj
        simp [hi]
      · simp [hj]
    · exact fun j hj => hstamp j hj.1 hj.2
    · exact hnew
  · have hin : i ∉ q.queue (q.level i) := fun hin => hi ((h.mem_iff _ _).mp hin).1
    rw [Queues.place, if_neg hin]
    refine (h.setLevel hi k).congr hmem ?_ (Nat.le_succ next)
    intro j hj
    exact hstamp j hj (fun he => hi (he ▸ hj))

end Tail

/-! ### Selection -/

section Selection

variable {levels : List κ} {eligible : ι → Bool}

theorem firstEligible_none (h : Stamped member stamp next q)
    (hnone : ∀ j, member j → eligible j = false) : q.firstEligible levels eligible = none := by
  simp only [Queues.firstEligible, List.findSome?_eq_none_iff, List.find?_eq_none]
  intro k _ j hj
  rw [hnone j ((h.mem_iff k j).mp hj).1]
  exact Bool.false_ne_true

/-- The eligible element with the smallest level and, in its level, the smallest stamp is the first
one of the first queue that has any. -/
theorem firstEligible_eq [LinearOrder κ] (h : Stamped member stamp next q)
    (hlevels : levels.Pairwise (· < ·)) {b : ι} (hb : member b) (heligible : eligible b = true)
    (hlevel : q.level b ∈ levels) (hmin : ∀ j, member j → eligible j = true →
      q.level b < q.level j ∨ q.level b = q.level j ∧ stamp b ≤ stamp j) :
    q.firstEligible levels eligible = some b := by
  rw [Queues.firstEligible, List.findSome?_eq_some_iff]
  obtain ⟨before, behind, hsplit⟩ := List.append_of_mem hlevel
  refine ⟨before, q.level b, behind, hsplit, ?_, ?_⟩
  · -- in its queue, whatever stands before `b` has a smaller stamp
    rw [List.find?_eq_some_iff_append]
    obtain ⟨front, back, hqueue⟩ := List.append_of_mem ((h.mem_iff _ b).mpr ⟨hb, rfl⟩)
    refine ⟨heligible, front, back, hqueue, ?_⟩
    intro a ha
    have hlt : stamp a < stamp b := by
      have hsorted := h.sorted (q.level b)
      rw [hqueue, List.pairwise_append] at hsorted
      exact hsorted.2.2 a ha b List.mem_cons_self
    have hmem := (h.mem_iff (q.level b) a).mp (hqueue ▸ List.mem_append_left _ ha)
    cases hea : eligible a with
    | false => rfl
    | true =>
      rcases hmin a hmem.1 hea with hl | ⟨_, hle⟩
      · exact absurd hmem.2.symm (ne_of_lt hl)
      · omega
  · -- and the queues before its own have nothing eligible
    intro k hk
    rw [List.find?_eq_none]
    intro a ha hea
    have hmem := (h.mem_iff k a).mp ha
    have hlt : k < q.level b := by
      rw [hsplit, List.pairwise_append] at hlevels
      exact hlevels.2.2 k hk _ List.mem_cons_self
    rcases hmin a hmem.1 hea with hl | ⟨hl, _⟩
    · exact absurd (hmem.2 ▸ hl) (lt_asymm hlt)
    · exact absurd (hl.trans hmem.2) (ne_of_gt hlt)

end Selection

end Stamped

/-! ## Looking for a minimum -/

section MinScan

variable {γ : Type*} [LinearOrder γ] (key : ι → γ) (eligible : ι → Bool)

/-- A loop that keeps the first eligible element with the smallest key. -/
def minScan : Option ι → List ι → Option ι
  | best, [] => best
  | best, x :: xs =>
    minScan (if eligible x = true ∧ ∀ b ∈ best, key x < key b then some x else best) xs

theorem minScan_some (b : ι) (xs : List ι) :
    ∃ m, minScan key eligible (some b) xs = some m ∧ (m = b ∨ m ∈ xs ∧ eligible m = true) ∧
      key m ≤ key b ∧ ∀ x ∈ xs, eligible x = true → key m ≤ key x := by
  induction xs generalizing b with
  | nil => exact ⟨b, rfl, .inl rfl, le_rfl, by simp⟩
  | cons x xs ih =>
    rw [minScan]
    split
    · next hx =>
      obtain ⟨hx, hlt⟩ := hx
      obtain ⟨m, hm, hfrom, hle, hmin⟩ := ih x
      refine ⟨m, hm, .inr ?_, hle.trans (hlt b rfl).le, ?_⟩
      · rcases hfrom with rfl | ⟨hmem, he⟩
        · exact ⟨List.mem_cons_self, hx⟩
        · exact ⟨List.mem_cons_of_mem _ hmem, he⟩
      · intro y hy hey
        rcases List.mem_cons.mp hy with rfl | hy
        · exact hle
        · exact hmin y hy hey
    · next hx =>
      obtain ⟨m, hm, hfrom, hle, hmin⟩ := ih b
      refine ⟨m, hm, hfrom.imp_right fun ⟨hmem, he⟩ => ⟨List.mem_cons_of_mem _ hmem, he⟩, hle, ?_⟩
      intro y hy hey
      rcases List.mem_cons.mp hy with rfl | hy
      · have : key b ≤ key y := by
          by_contra hlt
          exact hx ⟨hey, by simpa using hlt⟩
        exact hle.trans this
      · exact hmin y hy hey

/-- The loop finds an eligible element with the smallest key, if there is an eligible one. -/
theorem minScan_none (xs : List ι) :
    (minScan key eligible none xs = none ∧ ∀ x ∈ xs, eligible x = false) ∨
    ∃ m, minScan key eligible none xs = some m ∧ m ∈ xs ∧ eligible m = true ∧
      ∀ x ∈ xs, eligible x = true → key m ≤ key x := by
  induction xs with
  | nil => exact .inl ⟨rfl, by simp⟩
  | cons x xs ih =>
    rw [minScan]
    cases hx : eligible x with
    | false =>
      simp only [Bool.false_eq_true, false_and, if_false]
      rcases ih with ⟨hnone, hall⟩ | ⟨m, hm, hmem, he, hmin⟩
      · exact .inl ⟨hnone, by simpa [hx] using hall⟩
      · exact .inr ⟨m, hm, List.mem_cons_of_mem _ hmem, he, by simpa [hx] using hmin⟩
    | true =>
      obtain ⟨m, hm, hfrom, hle, hmin⟩ := minScan_some key eligible x xs
      simp only [true_and, Option.not_mem_none, IsEmpty.forall_iff, implies_true, if_true]
      refine .inr ⟨m, hm, ?_, ?_, ?_⟩
      · rcases hfrom with rfl | ⟨hmem, _⟩
        · exact List.mem_cons_self
        · exact List.mem_cons_of_mem _ hmem
      · rcases hfrom with rfl | ⟨_, he⟩
        · exact hx
        · exact he
      · intro y hy hey
        rcases List.mem_cons.mp hy with rfl | hy
        · exact hle
        · exact hmin y hy hey

end MinScan

end Lib
