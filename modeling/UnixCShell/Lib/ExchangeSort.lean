import Mathlib.Data.List.Basic
import Mathlib.Data.List.Perm.Basic
import Mathlib.Order.Lattice

/-!
# Exchange sort

Two nested loops over an array: the entry at `a` is compared with every entry behind it, and the two
are exchanged if they are in the wrong order. Behind the inner loop the smallest of these entries is
at `a` (`foldl_exchange`), so that the outer loop leaves the array sorted (`exchangeSort_sorted`),
with the same entries (`exchangeSort_perm`).
-/

namespace Lib

variable {α : Type*} [LinearOrder α]

/-- Compare the entries at `a` and `b`, and exchange them if the second is smaller. -/
def exchange (a : Nat) (xs : List α) (b : Nat) : List α :=
  match xs[a]?, xs[b]? with
  | some x, some y => if y < x then (xs.set a y).set b x else xs
  | _, _ => xs

/-- The inner loop. -/
def exchangeFrom (xs : List α) (a : Nat) : List α :=
  (List.range' (a + 1) (xs.length - (a + 1))).foldl (exchange a) xs

/-- The outer loop. -/
def exchangeSort (xs : List α) : List α := (List.range xs.length).foldl exchangeFrom xs

/-! ## The inner loop -/

/-- What the inner loop makes of the entry `x` and the entries behind it. -/
def sink : α → List α → α × List α
  | x, [] => (x, [])
  | x, y :: ys => ((sink (min x y) ys).1, max x y :: (sink (min x y) ys).2)

theorem sink_length (x : α) (ys : List α) : (sink x ys).2.length = ys.length := by
  induction ys generalizing x with
  | nil => rfl
  | cons y ys ih => simp [sink, ih]

theorem sink_perm (x : α) (ys : List α) : ((sink x ys).1 :: (sink x ys).2).Perm (x :: ys) := by
  induction ys generalizing x with
  | nil => exact .refl _
  | cons y ys ih =>
    have hpair : [max x y, min x y].Perm [x, y] := by
      rcases le_total x y with h | h
      · rw [max_eq_right h, min_eq_left h]
        exact .swap x y []
      · rw [max_eq_left h, min_eq_right h]
    have hfront : ((sink x (y :: ys)).1 :: (sink x (y :: ys)).2).Perm
        (max x y :: (sink (min x y) ys).1 :: (sink (min x y) ys).2) := .swap ..
    exact hfront.trans (((ih _).cons _).trans (hpair.append_right ys))

theorem sink_le (x : α) (ys : List α) :
    (sink x ys).1 ≤ x ∧ ∀ z ∈ (sink x ys).2, (sink x ys).1 ≤ z := by
  induction ys generalizing x with
  | nil => exact ⟨le_rfl, by simp [sink]⟩
  | cons y ys ih =>
    obtain ⟨hle, hall⟩ := ih (min x y)
    refine ⟨hle.trans (min_le_left x y), fun z hz => ?_⟩
    rcases List.mem_cons.mp hz with rfl | hz
    · exact hle.trans ((min_le_left x y).trans (le_max_left x y))
    · exact hall z hz

/-- One comparison. -/
theorem exchange_eq (pre mid post : List α) (x y : α) :
    exchange pre.length (pre ++ x :: (mid ++ y :: post)) (pre.length + 1 + mid.length) =
      pre ++ min x y :: (mid ++ max x y :: post) := by
  have ha : (pre ++ x :: (mid ++ y :: post))[pre.length]? = some x := by simp
  have hb : (pre ++ x :: (mid ++ y :: post))[pre.length + 1 + mid.length]? = some y := by
    rw [List.getElem?_append_right (by omega)]
    have hsub : pre.length + 1 + mid.length - pre.length = mid.length + 1 := by omega
    rw [hsub, List.getElem?_cons_succ]
    simp
  simp only [exchange, ha, hb]
  split
  · rename_i hlt
    rw [min_eq_right hlt.le, max_eq_left hlt.le, List.set_append_right _ _ le_rfl, Nat.sub_self,
      List.set_cons_zero, List.set_append_right _ _ (by omega)]
    have hsub : pre.length + 1 + mid.length - pre.length = mid.length + 1 := by omega
    rw [hsub, List.set_cons_succ, List.set_append_right _ _ le_rfl, Nat.sub_self,
      List.set_cons_zero]
  · rename_i hle
    rw [min_eq_left (not_lt.mp hle), max_eq_right (not_lt.mp hle)]

/-- The inner loop, behind the entries `mid`. -/
theorem foldl_exchange (pre mid ys : List α) (x : α) :
    (List.range' (pre.length + 1 + mid.length) ys.length).foldl (exchange pre.length)
        (pre ++ x :: (mid ++ ys)) =
      pre ++ (sink x ys).1 :: (mid ++ (sink x ys).2) := by
  induction ys generalizing mid x with
  | nil => rfl
  | cons y ys ih =>
    rw [List.length_cons, List.range'_succ, List.foldl_cons, exchange_eq]
    have hnext := ih (mid ++ [max x y]) (min x y)
    simp only [List.length_append, List.length_singleton, List.append_assoc,
      List.singleton_append] at hnext
    exact hnext

theorem exchangeFrom_eq (pre ys : List α) (x : α) :
    exchangeFrom (pre ++ x :: ys) pre.length = pre ++ (sink x ys).1 :: (sink x ys).2 := by
  have hlength : (pre ++ x :: ys).length - (pre.length + 1) = ys.length := by
    rw [List.length_append, List.length_cons]
    omega
  rw [exchangeFrom, hlength]
  exact foldl_exchange pre [] ys x

/-! ## The outer loop -/

/-- The outer loop, behind the entries `pre`. -/
theorem foldl_exchangeFrom (pre xs : List α) :
    ∃ out : List α, (List.range' pre.length xs.length).foldl exchangeFrom (pre ++ xs) = pre ++ out ∧
      out.Perm xs ∧ out.Pairwise (· ≤ ·) := by
  generalize hn : xs.length = n
  induction n generalizing pre xs with
  | zero =>
    rw [List.length_eq_zero_iff.mp hn]
    exact ⟨[], rfl, .refl _, .nil⟩
  | succ n ih =>
    obtain ⟨x, ys, rfl⟩ := List.exists_cons_of_length_eq_add_one hn
    have hlength : (sink x ys).2.length = n := by
      rw [sink_length]
      simpa using hn
    obtain ⟨out, hout, hperm, hsorted⟩ := ih (pre ++ [(sink x ys).1]) (sink x ys).2 hlength
    refine ⟨(sink x ys).1 :: out, ?_, (hperm.cons _).trans (sink_perm x ys), ?_⟩
    · rw [List.range'_succ, List.foldl_cons, exchangeFrom_eq]
      simpa using hout
    · refine .cons (fun z hz => ?_) hsorted
      exact (sink_le x ys).2 z (hperm.mem_iff.mp hz)

theorem exchangeSort_spec (xs : List α) :
    (exchangeSort xs).Perm xs ∧ (exchangeSort xs).Pairwise (· ≤ ·) := by
  obtain ⟨out, hout, hperm, hsorted⟩ := foldl_exchangeFrom [] xs
  have heq : exchangeSort xs = out := by
    rw [exchangeSort, List.range_eq_range']
    exact hout
  rw [heq]
  exact ⟨hperm, hsorted⟩

theorem exchangeSort_perm (xs : List α) : (exchangeSort xs).Perm xs := (exchangeSort_spec xs).1

theorem exchangeSort_sorted (xs : List α) : (exchangeSort xs).Pairwise (· ≤ ·) :=
  (exchangeSort_spec xs).2

/-! ## Entries with a key

The same loops where the entries are compared by `swap`, which says that two entries are in the
wrong order. If that is a comparison of keys, then the keys are sorted, and the entries go with
them. -/

section Keys

variable {β : Type*}

/-- Compare the entries at `a` and `b`, and exchange them if they are in the wrong order. -/
def exchangeBy (swap : β → β → Bool) (a : Nat) (xs : List β) (b : Nat) : List β :=
  match xs[a]?, xs[b]? with
  | some x, some y => if swap x y then (xs.set a y).set b x else xs
  | _, _ => xs

/-- The inner loop. -/
def exchangeFromBy (swap : β → β → Bool) (xs : List β) (a : Nat) : List β :=
  (List.range' (a + 1) (xs.length - (a + 1))).foldl (exchangeBy swap a) xs

/-- The outer loop. -/
def exchangeSortBy (swap : β → β → Bool) (xs : List β) : List β :=
  (List.range xs.length).foldl (exchangeFromBy swap) xs

theorem exchangeBy_perm (swap : β → β → Bool) (a : Nat) (xs : List β) (b : Nat) :
    (exchangeBy swap a xs b).Perm xs := by
  unfold exchangeBy
  split
  · next x y hx hy =>
    split
    · obtain ⟨ha, rfl⟩ := List.getElem?_eq_some_iff.mp hx
      obtain ⟨hb, rfl⟩ := List.getElem?_eq_some_iff.mp hy
      exact List.set_set_perm ha hb
    · exact .refl _
  · exact .refl _

theorem foldl_perm {ι : Type*} {f : List β → ι → List β}
    (hf : ∀ xs i, (f xs i).Perm xs) (is : List ι) (xs : List β) : (is.foldl f xs).Perm xs := by
  induction is generalizing xs with
  | nil => exact .refl _
  | cons i is ih => exact (ih (f xs i)).trans (hf xs i)

theorem exchangeSortBy_perm (swap : β → β → Bool) (xs : List β) :
    (exchangeSortBy swap xs).Perm xs :=
  foldl_perm (fun xs a => foldl_perm (fun xs b => exchangeBy_perm swap a xs b) _ xs) _ xs

variable {swap : β → β → Bool} {key : β → α}

theorem map_exchangeBy (hswap : ∀ x y, swap x y = true ↔ key y < key x) (a : Nat)
    (xs : List β) (b : Nat) :
    (exchangeBy swap a xs b).map key = exchange a (xs.map key) b := by
  unfold exchangeBy exchange
  rw [List.getElem?_map, List.getElem?_map]
  cases xs[a]? with
  | none => rfl
  | some x =>
    cases xs[b]? with
    | none => rfl
    | some y =>
      by_cases hlt : key y < key x
      · simp [(hswap x y).mpr hlt, hlt, List.map_set]
      · simp [mt (hswap x y).mp hlt, hlt]

theorem map_exchangeFromBy (hswap : ∀ x y, swap x y = true ↔ key y < key x)
    (xs : List β) (a : Nat) :
    (exchangeFromBy swap xs a).map key = exchangeFrom (xs.map key) a := by
  unfold exchangeFromBy exchangeFrom
  rw [List.length_map]
  generalize List.range' (a + 1) (xs.length - (a + 1)) = bs
  induction bs generalizing xs with
  | nil => rfl
  | cons b bs ih => rw [List.foldl_cons, List.foldl_cons, ih, map_exchangeBy hswap]

theorem map_exchangeSortBy (hswap : ∀ x y, swap x y = true ↔ key y < key x) (xs : List β) :
    (exchangeSortBy swap xs).map key = exchangeSort (xs.map key) := by
  unfold exchangeSortBy exchangeSort
  rw [List.length_map]
  generalize List.range xs.length = as
  induction as generalizing xs with
  | nil => rfl
  | cons a as ih => rw [List.foldl_cons, List.foldl_cons, ih, map_exchangeFromBy hswap]

theorem exchangeSortBy_sorted (hswap : ∀ x y, swap x y = true ↔ key y < key x) (xs : List β) :
    (exchangeSortBy swap xs).Pairwise fun x y => key x ≤ key y := by
  have hsorted := exchangeSort_sorted (xs.map key)
  rwa [← map_exchangeSortBy hswap, List.pairwise_map] at hsorted

end Keys

end Lib
