import Mathlib.Data.BitVec
import Mathlib.Data.Nat.ModEq
import Mathlib.Logic.Function.Basic
import Mathlib.Tactic.Abel

/-!
# Ring buffers

A buffer of `n` cells with two counters that only grow, modulo `2 ^ b`: `r` counts what has been
taken out, `w` what has been put in, and a counter names the cell with its remainder modulo `n`. As
long as there are at most `n` elements and `n` divides `2 ^ b`, the overflow of a counter does not
matter (`contents_push`).
-/

namespace Lib.Ring

variable {α : Type*} {n b : Nat} [NeZero n]

/-- The cell that a counter names. -/
def cell (n : Nat) [NeZero n] (i : BitVec b) : Fin n := Fin.ofNat n i.toNat

/-- What is in the buffer, the oldest element first. -/
def contents (data : Fin n → α) (r w : BitVec b) : List α :=
  (List.range (w - r).toNat).map fun i => data (cell n (r + BitVec.ofNat b i))

variable {data : Fin n → α} {r w : BitVec b}

@[simp] theorem length_contents (data : Fin n → α) (r w : BitVec b) :
    (contents data r w).length = (w - r).toNat := by simp [contents]

/-! ## Counters -/

theorem toNat_sub_eq_zero_iff : (w - r).toNat = 0 ↔ r = w := by
  constructor
  · intro h
    have hzero : w - r = 0 := BitVec.eq_of_toNat_eq (by simpa using h)
    exact (sub_eq_zero.mp hzero).symm
  · rintro rfl
    simp

/-- The writer is as far ahead of the reader as the counters say. -/
theorem add_toNat_sub (r w : BitVec b) : r + BitVec.ofNat b (w - r).toNat = w := by
  rw [BitVec.ofNat_toNat, BitVec.setWidth_eq]
  abel

/-- The buffer is full. -/
theorem eq_add_iff {k : Nat} (hk : k < 2 ^ b) : w = r + BitVec.ofNat b k ↔ (w - r).toNat = k := by
  constructor
  · rintro rfl
    rw [add_sub_cancel_left, BitVec.toNat_ofNat, Nat.mod_eq_of_lt hk]
  · rintro rfl
    exact (add_toNat_sub r w).symm

theorem toNat_succ_sub (h : (w - r).toNat + 1 < 2 ^ b) : (w + 1 - r).toNat = (w - r).toNat + 1 := by
  have hone : (1 : BitVec b).toNat = 1 := by
    have : 1 < 2 ^ b := by omega
    simpa using Nat.mod_eq_of_lt this
  rw [add_sub_right_comm, BitVec.toNat_add, hone, Nat.mod_eq_of_lt h]

theorem toNat_sub_succ (h : r ≠ w) : (w - (r + 1)).toNat + 1 = (w - r).toNat := by
  have hpos : (w - r).toNat ≠ 0 := mt toNat_sub_eq_zero_iff.mp h
  have hlt := (w - r).isLt
  have hone : (1 : BitVec b).toNat = 1 := by
    have : 1 < 2 ^ b := by omega
    simpa using Nat.mod_eq_of_lt this
  have hle : (1 : BitVec b) ≤ w - r := by
    rw [BitVec.le_def, hone]
    omega
  have heq : w - (r + 1) = w - r - 1 := by abel
  rw [heq, BitVec.toNat_sub_of_le hle, hone]
  omega

/-- Two counters that are less than `n` apart name different cells. -/
theorem cell_ne (hn : n ∣ 2 ^ b) {i j : Nat} (hij : i < j) (hj : j < i + n) :
    cell n (r + BitVec.ofNat b i) ≠ cell n (r + BitVec.ofNat b j) := by
  have htoNat (k : Nat) : (r + BitVec.ofNat b k).toNat % n = (r.toNat + k) % n := by
    rw [BitVec.toNat_add, BitVec.toNat_ofNat, Nat.add_mod_mod, Nat.mod_mod_of_dvd _ hn]
  intro h
  have hval := congrArg Fin.val h
  simp only [cell, Fin.val_ofNat, htoNat] at hval
  have hmod : i ≡ j [MOD n] := Nat.ModEq.add_left_cancel' r.toNat hval
  have hdvd : n ∣ j - i := (Nat.modEq_iff_dvd' hij.le).mp hmod
  have hle := Nat.le_of_dvd (by omega) hdvd
  omega

/-! ## What is in the buffer -/

@[simp] theorem contents_self (data : Fin n → α) (r : BitVec b) : contents data r r = [] :=
  by simp [contents]

theorem contents_eq_nil_iff : contents data r w = [] ↔ r = w := by
  rw [← List.length_eq_zero_iff, length_contents, toNat_sub_eq_zero_iff]

/-- Put an element in. -/
theorem contents_push (hn : n ∣ 2 ^ b) (hlt : n < 2 ^ b) (h : (w - r).toNat < n) (x : α) :
    contents (Function.update data (cell n w) x) r (w + 1) = contents data r w ++ [x] := by
  have hw : cell n w = cell n (r + BitVec.ofNat b (w - r).toNat) := by rw [add_toNat_sub]
  rw [contents, contents, toNat_succ_sub (by omega), List.range_succ, List.map_append]
  congr 1
  · apply List.map_congr_left
    intro i hi
    rw [List.mem_range] at hi
    rw [hw, Function.update_of_ne (cell_ne hn hi (by omega))]
  · simp [hw]

/-- Take an element out. -/
theorem contents_pop (h : r ≠ w) :
    contents data r w = data (cell n r) :: contents data (r + 1) w := by
  rw [contents, contents, ← toNat_sub_succ h, List.range_succ_eq_map, List.map_cons, List.map_map]
  congr 1
  · simp
  · apply List.map_congr_left
    intro i _
    have : r + BitVec.ofNat b (i + 1) = r + 1 + BitVec.ofNat b i := by
      rw [BitVec.ofNat_add]
      show r + (BitVec.ofNat b i + 1) = _
      abel
    simp [this]

end Lib.Ring
