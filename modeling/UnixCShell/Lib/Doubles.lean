import Mathlib.Algebra.GroupWithZero.Nat
import Mathlib.Algebra.Order.Group.Int
import Mathlib.Data.Nat.Log
import Mathlib.Tactic.Common

/-!
# Integers as doubles

The conversion of an integer to a double: a significand of 53 bits, rounded to the nearest, and to
the even one if there are two. Integers of up to 53 bits are exact, and a comparison with one of
them does not notice the rounding.
-/

namespace Lib

/-- The double for a natural number; it is a natural number, too. -/
def natToDouble (n : Nat) : Nat :=
  -- the last `k` bits do not fit
  let k := n.log2 - 52
  let q := n / 2 ^ k
  let r := n % 2 ^ k
  (if 2 ^ k < 2 * r ∨ 2 * r = 2 ^ k ∧ q % 2 = 1 then q + 1 else q) * 2 ^ k

/-- The double for an integer. -/
def toDouble (x : Int) : Int := x.sign * natToDouble x.natAbs

theorem natToDouble_of_lt {n : Nat} (h : n < 2 ^ 53) : natToDouble n = n := by
  have hk : n.log2 - 52 = 0 := by
    by_cases hn : n = 0
    · rw [hn]
      rfl
    · have hlog := (Nat.log2_lt hn).mpr h
      omega
  simp [natToDouble, hk, Nat.mod_one]

theorem le_natToDouble {n : Nat} (h : 2 ^ 53 ≤ n) : 2 ^ 53 ≤ natToDouble n := by
  have hn : n ≠ 0 := by omega
  have hlog : 53 ≤ n.log2 := (Nat.le_log2 hn).mpr h
  unfold natToDouble
  dsimp only
  generalize hk : n.log2 - 52 = k
  have hq : 2 ^ 52 ≤ n / 2 ^ k := by
    rw [Nat.le_div_iff_mul_le (Nat.two_pow_pos k), ← Nat.pow_add, ← hk,
      Nat.add_sub_of_le (by omega)]
    exact Nat.log2_self_le hn
  have hpow : 2 ^ 1 ≤ 2 ^ k := Nat.pow_le_pow_right (by decide) (by omega)
  calc 2 ^ 53 = 2 ^ 52 * 2 ^ 1 := by decide
    _ ≤ n / 2 ^ k * 2 ^ k := Nat.mul_le_mul hq hpow
    _ ≤ _ := by
      apply Nat.mul_le_mul_right
      split
      · exact Nat.le_succ _
      · exact Nat.le_refl _

theorem toDouble_of_lt {x : Int} (h : x.natAbs < 2 ^ 53) : toDouble x = x := by
  rw [toDouble, natToDouble_of_lt h, Int.sign_mul_natAbs]

/-- Rounding does not carry a number across a small one. -/
theorem toDouble_lt_iff {x t : Int} (ht : 0 ≤ t) (htmax : t ≤ 2 ^ 53) : toDouble x < t ↔ x < t := by
  by_cases hx : x.natAbs < 2 ^ 53
  · rw [toDouble_of_lt hx]
  · have hround := le_natToDouble (Nat.le_of_not_lt hx)
    rw [toDouble]
    rcases lt_or_ge x 0 with hneg | hpos
    · rw [Int.sign_eq_neg_one_of_neg hneg]
      omega
    · rw [Int.sign_eq_one_of_pos (by omega)]
      omega

end Lib
