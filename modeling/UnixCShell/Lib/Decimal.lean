import Mathlib.Data.Nat.Digits.Defs
import Mathlib.Tactic.Common

/-!
# Decimal numbers

What the text of a number looks like, and that reading its digits gives the number back.
-/

namespace Lib

/-- Digits that are read into an integer. -/
theorem foldl_digits {digits : List Char} (h : ∀ c ∈ digits, c.isDigit = true) (m : Nat) :
    digits.foldl (fun (n : Int) c => 10 * n + (c.toNat - '0'.toNat)) m =
      (Nat.ofDigitChars 10 digits m : Nat) := by
  induction digits generalizing m with
  | nil => rfl
  | cons c digits ih =>
    obtain ⟨hc, hdigits⟩ := List.forall_mem_cons.mp h
    have hge : '0'.toNat ≤ c.toNat := by
      rw [Char.isDigit, Bool.and_eq_true, decide_eq_true_eq] at hc
      exact hc.1
    rw [List.foldl_cons, Nat.ofDigitChars_cons, ← ih hdigits]
    congr 1
    omega

/-- The digits of a number are read as the number. -/
theorem foldl_toDigits (n : Nat) :
    (Nat.toDigits 10 n).foldl (fun (n : Int) c => 10 * n + (c.toNat - '0'.toNat)) 0 = n := by
  have hdigits : ∀ c ∈ Nat.toDigits 10 n, c.isDigit = true :=
    fun c hc => Nat.isDigit_of_mem_toDigits (by decide) (by decide) hc
  have h := foldl_digits hdigits 0
  rw [Nat.ofDigitChars_ten_toDigits] at h
  exact h

theorem toList_toString (n : Int) :
    (toString n).toList = (if n < 0 then ['-'] else []) ++ Nat.toDigits 10 n.natAbs := by
  cases n with
  | ofNat n =>
    rw [if_neg (by simp)]
    exact Nat.toList_repr
  | negSucc n =>
    rw [if_pos (Int.negSucc_lt_zero n)]
    change ("-" ++ (n + 1).repr).toList = _
    rw [String.toList_append, Nat.toList_repr]
    rfl

theorem isDigit_of_mem_toString {n : Int} {c : Char} (h : c ∈ (toString n).toList) :
    c = '-' ∨ c.isDigit = true := by
  rw [toList_toString, List.mem_append] at h
  rcases h with h | h
  · refine .inl ?_
    split at h
    · exact List.mem_singleton.mp h
    · cases h
  · exact .inr (Nat.isDigit_of_mem_toDigits (by decide) (by decide) h)

theorem not_mem_toString (n : Int) {c : Char} (hminus : c ≠ '-') (hdigit : c.isDigit = false) :
    c ∉ (toString n).toList := by
  intro hc
  rcases isDigit_of_mem_toString hc with heq | hd
  · exact hminus heq
  · rw [hdigit] at hd
    cases hd

theorem toString_ne_nil (n : Int) : (toString n).toList ≠ [] := by
  rw [toList_toString]
  exact fun h => Nat.toDigits_ne_nil (List.append_eq_nil_iff.mp h).2

theorem length_toString_le {n : Int} {k : Nat} (hk : 0 < k) (h : n.natAbs < 10 ^ k) :
    (toString n).toList.length ≤ k + 1 := by
  have hdigits := Nat.toDigits_length 10 n.natAbs k hk h
  rw [toList_toString, List.length_append]
  split
  · rw [List.length_singleton]
    omega
  · rw [List.length_nil]
    omega

end Lib
