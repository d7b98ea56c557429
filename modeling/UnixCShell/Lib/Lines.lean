import Mathlib.Data.List.Basic
import Mathlib.Order.Nat
import Mathlib.Tactic.Common

/-!
# Lines and blocks

Cutting a sequence into lines, each with its terminator, and into blocks of a fixed size. Nothing
here is about characters: the terminator is any element of any type with decidable equality.
-/

namespace Lib

variable {α : Type*}

/-! ## Lines -/

section Lines

variable [DecidableEq α] {nl : α}

/-- The lines of `s`: every line but perhaps the last one ends in its only `nl`. -/
def splitLines (nl : α) : List α → List (List α)
  | [] => []
  | c :: cs =>
    if c = nl then [c] :: splitLines nl cs
    else match splitLines nl cs with
      | [] => [[c]]
      | l :: ls => (c :: l) :: ls

@[simp] theorem splitLines_nil : splitLines nl ([] : List α) = [] := rfl

@[simp] theorem splitLines_nl_cons (s : List α) :
    splitLines nl (nl :: s) = [nl] :: splitLines nl s := by
  simp [splitLines]

@[simp] theorem flatten_splitLines (s : List α) : (splitLines nl s).flatten = s := by
  induction s with
  | nil => rfl
  | cons c cs ih =>
    simp only [splitLines]
    split
    · simp [ih]
    · split
      · next h => rw [h] at ih; simpa using ih
      · next l ls h => rw [h] at ih; simpa using ih

theorem mem_of_mem_splitLines {s l : List α} {c : α} (hl : l ∈ splitLines nl s) (hc : c ∈ l) :
    c ∈ s := by
  have : c ∈ (splitLines nl s).flatten := List.mem_flatten.mpr ⟨l, hl, hc⟩
  rwa [flatten_splitLines] at this

theorem splitLines_eq_nil {s : List α} : splitLines nl s = [] ↔ s = [] := by
  constructor
  · intro h
    simpa using congrArg List.flatten h
  · rintro rfl
    rfl

/-- A line has no terminator but at its end, and is not empty. -/
theorem eq_or_of_mem_splitLines {s line : List α} (h : line ∈ splitLines nl s) :
    ∃ l, nl ∉ l ∧ (line = l ++ [nl] ∨ line = l ∧ l ≠ []) := by
  induction s generalizing line with
  | nil => cases h
  | cons c cs ih =>
    rw [splitLines] at h
    split at h
    · next hc =>
      rcases List.mem_cons.mp h with rfl | h
      · exact ⟨[], by simp, .inl (by rw [hc]; rfl)⟩
      · exact ih h
    · next hc =>
      split at h
      · rw [List.mem_singleton.mp h]
        exact ⟨[c], by simpa using Ne.symm hc, .inr ⟨rfl, by simp⟩⟩
      · next l ls hls =>
        rcases List.mem_cons.mp h with rfl | h
        · -- the first line gets one element longer
          obtain ⟨l', hl', rfl | ⟨rfl, -⟩⟩ := ih (by rw [hls]; exact List.mem_cons_self)
          · exact ⟨c :: l', by simp [Ne.symm hc, hl'], .inl rfl⟩
          · exact ⟨c :: l, by simp [Ne.symm hc, hl'], .inr ⟨rfl, by simp⟩⟩
        · exact ih (by rw [hls]; exact List.mem_cons_of_mem _ h)

/-- A complete line is cut off the front. -/
theorem splitLines_append_nl_cons {l : List α} (hl : nl ∉ l) (s : List α) :
    splitLines nl (l ++ nl :: s) = (l ++ [nl]) :: splitLines nl s := by
  induction l with
  | nil => simp
  | cons c l ih =>
    simp only [List.mem_cons, not_or] at hl
    rw [List.cons_append, splitLines, if_neg (Ne.symm hl.1), ih hl.2]
    simp

/-- A last line without its terminator. -/
theorem splitLines_of_not_mem {l : List α} (hl : nl ∉ l) (hne : l ≠ []) :
    splitLines nl l = [l] := by
  induction l with
  | nil => exact absurd rfl hne
  | cons c l ih =>
    simp only [List.mem_cons, not_or] at hl
    rw [splitLines, if_neg (Ne.symm hl.1)]
    cases l with
    | nil => rfl
    | cons d l => rw [ih hl.2 (by simp)]

/-- A terminator behind an incomplete last line completes it. -/
theorem exists_splitLines_append_nl {s : List α} (hne : s ≠ []) (hlast : s.getLast? ≠ some nl) :
    ∃ ls l, l ≠ [] ∧ nl ∉ l ∧ splitLines nl s = ls ++ [l] ∧
      splitLines nl (s ++ [nl]) = ls ++ [l ++ [nl]] := by
  induction s with
  | nil => exact absurd rfl hne
  | cons c cs ih =>
    by_cases hcs : cs = []
    · subst hcs
      have hc : c ≠ nl := by simpa using hlast
      exact ⟨[], [c], by simp, by simpa using Ne.symm hc, by simp [splitLines, hc],
        by simp [splitLines, hc]⟩
    · have hlast' : cs.getLast? ≠ some nl := by
        rwa [List.getLast?_cons_of_ne_nil hcs] at hlast
      obtain ⟨ls, l, hl, hnl, h1, h2⟩ := ih hcs hlast'
      rw [List.cons_append]
      by_cases hc : c = nl
      · exact ⟨[c] :: ls, l, hl, hnl, by simp [splitLines, hc, h1], by simp [splitLines, hc, h2]⟩
      · cases ls with
        | nil =>
          exact ⟨[], c :: l, by simp, by simpa [Ne.symm hc] using hnl, by simp [splitLines, hc, h1],
            by simp [splitLines, hc, h2]⟩
        | cons l' ls =>
          exact ⟨(c :: l') :: ls, l, hl, hnl, by simp [splitLines, hc, h1],
            by simp [splitLines, hc, h2]⟩

/-- Lines never reach over a terminator: behind one, splitting starts afresh. -/
theorem splitLines_append_of_nl (s t : List α) :
    splitLines nl (s ++ nl :: t) = splitLines nl (s ++ [nl]) ++ splitLines nl t := by
  induction s with
  | nil => simp
  | cons c s ih =>
    rw [List.cons_append, List.cons_append, splitLines, splitLines, ih]
    split
    · simp
    · have hne : splitLines nl (s ++ [nl]) ≠ [] := by simp [splitLines_eq_nil]
      obtain ⟨l, ls, h⟩ := List.exists_cons_of_ne_nil hne
      rw [h]
      rfl

/-- The first line of `s`, but not more than `n` of its elements, and what is behind. -/
def takeLine (nl : α) : Nat → List α → List α × List α
  | 0, s => ([], s)
  | _ + 1, [] => ([], [])
  | n + 1, c :: cs =>
    if c = nl then ([c], cs)
    else
      let (line, rest) := takeLine nl n cs
      (c :: line, rest)

theorem takeLine_append_nl_cons {l : List α} {n : Nat} (hl : nl ∉ l)
    (hn : l.length < n) (s : List α) :
    takeLine nl n (l ++ nl :: s) = (l ++ [nl], s) := by
  induction l generalizing n with
  | nil =>
    obtain ⟨n, rfl⟩ := Nat.exists_eq_succ_of_ne_zero (Nat.ne_of_gt hn)
    simp [takeLine]
  | cons c l ih =>
    obtain ⟨n, rfl⟩ := Nat.exists_eq_succ_of_ne_zero (Nat.ne_of_gt (Nat.zero_lt_of_lt hn))
    simp only [List.mem_cons, not_or] at hl
    rw [List.cons_append, takeLine, if_neg (Ne.symm hl.1), ih hl.2 (Nat.lt_of_succ_lt_succ hn)]
    rfl

/-- The pieces in which `s` is read if not more than `n` elements of a line are read at once; each
of the `fuel` rounds takes something from `s`. -/
def linePiecesAux (nl : α) (n : Nat) : Nat → List α → List (List α)
  | 0, _ => []
  | _ + 1, [] => []
  | fuel + 1, c :: s =>
    (takeLine nl n (c :: s)).1 :: linePiecesAux nl n fuel (takeLine nl n (c :: s)).2

def linePieces (nl : α) (n : Nat) (s : List α) : List (List α) := linePiecesAux nl n s.length s

theorem linePiecesAux_flatMap {n fuel : Nat} {ls : List (List α)}
    (hl : ∀ l ∈ ls, nl ∉ l ∧ l.length < n) (hfuel : ls.length ≤ fuel) :
    linePiecesAux nl n fuel (ls.flatMap (· ++ [nl])) = ls.map (· ++ [nl]) := by
  induction ls generalizing fuel with
  | nil => cases fuel <;> rfl
  | cons l ls ih =>
    obtain ⟨⟨hnl, hn⟩, hls⟩ := List.forall_mem_cons.mp hl
    obtain ⟨fuel, rfl⟩ :=
      Nat.exists_eq_succ_of_ne_zero (Nat.ne_of_gt (Nat.lt_of_lt_of_le (Nat.succ_pos _) hfuel))
    have htake := takeLine_append_nl_cons hnl hn (ls.flatMap (· ++ [nl]))
    have htext : (l :: ls).flatMap (· ++ [nl]) = l ++ nl :: ls.flatMap (· ++ [nl]) := by simp
    rw [htext]
    obtain ⟨c, s, hs⟩ : ∃ c s, l ++ nl :: ls.flatMap (· ++ [nl]) = c :: s := by
      cases l <;> exact ⟨_, _, rfl⟩
    rw [hs] at htake ⊢
    rw [linePiecesAux, htake, ih hls (Nat.le_of_succ_le_succ hfuel), List.map_cons]

/-- Lines that are not too long are read as a whole. -/
theorem linePieces_flatMap {n : Nat} {ls : List (List α)} (hl : ∀ l ∈ ls, nl ∉ l ∧ l.length < n) :
    linePieces nl n (ls.flatMap (· ++ [nl])) = ls.map (· ++ [nl]) := by
  refine linePiecesAux_flatMap hl ?_
  induction ls with
  | nil => exact Nat.zero_le _
  | cons l ls ih =>
    have hle := ih (List.forall_mem_cons.mp hl).2
    simp only [List.flatMap_cons, List.length_append, List.length_cons, List.length_nil]
    omega

/-- The first line of `s` and what is behind it, if `s` has a complete line. -/
def cutLine (nl : α) : List α → Option (List α × List α)
  | [] => none
  | c :: cs => if c = nl then some ([c], cs) else (cutLine nl cs).map fun p => (c :: p.1, p.2)

theorem cutLine_eq_none {s : List α} : cutLine nl s = none ↔ nl ∉ s := by
  induction s with
  | nil => simp [cutLine]
  | cons c cs ih =>
    simp only [cutLine, List.mem_cons, not_or]
    split
    · next h => simp [h]
    · next h => simp [ih, Ne.symm h]

theorem cutLine_eq_some {s line rest : List α} (h : cutLine nl s = some (line, rest)) :
    ∃ l, nl ∉ l ∧ line = l ++ [nl] ∧ s = l ++ nl :: rest := by
  induction s generalizing line rest with
  | nil => simp [cutLine] at h
  | cons c cs ih =>
    simp only [cutLine] at h
    split at h
    · next hc =>
      subst hc
      cases h
      exact ⟨[], by simp, rfl, rfl⟩
    · next hc =>
      obtain ⟨⟨line', rest'⟩, h', heq⟩ := Option.map_eq_some_iff.mp h
      cases heq
      obtain ⟨l, hl, hline, hs⟩ := ih h'
      refine ⟨c :: l, ?_, ?_, ?_⟩
      · simp [hl, Ne.symm hc]
      · simp [hline]
      · simp [hs]

end Lines

/-! ## Blocks -/

/-- The blocks of `n` elements that reading `s` block by block gives, the last one perhaps shorter;
the first argument bounds the number of blocks. -/
def blocksAux (n : Nat) : Nat → List α → List (List α)
  | 0, _ => []
  | _ + 1, [] => []
  | k + 1, s@(_ :: _) => s.take n :: blocksAux n k (s.drop n)

/-- The blocks of `n` elements of `s`. -/
def blocks (n : Nat) (s : List α) : List (List α) := blocksAux n s.length s

theorem flatten_blocksAux {n : Nat} (hn : 0 < n) :
    ∀ {k : Nat} {s : List α}, s.length ≤ k → (blocksAux n k s).flatten = s
  | 0, s, h => by
    have : s = [] := List.length_eq_zero_iff.mp (Nat.le_zero.mp h)
    subst this
    rfl
  | k + 1, [], _ => rfl
  | k + 1, c :: cs, h => by
    have hdrop : ((c :: cs).drop n).length ≤ k := by
      rw [List.length_drop]
      simp only [List.length_cons] at h ⊢
      omega
    rw [blocksAux, List.flatten_cons, flatten_blocksAux hn hdrop, List.take_append_drop]

@[simp] theorem flatten_blocks {n : Nat} (hn : 0 < n) (s : List α) : (blocks n s).flatten = s :=
  flatten_blocksAux hn le_rfl

theorem not_mem_blocksAux {n : Nat} (hn : 0 < n) :
    ∀ {k : Nat} {s : List α}, ([] : List α) ∉ blocksAux n k s
  | 0, _ => by simp [blocksAux]
  | _ + 1, [] => by simp [blocksAux]
  | k + 1, c :: cs => by
    have hne : (c :: cs).take n ≠ [] := by simp; omega
    simp only [blocksAux, List.mem_cons, not_or]
    exact ⟨Ne.symm hne, not_mem_blocksAux hn⟩

/-- No block is empty. -/
theorem not_mem_blocks {n : Nat} (hn : 0 < n) (s : List α) : ([] : List α) ∉ blocks n s :=
  not_mem_blocksAux hn

end Lib
