import Mathlib.Algebra.GroupWithZero.Nat
import Mathlib.Logic.Function.Iterate
import UnixCShell.Lexer.Verified
import UnixCShell.Lib.Access

/-!
# The lexer on the bytes of its input

`Lexer/Basic.lean` has the loops of `lex_input` on the list of the characters that are left. Here
they run on the memory that `input` points to, with `i` as the `int` that it is, one iteration at a
time, and every access of `input` is told. What stands in memory behind the terminating NUL may be
anything.

No access is behind the NUL, and `i` grows (`lex_input_indices`). As long as the input is not too
long for an `int`, the result is that of `lexInput` (`lexInput_eq`).
-/

namespace UnixCShell.Lexer

open Lib Lib.Access

/-- The largest `int`. -/
def intMax : Nat := 2 ^ 31 - 1

/-- The variables of the word branch. -/
structure Word where
  /-- Where the branch was entered. -/
  start         : Nat
  i             : Nat
  buffer        : Str
  sq            : Bool
  dq            : Bool
  explicitEmpty : Bool
  deriving DecidableEq, Repr

/-- Where `lex_input` is: at the head of the outer loop, at the head of the inner one, or at its
end, with the list of tokens or `NULL`. After undefined behaviour it may be anywhere. -/
inductive Control where
  | outer (i : Nat) (acc : List Token)
  | inner (w : Word) (acc : List Token)
  | returned (tokens : Option (List Token))
  | undefined
  deriving DecidableEq, Repr

/-- `i + k`, as an `int`. -/
def addInt (i k : Nat) : Access Char Nat := do
  check (i + k ≤ intMax)
  return i + k

/-- `buffer[b_idx++] = c`. -/
def storeChar (buffer : Str) (c : Char) : Access Char Str := do
  check (buffer.length < bufferSize)
  return buffer ++ [c]

/-- An iteration of the outer loop that adds a token, or none, and goes on `k` characters
further. -/
def outerNext (i k : Nat) (acc : List Token) : Access Char Control := do
  return .outer (← addInt i k) acc

/-- An iteration of the outer loop, up to the head of the inner one. -/
def outerIter (i : Nat) (acc : List Token) : Access Char Control := do
  let c ← read i
  if c = nul then return .returned (some acc)
  else if isBlank c then outerNext i 1 acc
  else if c = '>' then
    let next ← read (← addInt i 1)
    if next = '>' then outerNext i 2 (acc ++ [⟨.opGtgt, ['>', '>']⟩])
    else outerNext i 1 (acc ++ [⟨.opGt, ['>']⟩])
  else if c = '<' then outerNext i 1 (acc ++ [⟨.opLt, ['<']⟩])
  else if c = '|' then outerNext i 1 (acc ++ [⟨.opPipe, ['|']⟩])
  else if c = '&' then outerNext i 1 (acc ++ [⟨.opAmp, ['&']⟩])
  else if c = ';' then outerNext i 1 (acc ++ [⟨.opSemi, [';']⟩])
  else return .inner ⟨i, i, [], false, false, false⟩ acc

/-- The code behind the inner loop. -/
def leaveWord (w : Word) (acc : List Token) : Access Char Control := do
  if w.sq || w.dq then return .returned none
  else
    check (w.buffer.length < bufferSize)
    return .outer w.i (acc ++ wordToken ⟨w.buffer, w.explicitEmpty, []⟩)

/-- An iteration of the inner loop that stores `c` and goes on `k` characters further. -/
def keepChar (w : Word) (acc : List Token) (c : Char) (k : Nat) : Access Char Control := do
  let buffer ← storeChar w.buffer c
  let i ← addInt w.i k
  return .inner { w with buffer := buffer, i := i } acc

/-- An iteration of the inner loop. -/
def innerIter (w : Word) (acc : List Token) : Access Char Control := do
  let c ← read w.i
  if c = nul then leaveWord w acc
  else if !w.sq && !w.dq && (isBlank c || isOperator c) then leaveWord w acc
  else if c == '\'' && !w.dq then
    return .inner { w with sq := !w.sq, explicitEmpty := true, i := ← addInt w.i 1 } acc
  else if c == '"' && !w.sq then
    return .inner { w with dq := !w.dq, explicitEmpty := true, i := ← addInt w.i 1 } acc
  else if c == '\\' then
    if w.sq then keepChar w acc c 1
    else if w.dq then
      let next ← read (← addInt w.i 1)
      if next == '"' || next == '\\' then keepChar w acc next 2 else keepChar w acc c 1
    else
      let next ← read (← addInt w.i 1)
      if next = nul || next == '\n' then return .returned none else keepChar w acc next 2
  else keepChar w acc c 1

/-- One iteration. -/
def iter : Control → Access Char Control
  | .outer i acc => outerIter i acc
  | .inner w acc => innerIter w acc
  | s => pure s

/-- The accesses of `input` in one iteration. -/
def accesses (input : Nat → Char) (s : Control) : List Nat := (iter s input).1

/-- The state behind one iteration. -/
def next (input : Nat → Char) (s : Control) : Control := (iter s input).2.getD .undefined

/-- The state after a number of iterations. -/
def after (input : Nat → Char) (n : Nat) : Control := Nat.iterate (next input) n (.outer 0 [])

/-! ## What an iteration does -/

/-- `input` points to the string `text`. -/
structure CString (input : Nat → Char) (text : Str) : Prop where
  chars      : ∀ k, (h : k < text.length) → input k = text[k]
  terminated : input text.length = nul
  nul_notMem : nul ∉ text

/-- `i` is not behind the terminating NUL, and the word branch has either got further or is at a
character that is part of a word. -/
def Inv (input : Nat → Char) (text : Str) : Control → Prop
  | .outer i _ => i ≤ text.length
  | .inner w _ => w.i ≤ text.length ∧
      (w.start < w.i ∨ w.start = w.i ∧ w.sq = false ∧ w.dq = false ∧
        input w.i ≠ nul ∧ isBlank (input w.i) = false ∧ isOperator (input w.i) = false)
  | .returned _ | .undefined => True

/-- How `i` grows. -/
def Progress : Control → Control → Prop
  -- an iteration of the outer loop without a word
  | .outer i _, .outer j _ => i < j
  -- the word branch is entered
  | .outer i _, .inner w _ => w.start = i ∧ w.i = i
  -- an iteration of the inner loop
  | .inner w _, .inner w' _ => w'.start = w.start ∧ w.i < w'.i
  -- the inner loop is left, and with it the iteration of the outer loop ends
  | .inner w _, .outer j _ => j = w.i ∧ w.start < j
  | .returned tokens, s => s = .returned tokens
  | _, .returned _ | _, .undefined => True
  | .undefined, _ => False

/-- The result that is to be expected. -/
def meaning (text : Str) : Control → Except LexError (List Token)
  | .outer i acc => lexLoop acc (text.drop i)
  | .inner w acc => do
    let e ← wordLoop w.sq w.dq w.explicitEmpty w.buffer (text.drop w.i)
    lexLoop (acc ++ wordToken e) e.rest
  | .returned (some tokens) => .ok tokens
  | .returned none => .error .invalidSyntax
  | .undefined => .error .overflow

/-- What holds behind an iteration. -/
structure Follows (input : Nat → Char) (text : Str) (s s' : Control) : Prop where
  inv      : Inv input text s'
  progress : Progress s s'
  meaning  : text.length ≤ intMax → meaning text s' = meaning text s

variable {input : Nat → Char} {text : Str} {s : Control} {i k : Nat} {acc : List Token}

namespace CString

theorem lt_length (h : CString input text) (hi : i ≤ text.length) (hc : input i ≠ nul) :
    i < text.length := by
  rcases Nat.lt_or_eq_of_le hi with hlt | rfl
  · exact hlt
  · exact absurd h.terminated hc

theorem ne_nul (h : CString input text) (hi : i < text.length) : input i ≠ nul := by
  rw [h.chars i hi]
  intro heq
  exact h.nul_notMem (heq ▸ List.getElem_mem hi)

theorem eq_length (h : CString input text) (hi : i ≤ text.length) (hc : input i = nul) :
    i = text.length := by
  rcases Nat.lt_or_eq_of_le hi with hlt | heq
  · exact absurd hc (h.ne_nul hlt)
  · exact heq

theorem drop_eq_cons (h : CString input text) (hi : i < text.length) :
    text.drop i = input i :: text.drop (i + 1) := by
  rw [h.chars i hi, List.drop_eq_getElem_cons hi]

theorem drop_eq_nil (h : CString input text) (hi : i ≤ text.length) (hc : input i = nul) :
    text.drop i = [] := by
  rw [h.eq_length hi hc, List.drop_length]

end CString

/-! ### The outer loop -/

section

variable {f : Nat → Access Char Control} (hs : Progress s .undefined)
include hs

/-- Undefined behaviour because of an `int` is not to be expected. -/
theorem follows_undefined_of_lt (hlt : intMax < text.length) : Follows input text s .undefined :=
  ⟨trivial, hs, fun hle => absurd hlt (Nat.not_lt.mpr hle)⟩

/-- An index up to the NUL is an `int`, if the input is not too long. -/
theorem sat_addInt_bind (hk : i + k ≤ text.length)
    (hf : Sat input (· ≤ text.length) (f (i + k)) fun r =>
      Follows input text s (r.getD .undefined)) :
    Sat input (· ≤ text.length) (addInt i k >>= f) fun r =>
      Follows input text s (r.getD .undefined) := by
  have hadd : Sat input (· ≤ text.length) (addInt i k) fun r =>
      r.elim (intMax < i + k) (· = i + k) := by
    refine .check_bind (fun _ => .pure rfl) fun hnot => ?_
    exact Nat.lt_of_not_le hnot
  refine hadd.bind (fun hlt => ?_) fun j hj => ?_
  · exact follows_undefined_of_lt hs (Nat.lt_of_lt_of_le hlt hk)
  cases hj
  exact hf

end

theorem sat_outerNext {acc' : List Token} (hk : 0 < k) (hle : i + k ≤ text.length)
    (hloop : lexLoop acc' (text.drop (i + k)) = lexLoop acc (text.drop i)) :
    Sat input (· ≤ text.length) (outerNext i k acc')
      fun r => Follows input text (.outer i acc) (r.getD .undefined) :=
  sat_addInt_bind trivial hle (.pure ⟨hle, Nat.lt_add_of_pos_right hk, fun _ => hloop⟩)

/-- An operator of one character. -/
theorem sat_outerNext_operator (h : CString input text) (hlt : i < text.length) {c : Char}
    {type : TokenType} (hc : input i = c) (htype : operatorType c = some type) :
    Sat input (· ≤ text.length) (outerNext i 1 (acc ++ [⟨type, [c]⟩]))
      fun r => Follows input text (.outer i acc) (r.getD .undefined) := by
  refine sat_outerNext Nat.one_pos hlt ?_
  rw [h.drop_eq_cons hlt, hc, lexLoop_operator htype]

/-- `>` and `>>`. -/
theorem sat_outerNext_gt (h : CString input text) (hlt : i < text.length) (hgt : input i = '>') :
    Sat input (· ≤ text.length)
      (if input (i + 1) = '>' then outerNext i 2 (acc ++ [⟨.opGtgt, ['>', '>']⟩])
        else outerNext i 1 (acc ++ [⟨.opGt, ['>']⟩]))
      fun r => Follows input text (.outer i acc) (r.getD .undefined) := by
  have hdrop : text.drop i = '>' :: text.drop (i + 1) := by rw [h.drop_eq_cons hlt, hgt]
  by_cases hnext : input (i + 1) = '>'
  · -- the second one is not the NUL
    have hne : input (i + 1) ≠ nul := by
      rw [hnext]
      decide
    have hlt' := h.lt_length hlt hne
    rw [if_pos hnext]
    refine sat_outerNext (by decide) hlt' ?_
    rw [hdrop, h.drop_eq_cons hlt', hnext, lexLoop_gtgt]
  · rw [if_neg hnext]
    refine sat_outerNext Nat.one_pos hlt ?_
    have hhead : (text.drop (i + 1)).head? ≠ some '>' := by
      rcases Nat.lt_or_eq_of_le hlt with hlt' | heq
      · rw [h.drop_eq_cons hlt']
        exact fun hsome => hnext (Option.some.inj hsome)
      · rw [show i + 1 = text.length from heq, List.drop_length]
        exact fun hsome => by cases hsome
    rw [hdrop, lexLoop_gt hhead]

theorem sat_outerIter (h : CString input text) (hinv : Inv input text (.outer i acc)) :
    Sat input (· ≤ text.length) (outerIter i acc)
      fun r => Follows input text (.outer i acc) (r.getD .undefined) := by
  unfold outerIter
  refine .read_bind hinv ?_
  by_cases hnul : input i = nul
  · rw [if_pos hnul]
    refine .pure ⟨trivial, trivial, fun _ => ?_⟩
    show _ = lexLoop acc (text.drop i)
    rw [h.drop_eq_nil hinv hnul, lexLoop]
    rfl
  · have hlt := h.lt_length hinv hnul
    rw [if_neg hnul]
    split
    · next hblank =>
      refine sat_outerNext Nat.one_pos hlt ?_
      rw [h.drop_eq_cons hlt, lexLoop_blank hblank]
    split
    · next hgt => exact sat_addInt_bind trivial hlt (.read_bind hlt (sat_outerNext_gt h hlt hgt))
    split
    · next hc => exact sat_outerNext_operator h hlt hc rfl
    split
    · next hc => exact sat_outerNext_operator h hlt hc rfl
    split
    · next hc => exact sat_outerNext_operator h hlt hc rfl
    split
    · next hc => exact sat_outerNext_operator h hlt hc rfl
    · -- the word branch
      next hblank hgt hlt' hpipe hamp hsemi =>
      have hb : isBlank (input i) = false := Bool.eq_false_iff.mpr hblank
      have ho : isOperator (input i) = false := by simp [isOperator, hgt, hlt', hpipe, hamp, hsemi]
      refine .pure ⟨⟨hinv, .inr ⟨rfl, rfl, rfl, hnul, hb, ho⟩⟩, ⟨rfl, rfl⟩, fun _ => ?_⟩
      show _ = lexLoop acc (text.drop i)
      rw [h.drop_eq_cons hlt, lexLoop_word hb ho]
      show (do
        let e ← wordLoop false false false [] (text.drop i)
        lexLoop (acc ++ wordToken e) e.rest) = _
      rw [h.drop_eq_cons hlt]
      cases wordLoop false false false [] (input i :: text.drop (i + 1)) <;> rfl

/-! ### The inner loop -/

variable {w : Word}

/-- Behind the inner loop. -/
theorem sat_leaveWord (hle : w.i ≤ text.length) (hstart : w.start < w.i)
    (hword : wordLoop w.sq w.dq w.explicitEmpty w.buffer (text.drop w.i) =
      endWord w.sq w.dq w.explicitEmpty w.buffer (text.drop w.i)) :
    Sat input (· ≤ text.length) (leaveWord w acc)
      fun r => Follows input text (.inner w acc) (r.getD .undefined) := by
  have hmeaning : meaning text (.inner w acc) = (do
      let e ← endWord w.sq w.dq w.explicitEmpty w.buffer (text.drop w.i)
      lexLoop (acc ++ wordToken e) e.rest) := by
    rw [meaning, hword]
  unfold leaveWord
  by_cases hquote : (w.sq || w.dq) = true
  · rw [if_pos hquote]
    refine .pure ⟨trivial, trivial, fun _ => ?_⟩
    rw [hmeaning, endWord, if_pos hquote]
    rfl
  · rw [if_neg hquote]
    refine .check_bind (fun hroom => .pure ⟨hle, ⟨rfl, hstart⟩, fun _ => ?_⟩) fun hfull =>
      ⟨trivial, trivial, fun _ => ?_⟩
    · rw [hmeaning, endWord, if_neg hquote, if_pos hroom]
      rfl
    · rw [hmeaning, endWord, if_neg hquote, if_neg hfull]
      rfl

/-- A character is stored. -/
theorem sat_keepChar {c : Char} (hk : 0 < k) (hle : w.i + k ≤ text.length)
    (hword : wordLoop w.sq w.dq w.explicitEmpty w.buffer (text.drop w.i) = do
      let buffer ← store w.buffer c
      wordLoop w.sq w.dq w.explicitEmpty buffer (text.drop (w.i + k)))
    (hstart : w.start ≤ w.i) :
    Sat input (· ≤ text.length) (keepChar w acc c k)
      fun r => Follows input text (.inner w acc) (r.getD .undefined) := by
  have hmeaning : meaning text (.inner w acc) = (do
      let e ← (do
        let buffer ← store w.buffer c
        wordLoop w.sq w.dq w.explicitEmpty buffer (text.drop (w.i + k)))
      lexLoop (acc ++ wordToken e) e.rest) := by
    rw [meaning, hword]
  have hstore : Sat input (· ≤ text.length) (storeChar w.buffer c) fun r =>
      r.elim (¬ w.buffer.length < bufferSize) fun b => w.buffer.length < bufferSize ∧
        b = w.buffer ++ [c] :=
    .check_bind (fun hroom => .pure ⟨hroom, rfl⟩) id
  refine hstore.bind (fun hfull => ⟨trivial, trivial, fun _ => ?_⟩) fun buffer hbuffer => ?_
  · rw [hmeaning, store, if_neg hfull]
    rfl
  · obtain ⟨hroom, rfl⟩ := hbuffer
    refine sat_addInt_bind trivial hle
      (.pure ⟨⟨hle, .inl ?_⟩, ⟨rfl, Nat.lt_add_of_pos_right hk⟩, fun _ => ?_⟩)
    · exact Nat.lt_of_le_of_lt hstart (Nat.lt_add_of_pos_right hk)
    · rw [hmeaning, store, if_pos hroom]
      rfl

/-- A quote is opened or closed. -/
theorem sat_quote {sq dq : Bool} (hlt : w.i < text.length)
    (hword : wordLoop w.sq w.dq w.explicitEmpty w.buffer (text.drop w.i) =
      wordLoop sq dq true w.buffer (text.drop (w.i + 1)))
    (hstart : w.start ≤ w.i) :
    Sat input (· ≤ text.length)
      (do
        return .inner { w with sq := sq, dq := dq, explicitEmpty := true, i := ← addInt w.i 1 } acc)
      fun r => Follows input text (.inner w acc) (r.getD .undefined) := by
  refine sat_addInt_bind trivial hlt
    (.pure ⟨⟨hlt, .inl (Nat.lt_succ_of_le hstart)⟩, ⟨rfl, Nat.lt_succ_self _⟩, fun _ => ?_⟩)
  have hmeaning : meaning text (.inner w acc) = (do
      let e ← wordLoop sq dq true w.buffer (text.drop (w.i + 1))
      lexLoop (acc ++ wordToken e) e.rest) := by
    rw [meaning, hword]
  rw [hmeaning]
  rfl

/-- A backslash between double quotes. -/
theorem sat_backslash_dquote (h : CString input text) (hlt : w.i < text.length)
    (hc : input w.i = '\\') (hsq : w.sq = false) (hdq : w.dq = true) (hstart : w.start ≤ w.i) :
    Sat input (· ≤ text.length)
      (do
        let next ← read (← addInt w.i 1)
        if next == '"' || next == '\\' then keepChar w acc next 2 else keepChar w acc (input w.i) 1)
      fun r => Follows input text (.inner w acc) (r.getD .undefined) := by
  refine sat_addInt_bind trivial hlt (.read_bind hlt ?_)
  by_cases hescape : (input (w.i + 1) == '"' || input (w.i + 1) == '\\') = true
  · have heither : input (w.i + 1) = '"' ∨ input (w.i + 1) = '\\' := by simpa using hescape
    have hne : input (w.i + 1) ≠ nul := by
      rcases heither with heq | heq
      · rw [heq]
        decide
      · rw [heq]
        decide
    have hlt' := h.lt_length hlt hne
    rw [if_pos hescape]
    refine sat_keepChar Nat.two_pos hlt' ?_ hstart
    rw [h.drop_eq_cons hlt, h.drop_eq_cons hlt', hc, hsq, hdq, wordLoop_dquote_escape heither]
  · rw [if_neg hescape]
    refine sat_keepChar Nat.one_pos hlt ?_ hstart
    rw [h.drop_eq_cons hlt, hc, hsq, hdq]
    by_cases hnul : input (w.i + 1) = nul
    · rw [h.drop_eq_nil hlt hnul]
      rfl
    · obtain ⟨hq, hb⟩ : input (w.i + 1) ≠ '"' ∧ input (w.i + 1) ≠ '\\' := by simpa using hescape
      rw [h.drop_eq_cons (h.lt_length hlt hnul), wordLoop_dquote_backslash hq hb]

/-- A backslash outside of quotes. -/
theorem sat_backslash (h : CString input text) (hlt : w.i < text.length) (hc : input w.i = '\\')
    (hsq : w.sq = false) (hdq : w.dq = false) (hstart : w.start ≤ w.i) :
    Sat input (· ≤ text.length)
      (do
        let next ← read (← addInt w.i 1)
        if next = nul || next == '\n' then return .returned none else keepChar w acc next 2)
      fun r => Follows input text (.inner w acc) (r.getD .undefined) := by
  refine sat_addInt_bind trivial hlt (.read_bind hlt ?_)
  by_cases hnul : input (w.i + 1) = nul
  · have hcode : (decide (input (w.i + 1) = nul) || input (w.i + 1) == '\n') = true := by
      simp [hnul]
    rw [if_pos hcode]
    refine .pure ⟨trivial, trivial, fun _ => ?_⟩
    rw [meaning, h.drop_eq_cons hlt, h.drop_eq_nil hlt hnul, hc, hsq, hdq]
    rfl
  · have hlt' := h.lt_length hlt hnul
    by_cases hnl : input (w.i + 1) = '\n'
    · have hcode : (decide (input (w.i + 1) = nul) || input (w.i + 1) == '\n') = true := by
        simp [hnl]
      rw [if_pos hcode]
      refine .pure ⟨trivial, trivial, fun _ => ?_⟩
      rw [meaning, h.drop_eq_cons hlt, h.drop_eq_cons hlt', hc, hsq, hdq, hnl]
      rfl
    · have hcode : ¬ (decide (input (w.i + 1) = nul) || input (w.i + 1) == '\n') = true := by
        simp [hnl, hnul]
      rw [if_neg hcode]
      refine sat_keepChar Nat.two_pos hlt' ?_ hstart
      rw [h.drop_eq_cons hlt, h.drop_eq_cons hlt', hc, hsq, hdq, wordLoop_escape hnl]

theorem Inv.start_le (hinv : Inv input text (.inner w acc)) : w.start ≤ w.i :=
  hinv.2.elim Nat.le_of_lt fun h => Nat.le_of_eq h.1

theorem sat_innerIter (h : CString input text) (hinv : Inv input text (.inner w acc)) :
    Sat input (· ≤ text.length) (innerIter w acc)
      fun r => Follows input text (.inner w acc) (r.getD .undefined) := by
  have hstart := Inv.start_le hinv
  unfold innerIter
  refine .read_bind hinv.1 ?_
  by_cases hnul : input w.i = nul
  · rw [if_pos hnul]
    refine sat_leaveWord hinv.1 (hinv.2.resolve_right fun hfirst => hfirst.2.2.2.1 hnul) ?_
    rw [h.drop_eq_nil hinv.1 hnul, wordLoop]
  · have hlt := h.lt_length hinv.1 hnul
    have hdrop := h.drop_eq_cons hlt
    rw [if_neg hnul]
    split
    · next hbreak =>
      refine sat_leaveWord hinv.1 (hinv.2.resolve_right ?_) ?_
      · rintro ⟨-, -, -, -, hb, ho⟩
        simp [hb, ho] at hbreak
      · rw [hdrop, wordLoop.eq_def]
        exact if_pos hbreak
    next hbreak =>
    split
    · next hsq =>
      refine sat_quote hlt ?_ hstart
      rw [hdrop, wordLoop.eq_def]
      simp only [if_neg hbreak, if_pos hsq]
    next hsq =>
    split
    · next hdq =>
      refine sat_quote hlt ?_ hstart
      rw [hdrop, wordLoop.eq_def]
      simp only [if_neg hbreak, if_neg hsq, if_pos hdq]
    next hdq =>
    split
    · next hbackslash =>
      split
      · next hopen =>
        refine sat_keepChar Nat.one_pos hlt ?_ hstart
        rw [hdrop, wordLoop.eq_def]
        simp only [if_neg hbreak, if_neg hsq, if_neg hdq, if_pos hbackslash, if_pos hopen]
      next hsq' =>
      split
      · next hdq' =>
        exact sat_backslash_dquote h hlt (eq_of_beq hbackslash)
          (Bool.eq_false_iff.mpr hsq') hdq' hstart
      · next hdq' =>
        exact sat_backslash h hlt (eq_of_beq hbackslash) (Bool.eq_false_iff.mpr hsq')
          (Bool.eq_false_iff.mpr hdq')
          hstart
    · next hbackslash =>
      refine sat_keepChar Nat.one_pos hlt ?_ hstart
      rw [hdrop, wordLoop.eq_def]
      simp only [if_neg hbreak, if_neg hsq, if_neg hdq, if_neg hbackslash]

/-! ## The iterations of a call -/

theorem sat_iter (h : CString input text) (hinv : Inv input text s) :
    Sat input (· ≤ text.length) (iter s) fun r => Follows input text s (r.getD .undefined) := by
  cases s with
  | outer i acc => exact sat_outerIter h hinv
  | inner w acc => exact sat_innerIter h hinv
  | returned tokens => exact .pure ⟨trivial, rfl, fun _ => rfl⟩
  | undefined => exact .pure ⟨trivial, trivial, fun _ => rfl⟩

theorem after_succ (input : Nat → Char) (n : Nat) :
    after input (n + 1) = next input (after input n) :=
  Function.iterate_succ_apply' ..

theorem inv_after (h : CString input text) (n : Nat) : Inv input text (after input n) := by
  induction n with
  | zero => exact Nat.zero_le _
  | succ n ih =>
    rw [after_succ]
    exact (sat_iter h ih).result.inv

theorem follows_after (h : CString input text) (n : Nat) :
    Follows input text (after input n) (after input (n + 1)) := by
  rw [after_succ]
  exact (sat_iter h (inv_after h n)).result

/-! ### The end of the loops -/

/-- There are no more iterations. -/
def Control.Final : Control → Prop
  | .outer _ _ | .inner _ _ => False
  | .returned _ | .undefined => True

/-- A bound on the iterations that are left; a word that has got further pays for the iteration of
the outer loop behind it. -/
def remaining (text : Str) : Control → Nat
  | .outer i _ => 3 * (text.length - i) + 2
  | .inner w _ => if w.start < w.i then 3 * (text.length - w.i) + 3 else 3 * (text.length - w.i) + 1
  | .returned _ | .undefined => 0

theorem remaining_lt {s' : Control} (hinv : Inv input text s) (h : Follows input text s s')
    (hs : ¬ s.Final) :
    remaining text s' < remaining text s := by
  have hinv' := h.inv
  have hprogress := h.progress
  cases s with
  | outer i acc =>
    cases s' with
    | outer j acc' =>
      simp only [Inv, Progress, remaining] at *
      omega
    | inner w acc' =>
      obtain ⟨hstart, hi⟩ := hprogress
      simp only [remaining, hstart, hi, Nat.lt_irrefl, if_false]
      omega
    | returned | undefined => exact Nat.succ_pos _
  | inner w acc =>
    cases s' with
    | outer j acc' =>
      obtain ⟨rfl, hstart⟩ := hprogress
      simp only [remaining, if_pos hstart]
      omega
    | inner w' acc' =>
      obtain ⟨hstart, hi⟩ := hprogress
      have hle := hinv'.1
      simp only [remaining, hstart]
      split <;> split <;> omega
    | returned | undefined =>
      simp only [remaining]
      split <;> exact Nat.succ_pos _
  | returned | undefined => exact absurd trivial hs

theorem Follows.final {s' : Control} (h : Follows input text s s') (hs : s.Final) : s'.Final := by
  have hprogress := h.progress
  cases s with
  | outer | inner => exact hs.elim
  | returned tokens =>
    rw [show s' = .returned tokens from hprogress]
    trivial
  | undefined =>
    cases s' with
    | outer | inner => exact hprogress
    | returned | undefined => trivial

/-- Every call ends. -/
theorem final_after (h : CString input text) : (after input (3 * text.length + 2)).Final := by
  have hbound : ∀ n, (after input n).Final ∨
      n + remaining text (after input n) ≤ 3 * text.length + 2 := by
    intro n
    induction n with
    | zero => exact .inr (Nat.le_of_eq (Nat.zero_add _))
    | succ n ih =>
      have hfollows := follows_after h n
      by_cases hfinal : (after input n).Final
      · exact .inl (hfollows.final hfinal)
      · have hlt := remaining_lt (inv_after h n) hfollows hfinal
        have hle := ih.resolve_left hfinal
        omega
  rcases hbound (3 * text.length + 2) with hfinal | hle
  · exact hfinal
  · -- nothing remains
    have hzero : remaining text (after input (3 * text.length + 2)) = 0 := by omega
    cases hs : after input (3 * text.length + 2) with
    | outer i acc =>
      rw [hs, remaining] at hzero
      omega
    | inner w acc =>
      rw [hs, remaining] at hzero
      split at hzero <;> omega
    | returned | undefined => trivial

/-- In every iteration the accesses of `input` are not behind the terminating NUL, and `i` grows
unless the call or the inner loop ends; and the call does end. -/
theorem lex_input_indices (h : CString input text) :
    (∀ n, (∀ k ∈ accesses input (after input n), k ≤ text.length) ∧
      Progress (after input n) (after input (n + 1))) ∧
      ∃ n, (after input n).Final :=
  ⟨fun n => ⟨(sat_iter h (inv_after h n)).reads, (follows_after h n).progress⟩, _, final_after h⟩

/-! ### The result -/

theorem meaning_after (h : CString input text) (hint : text.length ≤ intMax) (n : Nat) :
    meaning text (after input n) = lexInput text := by
  induction n with
  | zero => rfl
  | succ n ih => rw [(follows_after h n).meaning hint, ih]

/-- A call ends with the tokens of `lexInput`, with `NULL` for invalid syntax, and with undefined
behaviour when the buffer overflows. -/
theorem lexInput_eq (h : CString input text) (hint : text.length ≤ intMax) :
    after input (3 * text.length + 2) =
      match lexInput text with
      | .ok tokens => .returned (some tokens)
      | .error .invalidSyntax => .returned none
      | .error .overflow => .undefined := by
  have hfinal := final_after h
  have hmeaning := meaning_after h hint (3 * text.length + 2)
  rw [← hmeaning]
  cases hs : after input (3 * text.length + 2) with
  | outer | inner =>
    rw [hs] at hfinal
    exact hfinal.elim
  | returned tokens => cases tokens <;> rfl
  | undefined => rfl

/-! ### Two inputs -/

/-- Memory with the string `text`, and `>` behind it. -/
def memory (text : String) (k : Nat) : Char := (text.toList ++ [nul]).getD k '>'

/-- An operator at the end of the input. -/
theorem lex_input_indices_gt :
    accesses (memory "ls >") (after (memory "ls >") 5) = [3, 4] ∧
      ∀ k ∈ accesses (memory "ls >") (after (memory "ls >") 5), k ≤ 4 := by
  have h : CString (memory "ls >") "ls >".toList := ⟨by decide, by decide, by decide⟩
  exact ⟨by decide +kernel, ((lex_input_indices h).1 5).1⟩

/-- At the blank of `a b` the inner loop is left by `break`, without a step of `i`. -/
theorem break_keeps_index :
    after (memory "a b") 2 = .inner ⟨0, 1, ['a'], false, false, false⟩ [] ∧
      after (memory "a b") 3 = .outer 1 [⟨.word, ['a']⟩] := by
  decide +kernel

end UnixCShell.Lexer
