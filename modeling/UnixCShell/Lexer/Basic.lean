import Mathlib.Data.List.Basic
import Mathlib.Order.Nat
import Mathlib.Tactic.Common

/-!
# The lexer

`lexInput` (`lexer.c`) turns one input line into the list of tokens the parser and the executor
work on. It is two nested loops: the outer one skips blanks and recognises operators, the inner one
assembles a word into a fixed buffer of 4096 bytes under two quote flags.

A C string is modelled by the list of its characters, the terminating NUL being the end of the
list; a pointer `&input[i]` is the suffix of the list that starts at `i`. A store past the end of
`buffer` is undefined behaviour in C and is an outcome of its own here (`LexError.overflow`).
-/

namespace UnixCShell

/-- A C string, without its terminating NUL; also a block of bytes. -/
abbrev Str := List Char

/-- The terminator of a C string. -/
def nul : Char := Char.ofNat 0

inductive TokenType where
  | opPipe
  | opAmp
  | opSemi
  | opLt
  | opGt
  | opGtgt
  | word
  deriving DecidableEq, Repr

structure Token where
  type  : TokenType
  value : Str
  deriving DecidableEq, Repr

namespace Lexer

/-- The two ways a call of `lex_input` does not end in a token list: it reports
`cshell: invalid syntax` (freeing all tokens and returning `NULL`), or it stores past `buffer`. -/
inductive LexError where
  | invalidSyntax
  | overflow
  deriving DecidableEq, Repr

/-- `char buffer[4096]`. -/
def bufferSize : Nat := 4096

/-- The characters that separate tokens. -/
def isBlank (c : Char) : Bool := c == ' ' || c == '\t' || c == '\n' || c == '\r'

/-- The characters that start an operator. -/
def isOperator (c : Char) : Bool := c == '|' || c == '&' || c == ';' || c == '<' || c == '>'

/-- `buffer[b_idx++] = c`, where `b_idx` is the length of what has been stored. -/
def store (buffer : Str) (c : Char) : Except LexError Str :=
  if buffer.length < bufferSize then .ok (buffer ++ [c]) else .error .overflow

/-- What the inner loop leaves behind: `buffer`, `explicit_empty` and the rest of the input. -/
structure WordEnd where
  buffer        : Str
  explicitEmpty : Bool
  rest          : Str
  deriving DecidableEq, Repr

/-- The code between the inner loop and `add_t`: an open quote is an error, and the terminating
NUL is one more store. -/
def endWord (sq dq explicitEmpty : Bool) (buffer rest : Str) : Except LexError WordEnd :=
  if sq || dq then .error .invalidSyntax
  else if buffer.length < bufferSize then .ok ⟨buffer, explicitEmpty, rest⟩
  else .error .overflow

/-- The inner loop of `lex_input`, which assembles one word. -/
def wordLoop (sq dq explicitEmpty : Bool) (buffer : Str) : Str → Except LexError WordEnd
  | [] => endWord sq dq explicitEmpty buffer []
  | c :: cs =>
    if !sq && !dq && (isBlank c || isOperator c) then
      endWord sq dq explicitEmpty buffer (c :: cs)
    else if c == '\'' && !dq then wordLoop (!sq) dq true buffer cs
    else if c == '"' && !sq then wordLoop sq (!dq) true buffer cs
    else if c == '\\' then
      if sq then do
        let buffer ← store buffer c
        wordLoop sq dq explicitEmpty buffer cs
      else if dq then
        match cs with
        | [] => do
          let buffer ← store buffer c
          wordLoop sq dq explicitEmpty buffer []
        | next :: cs' =>
          if next == '"' || next == '\\' then do
            let buffer ← store buffer next
            wordLoop sq dq explicitEmpty buffer cs'
          else do
            let buffer ← store buffer c
            wordLoop sq dq explicitEmpty buffer (next :: cs')
      else
        match cs with
        | [] => .error .invalidSyntax
        | next :: cs' =>
          if next == '\n' then .error .invalidSyntax
          else do
            let buffer ← store buffer next
            wordLoop sq dq explicitEmpty buffer cs'
    else do
      let buffer ← store buffer c
      wordLoop sq dq explicitEmpty buffer cs

/-- The token the word branch adds, if any. -/
def wordToken (w : WordEnd) : List Token :=
  if 0 < w.buffer.length || w.explicitEmpty then [⟨.word, w.buffer⟩] else []

/-! ### The inner loop makes progress

The outer loop continues where the inner one stopped, so it terminates because a word branch that
is entered on a character which is neither a blank nor an operator consumes that character. -/

theorem endWord_rest {sq dq ee : Bool} {buffer rest : Str} {w : WordEnd}
    (h : endWord sq dq ee buffer rest = .ok w) : w.rest = rest := by
  unfold endWord at h
  split at h
  · cases h
  · split at h
    · cases h; rfl
    · cases h

theorem store_bind_ok {β : Type} {buffer : Str} {c : Char} {f : Str → Except LexError β} {b : β}
    (h : (store buffer c >>= f) = .ok b) : f (buffer ++ [c]) = .ok b := by
  unfold store at h
  split at h
  · exact h
  · cases h


theorem wordLoop_rest_le {sq dq ee : Bool} {buffer s : Str} {w : WordEnd}
    (h : wordLoop sq dq ee buffer s = .ok w) : w.rest.length ≤ s.length := by
  fun_induction wordLoop sq dq ee buffer s with
  | case1 | case2 => exact (congrArg List.length (endWord_rest h)).le
  | case3 _ _ _ _ _ _ _ _ ih => exact Nat.le_succ_of_le (ih h)
  | case4 _ _ _ _ _ _ _ _ _ ih => exact Nat.le_succ_of_le (ih h)
  | case9 | case10 => cases h
  | case7 | case11 =>
    rename_i ih
    exact Nat.le_succ_of_le (Nat.le_succ_of_le (ih _ (store_bind_ok h)))
  | _ =>
    rename_i ih
    exact Nat.le_succ_of_le (ih _ (store_bind_ok h))

theorem wordLoop_rest_lt {ee : Bool} {buffer cs : Str} {c : Char} {w : WordEnd}
    (hb : isBlank c = false) (ho : isOperator c = false)
    (h : wordLoop false false ee buffer (c :: cs) = .ok w) : w.rest.length < (c :: cs).length := by
  have tail : ∀ {sq dq ee' : Bool} {buffer' s : Str}, s.length ≤ cs.length →
      wordLoop sq dq ee' buffer' s = .ok w → w.rest.length < (c :: cs).length :=
    fun hs h => Nat.lt_succ_of_le (le_trans (wordLoop_rest_le h) hs)
  rw [wordLoop.eq_def] at h
  simp only [hb, ho, Bool.not_false, Bool.and_true, Bool.or_self, Bool.false_eq_true,
    if_false, Bool.and_false] at h
  split at h
  · exact tail le_rfl h
  · split at h
    · exact tail le_rfl h
    · split at h
      · split at h
        · cases h
        · split at h
          · cases h
          · exact tail (Nat.le_succ _) (store_bind_ok h)
      · have h' := store_bind_ok h
        exact tail le_rfl h'

/-! ### The outer loop -/

/-- The outer loop of `lex_input`; `acc` is the list from `head` to `tail`. -/
def lexLoop (acc : List Token) (input : Str) : Except LexError (List Token) :=
  match input with
  | [] => .ok acc
  | c :: cs =>
    if isBlank c then lexLoop acc cs
    else if c = '>' then
      match cs with
      | '>' :: cs' => lexLoop (acc ++ [⟨.opGtgt, ['>', '>']⟩]) cs'
      | other => lexLoop (acc ++ [⟨.opGt, ['>']⟩]) other
    else if c = '<' then lexLoop (acc ++ [⟨.opLt, ['<']⟩]) cs
    else if c = '|' then lexLoop (acc ++ [⟨.opPipe, ['|']⟩]) cs
    else if c = '&' then lexLoop (acc ++ [⟨.opAmp, ['&']⟩]) cs
    else if c = ';' then lexLoop (acc ++ [⟨.opSemi, [';']⟩]) cs
    else
      match _h : wordLoop false false false [] (c :: cs) with
      | .error e => .error e
      | .ok w => lexLoop (acc ++ wordToken w) w.rest
termination_by input.length
decreasing_by
  -- every branch but the last drops one or two characters
  iterate 7 simp; try omega
  exact wordLoop_rest_lt (by simp_all) (by simp_all [isOperator]) _h

/-- `lex_input`. -/
def lexInput (input : Str) : Except LexError (List Token) := lexLoop [] input

end Lexer
end UnixCShell
