import UnixCShell.Lexer.Verified

/-!
# Two laws of the lexer

* Lexing inverts quoting (`lexInput_render`): a list of tokens is rendered with every word between
  single quotes and a blank between two tokens, and `lex_input` reads back that list.
* Lexing is compositional at separators (`lexInput_append_separator`): a line that lexes, followed
  by a separator, contributes its own tokens and nothing to the way the rest is read.

Both hold for every line. Where the word buffer is too small the outcome of the call is
`LexError.overflow`, so no bound on the words is needed for the second law.
-/

namespace UnixCShell.Lexer

/-! ## Quoting -/

/-- How a character is written inside a single-quoted string: a single quote closes the string,
is escaped, and opens it again. -/
def quoteChar (c : Char) : Str := if c = '\'' then ['\'', '\\', '\'', '\''] else [c]

/-- A word as a single-quoted string. -/
def quote (w : Str) : Str := '\'' :: (w.flatMap quoteChar ++ ['\''])

/-- The text of an operator; a word has none. -/
def operatorText : TokenType → Str
  | .opPipe => ['|']
  | .opAmp => ['&']
  | .opSemi => [';']
  | .opLt => ['<']
  | .opGt => ['>']
  | .opGtgt => ['>', '>']
  | .word => []

/-- A token that a line can hold: an operator, or a word that is a C string and fits in the word
buffer with its NUL. -/
inductive Lexeme where
  | operator (type : TokenType) (notWord : type ≠ .word)
  | word (w : Str) (noNul : nul ∉ w) (fits : w.length ≤ 4095)

namespace Lexeme

/-- The token that the lexer makes of a lexeme. -/
def token : Lexeme → Token
  | operator type _ => ⟨type, operatorText type⟩
  | word w _ _ => ⟨.word, w⟩

/-- How a lexeme is written. -/
def text : Lexeme → Str
  | operator type _ => operatorText type
  | word w _ _ => quote w

end Lexeme

/-- A line that holds the given tokens, with one blank between two of them. -/
def render (ls : List Lexeme) : Str := [' '].intercalate (ls.map Lexeme.text)

/-- A single-quoted string in which `pre` has been read already. The induction is on what is left
of the word: a quote ends the piece, and two more follow. -/
theorem pieces_quote_from (w : Str) : ∀ pre : Str, '\'' ∉ pre →
    Pieces ('\'' :: (pre ++ (w.flatMap quoteChar ++ ['\'']))) (pre ++ w) := by
  induction w with
  | nil =>
    intro pre hpre
    simpa using Pieces.cons (.squote hpre) .nil
  | cons c w ih =>
    intro pre hpre
    by_cases hc : c = '\''
    · subst hc
      have hrest : Pieces ('\'' :: (w.flatMap quoteChar ++ ['\''])) w := ih [] (by simp)
      have hescape : Piece ['\\', '\''] ['\''] := .escape (by decide) (by decide)
      simpa [quoteChar] using Pieces.cons (.squote hpre) (.cons hescape hrest)
    · have hpre' : '\'' ∉ pre ++ [c] := by simp [hpre, Ne.symm hc]
      simpa [quoteChar, hc] using ih (pre ++ [c]) hpre'

theorem pieces_quote (w : Str) : Pieces (quote w) w := pieces_quote_from w [] (by simp)

/-- The lexer reads a lexeme completely when a separator other than `>` follows. -/
theorem lexLoop_lexeme (l : Lexeme) {acc : List Token} {s : Str} (hbreak : AtBreak s)
    (hgt : s.head? ≠ some '>') : lexLoop acc (l.text ++ s) = lexLoop (acc ++ [l.token]) s := by
  cases l with
  | operator type notWord =>
    cases type with
    | opGt => exact lexLoop_gt hgt
    | opGtgt => exact lexLoop_gtgt
    | word => exact absurd rfl notWord
    | opPipe | opAmp | opSemi | opLt => exact lexLoop_operator rfl
  | word w noNul fits =>
    exact lexLoop_pieces (by simp [Lexeme.text, quote]) (pieces_quote w) hbreak
      (Nat.lt_succ_of_le fits)

theorem lexLoop_render (ls : List Lexeme) : ∀ acc : List Token,
    lexLoop acc (render ls) = .ok (acc ++ ls.map Lexeme.token) := by
  induction ls with
  | nil => intro acc; simp [render, lexLoop]
  | cons l ls ih =>
    intro acc
    cases ls with
    | nil =>
      have hlast : lexLoop acc (l.text ++ []) = lexLoop (acc ++ [l.token]) [] :=
        lexLoop_lexeme l (by simp [AtBreak]) (by simp)
      simpa [render, lexLoop] using hlast
    | cons l' ls =>
      have hsplit : render (l :: l' :: ls) = l.text ++ ' ' :: render (l' :: ls) := by
        simp [render]
      rw [hsplit, lexLoop_lexeme l (by simp [AtBreak, isBlank]) (by simp), lexLoop_blank rfl, ih]
      simp

theorem Lexeme.nul_notMem_text (l : Lexeme) : nul ∉ l.text := by
  cases l with
  | operator type _ =>
    change nul ∉ operatorText type
    cases type <;> decide
  | word w noNul _ =>
    have hbody : nul ∉ w.flatMap quoteChar := by
      simp only [List.mem_flatMap, not_exists, not_and]
      intro c hc
      have hne : nul ≠ c := fun h => noNul (h ▸ hc)
      unfold quoteChar
      split
      · decide
      · simpa using hne
    have hquote : nul ≠ '\'' := by decide
    simp [Lexeme.text, quote, hbody, hquote]

theorem nul_notMem_render (ls : List Lexeme) : nul ∉ render ls := by
  induction ls with
  | nil => simp [render]
  | cons l ls ih =>
    cases ls with
    | nil => simpa [render] using l.nul_notMem_text
    | cons l' ls =>
      have hblank : nul ≠ ' ' := by decide
      simp only [render, List.map_cons, List.intercalate_cons_cons, List.mem_append,
        List.mem_singleton, not_or] at ih ⊢
      exact ⟨⟨l.nul_notMem_text, hblank⟩, ih⟩

/-- **Lexing inverts quoting.** Every list of tokens is what `lex_input` returns on its rendering,
which is a C string. -/
theorem lexInput_render (ls : List Lexeme) :
    nul ∉ render ls ∧ lexInput (render ls) = .ok (ls.map Lexeme.token) :=
  ⟨nul_notMem_render ls, lexLoop_render ls []⟩

/-! ## Composition at separators -/

theorem store_bind_imp {α β : Type} {buffer : Str} {c : Char} {f : Str → Except LexError α}
    {g : Str → Except LexError β} {a : α} {b : β} (h : (store buffer c >>= f) = .ok a)
    (hfg : f (buffer ++ [c]) = .ok a → g (buffer ++ [c]) = .ok b) :
    (store buffer c >>= g) = .ok b := by
  unfold store at h ⊢
  split at h
  · rw [if_pos ‹_›]
    exact hfg h
  · cases h

theorem endWord_eq_ok {sq dq ee : Bool} {buffer rest : Str} {w : WordEnd}
    (h : endWord sq dq ee buffer rest = .ok w) :
    sq = false ∧ dq = false ∧ buffer.length < bufferSize ∧ w = ⟨buffer, ee, rest⟩ := by
  unfold endWord at h
  split at h
  · cases h
  · next hquotes =>
    simp only [Bool.or_eq_true, not_or, Bool.not_eq_true] at hquotes
    split at h
    · next hfit =>
      cases h
      exact ⟨hquotes.1, hquotes.2, hfit, rfl⟩
    · cases h

/-- The inner loop does not look behind the end of a word that it has read, whatever quotes are
open where it starts. -/
theorem wordLoop_append {sq dq ee : Bool} {buffer t s : Str} {w : WordEnd} (hs : AtBreak s)
    (h : wordLoop sq dq ee buffer t = .ok w) :
    wordLoop sq dq ee buffer (t ++ s) = .ok { w with rest := w.rest ++ s } := by
  fun_induction wordLoop sq dq ee buffer t with
  | case1 sq dq ee buffer =>
    obtain ⟨rfl, rfl, hfit, rfl⟩ := endWord_eq_ok h
    exact wordLoop_atBreak hs hfit
  | case2 sq dq ee buffer c cs hc =>
    obtain ⟨rfl, rfl, hfit, rfl⟩ := endWord_eq_ok h
    exact wordLoop_atBreak (by simpa [AtBreak] using hc) hfit
  | case6 sq ee buffer c =>
    -- the double quote is still open at the end
    have hend : endWord sq true ee (buffer ++ [c]) [] = .ok w := store_bind_ok h
    cases (endWord_eq_ok hend).2.1
  | case9 | case10 => cases h
  | case3 _ _ _ _ _ _ _ _ ih | case4 _ _ _ _ _ _ _ _ _ ih =>
    rw [List.cons_append, wordLoop.eq_def]
    simp [*]
  | case7 sq ee buffer c _ hc hsq next cs hnext _ _ ih =>
    obtain rfl : sq = false := by simpa using hsq
    obtain rfl : c = '\\' := by simpa using hc
    exact (wordLoop_dquote_escape (by simpa using hnext)).trans (store_bind_imp h (ih _))
  | case8 sq ee buffer c _ hc hsq next cs hnext _ _ ih =>
    obtain rfl : sq = false := by simpa using hsq
    obtain rfl : c = '\\' := by simpa using hc
    obtain ⟨hq, hb⟩ : next ≠ '"' ∧ next ≠ '\\' := by simpa using hnext
    exact (wordLoop_dquote_backslash hq hb).trans (store_bind_imp h (ih _))
  | case11 sq dq ee buffer c _ _ _ hc hsq hdq next cs hnl ih =>
    obtain rfl : sq = false := by simpa using hsq
    obtain rfl : dq = false := by simpa using hdq
    obtain rfl : c = '\\' := by simpa using hc
    exact (wordLoop_escape (by simpa using hnl)).trans (store_bind_imp h (ih _))
  | _ =>
    rename_i ih
    rw [List.cons_append, wordLoop.eq_def]
    simp only [*, if_true]
    exact store_bind_imp h (ih _)

/-- The outer loop on a line that lexes, with a separator other than `>` behind it: it arrives at
the separator with the tokens of the line. -/
theorem lexLoop_append {acc ts : List Token} {a s : Str} (hs : AtBreak s)
    (hgt : s.head? ≠ some '>') (h : lexLoop acc a = .ok ts) :
    lexLoop acc (a ++ s) = lexLoop ts s := by
  fun_induction lexLoop acc a with
  | case1 acc =>
    cases h
    rfl
  | case2 _ _ _ hb ih => exact (lexLoop_blank hb).trans (ih h)
  | case3 _ _ _ ih => exact lexLoop_gtgt.trans (ih h)
  | case4 acc other hother _ ih =>
    -- a second `>` could only come from `s`
    have hhead : (other ++ s).head? ≠ some '>' := by
      cases other with
      | nil => exact hgt
      | cons d ds =>
        rintro hd
        cases hd
        exact hother ds rfl
    exact (lexLoop_gt hhead).trans (ih h)
  | case9 => cases h
  | case10 acc c cs hb h1 h2 h3 h4 h5 w hw ih =>
    have ho : isOperator c = false := by simp [isOperator, h1, h2, h3, h4, h5]
    rw [List.cons_append, lexLoop_word (Bool.eq_false_iff.mpr hb) ho, ← List.cons_append,
      wordLoop_append hs hw]
    exact ih h
  | _ =>
    rename_i ih
    exact (lexLoop_operator rfl).trans (ih h)

/-- What the outer loop adds does not depend on the tokens it has already. -/
theorem lexLoop_acc (front acc : List Token) (s : Str) :
    lexLoop (front ++ acc) s = (lexLoop acc s).map (front ++ ·) := by
  fun_induction lexLoop acc s with
  | case1 acc => simp [lexLoop, Except.map]
  | case2 _ _ _ hb ih => exact (lexLoop_blank hb).trans ih
  | case3 _ _ _ ih =>
    rw [lexLoop_gtgt, List.append_assoc, ih]
  | case4 acc other hother _ ih =>
    have hhead : other.head? ≠ some '>' := by
      intro h
      obtain ⟨cs, rfl⟩ := List.head?_eq_some_iff.mp h
      exact hother cs rfl
    rw [lexLoop_gt hhead, List.append_assoc, ih]
  | case9 acc c cs hb h1 h2 h3 h4 h5 e hw =>
    have ho : isOperator c = false := by simp [isOperator, h1, h2, h3, h4, h5]
    rw [lexLoop_word (Bool.eq_false_iff.mpr hb) ho, hw]
    rfl
  | case10 acc c cs hb h1 h2 h3 h4 h5 w hw ih =>
    have ho : isOperator c = false := by simp [isOperator, h1, h2, h3, h4, h5]
    rw [lexLoop_word (Bool.eq_false_iff.mpr hb) ho, hw, ← ih, ← List.append_assoc]
  | _ =>
    rename_i ih
    rw [lexLoop_operator rfl, List.append_assoc, ih]

/-- The lexer's result on a line that lexes, a separator and a second line: the second line is read
as it would be on its own. -/
theorem lexInput_append {a b : Str} {ta mid : List Token} {c : Char}
    (ha : lexInput a = .ok ta) (hc : isBlank c = true ∨ isOperator c = true) (hgt : c ≠ '>')
    (hsep : lexLoop ta (c :: b) = lexLoop (ta ++ mid) b) :
    lexInput (a ++ c :: b) = (lexInput b).map ((ta ++ mid) ++ ·) := by
  have hs : AtBreak (c :: b) := by simpa [AtBreak] using hc
  rw [lexInput, lexLoop_append hs (by simpa using hgt) ha, hsep]
  simpa [lexInput] using lexLoop_acc (ta ++ mid) [] b

theorem map_eq_ok_iff {α β : Type} {x : Except LexError α} {f : α → β} {b : β} :
    x.map f = .ok b ↔ ∃ a, x = .ok a ∧ b = f a := by
  cases x with
  | error e => simp [Except.map]
  | ok a => simp [Except.map, eq_comm]

/-- **Lexing is compositional at separators.** If `lex_input` reports no error on `a`, then
`a`, a blank and `b` together lex exactly when `b` does, to the tokens of `a` and those of `b`; with
an operator character other than `>` in place of the blank, that operator stands between them. -/
theorem lexInput_append_separator {a : Str} {ta : List Token} (ha : lexInput a = .ok ta)
    (b : Str) (ts : List Token) :
    (∀ c, isBlank c = true →
      (lexInput (a ++ c :: b) = .ok ts ↔ ∃ tb, lexInput b = .ok tb ∧ ts = ta ++ tb)) ∧
    (∀ c type, operatorType c = some type →
      (lexInput (a ++ c :: b) = .ok ts ↔
        ∃ tb, lexInput b = .ok tb ∧ ts = ta ++ [⟨type, [c]⟩] ++ tb)) := by
  constructor
  · intro c hb
    have hgt : c ≠ '>' := by rintro rfl; cases hb
    have hskip : lexLoop ta (c :: b) = lexLoop (ta ++ []) b := by
      rw [List.append_nil, lexLoop_blank hb]
    rw [lexInput_append ha (.inl hb) hgt hskip, map_eq_ok_iff]
    simp
  · intro c type htype
    have hgt : c ≠ '>' := by rintro rfl; cases htype
    rw [lexInput_append ha (.inr (isOperator_of_operatorType htype)) hgt (lexLoop_operator htype),
      map_eq_ok_iff]

/-- `"a"|b` is the word `a`, a pipe and the word `b`. -/
theorem lexInput_append_separator_pipe :
    lexInput ['"', 'a', '"', '|', 'b'] =
      .ok [⟨.word, ['a']⟩, ⟨.opPipe, ['|']⟩, ⟨.word, ['b']⟩] := by
  have ha : lexInput ['"', 'a', '"'] = .ok [⟨.word, ['a']⟩] := by
    simp [lexInput, lexLoop, wordLoop, isBlank, isOperator, store, endWord, bufferSize, wordToken]
  have hb : lexInput ['b'] = .ok [⟨.word, ['b']⟩] := by
    simp [lexInput, lexLoop, wordLoop, isBlank, isOperator, store, endWord, bufferSize, wordToken]
  exact ((lexInput_append_separator ha ['b'] _).2 '|' .opPipe rfl).mpr ⟨_, hb, rfl⟩

end UnixCShell.Lexer
