import UnixCShell.Lexer.Verified

/-!
# The word buffer

`lex_input` assembles a word in `char buffer[4096]` without looking at `b_idx`, and `main` reads
lines of any length. `lexInput_overflow_iff` says for which lines a store goes past the end of the
buffer: those with a word of more than 4095 bytes, or, where the word is cut off by a syntax error
and gets no NUL, of more than 4096 bytes.
-/

namespace UnixCShell.Lexer

/-- A full buffer has no room for what follows the pieces of a word. -/
theorem wordLoop_wordTail_overflow {s buffer : Str} {n : Nat} (h : WordTail s n) (ee : Bool)
    (hle : buffer.length ≤ bufferSize) (hover : bufferSize < buffer.length + n) :
    wordLoop false false ee buffer s = .error .overflow := by
  cases h with
  | atBreak hbreak =>
    have hfull : ¬ buffer.length < bufferSize := by omega
    cases s with
    | nil => simp [wordLoop, endWord, hfull]
    | cons c cs =>
      have hc : isBlank c = true ∨ isOperator c = true := hbreak c rfl
      rw [wordLoop.eq_def]
      simp [hc, endWord, hfull]
  | unclosed hun => rw [wordLoop_unclosed hun, storeAll_overflow hle hover, error_bind]
  | last => omega
  | newline => omega

theorem wordLoop_overflow {raw v rest : Str} {n : Nat} (hps : Pieces raw v)
    (htail : WordTail rest n) (hover : bufferSize < v.length + n) :
    wordLoop false false false [] (raw ++ rest) = .error .overflow := by
  obtain ⟨ee, hread, -, -⟩ := wordLoop_pieces hps false
  rw [hread]
  by_cases hfit : v.length ≤ bufferSize
  · rw [storeAll_ok (by simpa using hfit), ok_bind]
    exact wordLoop_wordTail_overflow htail ee hfit hover
  · rw [storeAll_overflow (by simp) (by simpa using hfit), error_bind]

/-- A word that does not fit starts with one of its own characters: an empty one would. -/
theorem exists_cons_of_overflow {raw v rest : Str} {n : Nat} (hps : Pieces raw v)
    (htail : WordTail rest n) (hover : bufferSize < v.length + n) :
    ∃ c cs, raw ++ rest = c :: cs ∧ isBlank c = false ∧ isOperator c = false := by
  refine hps.exists_cons_append ?_
  rintro rfl
  cases hps.eq_nil
  cases htail with
  | atBreak => exact absurd hover (by decide)
  | unclosed hun => cases hun <;> exact ⟨_, _, rfl, rfl, rfl⟩
  | last => exact absurd hover (by decide)
  | newline => exact absurd hover (by decide)

theorem lexLoop_overflow {acc : List Token} {raw v rest : Str} {n : Nat} (hps : Pieces raw v)
    (htail : WordTail rest n) (hover : bufferSize < v.length + n) :
    lexLoop acc (raw ++ rest) = .error .overflow := by
  obtain ⟨c, cs, hcs, hb, ho⟩ := exists_cons_of_overflow hps htail hover
  have hword := wordLoop_overflow hps htail hover
  rw [hcs] at hword ⊢
  rw [lexLoop_word hb ho, hword]

/-- **When the word buffer overflows.** On a C string, all stores of `lex_input` into `buffer` are
in bounds exactly when every word of the line fits. -/
theorem lexInput_overflow_iff (s : Str) (hnul : nul ∉ s) :
    lexInput s ≠ .error .overflow ↔ FitsBuffer s := by
  constructor
  · rintro hok front raw v rest n rfl hel hps htail
    by_contra hover
    rw [not_le] at hover
    obtain ⟨c, cs, hcs, -, ho⟩ := exists_cons_of_overflow hps htail hover
    have hhead : (raw ++ rest).head? ≠ some '>' := by
      rw [hcs]
      rintro hc
      cases hc
      cases ho
    -- the loop arrives at the run, or at a word before it that does not fit either
    obtain ⟨pre, raw', v', rest', acc', -, -, hps', heq, rfl | ⟨hbreak, hlong⟩⟩ :=
      lexLoop_elements front hel hhead []
    · refine hok (heq.trans ?_)
      rw [← List.append_assoc]
      exact lexLoop_overflow (hps'.append hps) htail (by simp; omega)
    · exact hok (heq.trans (lexLoop_overflow hps' (.atBreak hbreak) (Nat.lt_succ_of_le hlong)))
  · intro hfit
    rcases lexes_or_malformed s hnul with ⟨ts, hts⟩ | ⟨front, back, rfl, hel, hdef⟩
    · rw [lexInput, lexLoop_complete hts hfit]
      simp
    · rw [lexInput, lexLoop_malformed hdef hel hfit]
      simp

theorem lexInput_overflow_iff_ls : lexInput ['l', 's'] ≠ .error .overflow :=
  (lexInput_overflow_iff ['l', 's'] (by decide)).mpr
    (WordsFit.of_length_le (by decide)).fitsBuffer

theorem pieces_replicate {c : Char} (hc : IsBare c) (n : Nat) :
    Pieces (List.replicate n c) (List.replicate n c) := by
  induction n with
  | zero => exact .nil
  | succ n ih => exact .cons (.bare hc) ih

/-- A line of 4096 letters makes one word, whose NUL is stored at `buffer[4096]`. -/
theorem lexInput_overflow_letters : lexInput (List.replicate 4096 'a') = .error .overflow := by
  have hps : Pieces (List.replicate 4096 'a') (List.replicate 4096 'a') :=
    pieces_replicate (by simp [IsBare, isBlank, isOperator]) 4096
  have htail : WordTail [] 1 := .atBreak (by simp [AtBreak])
  have hover : bufferSize < (List.replicate 4096 'a').length + 1 := by
    rw [List.length_replicate]
    exact Nat.lt_succ_self 4096
  rw [← List.append_nil (List.replicate 4096 'a')]
  exact lexLoop_overflow hps htail hover

end UnixCShell.Lexer
