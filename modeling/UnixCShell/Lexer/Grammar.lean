import UnixCShell.Lexer.Basic

/-!
# The token grammar

What the lexer is supposed to compute, stated without reference to how it does: `Piece` and
`Pieces` say which character sequences make up a word and what they denote, `Lexes s ts` says that
`ts` is the maximal-munch tokenization of `s`, and `Malformed s` that a quote of `s` is never
closed or that an unquoted backslash has nothing to escape.

The two judgements cover every line: `lexes_or_malformed`.
-/

namespace UnixCShell.Lexer

/-! ## Words -/

/-- A character that stands for itself outside quotes. -/
def IsBare (c : Char) : Prop :=
  isBlank c = false ∧ isOperator c = false ∧ c ≠ '\'' ∧ c ≠ '"' ∧ c ≠ '\\'

/-- `DqBody raw v`: between double quotes, `raw` denotes `v`. Only `\"` and `\\` are escapes; any
other backslash stands for itself. -/
inductive DqBody : Str → Str → Prop where
  | nil : DqBody [] []
  | escape {c : Char} {raw v : Str} : c = '"' ∨ c = '\\' → DqBody raw v →
      DqBody ('\\' :: c :: raw) (c :: v)
  | char {c : Char} {raw v : Str} : c ≠ '"' → c ≠ '\\' → DqBody raw v → DqBody (c :: raw) (c :: v)
  | backslash {c : Char} {raw v : Str} : c ≠ '"' → c ≠ '\\' → DqBody (c :: raw) v →
      DqBody ('\\' :: c :: raw) ('\\' :: v)

/-- One piece of a word: its source text and the characters it denotes. -/
inductive Piece : Str → Str → Prop where
  | bare {c : Char} : IsBare c → Piece [c] [c]
  | escape {c : Char} : c ≠ nul → c ≠ '\n' → Piece ['\\', c] [c]
  | squote {v : Str} : '\'' ∉ v → Piece ('\'' :: (v ++ ['\''])) v
  | dquote {raw v : Str} : DqBody raw v → Piece ('"' :: (raw ++ ['"'])) v

/-- A run of pieces. -/
inductive Pieces : Str → Str → Prop where
  | nil : Pieces [] []
  | cons {raw v raws vs : Str} : Piece raw v → Pieces raws vs → Pieces (raw ++ raws) (v ++ vs)

/-- No piece can be read at the front of `s`. -/
def NoPiece (s : Str) : Prop := ∀ raw v, Piece raw v → ¬ raw <+: s

/-! ## Token lists -/

/-- The operators of one character other than `>`. -/
def operatorType : Char → Option TokenType
  | '<' => some .opLt
  | '|' => some .opPipe
  | '&' => some .opAmp
  | ';' => some .opSemi
  | _ => none

/-- `Lexes s ts`: the maximal-munch tokenization of `s` is `ts`. -/
inductive Lexes : Str → List Token → Prop where
  | nil : Lexes [] []
  | blank {c : Char} {s : Str} {ts : List Token} : isBlank c = true → Lexes s ts → Lexes (c :: s) ts
  | gtgt {s : Str} {ts : List Token} : Lexes s ts →
      Lexes ('>' :: '>' :: s) (⟨.opGtgt, ['>', '>']⟩ :: ts)
  | gt {s : Str} {ts : List Token} : s.head? ≠ some '>' → Lexes s ts →
      Lexes ('>' :: s) (⟨.opGt, ['>']⟩ :: ts)
  | operator {c : Char} {type : TokenType} {s : Str} {ts : List Token} :
      operatorType c = some type → Lexes s ts → Lexes (c :: s) (⟨type, [c]⟩ :: ts)
  | word {raw v s : Str} {ts : List Token} : raw ≠ [] → Pieces raw v → NoPiece s → Lexes s ts →
      Lexes (raw ++ s) (⟨.word, v⟩ :: ts)

/-! ## Malformed lines -/

/-- Complete lexical elements in a row: blanks, operator characters and pieces. -/
inductive Elements : Str → Prop where
  | nil : Elements []
  | separator {c : Char} {s : Str} : isBlank c = true ∨ isOperator c = true → Elements s →
      Elements (c :: s)
  | piece {raw v s : Str} : Piece raw v → Elements s → Elements (raw ++ s)

/-- At the front of `s` stands a quote that is never closed, or a backslash that is last or
directly before a newline. -/
inductive Defect : Str → Prop where
  | squote {s : Str} : '\'' ∉ s → Defect ('\'' :: s)
  | dquote {s : Str} : (∀ raw v rest, DqBody raw v → s ≠ raw ++ '"' :: rest) → Defect ('"' :: s)
  | last : Defect ['\\']
  | newline {s : Str} : Defect ('\\' :: '\n' :: s)

/-- Some quote of `s` is unterminated, or an unquoted backslash is last or directly before a
newline. -/
def Malformed (s : Str) : Prop := ∃ front back, s = front ++ back ∧ Elements front ∧ Defect back

/-! ## Decoded words

`buffer` holds what has been read of a word so far, so its size matters for words that are cut off
by the end of the line as well. -/

/-- A quoted run that reaches the end of the line unclosed, and what has been read of it. -/
inductive Unclosed : Str → Str → Prop where
  | squote {v : Str} : '\'' ∉ v → Unclosed ('\'' :: v) v
  | dquote {raw v : Str} : DqBody raw v → Unclosed ('"' :: raw) v
  | dquoteBackslash {raw v : Str} : DqBody raw v → Unclosed ('"' :: (raw ++ ['\\'])) (v ++ ['\\'])

/-- `DecodedWord s v`: at some place of `s` a run of pieces, complete or cut off by the end of the
line, denotes `v`. -/
def DecodedWord (s v : Str) : Prop :=
  (∃ front raw rest, s = front ++ raw ++ rest ∧ Elements front ∧ Pieces raw v) ∨
  (∃ front raw v₁ cut v₂, s = front ++ raw ++ cut ∧ Elements front ∧ Pieces raw v₁ ∧
    Unclosed cut v₂ ∧ v = v₁ ++ v₂)

/-- Every decoded word of `s` has at most 4095 bytes, so it fits in `buffer` with its NUL. -/
def WordsFit (s : Str) : Prop := ∀ v, DecodedWord s v → v.length ≤ 4095

/-- `s` is at its end, or at a blank or an operator: where a run of pieces stops. -/
def AtBreak (s : Str) : Prop := ∀ c ∈ s.head?, isBlank c = true ∨ isOperator c = true

/-- `WordTail s n`: behind the pieces of a word stands `s`, and the lexer makes `n` more stores
before it is done with the word: the NUL, or what there is of an unclosed run. -/
inductive WordTail : Str → Nat → Prop where
  | atBreak {s : Str} : AtBreak s → WordTail s 1
  | unclosed {s v : Str} : Unclosed s v → WordTail s v.length
  | last : WordTail ['\\'] 0
  | newline {s : Str} : WordTail ('\\' :: '\n' :: s) 0

/-- At every place of `s` where the lexer is at work on a word, the stores for that word fit in
`buffer`. -/
def FitsBuffer (s : Str) : Prop :=
  ∀ front raw v rest n, s = front ++ (raw ++ rest) → Elements front → Pieces raw v →
    WordTail rest n → v.length + n ≤ bufferSize

/-! ## What can stand at the front of a line -/

/-- A piece starts with a character that is neither a blank nor an operator. -/
theorem Piece.exists_cons {raw v : Str} (h : Piece raw v) :
    ∃ c cs, raw = c :: cs ∧ isBlank c = false ∧ isOperator c = false := by
  cases h with
  | bare hc => exact ⟨_, _, rfl, hc.1, hc.2.1⟩
  | escape => exact ⟨_, _, rfl, rfl, rfl⟩
  | squote => exact ⟨_, _, rfl, rfl, rfl⟩
  | dquote => exact ⟨_, _, rfl, rfl, rfl⟩

theorem Piece.ne_nil {raw v : Str} (h : Piece raw v) : raw ≠ [] := by
  obtain ⟨c, cs, rfl, -, -⟩ := h.exists_cons
  simp

theorem Piece.not_atBreak {raw v s : Str} (h : Piece raw v) : ¬ AtBreak (raw ++ s) := by
  obtain ⟨c, cs, rfl, hb, ho⟩ := h.exists_cons
  intro hbreak
  have := hbreak c (by simp)
  simp [hb, ho] at this

theorem Pieces.exists_cons_append {raw v rest : Str} (h : Pieces raw v)
    (hrest : raw = [] → ∃ c cs, rest = c :: cs ∧ isBlank c = false ∧ isOperator c = false) :
    ∃ c cs, raw ++ rest = c :: cs ∧ isBlank c = false ∧ isOperator c = false := by
  cases h with
  | nil => exact hrest rfl
  | cons hp _ =>
    obtain ⟨c, cs, rfl, hb, ho⟩ := hp.exists_cons
    exact ⟨c, _, rfl, hb, ho⟩

theorem Pieces.eq_nil {v : Str} (h : Pieces [] v) : v = [] := by
  generalize hraw : ([] : Str) = raw at h
  cases h with
  | nil => rfl
  | cons hp _ => exact absurd (List.append_eq_nil_iff.mp hraw.symm).1 hp.ne_nil

theorem Pieces.append {raw v raws vs : Str} (h : Pieces raw v) (h' : Pieces raws vs) :
    Pieces (raw ++ raws) (v ++ vs) := by
  induction h with
  | nil => exact h'
  | cons hp _ ih =>
    rw [List.append_assoc, List.append_assoc]
    exact .cons hp ih

theorem Defect.exists_cons {s : Str} (h : Defect s) :
    ∃ c cs, s = c :: cs ∧ isBlank c = false ∧ isOperator c = false ∧ c ≠ '>' := by
  cases h <;> exact ⟨_, _, rfl, rfl, rfl, by decide⟩

theorem noPiece_of_atBreak {s : Str} (h : AtBreak s) : NoPiece s := by
  rintro raw v hp ⟨rest, rfl⟩
  exact hp.not_atBreak h

theorem exists_operatorType {c : Char} (ho : isOperator c = true) (hgt : c ≠ '>') :
    ∃ type, operatorType c = some type := by
  simp only [isOperator, Bool.or_eq_true, beq_iff_eq] at ho
  rcases ho with (((rfl | rfl) | rfl) | rfl) | rfl
  · exact ⟨_, rfl⟩
  · exact ⟨_, rfl⟩
  · exact ⟨_, rfl⟩
  · exact ⟨_, rfl⟩
  · exact absurd rfl hgt

/-- A line is empty, or it starts with a separator, with a piece, or with a defect. -/
theorem front_cases {s : Str} (hnul : nul ∉ s) :
    AtBreak s ∨ (∃ raw v rest, Piece raw v ∧ s = raw ++ rest) ∨ Defect s := by
  cases s with
  | nil => exact .inl (by simp [AtBreak])
  | cons c cs =>
    by_cases hsep : isBlank c = true ∨ isOperator c = true
    · exact .inl (by simpa [AtBreak] using hsep)
    · simp only [not_or, Bool.not_eq_true] at hsep
      obtain ⟨hb, ho⟩ := hsep
      right
      by_cases hq : c = '\''
      · subst hq
        by_cases hmem : '\'' ∈ cs
        · -- the quote is closed by the first single quote that follows
          obtain ⟨v, rest, rfl, hv⟩ := List.eq_append_cons_of_mem hmem
          exact .inl ⟨_, v, rest, .squote hv, by simp⟩
        · exact .inr (.squote hmem)
      · by_cases hd : c = '"'
        · subst hd
          by_cases hclosed : ∃ raw v rest, DqBody raw v ∧ cs = raw ++ '"' :: rest
          · obtain ⟨raw, v, rest, hbody, rfl⟩ := hclosed
            exact .inl ⟨_, v, rest, .dquote hbody, by simp⟩
          · refine .inr (.dquote fun raw v rest hbody heq => hclosed ⟨raw, v, rest, hbody, heq⟩)
        · by_cases hbs : c = '\\'
          · subst hbs
            cases cs with
            | nil => exact .inr .last
            | cons next cs' =>
              by_cases hnl : next = '\n'
              · subst hnl
                exact .inr .newline
              · have hn : next ≠ nul := by rintro rfl; simp at hnul
                exact .inl ⟨_, [next], cs', .escape hn hnl, rfl⟩
          · exact .inl ⟨[c], [c], cs, .bare ⟨hb, ho, hq, hd, hbs⟩, rfl⟩

/-- Reading pieces from the front of a line for as long as possible ends at a break or at a
defect. -/
theorem exists_run (s : Str) (hnul : nul ∉ s) :
    ∃ raw v rest, s = raw ++ rest ∧ Pieces raw v ∧ (AtBreak rest ∨ Defect rest) := by
  induction hn : s.length using Nat.strongRecOn generalizing s with
  | _ n ih =>
    rcases front_cases hnul with hbreak | ⟨raw, v, rest, hp, rfl⟩ | hdefect
    · exact ⟨[], [], s, rfl, .nil, .inl hbreak⟩
    · have hlen : rest.length < n := by
        have := List.length_pos_iff.mpr hp.ne_nil
        simp only [List.length_append] at hn
        omega
      obtain ⟨raws, vs, rest', rfl, hps, hend⟩ := ih _ hlen rest (by simp_all) rfl
      exact ⟨raw ++ raws, v ++ vs, rest', by simp, .cons hp hps, hend⟩
    · exact ⟨[], [], s, rfl, .nil, .inr hdefect⟩

theorem Elements.append {s t : Str} (hs : Elements s) (ht : Elements t) : Elements (s ++ t) := by
  induction hs with
  | nil => exact ht
  | separator hc _ ih => exact .separator hc ih
  | piece hp _ ih =>
    rw [List.append_assoc]
    exact .piece hp ih

theorem Elements.single {c : Char} (hc : isBlank c = true ∨ isOperator c = true) : Elements [c] :=
  .separator hc .nil

theorem Pieces.elements {raw v : Str} (h : Pieces raw v) : Elements raw := by
  induction h with
  | nil => exact .nil
  | cons hp _ ih => exact .piece hp ih

theorem Malformed.append {front s : Str} (hf : Elements front) (h : Malformed s) :
    Malformed (front ++ s) := by
  obtain ⟨front', back, rfl, hel, hdef⟩ := h
  exact ⟨front ++ front', back, by simp, hf.append hel, hdef⟩

/-- **Every line either has a tokenization or is malformed.** -/
theorem lexes_or_malformed (s : Str) (hnul : nul ∉ s) : (∃ ts, Lexes s ts) ∨ Malformed s := by
  induction hn : s.length using Nat.strongRecOn generalizing s with
  | _ n ih =>
    obtain ⟨raw, v, rest, rfl, hps, hend⟩ := exists_run s hnul
    rcases hend with hbreak | hdefect
    · cases raw with
      | nil =>
        -- no word here: the line starts with a separator, or there is nothing left
        rw [List.nil_append] at hn hnul ⊢
        cases rest with
        | nil => exact .inl ⟨[], .nil⟩
        | cons c cs =>
          have hc : isBlank c = true ∨ isOperator c = true := hbreak c rfl
          simp only [List.length_cons] at hn
          simp only [List.mem_cons, not_or] at hnul
          by_cases hgtgt : c = '>' ∧ cs.head? = some '>'
          · obtain ⟨rfl, hhead⟩ := hgtgt
            obtain ⟨cs', rfl⟩ := List.head?_eq_some_iff.mp hhead
            simp only [List.length_cons] at hn
            rcases ih cs'.length (by omega) cs' (by simp_all) rfl with ⟨ts, hts⟩ | hbad
            · exact .inl ⟨_, .gtgt hts⟩
            · exact .inr (hbad.append (.separator hc (.single hc)))
          · rcases ih cs.length (by omega) cs hnul.2 rfl with ⟨ts, hts⟩ | hbad
            · rcases hc with hb | ho
              · exact .inl ⟨ts, .blank hb hts⟩
              · by_cases hgt : c = '>'
                · subst hgt
                  exact .inl ⟨_, .gt (fun h => hgtgt ⟨rfl, h⟩) hts⟩
                · obtain ⟨type, htype⟩ := exists_operatorType ho hgt
                  exact .inl ⟨_, .operator htype hts⟩
            · exact .inr (hbad.append (.single hc))
      | cons c cs =>
        have hlen : rest.length < n := by simp at hn; omega
        rcases ih _ hlen rest (by simp_all) rfl with ⟨ts, hts⟩ | hbad
        · exact .inl ⟨_, .word (by simp) hps (noPiece_of_atBreak hbreak) hts⟩
        · exact .inr (hbad.append hps.elements)
    · exact .inr ⟨raw, rest, rfl, hps.elements, hdefect⟩

end UnixCShell.Lexer
