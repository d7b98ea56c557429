import UnixCShell.Lexer.Grammar

/-!
# Correctness of the lexer

`lexInput` computes the tokenization of `Grammar.lean`, and reports `invalid syntax` exactly on
malformed lines, as long as every decoded word fits in the word buffer (`lexInput_correct`).

The two loops are first put into equations, one for each thing that can stand at the front of the
input: a piece is read completely and leaves its value in `buffer`, a break ends the word, and a
defect ends the call. Completeness then follows the derivation of `Lexes`, and the error case the
lexical elements before the defect.
-/

namespace UnixCShell.Lexer

/-! ## Stores -/

@[simp] theorem ok_bind {α β : Type} (a : α) (f : α → Except LexError β) :
    (Except.ok a >>= f) = f a := rfl

@[simp] theorem error_bind {α β : Type} (e : LexError) (f : α → Except LexError β) :
    (Except.error e >>= f) = .error e := rfl

/-- Several stores in a row. -/
def storeAll (buffer v : Str) : Except LexError Str := v.foldlM store buffer

theorem storeAll_cons {buffer v : Str} {c : Char} :
    storeAll buffer (c :: v) = store buffer c >>= fun b => storeAll b v := by
  simp [storeAll]

theorem storeAll_append {buffer v w : Str} :
    storeAll buffer (v ++ w) = storeAll buffer v >>= fun b => storeAll b w := by
  simp [storeAll]

theorem storeAll_ok {v : Str} : ∀ {buffer : Str}, buffer.length + v.length ≤ bufferSize →
    storeAll buffer v = .ok (buffer ++ v) := by
  induction v with
  | nil => intro buffer _; simp [storeAll]; rfl
  | cons c v ih =>
    intro buffer hfit
    simp only [List.length_cons] at hfit
    rw [storeAll_cons, store, if_pos (by omega), ok_bind, ih (by simp; omega)]
    simp

theorem storeAll_overflow {v : Str} : ∀ {buffer : Str}, buffer.length ≤ bufferSize →
    bufferSize < buffer.length + v.length → storeAll buffer v = .error .overflow := by
  induction v with
  | nil => intro buffer _ hover; simp at hover; omega
  | cons c v ih =>
    intro buffer hle hover
    simp only [List.length_cons] at hover
    rw [storeAll_cons, store]
    split
    · rw [ok_bind]
      exact ih (by simp; omega) (by simp; omega)
    · rfl

/-! ## The inner loop, piece by piece -/

theorem wordLoop_squote_open {ee : Bool} {buffer cs : Str} :
    wordLoop false false ee buffer ('\'' :: cs) = wordLoop true false true buffer cs := by
  rw [wordLoop.eq_def]
  simp [isBlank, isOperator]

/-- Between single quotes every other character stands for itself. -/
theorem wordLoop_squote_char {ee : Bool} {buffer cs : Str} {c : Char} (hc : c ≠ '\'') :
    wordLoop true false ee buffer (c :: cs) =
      store buffer c >>= fun b => wordLoop true false ee b cs := by
  rw [wordLoop.eq_def]
  simp [hc]

theorem wordLoop_squote_close {ee : Bool} {buffer cs : Str} :
    wordLoop true false ee buffer ('\'' :: cs) = wordLoop false false true buffer cs := by
  rw [wordLoop.eq_def]
  simp

theorem wordLoop_squote_body {v : Str} (hv : '\'' ∉ v) : ∀ (ee : Bool) (buffer s : Str),
    wordLoop true false ee buffer (v ++ s) =
      storeAll buffer v >>= fun b => wordLoop true false ee b s := by
  induction v with
  | nil => intro ee buffer s; rfl
  | cons c v ih =>
    intro ee buffer s
    simp only [List.mem_cons, not_or] at hv
    rw [List.cons_append, wordLoop_squote_char (Ne.symm hv.1), storeAll_cons, bind_assoc]
    simp only [ih hv.2]

theorem wordLoop_dquote_open {ee : Bool} {buffer cs : Str} :
    wordLoop false false ee buffer ('"' :: cs) = wordLoop false true true buffer cs := by
  rw [wordLoop.eq_def]
  simp [isBlank, isOperator]

theorem wordLoop_dquote_char {ee : Bool} {buffer cs : Str} {c : Char} (hq : c ≠ '"')
    (hb : c ≠ '\\') :
    wordLoop false true ee buffer (c :: cs) =
      store buffer c >>= fun b => wordLoop false true ee b cs := by
  rw [wordLoop.eq_def]
  simp [hq, hb]

theorem wordLoop_dquote_close {ee : Bool} {buffer cs : Str} :
    wordLoop false true ee buffer ('"' :: cs) = wordLoop false false true buffer cs := by
  rw [wordLoop.eq_def]
  simp

theorem wordLoop_dquote_escape {ee : Bool} {buffer cs : Str} {c : Char}
    (hc : c = '"' ∨ c = '\\') :
    wordLoop false true ee buffer ('\\' :: c :: cs) =
      store buffer c >>= fun b => wordLoop false true ee b cs := by
  rw [wordLoop.eq_def]
  simp [hc]

theorem wordLoop_dquote_backslash {ee : Bool} {buffer cs : Str} {c : Char} (hq : c ≠ '"')
    (hb : c ≠ '\\') :
    wordLoop false true ee buffer ('\\' :: c :: cs) =
      store buffer '\\' >>= fun b => wordLoop false true ee b (c :: cs) := by
  rw [wordLoop.eq_def]
  simp [hq, hb]

theorem wordLoop_dquote_body {raw v : Str} (h : DqBody raw v) : ∀ (ee : Bool) (buffer s : Str),
    wordLoop false true ee buffer (raw ++ s) =
      storeAll buffer v >>= fun b => wordLoop false true ee b s := by
  induction h with
  | nil => intro ee buffer s; rfl
  | escape hc _ ih =>
    intro ee buffer s
    rw [List.cons_append, List.cons_append, wordLoop_dquote_escape hc, storeAll_cons, bind_assoc]
    simp only [ih]
  | char hq hb _ ih =>
    intro ee buffer s
    rw [List.cons_append, wordLoop_dquote_char hq hb, storeAll_cons, bind_assoc]
    simp only [ih]
  | backslash hq hb _ ih =>
    intro ee buffer s
    rw [List.cons_append, List.cons_append, wordLoop_dquote_backslash hq hb, storeAll_cons,
      bind_assoc]
    simp only [← List.cons_append, ih]

theorem wordLoop_bare {c : Char} (hc : IsBare c) {ee : Bool} {buffer cs : Str} :
    wordLoop false false ee buffer (c :: cs) =
      store buffer c >>= fun b => wordLoop false false ee b cs := by
  obtain ⟨hb, ho, hsq, hdq, hbs⟩ := hc
  rw [wordLoop.eq_def]
  simp [hb, ho, hsq, hdq, hbs]

theorem wordLoop_escape {ee : Bool} {buffer cs : Str} {c : Char} (hnl : c ≠ '\n') :
    wordLoop false false ee buffer ('\\' :: c :: cs) =
      store buffer c >>= fun b => wordLoop false false ee b cs := by
  rw [wordLoop.eq_def]
  simp [isBlank, isOperator, hnl]

/-- A piece is read completely: its value is stored. A piece that denotes nothing sets
`explicit_empty`. -/
theorem wordLoop_piece {raw v : Str} (h : Piece raw v) (ee : Bool) :
    ∃ ee', (∀ buffer s, wordLoop false false ee buffer (raw ++ s) =
        storeAll buffer v >>= fun b => wordLoop false false ee' b s) ∧
      (v ≠ [] ∨ ee' = true) ∧ (ee = true → ee' = true) := by
  cases h with
  | bare hc =>
    refine ⟨ee, fun buffer s => ?_, by simp, id⟩
    rw [storeAll_cons, bind_assoc]
    exact wordLoop_bare hc
  | escape _ hnl =>
    refine ⟨ee, fun buffer s => ?_, by simp, id⟩
    rw [storeAll_cons, bind_assoc]
    exact wordLoop_escape hnl
  | squote hv =>
    refine ⟨true, fun buffer s => ?_, by simp, by simp⟩
    rw [List.cons_append, List.append_assoc, wordLoop_squote_open, wordLoop_squote_body hv]
    simp only [List.singleton_append, wordLoop_squote_close]
  | dquote hbody =>
    refine ⟨true, fun buffer s => ?_, by simp, by simp⟩
    rw [List.cons_append, List.append_assoc, wordLoop_dquote_open, wordLoop_dquote_body hbody]
    simp only [List.singleton_append, wordLoop_dquote_close]

theorem wordLoop_pieces {raw v : Str} (h : Pieces raw v) : ∀ ee : Bool,
    ∃ ee', (∀ buffer s, wordLoop false false ee buffer (raw ++ s) =
        storeAll buffer v >>= fun b => wordLoop false false ee' b s) ∧
      (raw ≠ [] → v ≠ [] ∨ ee' = true) ∧ (ee = true → ee' = true) := by
  induction h with
  | nil => intro ee; exact ⟨ee, fun _ _ => rfl, by simp, id⟩
  | @cons raw v raws vs hp _ ih =>
    intro ee
    obtain ⟨ee₁, heq₁, hne₁, hee₁⟩ := wordLoop_piece hp ee
    obtain ⟨ee₂, heq₂, -, hee₂⟩ := ih ee₁
    refine ⟨ee₂, fun buffer s => ?_, ?_, fun h => hee₂ (hee₁ h)⟩
    · rw [List.append_assoc, heq₁, storeAll_append, bind_assoc]
      simp only [heq₂]
    · intro _
      rcases hne₁ with hv | hee
      · exact .inl (by simp [hv])
      · exact .inr (hee₂ hee)

theorem wordLoop_atBreak {ee : Bool} {buffer s : Str} (h : AtBreak s)
    (hfit : buffer.length < bufferSize) :
    wordLoop false false ee buffer s = .ok ⟨buffer, ee, s⟩ := by
  cases s with
  | nil => simp [wordLoop, endWord, hfit]
  | cons c cs =>
    have hc : isBlank c = true ∨ isOperator c = true := h c rfl
    rw [wordLoop.eq_def]
    simp [hc, endWord, hfit]

/-! ## The inner loop on a defect -/

/-- The text after a double quote is closed, is a body up to the end of the line, or is a body
followed by a last backslash. -/
theorem dquote_cases (s : Str) :
    (∃ raw v rest, DqBody raw v ∧ s = raw ++ '"' :: rest) ∨ (∃ v, DqBody s v) ∨
      (∃ raw v, DqBody raw v ∧ s = raw ++ ['\\']) := by
  induction hn : s.length using Nat.strongRecOn generalizing s with
  | _ n ih =>
    match s with
    | [] => exact .inr (.inl ⟨[], .nil⟩)
    | c :: cs =>
      simp only [List.length_cons] at hn
      by_cases hq : c = '"'
      · subst hq
        exact .inl ⟨[], [], cs, .nil, rfl⟩
      · by_cases hb : c = '\\'
        · subst hb
          match cs with
          | [] => exact .inr (.inr ⟨[], [], .nil, rfl⟩)
          | d :: ds =>
            simp only [List.length_cons] at hn
            by_cases hd : d = '"' ∨ d = '\\'
            · rcases ih ds.length (by omega) ds rfl with ⟨raw, v, rest, h, rfl⟩ | ⟨v, h⟩ |
                ⟨raw, v, h, rfl⟩
              · exact .inl ⟨_, _, rest, .escape hd h, by simp⟩
              · exact .inr (.inl ⟨_, .escape hd h⟩)
              · exact .inr (.inr ⟨_, _, .escape hd h, by simp⟩)
            · simp only [not_or] at hd
              -- the backslash stands for itself: the body goes on at `d`
              rcases ih (d :: ds).length (by simp; omega) (d :: ds) rfl with
                ⟨raw, v, rest, h, heq⟩ | ⟨v, h⟩ | ⟨raw, v, h, heq⟩
              · cases raw with
                | nil => simp [hd.1] at heq
                | cons e raw =>
                  obtain ⟨rfl, rfl⟩ := List.cons.inj heq
                  exact .inl ⟨_, _, rest, .backslash hd.1 hd.2 h, by simp⟩
              · exact .inr (.inl ⟨_, .backslash hd.1 hd.2 h⟩)
              · cases raw with
                | nil => simp [hd.2] at heq
                | cons e raw =>
                  obtain ⟨rfl, rfl⟩ := List.cons.inj heq
                  exact .inr (.inr ⟨_, _, .backslash hd.1 hd.2 h, by simp⟩)
        · rcases ih cs.length (by omega) cs rfl with ⟨raw, v, rest, h, rfl⟩ | ⟨v, h⟩ |
            ⟨raw, v, h, rfl⟩
          · exact .inl ⟨_, _, rest, .char hq hb h, by simp⟩
          · exact .inr (.inl ⟨_, .char hq hb h⟩)
          · exact .inr (.inr ⟨_, _, .char hq hb h, by simp⟩)

/-- A defect is an unclosed run, or a backslash with nothing to escape. -/
theorem Defect.cases_unclosed {s : Str} (h : Defect s) :
    (∃ v, Unclosed s v) ∨ s = ['\\'] ∨ ∃ cs, s = '\\' :: '\n' :: cs := by
  cases h with
  | squote hs => exact .inl ⟨_, .squote hs⟩
  | @dquote s hopen =>
    rcases dquote_cases s with ⟨raw, v, rest, hbody, heq⟩ | ⟨v, hbody⟩ | ⟨raw, v, hbody, rfl⟩
    · exact absurd heq (hopen raw v rest hbody)
    · exact .inl ⟨_, .dquote hbody⟩
    · exact .inl ⟨_, .dquoteBackslash hbody⟩
  | last => exact .inr (.inl rfl)
  | newline => exact .inr (.inr ⟨_, rfl⟩)

/-- An unclosed run is read to the end of the line, where the open quote is found. -/
theorem wordLoop_unclosed {s v : Str} (h : Unclosed s v) (ee : Bool) (buffer : Str) :
    wordLoop false false ee buffer s = storeAll buffer v >>= fun _ => .error .invalidSyntax := by
  cases h with
  | squote hv =>
    have hbody := wordLoop_squote_body hv true buffer []
    rw [List.append_nil] at hbody
    rw [wordLoop_squote_open, hbody]
    rfl
  | dquote hbody =>
    have hread := wordLoop_dquote_body hbody true buffer []
    rw [List.append_nil] at hread
    rw [wordLoop_dquote_open, hread]
    rfl
  | dquoteBackslash hbody =>
    have hlast : ∀ b : Str, wordLoop false true true b ['\\'] =
        storeAll b ['\\'] >>= fun _ => .error .invalidSyntax := by
      intro b
      simp [wordLoop, endWord, storeAll]
    rw [wordLoop_dquote_open, wordLoop_dquote_body hbody, storeAll_append, bind_assoc]
    simp only [hlast]

theorem wordLoop_defect {s : Str} (h : Defect s) {ee : Bool} {buffer : Str}
    (hfit : ∀ v, Unclosed s v → buffer.length + v.length ≤ bufferSize) :
    wordLoop false false ee buffer s = .error .invalidSyntax := by
  rcases h.cases_unclosed with ⟨v, hv⟩ | rfl | ⟨cs, rfl⟩
  · rw [wordLoop_unclosed hv, storeAll_ok (hfit v hv), ok_bind]
  · simp [wordLoop, isBlank, isOperator]
  · simp [wordLoop, isBlank, isOperator]

/-! ## The outer loop -/

theorem lexLoop_blank {acc : List Token} {c : Char} {s : Str} (h : isBlank c = true) :
    lexLoop acc (c :: s) = lexLoop acc s := by
  rw [lexLoop.eq_def]
  simp [h]

theorem lexLoop_gtgt {acc : List Token} {s : Str} :
    lexLoop acc ('>' :: '>' :: s) = lexLoop (acc ++ [⟨.opGtgt, ['>', '>']⟩]) s := by
  rw [lexLoop.eq_def]
  simp [isBlank]

theorem lexLoop_gt {acc : List Token} {s : Str} (h : s.head? ≠ some '>') :
    lexLoop acc ('>' :: s) = lexLoop (acc ++ [⟨.opGt, ['>']⟩]) s := by
  rw [lexLoop.eq_def]
  simp only [isBlank, Char.reduceBEq, Bool.or_self, Bool.false_eq_true, if_false, if_true]
  split
  · simp at h
  · rfl

theorem lexLoop_operator {acc : List Token} {c : Char} {type : TokenType} {s : Str}
    (h : operatorType c = some type) :
    lexLoop acc (c :: s) = lexLoop (acc ++ [⟨type, [c]⟩]) s := by
  unfold operatorType at h
  split at h <;> cases h
  all_goals
    rw [lexLoop.eq_def]
    simp [isBlank]

theorem lexLoop_word {acc : List Token} {c : Char} {cs : Str} (hb : isBlank c = false)
    (ho : isOperator c = false) :
    lexLoop acc (c :: cs) =
      match wordLoop false false false [] (c :: cs) with
      | .error e => .error e
      | .ok w => lexLoop (acc ++ wordToken w) w.rest := by
  simp only [isOperator, Bool.or_eq_false_iff, beq_eq_false_iff_ne] at ho
  obtain ⟨⟨⟨⟨h1, h2⟩, h3⟩, h4⟩, h5⟩ := ho
  rw [lexLoop.eq_def]
  simp only [hb, Bool.false_eq_true, if_false, h1, h2, h3, h4, h5]
  split <;> simp_all

/-! ## Words that fit -/

theorem FitsBuffer.suffix {front s : Str} (h : FitsBuffer (front ++ s)) (hf : Elements front) :
    FitsBuffer s := by
  rintro front' raw v rest n rfl hel hps htail
  exact h (front ++ front') raw v rest n (by simp) (hf.append hel) hps htail

/-- What the lexer reads first fits. -/
theorem FitsBuffer.front {raw v rest : Str} {n : Nat} (h : FitsBuffer (raw ++ rest))
    (hps : Pieces raw v) (htail : WordTail rest n) : v.length + n ≤ bufferSize :=
  h [] raw v rest n rfl .nil hps htail

theorem WordsFit.fitsBuffer {s : Str} (h : WordsFit s) : FitsBuffer s := by
  rintro front raw v rest n rfl hel hps htail
  have hv : v.length ≤ 4095 := h v (.inl ⟨front, raw, rest, by simp, hel, hps⟩)
  cases htail with
  | atBreak => exact Nat.succ_le_succ hv
  | @unclosed _ w hun =>
    have hw := h (v ++ w) (.inr ⟨front, raw, v, rest, w, by simp, hel, hps, hun, rfl⟩)
    rw [List.length_append] at hw
    exact Nat.le_succ_of_le hw
  | last => exact Nat.le_succ_of_le hv
  | newline => exact Nat.le_succ_of_le hv

/-- No line of at most 4095 bytes has a word that does not fit. -/
theorem WordsFit.of_length_le {s : Str} (h : s.length ≤ 4095) : WordsFit s := by
  have dq : ∀ {raw v : Str}, DqBody raw v → v.length ≤ raw.length := by
    intro raw v hb
    induction hb <;> simp_all
    omega
  have piece : ∀ {raw v : Str}, Piece raw v → v.length ≤ raw.length := by
    intro raw v hp
    cases hp with
    | bare => simp
    | escape => simp
    | squote => simp; omega
    | dquote hb => have := dq hb; simp; omega
  have pieces : ∀ {raw v : Str}, Pieces raw v → v.length ≤ raw.length := by
    intro raw v hps
    induction hps with
    | nil => simp
    | cons hp _ ih => have := piece hp; simp; omega
  rintro v (⟨front, raw, rest, rfl, -, hps⟩ | ⟨front, raw, v₁, cut, v₂, rfl, -, hps, hun, rfl⟩)
  · have := pieces hps
    simp only [List.length_append] at h
    omega
  · have := pieces hps
    have hcut : v₂.length ≤ cut.length := by
      cases hun with
      | squote => simp
      | dquote hb => have := dq hb; simp; omega
      | dquoteBackslash hb => have := dq hb; simp; omega
    simp only [List.length_append] at h ⊢
    omega

/-! ## Completeness -/

/-- The word branch reads a maximal nonempty run of pieces and adds its value as one token. -/
theorem lexLoop_pieces {acc : List Token} {raw v s : Str} (hne : raw ≠ []) (hps : Pieces raw v)
    (hbreak : AtBreak s) (hfit : v.length < bufferSize) :
    lexLoop acc (raw ++ s) = lexLoop (acc ++ [⟨.word, v⟩]) s := by
  obtain ⟨ee, hread, hexplicit, -⟩ := wordLoop_pieces hps false
  have heq := hread [] s
  rw [storeAll_ok (by simp; omega), ok_bind, List.nil_append, wordLoop_atBreak hbreak hfit] at heq
  have htoken : wordToken ⟨v, ee, s⟩ = [⟨.word, v⟩] := by
    rcases hexplicit hne with hv | hee
    · simp [wordToken, List.length_pos_iff.mpr hv]
    · simp [wordToken, hee]
  cases hps with
  | nil => exact absurd rfl hne
  | cons hp _ =>
    obtain ⟨c, cs, rfl, hb, ho⟩ := hp.exists_cons
    simp only [List.cons_append] at heq ⊢
    rw [lexLoop_word hb ho, heq]
    simp only [htoken]

/-- Where a tokenization goes on after a word, the word has ended. -/
theorem Lexes.atBreak {s : Str} {ts : List Token} (h : Lexes s ts) (hno : NoPiece s) :
    AtBreak s := by
  cases h with
  | nil => simp [AtBreak]
  | blank hb _ => simp [AtBreak, hb]
  | gtgt _ => simp [AtBreak, isOperator]
  | gt _ _ => simp [AtBreak, isOperator]
  | operator htype _ =>
    unfold operatorType at htype
    split at htype <;> simp_all [AtBreak, isOperator]
  | word hne hps _ _ =>
    cases hps with
    | nil => exact absurd rfl hne
    | cons hp _ =>
      refine absurd ?_ (hno _ _ hp)
      rw [List.append_assoc]
      exact List.prefix_append _ _

theorem isOperator_of_operatorType {c : Char} {type : TokenType}
    (h : operatorType c = some type) : isOperator c = true := by
  unfold operatorType at h
  split at h <;> simp_all [isOperator]

/-- The lexer finds the tokenization of every line that has one. -/
theorem lexLoop_complete {s : Str} {ts : List Token} (h : Lexes s ts) :
    ∀ {acc : List Token}, FitsBuffer s → lexLoop acc s = .ok (acc ++ ts) := by
  induction h with
  | nil => intro acc _; simp [lexLoop]
  | blank hb _ ih =>
    intro acc hfit
    rw [lexLoop_blank hb]
    exact ih (FitsBuffer.suffix hfit (.single (.inl hb)))
  | gtgt _ ih =>
    intro acc hfit
    rw [lexLoop_gtgt, ih (FitsBuffer.suffix hfit (.separator (.inr rfl) (.single (.inr rfl))))]
    simp
  | gt hhead _ ih =>
    intro acc hfit
    rw [lexLoop_gt hhead, ih (FitsBuffer.suffix hfit (.single (.inr rfl)))]
    simp
  | operator htype _ ih =>
    intro acc hfit
    rw [lexLoop_operator htype, ih (FitsBuffer.suffix hfit
      (.single (.inr (isOperator_of_operatorType htype))))]
    simp
  | word hne hps hno hrest ih =>
    intro acc hfit
    rw [lexLoop_pieces hne hps (hrest.atBreak hno) (hfit.front hps (.atBreak (hrest.atBreak hno))),
      ih (hfit.suffix hps.elements)]
    simp

/-! ## Malformed lines -/

theorem Elements.tail {c : Char} {s : Str} (h : Elements (c :: s))
    (hc : isBlank c = true ∨ isOperator c = true) : Elements s := by
  generalize heq : c :: s = t at h
  cases h with
  | nil => cases heq
  | separator _ hs => cases heq; exact hs
  | piece hp _ =>
    obtain ⟨d, ds, rfl, hb, ho⟩ := hp.exists_cons
    cases heq
    simp [hb, ho] at hc

/-- Lexical elements are a run of pieces followed by nothing or by a separator. -/
theorem Elements.split {s : Str} (h : Elements s) :
    ∃ raw v rest, s = raw ++ rest ∧ Pieces raw v ∧ Elements rest ∧ AtBreak rest := by
  induction h with
  | nil => exact ⟨[], [], [], rfl, .nil, .nil, by simp [AtBreak]⟩
  | separator hc hs _ =>
    exact ⟨[], [], _, rfl, .nil, .separator hc hs, by simpa [AtBreak] using hc⟩
  | piece hp _ ih =>
    obtain ⟨raw, v, rest, rfl, hps, hel, hbreak⟩ := ih
    exact ⟨_, _, rest, by simp, .cons hp hps, hel, hbreak⟩

theorem Defect.exists_wordTail {s : Str} (h : Defect s) : ∃ n, WordTail s n := by
  rcases h.cases_unclosed with ⟨v, hv⟩ | rfl | ⟨cs, rfl⟩
  · exact ⟨_, .unclosed hv⟩
  · exact ⟨0, .last⟩
  · exact ⟨0, .newline⟩

/-- The word branch on a run of pieces that ends in a defect. -/
theorem lexLoop_pieces_defect {acc : List Token} {raw v back : Str} (hps : Pieces raw v)
    (hdef : Defect back) (hfit : FitsBuffer (raw ++ back)) :
    lexLoop acc (raw ++ back) = .error .invalidSyntax := by
  obtain ⟨ee, hread, -, -⟩ := wordLoop_pieces hps false
  obtain ⟨n, htail⟩ := hdef.exists_wordTail
  have hroom := hfit.front hps htail
  have heq := hread [] back
  rw [storeAll_ok (by simp; omega), ok_bind, List.nil_append,
    wordLoop_defect hdef fun w hw => hfit.front hps (.unclosed hw)] at heq
  obtain ⟨c, cs, hcs, hb, ho⟩ := hps.exists_cons_append fun _ => by
    obtain ⟨c, cs, hcs, hb, ho, -⟩ := hdef.exists_cons
    exact ⟨c, cs, hcs, hb, ho⟩
  rw [hcs] at heq ⊢
  rw [lexLoop_word hb ho, heq]

/-- The outer loop gets through lexical elements to the last word of them, unless a word before it
does not fit. -/
theorem lexLoop_elements (front : Str) {t : Str} (hel : Elements front)
    (ht : t.head? ≠ some '>') : ∀ acc : List Token, ∃ pre raw v rest acc',
      front ++ t = pre ++ (raw ++ rest) ∧ Elements pre ∧ Pieces raw v ∧
      lexLoop acc (front ++ t) = lexLoop acc' (raw ++ rest) ∧
      (rest = t ∨ AtBreak rest ∧ bufferSize ≤ v.length) := by
  induction hn : front.length using Nat.strongRecOn generalizing front with
  | _ n ih =>
    intro acc
    -- the statement for a shorter front, which is reached by reading `skip`
    have step : ∀ (skip front' : Str) (acc₁ : List Token), front'.length < n → Elements front' →
        Elements skip → front = skip ++ front' →
        lexLoop acc (front ++ t) = lexLoop acc₁ (front' ++ t) →
        ∃ pre raw v rest acc', front ++ t = pre ++ (raw ++ rest) ∧ Elements pre ∧ Pieces raw v ∧
          lexLoop acc (front ++ t) = lexLoop acc' (raw ++ rest) ∧
          (rest = t ∨ AtBreak rest ∧ bufferSize ≤ v.length) := by
      rintro skip front' acc₁ hlen hel' hskip rfl heq
      obtain ⟨pre, raw, v, rest, acc', hsplit, hpre, hps, heq', hend⟩ :=
        ih _ hlen front' hel' rfl acc₁
      refine ⟨skip ++ pre, raw, v, rest, acc', ?_, hskip.append hpre, hps, heq.trans heq', hend⟩
      rw [List.append_assoc, hsplit, List.append_assoc]
    obtain ⟨raw, v, rest, rfl, hps, hrest, hbreak⟩ := hel.split
    simp only [List.length_append] at hn
    cases rest with
    | nil => exact ⟨[], raw, v, t, acc, by simp, .nil, hps, by simp, .inl rfl⟩
    | cons c cs =>
      have hc : isBlank c = true ∨ isOperator c = true := hbreak c rfl
      simp only [List.length_cons] at hn
      have hcs := hrest.tail hc
      by_cases hraw : raw = []
      · -- a separator: the outer loop goes on behind it
        subst hraw
        rw [List.length_nil] at hn
        rcases hc with hb | ho
        · exact step [c] cs acc (by omega) hcs (.single (.inl hb)) rfl (lexLoop_blank hb)
        · by_cases hgt : c = '>'
          · subst hgt
            by_cases hhead : (cs ++ t).head? = some '>'
            · cases cs with
              | nil => exact absurd hhead ht
              | cons d ds =>
                obtain rfl : d = '>' := by simpa using hhead
                exact step ['>', '>'] ds _ (by simp at hn; omega) (hcs.tail (.inr rfl))
                  (.separator (.inr rfl) (.single (.inr rfl))) rfl lexLoop_gtgt
            · exact step ['>'] cs _ (by omega) hcs (.single (.inr rfl)) rfl (lexLoop_gt hhead)
          · obtain ⟨type, htype⟩ := exists_operatorType ho hgt
            exact step [c] cs _ (by omega) hcs (.single (.inr ho)) rfl (lexLoop_operator htype)
      · -- a word: the inner loop stops at the separator
        have hbreak' : AtBreak (c :: cs ++ t) := by simpa [AtBreak] using hc
        by_cases hfit : v.length < bufferSize
        · have hpos := List.length_pos_iff.mpr hraw
          have heq : lexLoop acc (raw ++ c :: cs ++ t) =
              lexLoop (acc ++ [⟨.word, v⟩]) (c :: cs ++ t) := by
            rw [List.append_assoc]
            exact lexLoop_pieces hraw hps hbreak' hfit
          exact step raw (c :: cs) _ (by simp; omega) hrest hps.elements rfl heq
        · exact ⟨[], raw, v, c :: cs ++ t, acc, by simp, .nil, hps, by simp,
            .inr ⟨hbreak', Nat.le_of_not_lt hfit⟩⟩

theorem lexLoop_malformed {front back : Str} (hdef : Defect back) (hel : Elements front)
    {acc : List Token} (hfit : FitsBuffer (front ++ back)) :
    lexLoop acc (front ++ back) = .error .invalidSyntax := by
  have hhead : back.head? ≠ some '>' := by
    obtain ⟨c, cs, rfl, -, -, hgt⟩ := hdef.exists_cons
    simp [hgt]
  obtain ⟨pre, raw, v, rest, acc', hsplit, hpre, hps, heq, hend⟩ :=
    lexLoop_elements front hel hhead acc
  rw [hsplit] at hfit
  have hfit' : FitsBuffer (raw ++ rest) := hfit.suffix hpre
  rw [heq]
  rcases hend with rfl | ⟨hbreak, hlong⟩
  · exact lexLoop_pieces_defect hps hdef hfit'
  · have := hfit'.front hps (.atBreak hbreak)
    omega

/-! ## The specification of `lex_input` -/

/-- **Lexer correctness.** On a NUL-free line whose decoded words fit in the buffer, `lex_input`
returns the tokens of the token grammar, and it reports `invalid syntax` exactly when some quote is
unterminated or an unquoted backslash is last or directly before a newline. -/
theorem lexInput_correct (s : Str) (hnul : nul ∉ s) (hfit : WordsFit s) :
    (∀ ts, lexInput s = .ok ts ↔ Lexes s ts) ∧
      (lexInput s = .error .invalidSyntax ↔ Malformed s) ∧
      ((∃ ts, Lexes s ts) ∨ Malformed s) := by
  have complete : ∀ ts, Lexes s ts → lexInput s = .ok ts := fun ts h => by
    rw [lexInput, lexLoop_complete h hfit.fitsBuffer, List.nil_append]
  have malformed : Malformed s → lexInput s = .error .invalidSyntax := by
    rintro ⟨front, back, rfl, hel, hdef⟩
    exact lexLoop_malformed hdef hel hfit.fitsBuffer
  have total := lexes_or_malformed s hnul
  refine ⟨fun ts => ⟨fun h => ?_, complete ts⟩, ⟨fun h => ?_, malformed⟩, total⟩
  · rcases total with ⟨ts', hts'⟩ | hbad
    · have := (complete ts' hts').symm.trans h
      cases this
      exact hts'
    · rw [malformed hbad] at h
      cases h
  · rcases total with ⟨ts', hts'⟩ | hbad
    · rw [complete ts' hts'] at h
      cases h
    · exact hbad

/-- `a'b c'>>""` is the word `ab c`, the operator `>>` and an empty word. -/
theorem lexInput_correct_example :
    lexInput ['a', '\'', 'b', ' ', 'c', '\'', '>', '>', '"', '"'] =
      .ok [⟨.word, ['a', 'b', ' ', 'c']⟩, ⟨.opGtgt, ['>', '>']⟩, ⟨.word, []⟩] := by
  have hp : Pieces ['a', '\'', 'b', ' ', 'c', '\''] ['a', 'b', ' ', 'c'] :=
    .cons (.bare (by simp [IsBare, isBlank, isOperator]))
      (.cons (.squote (v := ['b', ' ', 'c']) (by decide)) .nil)
  have hq : Pieces ['"', '"'] [] := .cons (.dquote .nil) .nil
  refine ((lexInput_correct _ (by decide) (.of_length_le (by decide))).1 _).2 ?_
  refine .word (by decide) hp (noPiece_of_atBreak (by simp [AtBreak, isOperator])) (.gtgt ?_)
  exact .word (s := []) (by decide) hq (noPiece_of_atBreak (by simp [AtBreak])) .nil

end UnixCShell.Lexer
