import UnixCShell.Parser.Basic

/-!
# Syntax trees

`parser.c` checks a line without building a tree for it; everything that later reads the line scans
the token list again. Here is the tree, for the right-linear grammar of the shell: a command, then
nothing, a final `&`, or a separator and a line. Being well formed is part of the type, and a tree
keeps its tokens, so that `Line.tokens` gives back the line. `exists_line` says that every line that
`valid_syntax` accepts has a tree.
-/

namespace UnixCShell.Parser

/-! ## Trees -/

/-- An argument, or a redirection operator with its target. -/
inductive Item where
  | arg (w : Token) (h : w.type = .word)
  | redirection (op target : Token) (hop : isRedirection op.type = true)
      (htarget : target.type = .word)

def Item.tokens : Item → List Token
  | .arg w _ => [w]
  | .redirection op target _ _ => [op, target]

/-- A command is a nonempty row of items. -/
structure Command where
  items    : List Item
  nonempty : items ≠ []

def Command.tokens (c : Command) : List Token := c.items.flatMap Item.tokens

/-- A line: its first command, and what follows. -/
inductive Line where
  | last (c : Command)
  | amp (c : Command) (op : Token) (h : op.type = .opAmp)
  | pipe (c : Command) (op : Token) (h : op.type = .opPipe) (rest : Line)
  | seq (c : Command) (op : Token) (h : op.type = .opSemi ∨ op.type = .opAmp) (rest : Line)

def Line.tokens : Line → List Token
  | .last c => c.tokens
  | .amp c op _ => c.tokens ++ [op]
  | .pipe c op _ rest => c.tokens ++ op :: rest.tokens
  | .seq c op _ rest => c.tokens ++ op :: rest.tokens

/-- The commands of a line, in order. -/
def Line.commands : Line → List Command
  | .last c => [c]
  | .amp c _ _ => [c]
  | .pipe c _ _ rest => c :: rest.commands
  | .seq c _ _ rest => c :: rest.commands

/-- The segment behind a final `&`, which is empty. -/
def Line.final : Line → List (List Token)
  | .last _ => []
  | .amp _ _ _ => [[]]
  | .pipe _ _ _ rest => rest.final
  | .seq _ _ _ rest => rest.final

/-! ## Tokens of a tree -/

@[simp] theorem Item.tokens_arg (w : Token) (h : w.type = .word) : (Item.arg w h).tokens = [w] :=
  rfl

@[simp] theorem Item.tokens_redirection (op target : Token) (hop : isRedirection op.type = true)
    (htarget : target.type = .word) :
    (Item.redirection op target hop htarget).tokens = [op, target] := rfl

theorem Item.not_separator (i : Item) : ∀ t ∈ i.tokens, isSeparator t.type = false := by
  cases i with
  | arg w h => simp [h, isSeparator]
  | redirection op target hop htarget =>
    have hop' : isSeparator op.type = false := by
      cases htype : op.type <;> simp_all [isRedirection, isSeparator]
    have htarget' : isSeparator target.type = false := by simp [htarget, isSeparator]
    simp [hop', htarget']

theorem Command.not_separator (c : Command) : ∀ t ∈ c.tokens, isSeparator t.type = false := by
  intro t ht
  obtain ⟨i, -, hi⟩ := List.mem_flatMap.mp ht
  exact i.not_separator t hi

theorem Command.tokens_ne_nil (c : Command) : c.tokens ≠ [] := by
  obtain ⟨i, is, h⟩ := List.exists_cons_of_ne_nil c.nonempty
  rw [Command.tokens, h]
  cases i <;> simp

theorem Line.tokens_ne_nil (l : Line) : l.tokens ≠ [] := by
  cases l <;> simp [Line.tokens, Command.tokens_ne_nil]

/-- Tokens that are not separators stay in the first segment. -/
theorem segments_append {ts : List Token} (h : ∀ t ∈ ts, isSeparator t.type = false)
    (rest : List Token) : segments (ts ++ rest) = (segments rest).modifyHead (ts ++ ·) := by
  induction ts with
  | nil =>
    rw [List.nil_append]
    cases segments rest <;> rfl
  | cons t ts ih =>
    rw [List.cons_append, segments_other (h t (by simp)), ih fun u hu => h u (by simp [hu])]
    cases segments rest <;> rfl

/-- A command in front of a separator is a segment. -/
theorem segments_command {c : Command} {op : Token} (hop : isSeparator op.type = true)
    (rest : List Token) : segments (c.tokens ++ op :: rest) = c.tokens :: segments rest := by
  rw [segments_append c.not_separator, segments_separator hop]
  simp

/-- The segments of a line are its commands. -/
theorem Line.segments_tokens (l : Line) :
    segments l.tokens = l.commands.map Command.tokens ++ l.final := by
  induction l with
  | last c =>
    have h := segments_append c.not_separator []
    rw [List.append_nil] at h
    rw [Line.tokens, h]
    simp [segments, Line.commands, Line.final]
  | amp c op hop =>
    rw [Line.tokens, segments_command (by simp [hop, isSeparator])]
    simp [segments, Line.commands, Line.final]
  | pipe c op hop rest ih =>
    rw [Line.tokens, segments_command (by simp [hop, isSeparator]), ih]
    rfl
  | seq c op hop rest ih =>
    rw [Line.tokens, segments_command
      (by rcases hop with hop | hop <;> simp [hop, isSeparator]), ih]
    rfl

theorem Line.eq_nil_of_mem_final (l : Line) {seg : List Token} (h : seg ∈ l.final) : seg = [] := by
  induction l with
  | last c => cases h
  | amp c op hop => simpa [Line.final] using h
  | pipe c op hop rest ih => exact ih h
  | seq c op hop rest ih => exact ih h

/-! ## Accepted lines have a tree -/

/-- What can stand behind the items of a command. -/
inductive Tail : List Token → Prop where
  | nil : Tail []
  | amp {op : Token} : op.type = .opAmp → Tail [op]
  | sep {op : Token} (l : Line) : isSeparator op.type = true → Tail (op :: l.tokens)

/-- A command with what stands behind it is a line. -/
theorem Tail.exists_line {tail : List Token} (h : Tail tail) (c : Command) :
    ∃ l : Line, l.tokens = c.tokens ++ tail := by
  cases h with
  | nil => exact ⟨.last c, by simp [Line.tokens]⟩
  | amp hop => exact ⟨.amp c _ hop, rfl⟩
  | @sep op l hop =>
    have hcases : op.type = .opPipe ∨ op.type = .opSemi ∨ op.type = .opAmp := by
      cases htype : op.type <;> simp_all [isSeparator]
    rcases hcases with hpipe | hseq
    · exact ⟨.pipe c op hpipe l, rfl⟩
    · exact ⟨.seq c op hseq l, rfl⟩

theorem Tail.head {tail : List Token} (h : Tail tail) :
    ∀ t, tail.head? = some t → isSeparator t.type = true := by
  intro t ht
  cases h with
  | nil => cases ht
  | amp hop =>
    cases ht
    simp [hop, isSeparator]
  | sep l hop =>
    cases ht
    exact hop

/-! What the checks of one round say about the rest of the line: -/

theorem validSyntaxLoop_tail {prev t : Token} {ts : List Token}
    (h : validSyntaxLoop (some prev) (t :: ts) = true) : validSyntaxLoop (some t) ts = true := by
  rw [validSyntaxLoop] at h
  grind

theorem validSyntaxLoop_target {prev t : Token} {ts : List Token}
    (h : validSyntaxLoop (some prev) (t :: ts) = true) (ht : isRedirection t.type = true) :
    ∃ w, ts.head? = some w ∧ w.type = .word := by
  cases ts with
  | nil => simp [validSyntaxLoop, ht] at h
  | cons w ws =>
    refine ⟨w, rfl, ?_⟩
    by_contra hw
    simp [validSyntaxLoop, ht, hw] at h

theorem validSyntaxLoop_separator {prev t : Token} {ts : List Token}
    (h : validSyntaxLoop (some prev) (t :: ts) = true) (ht : isSeparator t.type = true) :
    (ts = [] ∧ t.type = .opAmp) ∨ ∃ u, ts.head? = some u ∧ isSeparator u.type = false := by
  cases ts with
  | nil =>
    refine .inl ⟨rfl, ?_⟩
    cases htype : t.type <;> simp_all [isSeparator, validSyntaxLoop, isRedirection, noCommandNext]
  | cons u us =>
    refine .inr ⟨u, rfl, ?_⟩
    by_contra hu
    cases htype : t.type <;> simp_all [isSeparator, validSyntaxLoop, isRedirection, noCommandNext]

/-- Behind its first token, an accepted line goes on with items and a tail. -/
theorem exists_items {prev : Token} {ts : List Token} (h : validSyntaxLoop (some prev) ts = true) :
    ∃ (items : List Item) (tail : List Token), ts =
      items.flatMap Item.tokens ++ tail ∧ Tail tail := by
  induction ts generalizing prev with
  | nil => exact ⟨[], [], rfl, .nil⟩
  | cons t ts ih =>
    obtain ⟨items, tail, hts, htail⟩ := ih (validSyntaxLoop_tail h)
    by_cases hword : t.type = .word
    · exact ⟨.arg t hword :: items, tail, by simp [hts], htail⟩
    by_cases hredir : isRedirection t.type = true
    · -- the target has been read as the first of the items that follow
      obtain ⟨w, hhead, hw⟩ := validSyntaxLoop_target h hredir
      rw [hts] at hhead
      cases items with
      | nil =>
        have hsep := htail.head w (by simpa using hhead)
        simp [hw, isSeparator] at hsep
      | cons i items =>
        cases i with
        | arg w' hw' => exact ⟨.redirection t w' hredir hw' :: items, tail, by simp [hts], htail⟩
        | redirection op target hop htarget =>
          obtain rfl : op = w := by simpa using hhead
          simp [hw, isRedirection] at hop
    · have hsep : isSeparator t.type = true := by
        cases htype : t.type <;> simp_all [isSeparator, isRedirection]
      refine ⟨[], t :: ts, rfl, ?_⟩
      rcases validSyntaxLoop_separator h hsep with ⟨rfl, hamp⟩ | ⟨u, hhead, hu⟩
      · exact .amp hamp
      · cases items with
        | nil =>
          have hsep' := htail.head u (by simpa [hts] using hhead)
          simp [hu] at hsep'
        | cons i items =>
          obtain ⟨l, hl⟩ := htail.exists_line ⟨i :: items, by simp⟩
          have hl' : l.tokens = ts := hl.trans hts.symm
          rw [← hl']
          exact .sep l hsep

/-- An accepted line is empty or has a tree. -/
theorem exists_line {ts : List Token} (h : validSyntax ts = true) (hne : ts ≠ []) :
    ∃ l : Line, l.tokens = ts := by
  obtain ⟨t, ts, rfl⟩ := List.exists_cons_of_ne_nil hne
  have hword : t.type = .word := by
    by_contra hword
    simp [validSyntax, validSyntaxLoop, hword] at h
  have hloop : validSyntaxLoop (some t) ts = true := by
    simpa [validSyntax, validSyntaxLoop, hword, isRedirection] using h
  obtain ⟨items, tail, rfl, htail⟩ := exists_items hloop
  obtain ⟨l, hl⟩ := htail.exists_line ⟨.arg t hword :: items, by simp⟩
  exact ⟨l, hl⟩

/-! ## A line has one tree -/

theorem items_injective {items items' : List Item}
    (h : items.flatMap Item.tokens = items'.flatMap Item.tokens) : items = items' := by
  induction items generalizing items' with
  | nil =>
    cases items' with
    | nil => rfl
    | cons i' _ => cases i' <;> simp at h
  | cons i items ih =>
    cases items' with
    | nil => cases i <;> simp at h
    | cons i' items' =>
      -- the first token says which kind of item it is
      cases i with
      | arg w hw =>
        cases i' with
        | arg w' hw' =>
          obtain ⟨rfl, hrest⟩ := List.cons.inj h
          rw [ih hrest]
        | redirection op' target' hop' htarget' =>
          obtain ⟨rfl, -⟩ := List.cons.inj h
          simp [hw, isRedirection] at hop'
      | redirection op target hop htarget =>
        cases i' with
        | arg w' hw' =>
          obtain ⟨rfl, -⟩ := List.cons.inj h
          simp [hw', isRedirection] at hop
        | redirection op' target' hop' htarget' =>
          obtain ⟨rfl, htargets⟩ := List.cons.inj h
          obtain ⟨rfl, hrest⟩ := List.cons.inj htargets
          rw [ih hrest]

theorem Command.tokens_injective {c c' : Command} (h : c.tokens = c'.tokens) : c = c' := by
  cases c
  cases c'
  cases items_injective h
  rfl

/-- The first command of a line. -/
def Line.first : Line → Command
  | .last c => c
  | .amp c _ _ => c
  | .pipe c _ _ _ => c
  | .seq c _ _ _ => c

/-- What stands behind the first command. -/
def Line.tail : Line → List Token
  | .last _ => []
  | .amp _ op _ => [op]
  | .pipe _ op _ rest => op :: rest.tokens
  | .seq _ op _ rest => op :: rest.tokens

theorem Line.tokens_eq (l : Line) : l.tokens = l.first.tokens ++ l.tail := by
  cases l with
  | last c => exact (List.append_nil _).symm
  | amp c op h => rfl
  | pipe c op h rest => rfl
  | seq c op h rest => rfl

/-- The first command is read up to the first separator. -/
theorem Line.takeWhile_tokens (l : Line) :
    l.tokens.takeWhile (fun t => !isSeparator t.type) = l.first.tokens ∧
      l.tokens.dropWhile (fun t => !isSeparator t.type) = l.tail := by
  have hfirst : ∀ t ∈ l.first.tokens, (!isSeparator t.type) = true := by
    intro t ht
    simp [l.first.not_separator t ht]
  have htail : l.tail.takeWhile (fun t => !isSeparator t.type) = [] ∧
      l.tail.dropWhile (fun t => !isSeparator t.type) = l.tail := by
    cases l with
    | last c => simp [Line.tail]
    | amp c op h => simp [Line.tail, h, isSeparator]
    | pipe c op h rest => simp [Line.tail, h, isSeparator]
    | seq c op h rest => rcases h with h | h <;> simp [Line.tail, h, isSeparator]
  rw [l.tokens_eq, List.takeWhile_append_of_pos hfirst,
    List.dropWhile_append_of_pos hfirst, htail.1,
    htail.2, List.append_nil]
  exact ⟨rfl, rfl⟩

theorem Line.first_eq {l l' : Line} (h : l.tokens = l'.tokens) :
    l.first = l'.first ∧ l.tail = l'.tail := by
  constructor
  · apply Command.tokens_injective
    rw [← l.takeWhile_tokens.1, ← l'.takeWhile_tokens.1, h]
  · rw [← l.takeWhile_tokens.2, ← l'.takeWhile_tokens.2, h]

/-- The grammar is unambiguous. -/
theorem Line.tokens_injective {l l' : Line} (h : l.tokens = l'.tokens) : l = l' := by
  induction l generalizing l' with
  | last c =>
    obtain ⟨hfirst, htail⟩ := Line.first_eq h
    cases l' with
    | last c' => exact congrArg Line.last hfirst
    | amp | pipe | seq => cases htail
  | amp c op hop =>
    obtain ⟨hfirst, htail⟩ := Line.first_eq h
    cases l' with
    | last c' => cases htail
    | amp c' op' hop' =>
      obtain rfl : c = c' := hfirst
      obtain ⟨rfl, -⟩ := List.cons.inj htail
      rfl
    | pipe _ _ _ rest | seq _ _ _ rest =>
      exact absurd (List.cons.inj htail).2.symm rest.tokens_ne_nil
  | pipe c op hop rest ih =>
    obtain ⟨hfirst, htail⟩ := Line.first_eq h
    cases l' with
    | last c' => cases htail
    | amp c' op' hop' => exact absurd (List.cons.inj htail).2 rest.tokens_ne_nil
    | pipe c' op' hop' rest' =>
      obtain rfl : c = c' := hfirst
      obtain ⟨rfl, hrest⟩ := List.cons.inj htail
      rw [ih hrest]
    | seq c' op' hop' rest' =>
      obtain ⟨rfl, -⟩ := List.cons.inj htail
      simp [hop] at hop'
  | seq c op hop rest ih =>
    obtain ⟨hfirst, htail⟩ := Line.first_eq h
    cases l' with
    | last c' => cases htail
    | amp c' op' hop' => exact absurd (List.cons.inj htail).2 rest.tokens_ne_nil
    | pipe c' op' hop' rest' =>
      obtain ⟨rfl, -⟩ := List.cons.inj htail
      simp [hop'] at hop
    | seq c' op' hop' rest' =>
      obtain rfl : c = c' := hfirst
      obtain ⟨rfl, hrest⟩ := List.cons.inj htail
      rw [ih hrest]

end UnixCShell.Parser
