import UnixCShell.Execute.Bounds

/-!
# Redirections of builtins and of other commands

Redirections are taken out of a command in two places: `strip_redirections` (`execute.c`) splices
them out of the token list of a builtin, and the collection loop of `launch_group` (`pipeline.c`)
skips them while it fills `args`. On a command that `valid_syntax` accepts, both read the same
items; but the collection loop stops when `args` is full, so that redirections behind the argument
127 are lost. `stripRedirections_agree_iff` says when the two agree.
-/

namespace UnixCShell

open UnixCShell.Parser

/-! ## The two loops on items -/

/-- The token of an argument. -/
def Parser.Item.argToken? : Item → Option Token
  | .arg w _ => some w
  | .redirection .. => none

theorem stripLoop_word {w : Token} (hw : w.type = .word) (ts : List Token) :
    stripLoop (w :: ts) = (w :: (stripLoop ts).1, (stripLoop ts).2) := by
  cases ts with
  | nil => rfl
  | cons t ts => simp [stripLoop, hw, isRedirection]

theorem stripLoop_redirection {op target : Token} (hop : isRedirection op.type = true)
    (htarget : target.type = .word) (ts : List Token) :
    stripLoop (op :: target :: ts) =
      if op.type = .opLt then
        ((stripLoop ts).1, target.value :: (stripLoop ts).2.1, (stripLoop ts).2.2)
      else ((stripLoop ts).1, (stripLoop ts).2.1,
        (target.value, op.type = .opGtgt) :: (stripLoop ts).2.2) := by
  simp [stripLoop, hop, htarget]

/-- The loop of `strip_redirections` takes the redirections out of a row of items. -/
theorem stripLoop_items (items : List Item) :
    stripLoop (items.flatMap Item.tokens) =
      (items.filterMap Item.argToken?, items.filterMap Item.input?,
        items.filterMap Item.output?) := by
  induction items with
  | nil => rfl
  | cons i items ih =>
    simp only [filterMap_cons_eq, List.flatMap_cons]
    cases i with
    | arg w hw =>
      rw [Item.tokens_arg, List.singleton_append, stripLoop_word hw, ih]
      rfl
    | redirection op target hop htarget =>
      rw [Item.tokens_redirection, List.cons_append, List.singleton_append,
        stripLoop_redirection hop htarget, ih]
      by_cases hlt : op.type = .opLt
      · simp [hlt, Item.argToken?, Item.input?, Item.output?]
      · simp [hlt, Item.argToken?, Item.input?, Item.output?]

/-! ## What the collection loop reads -/

/-- The arguments of a row of items. -/
def Parser.argsOf (items : List Item) : List Str := items.filterMap Item.arg?

@[simp] theorem argsOf_nil : argsOf [] = [] := rfl

@[simp] theorem argsOf_arg (w : Token) (h : w.type = .word) (items : List Item) :
    argsOf (.arg w h :: items) = w.value :: argsOf items := rfl

@[simp] theorem argsOf_redirection (op target : Token) (hop : isRedirection op.type = true)
    (htarget : target.type = .word) (items : List Item) :
    argsOf (.redirection op target hop htarget :: items) = argsOf items := rfl

@[simp] theorem argsOf_append (items items' : List Item) :
    argsOf (items ++ items') = argsOf items ++ argsOf items' := List.filterMap_append

theorem readItems_prefix_items (n : Nat) (items : List Item) : readItems n items <+: items := by
  fun_induction readItems n items with
  | case1 => exact List.nil_prefix
  | case2 => exact List.nil_prefix
  | case3 n w h items ih => exact (List.prefix_cons_inj _).mpr ih
  | case4 n op target hop htarget items ih => exact (List.prefix_cons_inj _).mpr ih

/-- When `args` is full, nothing more is read. -/
theorem readItems_full {n : Nat} {pre : List Item} (h : n ≤ (argsOf pre).length)
    (post : List Item) : readItems n (pre ++ post) = readItems n pre := by
  fun_induction readItems n pre with
  | case1 => simp [readItems]
  | case2 n => simp at h
  | case3 n w hw items ih =>
    have h' : n ≤ (argsOf items).length := by simpa using h
    rw [List.cons_append, readItems, ih h']
  | case4 n op target hop htarget items ih =>
    have h' : n + 1 ≤ (argsOf items).length := by simpa using h
    rw [List.cons_append, readItems, ih h']

/-- As long as `args` is not full, the next item is read. -/
theorem readItems_room {n : Nat} {pre : List Item} (h : (argsOf pre).length < n) (i : Item) :
    readItems n (pre ++ [i]) = pre ++ [i] := by
  fun_induction readItems n pre with
  | case1 => simp at h
  | case2 n => cases i <;> cases n <;> simp [readItems]
  | case3 n w hw items ih =>
    have h' : (argsOf items).length < n := by simpa using h
    rw [List.cons_append, readItems, ih h']
  | case4 n op target hop htarget items ih =>
    have h' : (argsOf items).length < n + 1 := by simpa using h
    rw [List.cons_append, readItems, ih h']

/-- The last item is read exactly if `args` is not full before it. -/
theorem readItems_eq_self_iff {n : Nat} (pre : List Item) (i : Item) :
    readItems n (pre ++ [i]) = pre ++ [i] ↔ (argsOf pre).length < n := by
  constructor
  · intro h
    by_contra hfull
    rw [readItems_full (Nat.le_of_not_lt hfull)] at h
    have hlen := (readItems_prefix_items n pre).length_le
    rw [h, List.length_append, List.length_singleton] at hlen
    omega
  · intro h
    exact readItems_room h i

/-- Every item is an argument, an input file or a target. -/
theorem length_stageOf (items : List Item) :
    (stageOf items).args.length + (stageOf items).inFiles.length +
      (stageOf items).outFiles.length = items.length := by
  induction items with
  | nil => rfl
  | cons i items ih =>
    simp only [stageOf, filterMap_cons_eq, List.length_append, List.length_cons] at ih ⊢
    cases i with
    | arg => simp [Item.arg?, Item.input?, Item.output?]; omega
    | redirection op =>
      by_cases hlt : op.type = .opLt <;> simp [Item.arg?, Item.input?, Item.output?, hlt] <;> omega

theorem stageOf_readItems_iff {n : Nat} {items : List Item} :
    stageOf items = stageOf (readItems n items) ↔ readItems n items = items := by
  constructor
  · intro h
    have hlen := length_stageOf items
    rw [h, length_stageOf] at hlen
    exact (readItems_prefix_items n items).eq_of_length hlen
  · intro h
    rw [h]

/-! ## Both loops on an accepted command -/

/-- The number of argument words of a command: every redirection operator takes one word. -/
def argCount (tokens : List Token) : Nat :=
  tokens.countP (fun t => t.type = .word) - tokens.countP (fun t => isRedirection t.type)

/-- The last two tokens are a redirection. -/
def endsInRedirection (tokens : List Token) : Bool :=
  tokens.dropLast.getLast?.any fun t => isRedirection t.type

/-- `strip_redirections` leaves the words that the collection loop puts into `args`, and no
operator, and both find the same files and modes. -/
structure StripAgrees (tokens : List Token) : Prop where
  words    : ∀ t ∈ (stripRedirections tokens).1, t.type = .word
  args     : (stripRedirections tokens).1.map Token.value = (collectStage {} tokens).args
  inFiles  : (stripRedirections tokens).2.1 = (collectStage {} tokens).inFiles
  outFiles : (stripRedirections tokens).2.2 = (collectStage {} tokens).outFiles

theorem countP_items (items : List Item) :
    (items.flatMap Item.tokens).countP (fun t => t.type = .word) = items.length ∧
      (items.flatMap Item.tokens).countP (fun t => isRedirection t.type) + (argsOf items).length =
        items.length := by
  have hword : isRedirection .word = false := rfl
  induction items with
  | nil => simp
  | cons i items ih =>
    obtain ⟨hwords, hredirs⟩ := ih
    rw [List.flatMap_cons, List.countP_append, List.countP_append, hwords]
    cases i with
    | arg w hw =>
      simp [hw, hword]
      omega
    | redirection op target hop htarget =>
      have hop' : op.type ≠ .word := by
        intro h
        simp [h, isRedirection] at hop
      simp [hop, hop', htarget, hword]
      omega

theorem argCount_items (items : List Item) :
    argCount (items.flatMap Item.tokens) = (argsOf items).length := by
  obtain ⟨hwords, hredirs⟩ := countP_items items
  rw [argCount, hwords]
  omega

/-- The last token of a row of items is a word. -/
theorem getLast_items {items : List Item} {t : Token}
    (h : (items.flatMap Item.tokens).getLast? = some t) : t.type = .word := by
  rcases items.eq_nil_or_concat with rfl | ⟨pre, i, rfl⟩
  · simp at h
  · cases i with
    | arg w hw => simp at h; rw [← h, hw]
    | redirection op target hop htarget => simp at h; rw [← h, htarget]

theorem argToken_items (items : List Item) :
    (∀ t ∈ items.filterMap Item.argToken?, t.type = .word) ∧
      (items.filterMap Item.argToken?).map Token.value = argsOf items := by
  induction items with
  | nil => simp
  | cons i items ih =>
    rw [filterMap_cons_eq]
    cases i with
    | arg w hw => simpa [Item.argToken?, hw] using ih
    | redirection op target hop htarget => simpa [Item.argToken?] using ih

theorem stripAgrees_iff_stage {w : Token} {hw : w.type = .word} {items : List Item} :
    StripAgrees ((Item.arg w hw :: items).flatMap Item.tokens) ↔
      stageOf (.arg w hw :: items) = stageOf (readItems 127 (.arg w hw :: items)) := by
  obtain ⟨hwords, hvalues⟩ := argToken_items (.arg w hw :: items)
  -- the first token is a word, so that it need not be exempted
  have hstrip : stripRedirections ((Item.arg w hw :: items).flatMap Item.tokens) =
      ((Item.arg w hw :: items).filterMap Item.argToken?,
        (Item.arg w hw :: items).filterMap Item.input?,
        (Item.arg w hw :: items).filterMap Item.output?) := by
    rw [← stripLoop_items, List.flatMap_cons, Item.tokens_arg, List.singleton_append,
      stripLoop_word hw]
    rfl
  have hcollect := Command.collectStage_tokens ⟨.arg w hw :: items, by simp⟩
  rw [Command.tokens, Command.readStage] at hcollect
  constructor
  · rintro ⟨-, hargs, hins, houts⟩
    rw [hstrip, hcollect] at hargs hins houts
    rw [stageOf, Stage.mk.injEq]
    exact ⟨hvalues.symm.trans hargs, hins, houts⟩
  · intro h
    rw [← h] at hcollect
    refine ⟨?_, ?_, ?_, ?_⟩
    · rw [hstrip]
      exact hwords
    · rw [hstrip, hcollect]
      exact hvalues
    · rw [hstrip, hcollect]
      rfl
    · rw [hstrip, hcollect]
      rfl

/-- An accepted line without separators is a command that begins with a word. -/
theorem exists_items_of_valid {t : Token} {ts : List Token} (hvalid : validSyntax (t :: ts) = true)
    (hone : ∀ u ∈ t :: ts, isSeparator u.type = false) :
    ∃ (hw : t.type = .word) (items : List Item),
      t :: ts = (Item.arg t hw :: items).flatMap Item.tokens := by
  have hword : t.type = .word := by
    by_contra hword
    simp [validSyntax, validSyntaxLoop, hword] at hvalid
  have hloop : validSyntaxLoop (some t) ts = true := by
    simpa [validSyntax, validSyntaxLoop, hword, isRedirection] using hvalid
  obtain ⟨items, tail, rfl, htail⟩ := exists_items hloop
  cases tail with
  | nil => exact ⟨hword, items, by simp⟩
  | cons u us =>
    have hsep := htail.head u rfl
    rw [hone u (by simp)] at hsep
    cases hsep

/-- **Builtin and external redirections.** On a command that `valid_syntax` accepts the two loops
agree exactly if it has fewer than 127 argument words, or 127 of them and no redirection behind the
last one. -/
theorem stripRedirections_agree_iff {tokens : List Token} (hvalid : validSyntax tokens = true)
    (hone : ∀ t ∈ tokens, isSeparator t.type = false) :
    StripAgrees tokens ↔
      argCount tokens < 127 ∨ argCount tokens = 127 ∧ endsInRedirection tokens = false := by
  cases tokens with
  | nil =>
    refine iff_of_true ⟨by simp [stripRedirections], rfl, rfl, rfl⟩ (.inl (by decide))
  | cons t ts =>
    obtain ⟨hw, items, heq⟩ := exists_items_of_valid hvalid hone
    rw [heq, stripAgrees_iff_stage, stageOf_readItems_iff]
    obtain ⟨pre, i, hitems⟩ :=
      (List.eq_nil_or_concat (Item.arg t hw :: items)).resolve_left (by simp)
    rw [hitems, List.concat_eq_append, readItems_eq_self_iff, argCount_items, argsOf_append,
      List.length_append, List.flatMap_append, List.flatMap_singleton]
    cases i with
    | arg w hw' =>
      -- the command ends in an argument, and what stands before it does not end in an operator
      have hends : endsInRedirection (pre.flatMap Item.tokens ++ [w]) = false := by
        rw [endsInRedirection, List.dropLast_concat]
        cases hlast : (pre.flatMap Item.tokens).getLast? with
        | none => rfl
        | some u => simp [getLast_items hlast, isRedirection]
      rw [Item.tokens_arg, hends, argsOf_arg]
      simp
      omega
    | redirection op target hop htarget =>
      have hends : endsInRedirection (pre.flatMap Item.tokens ++ [op, target]) = true := by
        simp [endsInRedirection, hop]
      rw [Item.tokens_redirection, hends, argsOf_redirection]
      simp

/-- `cat < a x`: the builtin loop and the other one agree. -/
theorem stripRedirections_agree_cat :
    StripAgrees [word "cat", redirectIn, word "a", word "x"] :=
  (stripRedirections_agree_iff (by decide) (by decide)).mpr (.inl (by decide))

/-- `a … a > out` with 127 words: the collection loop does not get to the redirection. -/
theorem stripRedirections_disagree :
    let tokens := List.replicate 127 (word "a") ++ [redirectOut, word "out"]
    validSyntax tokens = true ∧ (∀ t ∈ tokens, isSeparator t.type = false) ∧
      (stripRedirections tokens).2.2 = [("out".toList, false)] ∧
      (collectStage {} tokens).outFiles = [] ∧ (collectStage {} tokens).args.length = 127 := by
  decide +kernel

end UnixCShell
