import UnixCShell.Execute.Ranges

/-!
# From lines to commands

What `exec_cmd` launches for a line that `valid_syntax` accepts. The calls of `launch_group` are
those that the syntax tree stands for, as long as no array is full, and up to a lone command in the
foreground that is not found (`execCalls_eq_calls`). That the tree has no empty command does not
mean that every stage has a word to run: a command may consist of redirections only
(`stages_nonempty_iff`).
-/

namespace UnixCShell

open UnixCShell.Parser

/-! ## The calls of `launch_group` -/

/-- Note a call of `launch_group`. The environment says with `notFound` whether the command is
missing; `launch_group` reports it for a group of one command only. -/
def attempt (notFound : List Call → Call → Bool) (call : Call) (calls : List Call) :
    Except (List Call) (List Call × Bool) :=
  .ok (calls ++ [call], call.stages.length == 1 && notFound calls call)

/-- The calls of `launch_group` that `execute_pipeline` makes. -/
def launchCalls (notFound : List Call → Call → Bool) (tokens : List Token) : List Call :=
  let launch start endExcl background := attempt notFound ⟨background, rangeStages start endExcl⟩
  match executeRanges launch tokens [] with
  | .ok (calls, _) => calls
  | .error calls => calls

/-- The calls of `launch_group` that `exec_cmd` makes. -/
def execCalls (notFound : List Call → Call → Bool) (tokens : List Token) : List Call :=
  if startsBuiltin tokens then [] else launchCalls notFound tokens

/-- The call `k` is for a lone command in the foreground that is not found. -/
def Stops (notFound : List Call → Call → Bool) (calls : List Call) (k : Nat) : Prop :=
  ∃ call, calls[k]? = some call ∧ call.background = false ∧ call.stages.length = 1 ∧
    notFound (calls.take k) call = true

/-- The calls that have been noted are the first ones of the list. -/
theorem runCalls_attempt_take (notFound : List Call → Call → Bool) (pre rest : List Call) :
    ∃ n stop, runCalls (attempt notFound) rest pre = .ok (pre ++ rest.take n, stop) := by
  induction rest generalizing pre with
  | nil => exact ⟨0, false, by simp [runCalls]⟩
  | cons call rest ih =>
    simp only [runCalls, attempt]
    split
    · exact ⟨1, true, by simp⟩
    · obtain ⟨n, stop, h⟩ := ih (pre ++ [call])
      exact ⟨n + 1, stop, by simp [h]⟩

theorem stops_length_iff {notFound : List Call → Call → Bool} {pre rest : List Call} {call : Call} :
    Stops notFound (pre ++ call :: rest) pre.length ↔
      call.background = false ∧ (call.stages.length == 1 && notFound pre call) = true := by
  simp [Stops]

/-- All calls are made if none stops the loop. -/
theorem runCalls_attempt_all {notFound : List Call → Call → Bool} {pre rest : List Call}
    (h : ∀ k, pre.length ≤ k → ¬ Stops notFound (pre ++ rest) k) :
    runCalls (attempt notFound) rest pre = .ok (pre ++ rest, false) := by
  induction rest generalizing pre with
  | nil => simp [runCalls]
  | cons call rest ih =>
    have hcall := h pre.length le_rfl
    rw [stops_length_iff] at hcall
    simp only [runCalls, attempt]
    rw [if_neg hcall, ih]
    · simp
    · intro k hk
      rw [List.append_assoc]
      exact h k (by simp at hk; omega)

/-- The first call that stops the loop is the last one that is made. -/
theorem runCalls_attempt_first {notFound : List Call → Call → Bool} {pre rest : List Call} {k : Nat}
    (hk : pre.length ≤ k) (hstop : Stops notFound (pre ++ rest) k)
    (hfirst : ∀ j < k, ¬ Stops notFound (pre ++ rest) j) :
    runCalls (attempt notFound) rest pre = .ok ((pre ++ rest).take (k + 1), true) := by
  induction rest generalizing pre with
  | nil =>
    obtain ⟨call, hcall, -⟩ := hstop
    rw [List.getElem?_eq_none (by simpa using hk)] at hcall
    cases hcall
  | cons call rest ih =>
    simp only [runCalls, attempt]
    rcases hk.eq_or_lt with rfl | hlt
    · rw [stops_length_iff] at hstop
      rw [if_pos hstop]
      simp [List.take_length_add_append]
    · have hcall := hfirst pre.length hlt
      rw [stops_length_iff] at hcall
      have happend : pre ++ [call] ++ rest = pre ++ call :: rest := by simp
      rw [if_neg hcall, ih (by simpa using Nat.succ_le_of_lt hlt) (by rwa [happend])
        (by rwa [happend]),
        happend]

theorem launchCalls_tokens (notFound : List Call → Call → Bool) (l : Line)
    {calls : List Call} {stop : Bool}
    (h : runCalls (attempt notFound) (l.callsWith fun c => collectStage {} c.tokens) [] =
      .ok (calls, stop)) :
    launchCalls notFound l.tokens = calls := by
  obtain ⟨t, ts, htokens⟩ := List.exists_cons_of_ne_nil l.tokens_ne_nil
  rw [← executeFrom_tokens readsStages_rangeStages, htokens] at h
  rw [launchCalls, htokens]
  simp only [executeRanges, h]

/-! ## The stages of a command -/

theorem filterMap_cons_eq {α β : Type*} (f : α → Option β) (a : α) (as : List α) :
    (a :: as).filterMap f = (f a).toList ++ as.filterMap f := by
  cases h : f a <;> simp [h]

/-- The collection loop, as long as `args` does not get full. -/
theorem collectStage_items (items : List Item) (s : Stage)
    (h : s.args.length + (items.filterMap Item.arg?).length ≤ 126) :
    collectStage s (items.flatMap Item.tokens) =
      ⟨s.args ++ items.filterMap Item.arg?, s.inFiles ++ items.filterMap Item.input?,
        s.outFiles ++ items.filterMap Item.output?⟩ := by
  induction items generalizing s with
  | nil => simp [collectStage]
  | cons i items ih =>
    rw [filterMap_cons_eq, List.length_append] at h
    rw [List.flatMap_cons, collectStage_item, if_neg (by omega), ih]
    · simp only [Stage.add, filterMap_cons_eq, List.append_assoc]
    · rw [Stage.add, List.length_append]
      omega

/-- The arguments that the loop finds, full or not. -/
theorem collectStage_args (items : List Item) (s : Stage) (h : s.args.length ≤ 127) :
    (collectStage s (items.flatMap Item.tokens)).args =
      (s.args ++ items.filterMap Item.arg?).take 127 := by
  induction items generalizing s with
  | nil => simp [collectStage, List.take_of_length_le h]
  | cons i items ih =>
    rw [List.flatMap_cons, collectStage_item]
    by_cases hfull : 127 ≤ s.args.length
    · obtain hlength : s.args.length = 127 := by omega
      rw [if_pos hfull, List.take_append_of_le_length hfull, List.take_of_length_le h]
    · have hlength : (s.add i).args.length ≤ 127 := by
        cases i <;> simp [Stage.add, Item.arg?] <;> omega
      rw [if_neg hfull, ih _ hlength, filterMap_cons_eq, Stage.add, List.append_assoc]

/-! ## The tree and the calls -/

namespace Parser

/-- The line stays within the arrays of `launch_group` and of `outreg_validate`. -/
def Line.Fits (l : Line) : Prop :=
  ∀ call ∈ l.calls, call.stages.length ≤ 128 ∧
    ∀ stage ∈ call.stages,
      stage.args.length ≤ 126 ∧ stage.inFiles.length ≤ 128 ∧ stage.outFiles.length ≤ 16

theorem Line.callsWith_ne_nil (f : Command → Stage) (l : Line) : l.callsWith f ≠ [] := by
  induction l with
  | last c => simp [Line.callsWith]
  | amp c op hop => simp [Line.callsWith]
  | pipe c op hop rest ih =>
    obtain ⟨call, calls, h⟩ := List.exists_cons_of_ne_nil ih
    simp [Line.callsWith, h]
  | seq c op hop rest ih => simp [Line.callsWith]

/-- The stages of all groups are the commands of the line. -/
theorem Line.flatMap_callsWith (f : Command → Stage) (l : Line) :
    (l.callsWith f).flatMap Call.stages = l.commands.map f := by
  induction l with
  | last c => rfl
  | amp c op hop => rfl
  | pipe c op hop rest ih =>
    obtain ⟨call, calls, h⟩ := List.exists_cons_of_ne_nil (rest.callsWith_ne_nil f)
    rw [h] at ih
    rw [Line.callsWith, h, Line.commands, List.map_cons, ← ih]
    rfl
  | seq c op hop rest ih =>
    rw [Line.callsWith, Line.commands, List.map_cons, ← ih]
    rfl

theorem Line.callsWith_congr {f g : Command → Stage} {l : Line} (h : ∀ c ∈ l.commands, f c = g c) :
    l.callsWith f = l.callsWith g := by
  induction l with
  | last c => simp [Line.callsWith, h c (by simp [Line.commands])]
  | amp c op hop => simp [Line.callsWith, h c (by simp [Line.commands])]
  | pipe c op hop rest ih | seq c op hop rest ih =>
    rw [Line.callsWith, Line.callsWith, h c (by simp [Line.commands]),
      ih fun c' hc' => h c' (by simp [Line.commands, hc'])]

/-- If nothing is cut off, the loops find the calls of the tree. -/
theorem Line.Fits.callsWith {l : Line} (h : l.Fits) :
    (l.callsWith fun c => collectStage {} c.tokens) = l.calls := by
  apply Line.callsWith_congr
  intro c hc
  have hstage : c.stage ∈ l.calls.flatMap Call.stages := by
    rw [Line.calls, l.flatMap_callsWith]
    exact List.mem_map_of_mem hc
  obtain ⟨call, hcall, hmem⟩ := List.mem_flatMap.mp hstage
  obtain ⟨hargs, -, -⟩ := (h call hcall).2 _ hmem
  rw [Command.tokens, collectStage_items c.items {} (by simpa [Command.stage, stageOf] using hargs)]
  rfl

end Parser

/-- **Decomposition**: a line that `valid_syntax` accepts has one tree, every token being an
argument, a target or an operator of it; and if the line is not a builtin and fits, `launch_group`
is called for the groups of the tree, up to the first lone command in the foreground that is not
found. -/
theorem execCalls_eq_calls {tokens : List Token} (hvalid : validSyntax tokens = true)
    (hne : tokens ≠ []) (hbuiltin : startsBuiltin tokens = false) :
    (∃! l : Line, l.tokens = tokens) ∧
      ∀ l : Line, l.tokens = tokens → l.Fits → ∀ notFound : List Call → Call → Bool,
        ((∀ k, ¬ Stops notFound l.calls k) → execCalls notFound tokens = l.calls) ∧
        ∀ k, Stops notFound l.calls k → (∀ j < k, ¬ Stops notFound l.calls j) →
          execCalls notFound tokens = l.calls.take (k + 1) := by
  obtain ⟨l, hl⟩ := exists_line hvalid hne
  refine ⟨⟨l, hl, fun l' hl' => Line.tokens_injective (hl'.trans hl.symm)⟩, ?_⟩
  intro l hl hfits notFound
  rw [execCalls, hbuiltin, if_neg (by simp), ← hl]
  constructor
  · intro hnone
    apply launchCalls_tokens
    rw [hfits.callsWith]
    exact runCalls_attempt_all fun k _ => hnone k
  · intro k hk hfirst
    apply launchCalls_tokens
    rw [hfits.callsWith]
    exact runCalls_attempt_first (Nat.zero_le k) hk hfirst

/-- `cat < a x | wc >> f & ls`. -/
def countTree : Line :=
  .pipe ⟨[.arg (word "cat") rfl, .redirection ⟨.opLt, ['<']⟩ (word "a") rfl rfl,
      .arg (word "x") rfl], by simp⟩ pipe rfl
    (.seq ⟨[.arg (word "wc") rfl, .redirection ⟨.opGtgt, ['>', '>']⟩ (word "f") rfl rfl], by simp⟩
      ⟨.opAmp, ['&']⟩ (.inr rfl) (.last ⟨[.arg (word "ls") rfl], by simp⟩))

theorem execCalls_eq_calls_count :
    execCalls (fun _ _ => false) countTree.tokens =
      [⟨true, [⟨["cat".toList, "x".toList], ["a".toList], []⟩,
          ⟨["wc".toList], [], [("f".toList, true)]⟩]⟩,
       ⟨false, [⟨["ls".toList], [], []⟩]⟩] := by
  have hfits : countTree.Fits := by
    unfold Line.Fits
    decide +kernel
  exact ((execCalls_eq_calls (by decide +kernel) countTree.tokens_ne_nil (by decide +kernel)).2
    countTree rfl hfits _).1 (by simp [Stops])

/-! ## Commands without a word -/

/-- The tokens are redirection operators, each with its target. -/
def onlyRedirections : List Token → Bool
  | [] => true
  | [_] => false
  | op :: _ :: rest => isRedirection op.type && onlyRedirections rest

theorem onlyRedirections_iff (items : List Item) :
    onlyRedirections (items.flatMap Item.tokens) = true ↔ items.filterMap Item.arg? = [] := by
  induction items with
  | nil => simp [onlyRedirections]
  | cons i items ih =>
    cases i with
    | arg w hw =>
      have hword : isRedirection w.type = false := by simp [hw, isRedirection]
      rw [List.flatMap_cons, Item.tokens_arg]
      cases items.flatMap Item.tokens <;> simp [onlyRedirections, hword, Item.arg?]
    | redirection op target hop htarget =>
      simpa [onlyRedirections, hop, filterMap_cons_eq, Item.arg?] using ih

/-- The collection loop finds no argument in a command of redirections only. -/
theorem Parser.Command.collectStage_args_eq_nil (c : Command) :
    (collectStage {} c.tokens).args = [] ↔ onlyRedirections c.tokens = true := by
  rw [Command.tokens, onlyRedirections_iff, collectStage_args c.items {} (by simp)]
  simp

theorem launchCalls_subset (notFound : List Call → Call → Bool) (l : Line) :
    launchCalls notFound l.tokens ⊆ l.callsWith fun c => collectStage {} c.tokens := by
  obtain ⟨n, stop, h⟩ :=
    runCalls_attempt_take notFound [] (l.callsWith fun c => collectStage {} c.tokens)
  rw [launchCalls_tokens notFound l h, List.nil_append]
  exact List.take_subset _ _

theorem launchCalls_all (l : Line) :
    launchCalls (fun _ _ => false) l.tokens = l.callsWith fun c => collectStage {} c.tokens := by
  apply launchCalls_tokens
  exact runCalls_attempt_all fun k _ => by simp [Stops]

/-- **Commands that have a word**: in an accepted line, every stage has an argument, if and only if
no command is made of redirections only. -/
theorem stages_nonempty_iff {tokens : List Token} (hvalid : validSyntax tokens = true)
    (hne : tokens ≠ []) :
    (∀ notFound : List Call → Call → Bool, ∀ call ∈ launchCalls notFound tokens,
      ∀ stage ∈ call.stages, stage.args ≠ []) ↔
    ∀ seg ∈ segments tokens, seg ≠ [] → onlyRedirections seg = false := by
  obtain ⟨l, rfl⟩ := exists_line hvalid hne
  have hstages : ∀ stage : Stage,
      (∃ call ∈ l.callsWith fun c => collectStage {} c.tokens, stage ∈ call.stages) ↔
        ∃ c ∈ l.commands, collectStage {} c.tokens = stage := by
    intro stage
    rw [← List.mem_flatMap, l.flatMap_callsWith, List.mem_map]
  rw [l.segments_tokens]
  constructor
  · intro h seg hseg hne'
    rcases List.mem_append.mp hseg with hseg | hfinal
    · obtain ⟨c, hc, rfl⟩ := List.mem_map.mp hseg
      obtain ⟨call, hcall, hstage⟩ := (hstages _).mpr ⟨c, hc, rfl⟩
      have hargs := h (fun _ _ => false) call (by rwa [launchCalls_all]) _ hstage
      simpa [c.collectStage_args_eq_nil] using hargs
    · -- nothing stands behind a final ampersand
      exact absurd (l.eq_nil_of_mem_final hfinal) hne'
  · intro h notFound call hcall stage hstage
    obtain ⟨c, hc, rfl⟩ := (hstages stage).mp ⟨call, launchCalls_subset notFound l hcall, hstage⟩
    have hword := h c.tokens (List.mem_append_left _ (List.mem_map_of_mem hc)) c.tokens_ne_nil
    simpa [c.collectStage_args_eq_nil] using hword

theorem stages_nonempty_iff_ls : validSyntax [word "ls", pipe, word "wc"] = true ∧
    ∀ notFound : List Call → Call → Bool,
      ∀ call ∈ launchCalls notFound [word "ls", pipe, word "wc"],
      ∀ stage ∈ call.stages, stage.args ≠ [] := by
  have hvalid : validSyntax [word "ls", pipe, word "wc"] = true := by decide +kernel
  exact ⟨hvalid, (stages_nonempty_iff hvalid (by simp)).mpr (by decide +kernel)⟩

/-- `ls | > f` is accepted, and its second stage has no argument. -/
theorem stages_nonempty_fails :
    validSyntax [word "ls", pipe, ⟨.opGt, ['>']⟩, word "f"] = true ∧
      ∃ call ∈ launchCalls (fun _ _ => false) [word "ls", pipe, ⟨.opGt, ['>']⟩, word "f"],
        ∃ stage ∈ call.stages, stage.args = [] := by
  decide +kernel

end UnixCShell
