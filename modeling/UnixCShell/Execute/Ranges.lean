import UnixCShell.Execute.Basic
import UnixCShell.Parser.Syntax

/-!
# Ranges of tokens

`execute_pipeline` and `launch_group` share one linked list of tokens; a group is the range from
`start` up to `end_excl`, and three loops run over it. Here they are with their pointers. A pointer
is the list of the tokens from there on, `NULL` is the empty list; pointers into one line are equal
if and only if the lists are.

For a line that `valid_syntax` accepts, the loops find what its syntax tree says
(`executeFrom_tokens`): no pointer runs past the end of its range. So the lists of tokens in
`Pipeline.Basic` stand for the ranges (`rangeStages_eq_stages`).
-/

namespace UnixCShell

open UnixCShell.Parser

/-! ## The loops -/

/-- The loop that fills `cmd_starts` from its second entry on. -/
def pipeStarts (endExcl : List Token) : List Token → List (List Token)
  | [] => []
  | p :: next =>
    if p :: next = endExcl then []
    else if p.type = .opPipe then next :: pipeStarts endExcl next
    else pipeStarts endExcl next

/-- The collection loop from the pointer `curr` on. -/
def collectRange (endExcl : List Token) (s : Stage) : List Token → Stage
  | [] => s
  | curr :: next =>
    if curr :: next = endExcl ∨ curr.type = .opPipe ∨ 127 ≤ s.args.length then s
    else match curr.type, next with
      | .opLt, file :: next =>
        collectRange endExcl { s with inFiles := s.inFiles ++ [file.value] } next
      | .opGt, file :: next =>
        collectRange endExcl { s with outFiles := s.outFiles ++ [(file.value, false)] } next
      | .opGtgt, file :: next =>
        collectRange endExcl { s with outFiles := s.outFiles ++ [(file.value, true)] } next
      | _, next => collectRange endExcl { s with args := s.args ++ [curr.value] } next

/-- The stages that `launch_group` finds in a range. -/
def rangeStages (start endExcl : List Token) : List Stage :=
  (start :: pipeStarts endExcl start).map (collectRange endExcl {})

section Loop

variable {σ : Type*} (launch : List Token → List Token → Bool → σ → Except σ (σ × Bool))

/-- The loops of `execute_pipeline`, at `group_start` and `p`; the arguments of `launch` are those
of `launch_group`. -/
def executeFrom (groupStart : List Token) : List Token → σ → Except σ (σ × Bool)
  | [], s => launch groupStart [] false s
  | p :: next, s =>
    if p.type = .opSemi ∨ p.type = .opAmp then
      match launch groupStart (p :: next) (p.type = .opAmp) s with
      | .error s => .error s
      | .ok (s, loneNotFound) =>
        if p.type ≠ .opAmp ∧ loneNotFound then .ok (s, true)
        else if next = [] then .ok (s, false)
        else executeFrom next next s
    else executeFrom groupStart next s

/-- `execute_pipeline`. -/
def executeRanges (tokens : List Token) (s : σ) : Except σ (σ × Bool) :=
  match tokens with
  | [] => .ok (s, false)
  | _ => executeFrom launch tokens tokens s

end Loop

/-! ## What a line means -/

/-- A call of `launch_group`. -/
structure Call where
  background : Bool
  stages     : List Stage
  deriving DecidableEq, Repr

namespace Parser

/-- The word, if it is an argument. -/
def Item.arg? : Item → Option Str
  | .arg w _ => some w.value
  | .redirection .. => none

/-- The target of `<`. -/
def Item.input? : Item → Option Str
  | .arg .. => none
  | .redirection op target _ _ => if op.type = .opLt then some target.value else none

/-- The target of `>` or `>>`, and whether it is appended to. -/
def Item.output? : Item → Option (Str × Bool)
  | .arg .. => none
  | .redirection op target _ _ =>
    if op.type = .opLt then none else some (target.value, op.type = .opGtgt)

/-- The stage that a row of items stands for. -/
def stageOf (items : List Item) : Stage :=
  ⟨items.filterMap Item.arg?, items.filterMap Item.input?, items.filterMap Item.output?⟩

def Command.stage (c : Command) : Stage := stageOf c.items

/-- The groups of a line, where `f` gives the stage of a command. -/
def Line.callsWith (f : Command → Stage) : Line → List Call
  | .last c => [⟨false, [f c]⟩]
  | .amp c _ _ => [⟨true, [f c]⟩]
  | .pipe c _ _ rest =>
    (rest.callsWith f).modifyHead fun call => { call with stages := f c :: call.stages }
  | .seq c op _ rest => ⟨op.type = .opAmp, [f c]⟩ :: rest.callsWith f

/-- The calls of `launch_group` that a line stands for. -/
def Line.calls (l : Line) : List Call := l.callsWith Command.stage

end Parser

/-- Launch one group after the other, unless a lone command in the foreground is not found. -/
def runCalls {σ : Type*} (launch : Call → σ → Except σ (σ × Bool)) :
    List Call → σ → Except σ (σ × Bool)
  | [], s => .ok (s, false)
  | call :: calls, s =>
    match launch call s with
    | .error s => .error s
    | .ok (s, loneNotFound) =>
      if call.background = false ∧ loneNotFound then .ok (s, true) else runCalls launch calls s

/-! ## The loops over a command -/

/-- Behind a command there is the end of its range or a pipe. -/
def RangeEnds (endExcl tail : List Token) : Prop :=
  tail = endExcl ∨ ∃ op, tail.head? = some op ∧ op.type = .opPipe

theorem collectRange_end {endExcl tail : List Token} (h : RangeEnds endExcl tail) (s : Stage) :
    collectRange endExcl s tail = s := by
  cases tail with
  | nil => rfl
  | cons t ts =>
    unfold collectRange
    rw [if_pos]
    rcases h with h | ⟨op, hop, hpipe⟩
    · exact .inl h
    · cases hop
      exact .inr (.inl hpipe)

theorem ne_of_length_le {endExcl tail : List Token} (h : endExcl.length ≤ tail.length) (t : Token)
    (ts : List Token) : t :: (ts ++ tail) ≠ endExcl := by
  intro heq
  have := congrArg List.length heq
  simp at this
  omega

/-- What one round of a collection loop does. -/
def Stage.add (s : Stage) (i : Item) : Stage :=
  ⟨s.args ++ i.arg?.toList, s.inFiles ++ i.input?.toList, s.outFiles ++ i.output?.toList⟩

theorem collectStage_item (s : Stage) (i : Item) (ts : List Token) :
    collectStage s (i.tokens ++ ts) =
      if 127 ≤ s.args.length then s else collectStage (s.add i) ts := by
  cases i with
  | arg w hw => simp [collectStage, hw, Stage.add, Item.arg?, Item.input?, Item.output?]
  | redirection op target hop htarget =>
    obtain htype | htype | htype : op.type = .opLt ∨ op.type = .opGt ∨ op.type = .opGtgt := by
      simpa [isRedirection, or_assoc] using hop
    all_goals simp [collectStage, htype, Stage.add, Item.arg?, Item.input?, Item.output?]

theorem collectRange_item {endExcl ts : List Token} (hlen : endExcl.length ≤ ts.length) (s : Stage)
    (i : Item) :
    collectRange endExcl s (i.tokens ++ ts) =
      if 127 ≤ s.args.length then s else collectRange endExcl (s.add i) ts := by
  cases i with
  | arg w hw =>
    have hne := ne_of_length_le hlen w []
    simp_all [collectRange, Stage.add, Item.arg?, Item.input?, Item.output?]
  | redirection op target hop htarget =>
    have hne := ne_of_length_le hlen op [target]
    obtain htype | htype | htype : op.type = .opLt ∨ op.type = .opGt ∨ op.type = .opGtgt := by
      simpa [isRedirection, or_assoc] using hop
    all_goals simp_all [collectRange, Stage.add, Item.arg?, Item.input?, Item.output?]

/-- The two collection loops find the same in a row of items, whatever stands behind it. -/
theorem collectRange_items {endExcl tail : List Token} (hend : RangeEnds endExcl tail)
    (hlen : endExcl.length ≤ tail.length) (items : List Item) (s : Stage) :
    collectRange endExcl s (items.flatMap Item.tokens ++ tail) =
      collectStage s (items.flatMap Item.tokens) := by
  induction items generalizing s with
  | nil => exact collectRange_end hend s
  | cons i items ih =>
    have hlen' : endExcl.length ≤ (items.flatMap Item.tokens ++ tail).length := by
      rw [List.length_append]
      omega
    rw [List.flatMap_cons, List.append_assoc, collectRange_item hlen', collectStage_item, ih]

theorem pipeStarts_append {endExcl ts tail : List Token}
    (hts : ∀ t ∈ ts, isSeparator t.type = false) (hlen : endExcl.length ≤ tail.length) :
    pipeStarts endExcl (ts ++ tail) = pipeStarts endExcl tail := by
  induction ts with
  | nil => rfl
  | cons t ts ih =>
    have hpipe : t.type ≠ .opPipe := by
      intro htype
      simpa [htype, isSeparator] using hts t (by simp)
    rw [List.cons_append, pipeStarts, if_neg (ne_of_length_le hlen t ts), if_neg hpipe,
      ih fun u hu => hts u (by simp [hu])]

theorem pipeStarts_end (endExcl : List Token) : pipeStarts endExcl endExcl = [] := by
  cases endExcl <;> simp [pipeStarts]

/-- The last command of a range. -/
theorem rangeStages_last (c : Command) (endExcl : List Token) :
    rangeStages (c.tokens ++ endExcl) endExcl = [collectStage {} c.tokens] := by
  rw [rangeStages, pipeStarts_append c.not_separator le_rfl, pipeStarts_end, List.map_singleton,
    Command.tokens, collectRange_items (.inl rfl) le_rfl]

/-- A command in front of a pipe. -/
theorem rangeStages_pipe (c : Command) {op : Token} (hop : op.type = .opPipe)
    {rest endExcl : List Token} (hlen : endExcl.length ≤ rest.length) :
    rangeStages (c.tokens ++ op :: rest) endExcl =
      collectStage {} c.tokens :: rangeStages rest endExcl := by
  have hlen' : endExcl.length ≤ (op :: rest).length := by simp; omega
  have hne : op :: ([] ++ rest) ≠ endExcl := ne_of_length_le hlen op []
  rw [rangeStages, pipeStarts_append c.not_separator hlen', pipeStarts,
    if_neg (by simpa using hne), if_pos hop,
    List.map_cons, Command.tokens, collectRange_items (.inr ⟨op, rfl, hop⟩) hlen']
  rfl

theorem executeFrom_append {σ : Type*}
    (launch : List Token → List Token → Bool → σ → Except σ (σ × Bool)) (groupStart : List Token)
    {ts : List Token} (hts : ∀ t ∈ ts, isSeparator t.type = false) (tail : List Token) (s : σ) :
    executeFrom launch groupStart (ts ++ tail) s = executeFrom launch groupStart tail s := by
  induction ts with
  | nil => rfl
  | cons t ts ih =>
    have hsep : ¬ (t.type = .opSemi ∨ t.type = .opAmp) := by
      rintro (htype | htype) <;> simpa [htype, isSeparator] using hts t (by simp)
    rw [List.cons_append, executeFrom, if_neg hsep, ih fun u hu => hts u (by simp [hu])]

/-! ## The loops over a line -/

/-- The stages of a line that ends at `endExcl`, as some way of reading ranges finds them: a command
is read by itself, and a pipe separates two commands. -/
structure ReadsStages (read : List Token → List Token → List Stage) : Prop where
  last : ∀ (c : Command) (endExcl : List Token),
    read (c.tokens ++ endExcl) endExcl = [collectStage {} c.tokens]
  pipe : ∀ (c : Command) {op : Token}, op.type = .opPipe → ∀ {rest endExcl : List Token},
    endExcl.length ≤ rest.length →
      read (c.tokens ++ op :: rest) endExcl = collectStage {} c.tokens :: read rest endExcl

/-- `execute_pipeline` finds the groups of the tree. Of the group that begins at `groupStart` the
stages `pre` have been passed when the loop for the separator gets to the line `l`. -/
theorem executeFrom_line {σ : Type*} {read : List Token → List Token → List Stage}
    (hread : ReadsStages read) (launch : Call → σ → Except σ (σ × Bool)) (l : Line)
    (groupStart : List Token) (pre : List Stage)
    (hstart : ∀ endExcl : List Token, endExcl.length ≤ l.tokens.length →
      read groupStart endExcl = pre ++ read l.tokens endExcl) (s : σ) :
    executeFrom (fun start endExcl background => launch ⟨background, read start endExcl⟩)
        groupStart l.tokens s =
      runCalls launch ((l.callsWith fun c => collectStage {} c.tokens).modifyHead fun call =>
        { call with stages := pre ++ call.stages }) s := by
  induction l generalizing groupStart pre s with
  | last c =>
    have hstages : read groupStart [] = pre ++ [collectStage {} c.tokens] := by
      rw [hstart [] (by simp), Line.tokens, ← List.append_nil c.tokens, hread.last, List.append_nil]
    rw [Line.tokens, ← List.append_nil c.tokens, executeFrom_append _ _ c.not_separator]
    simp only [executeFrom, hstages, Line.callsWith, List.modifyHead_cons, runCalls]
    rcases launch _ s with s' | ⟨s', loneNotFound⟩
    · rfl
    · cases loneNotFound <;> rfl
  | amp c op hop =>
    have hstages : read groupStart [op] = pre ++ [collectStage {} c.tokens] := by
      rw [hstart [op] (by simp [Line.tokens]), Line.tokens, hread.last]
    have hamp : decide (op.type = .opAmp) = true := by simp [hop]
    rw [Line.tokens, executeFrom_append _ _ c.not_separator, executeFrom, if_pos (.inr hop)]
    simp only [hstages, hamp, Line.callsWith, List.modifyHead_cons, runCalls]
    rcases launch _ s with s' | ⟨s', loneNotFound⟩
    · rfl
    · simp [hop]
  | pipe c op hop rest ih =>
    have hsep : ¬ (op.type = .opSemi ∨ op.type = .opAmp) := by simp [hop]
    rw [Line.tokens, executeFrom_append _ _ c.not_separator, executeFrom, if_neg hsep,
      ih groupStart (pre ++ [collectStage {} c.tokens])]
    · rw [Line.callsWith]
      cases rest.callsWith _ <;> simp
    · intro endExcl hlen
      rw [hstart endExcl (by simp [Line.tokens]; omega), Line.tokens, hread.pipe c hop hlen]
      simp
  | seq c op hop rest ih =>
    have hstages : read groupStart (op :: rest.tokens) = pre ++ [collectStage {} c.tokens] := by
      rw [hstart _ (by simp [Line.tokens]), Line.tokens, hread.last]
    rw [Line.tokens, executeFrom_append _ _ c.not_separator, executeFrom, if_pos hop]
    simp only [hstages, Line.callsWith, List.modifyHead_cons, runCalls]
    rcases launch _ s with s' | ⟨s', loneNotFound⟩
    · rfl
    · -- the next group begins behind the separator
      have hnext := ih rest.tokens [] (fun _ _ => rfl) s'
      have hhead : ((rest.callsWith fun c => collectStage {} c.tokens).modifyHead fun call =>
          { call with stages := [] ++ call.stages }) =
          rest.callsWith fun c => collectStage {} c.tokens := by
        cases rest.callsWith _ <;> rfl
      rw [hhead] at hnext
      simp [rest.tokens_ne_nil, hnext]

theorem executeFrom_tokens {σ : Type*} {read : List Token → List Token → List Stage}
    (hread : ReadsStages read) (launch : Call → σ → Except σ (σ × Bool)) (l : Line) (s : σ) :
    executeFrom (fun start endExcl background => launch ⟨background, read start endExcl⟩)
        l.tokens l.tokens s =
      runCalls launch (l.callsWith fun c => collectStage {} c.tokens) s := by
  rw [executeFrom_line hread launch l l.tokens [] fun _ _ => rfl]
  cases l.callsWith _ <;> rfl

theorem readsStages_rangeStages : ReadsStages rangeStages where
  last := rangeStages_last
  pipe c _ hop _ _ hlen := rangeStages_pipe c hop hlen

/-! ## Ranges as lists -/

/-- The tokens of a range. -/
def range (start endExcl : List Token) : List Token := start.take (start.length - endExcl.length)

theorem range_append (ts : List Token) {rest endExcl : List Token}
    (hlen : endExcl.length ≤ rest.length) :
    range (ts ++ rest) endExcl = ts ++ range rest endExcl := by
  have hlength : (ts ++ rest).length - endExcl.length =
      ts.length + (rest.length - endExcl.length) := by
    rw [List.length_append]
    omega
  rw [range, hlength, List.take_length_add_append]
  rfl

theorem range_self (endExcl : List Token) : range endExcl endExcl = [] := by simp [range]

theorem cmdStarts_append {ts : List Token} (hts : ∀ t ∈ ts, isSeparator t.type = false)
    (rest : List Token) : (cmdStarts (ts ++ rest)).tail = (cmdStarts rest).tail := by
  induction ts with
  | nil => rfl
  | cons t ts ih =>
    have hpipe : t.type ≠ .opPipe := by
      intro htype
      simpa [htype, isSeparator] using hts t (by simp)
    have htail := ih fun u hu => hts u (by simp [hu])
    simpa [cmdStarts, List.tails, hpipe] using htail

theorem collectStage_pipe (items : List Item) {op : Token} (hop : op.type = .opPipe)
    (rest : List Token) (s : Stage) : collectStage s (items.flatMap Item.tokens ++ op :: rest) =
      collectStage s (items.flatMap Item.tokens) := by
  induction items generalizing s with
  | nil => simp [collectStage, hop]
  | cons i items ih =>
    rw [List.flatMap_cons, List.append_assoc, collectStage_item, collectStage_item, ih]

/-- `stages` reads the list of tokens of a range as `launch_group` reads the range. -/
theorem readsStages_stages : ReadsStages fun start endExcl => stages (range start endExcl) where
  last c endExcl := by
    have htail := cmdStarts_append c.not_separator []
    show stages (range (c.tokens ++ endExcl) endExcl) = _
    rw [range_append c.tokens le_rfl, range_self]
    simpa [stages, cmdStarts] using htail
  pipe c op hop rest endExcl hlen := by
    have hrange : range (c.tokens ++ op :: rest) endExcl =
        c.tokens ++ op :: range rest endExcl := by
      rw [List.append_cons, range_append _ hlen, ← List.append_cons]
    have htail : (cmdStarts (c.tokens ++ op :: range rest endExcl)).tail =
        cmdStarts (range rest endExcl) := by
      rw [cmdStarts_append c.not_separator]
      simp [cmdStarts, List.tails, hop]
    show stages (range (c.tokens ++ op :: rest) endExcl) = _ :: stages (range rest endExcl)
    rw [hrange, stages, stages, ← htail, Command.tokens]
    show collectStage {} _ :: _ = _
    rw [collectStage_pipe c.items hop]
    rfl

/-- The loop over pointers and the loop that gathers the tokens of a group are the same. -/
theorem executeGroups_eq_executeFrom {σ : Type*}
    (launch : List Token → Bool → σ → Except σ (σ × Bool)) (group p : List Token) (s : σ) :
    executeGroups launch group p s =
      executeFrom (fun start endExcl => launch (range start endExcl)) (group ++ p) p s := by
  induction p generalizing group s with
  | nil => simp [executeGroups, executeFrom, range]
  | cons t ts ih =>
    have hrange : range (group ++ t :: ts) (t :: ts) = group := by
      rw [range_append group le_rfl, range_self, List.append_nil]
    rw [executeGroups, executeFrom, hrange]
    simp only [ih]
    rw [List.append_assoc]
    rfl

/-- `execute_pipeline` on lists of tokens, for a line with a tree. -/
theorem executePipeline_tokens {σ : Type*} (launch : Call → σ → Except σ (σ × Bool))
    (l : Line) (s : σ) :
    executePipeline (fun group background => launch ⟨background, stages group⟩) l.tokens s =
      runCalls launch (l.callsWith fun c => collectStage {} c.tokens) s := by
  obtain ⟨t, ts, htokens⟩ := List.exists_cons_of_ne_nil l.tokens_ne_nil
  rw [← executeFrom_tokens readsStages_stages launch l s, executePipeline.eq_def, htokens]
  exact executeGroups_eq_executeFrom _ [] (t :: ts) s

end UnixCShell
