import UnixCShell.Execute.Ranges
import UnixCShell.Lib.Stores
import UnixCShell.Peek.Run

/-!
# The arrays of a line

`exec_cmd`, `launch_group`, `outreg_validate` and `run_peek` collect what they find in a line in
arrays of fixed size on the stack. Here are the stores into these arrays, loop by loop. How far the
functions get depends on the answers of the operating system, which are a parameter: any call may
fail at any time. A trace goes on behind a store that is past the end of its array, though the
program may not.
-/

namespace UnixCShell

open Lib UnixCShell.Parser

/-- The arrays, by function. -/
inductive Arr where
  /-- `exec_cmd`, which passes the first three to `strip_redirections`. -/
  | execInFiles | execOutFiles | execOutModes | execOutFds
  /-- `launch_group`. -/
  | cmdStarts | pipes | pids | names | alive | tmpInFds
  | args | inFiles | outFiles | outModes
  | livePids | liveNames
  /-- `outreg_validate`. -/
  | validateFds
  /-- `run_peek`. -/
  | peekFiles
  deriving DecidableEq, Repr

/-- The declared sizes. -/
def Arr.size : Arr → Nat
  | .execInFiles | .execOutFiles | .execOutModes | .execOutFds => 16
  | .cmdStarts | .pipes | .pids | .names | .alive | .tmpInFds => 128
  | .args | .inFiles | .outFiles | .outModes => 128
  | .livePids | .liveNames => 128
  | .validateFds => outregFilesMax
  | .peekFiles => 100

abbrev Trace := List (Store Arr)

/-! ## Answers of the system -/

/-- What happens to a stage of a pipeline: whether an input file is missing, which of the targets
can be opened, and whether the command is found. -/
structure StageAnswers where
  missing : Bool
  opens   : Nat → Bool
  found   : Bool

/-- What happens in a call of `launch_group`; `ends` says that a group in the foreground ends or
stops. -/
structure GroupAnswers where
  stage : Nat → StageAnswers
  ends  : Bool

/-- What happens to a builtin: whether its input can be set up, which of the targets can be opened,
and whether there is a descriptor to save the standard output. -/
structure BuiltinAnswers where
  input : Bool
  opens : Nat → Bool
  saved : Bool

structure Answers where
  builtin : BuiltinAnswers
  groups  : List GroupAnswers

/-! ## `outreg_validate` -/

/-- The loop of `outreg_validate` for the targets from `i` on; the result says whether all of them
could be opened. -/
def validateStores (opens : Nat → Bool) (i : Nat) : Nat → Trace × Bool
  | 0 => ([], true)
  | n + 1 =>
    if opens i then
      let (fds, ok) := validateStores opens (i + 1) n
      (⟨.validateFds, i⟩ :: fds, ok)
    else ([⟨.validateFds, i⟩], false)

/-! ## `launch_group` -/

/-- The collection loop, and `args[argc] = NULL` behind it. -/
def collectStores (endExcl : List Token) (s : Stage) : List Token → Trace
  | [] => [⟨.args, s.args.length⟩]
  | curr :: next =>
    if curr :: next = endExcl ∨ curr.type = .opPipe ∨
      127 ≤ s.args.length then [⟨.args, s.args.length⟩]
    else match curr.type, next with
      | .opLt, file :: next =>
        ⟨.inFiles, s.inFiles.length⟩ ::
          collectStores endExcl { s with inFiles := s.inFiles ++ [file.value] } next
      | .opGt, file :: next =>
        ⟨.outModes, s.outFiles.length⟩ :: ⟨.outFiles, s.outFiles.length⟩ ::
          collectStores endExcl { s with outFiles := s.outFiles ++ [(file.value, false)] } next
      | .opGtgt, file :: next =>
        ⟨.outModes, s.outFiles.length⟩ :: ⟨.outFiles, s.outFiles.length⟩ ::
          collectStores endExcl { s with outFiles := s.outFiles ++ [(file.value, true)] } next
      | _, next =>
        ⟨.args, s.args.length⟩ :: collectStores endExcl
          { s with args := s.args ++ [curr.value] } next

/-- What becomes of a stage. -/
inductive Outcome where
  | skipped
  | notFound
  | started
  deriving DecidableEq, Repr

/-- The body of the loop over the commands, behind the collection loop. -/
def stageStores (a : StageAnswers) (i : Nat) (stage : Stage) : Trace × Outcome :=
  let reset : Trace := [⟨.pids, i⟩, ⟨.alive, i⟩, ⟨.tmpInFds, i⟩]
  if stage.args = [] then (reset, .skipped)
  else
    let setup := reset ++ [⟨.tmpInFds, i⟩]
    -- without input files `setup_input` does not return `-2`
    if stage.inFiles ≠ [] ∧ a.missing then (setup, .skipped)
    else
      match validateStores a.opens 0 stage.outFiles.length with
      | (fds, false) => (setup ++ fds, .skipped)
      | (fds, true) =>
        if a.found then (setup ++ fds ++ [⟨.pids, i⟩, ⟨.names, i⟩, ⟨.alive, i⟩], .started)
        else (setup ++ fds, .notFound)

namespace GroupAnswers

/-- What becomes of each stage. -/
def outcomes (a : GroupAnswers) (stages : List Stage) : List Outcome :=
  stages.zipIdx.map fun (stage, i) => (stageStores (a.stage i) i stage).2

/-- `live_n`. -/
def live (a : GroupAnswers) (stages : List Stage) : Nat := (a.outcomes stages).count .started

/-- `lone_not_found`. -/
def loneNotFound (a : GroupAnswers) (stages : List Stage) : Bool := a.outcomes stages = [.notFound]

/-- The result of `launch_group`, if it returns. -/
def result (a : GroupAnswers) (call : Call) : Option Bool :=
  if a.live call.stages = 0 then some (a.loneNotFound call.stages)
  else if call.background || a.ends then some false
  else none

end GroupAnswers

/-- `launch_group`. -/
def groupStores (a : GroupAnswers) (start endExcl : List Token) : Trace :=
  let cmdStarts := start :: pipeStarts endExcl start
  let numCmds := cmdStarts.length
  let liveN := a.live (rangeStages start endExcl)
  fill .cmdStarts numCmds ++ fill .pipes (numCmds - 1) ++
    (cmdStarts.zipIdx.flatMap fun (curr, i) =>
      collectStores endExcl {} curr ++
        (stageStores (a.stage i) i (collectRange endExcl {} curr)).1) ++
    fill .livePids liveN ++ fill .liveNames liveN

/-- Answer a call of `launch_group`, which `note` takes down. If there are no more answers, it does
not return. -/
def answerCall {τ : Type*} (note : GroupAnswers → τ → τ) (call : Call) :
    List GroupAnswers × τ → Except (List GroupAnswers × τ) ((List GroupAnswers × τ) × Bool)
  | ([], t) => .error ([], t)
  | (a :: answers, t) =>
    match a.result call with
    | none => .error (answers, note a t)
    | some loneNotFound => .ok ((answers, note a t), loneNotFound)

/-- The state in which a line ends, or waits forever. -/
def endState {σ : Type*} : Except σ (σ × Bool) → σ
  | .error s => s
  | .ok (s, _) => s

/-- `execute_pipeline`. -/
def pipelineStores (answers : List GroupAnswers) (tokens : List Token) : Trace :=
  let launch start endExcl background :=
    answerCall (fun a trace => trace ++ groupStores a start endExcl)
      ⟨background, rangeStages start endExcl⟩
  (endState (executeRanges launch tokens (answers, []))).2

/-! ## Builtins -/

/-- The loop of `strip_redirections`. -/
def stripStores (inCount outCount : Nat) : List Token → Trace
  | op :: file :: rest =>
    if Parser.isRedirection op.type && file.type == .word then
      if op.type = .opLt then ⟨.execInFiles, inCount⟩ :: stripStores (inCount + 1) outCount rest
      else ⟨.execOutModes, outCount⟩ :: ⟨.execOutFiles, outCount⟩ :: stripStores inCount
        (outCount + 1) rest
    else stripStores inCount outCount (file :: rest)
  | _ => []

/-- The loop of `run_peek` over its arguments, and the line behind it. -/
def peekStores (fileCount : Nat) : List Token → Trace
  | [] => if fileCount = 0 then [⟨.peekFiles, 0⟩] else []
  | t :: ts =>
    match t.value with
    | '-' :: c :: cs =>
      if (Peek.readFlags (c :: cs) ⟨false, false, []⟩).isSome then peekStores fileCount ts else []
    | _ => ⟨.peekFiles, fileCount⟩ :: peekStores (fileCount + 1) ts

/-- `run_builtin`; of the builtins only `peek` is followed. -/
def runBuiltinStores (tokens : List Token) : Trace :=
  if tokens.head?.map Token.value = some "peek".toList then peekStores 0 tokens.tail else []

/-- The second half of `exec_cmd`. -/
def builtinStores (a : BuiltinAnswers) (tokens : List Token) : Trace :=
  let (kept, inFiles, outFiles) := stripRedirections tokens
  let strip := stripStores 0 0 tokens.tail
  if inFiles ≠ [] ∧ !a.input then strip
  else if outFiles = [] then strip ++ runBuiltinStores kept
  else
    match validateStores a.opens 0 outFiles.length with
    | (fds, false) => strip ++ fds
    | (fds, true) =>
      strip ++ fds ++ runBuiltinStores kept ++
        if a.saved then fill .execOutFds outFiles.length else []

/-- `exec_cmd`. -/
def execStores (a : Answers) (tokens : List Token) : Trace :=
  if startsBuiltin tokens then builtinStores a.builtin tokens else pipelineStores a.groups tokens

end UnixCShell
