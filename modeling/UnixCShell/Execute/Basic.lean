import UnixCShell.Parser.Basic
import UnixCShell.Pipeline.Basic

/-!
# Execution of a line

`execute_pipeline` (`pipeline.c`) and `exec_cmd` (`execute.c`). The first cuts a line into groups at
`;` and `&` and launches one after the other. The second decides, by the first word of the line,
whether the line is a builtin, which is run with its redirections in the shell itself, or goes to
`execute_pipeline`.

The functions that cut a line do not depend on what a group or a builtin does; they are defined for
any state, and `World.execCmd` is their instance for the shell. An `error` is a state in which the
shell waits forever.
-/

namespace UnixCShell

open Lib

/-! ## Cutting a line -/

section Cutting

variable {σ : Type*} (launch : List Token → Bool → σ → Except σ (σ × Bool))

/-- The loop of `execute_pipeline`; `group` is what has been read of the group that begins at
`group_start`. The result says whether the loop was left because a lone command was not found. -/
def executeGroups (group : List Token) : List Token → σ → Except σ (σ × Bool)
  | [], s => launch group false s
  | t :: ts, s =>
    if t.type = .opSemi ∨ t.type = .opAmp then
      match launch group (t.type = .opAmp) s with
      | .error s => .error s
      | .ok (s, loneNotFound) =>
        if t.type ≠ .opAmp ∧ loneNotFound then .ok (s, true)
        -- nothing follows a final `&`
        else if ts = [] then .ok (s, false)
        else executeGroups [] ts s
    else executeGroups (group ++ [t]) ts s

/-- `execute_pipeline`. -/
def executePipeline (tokens : List Token) (s : σ) : Except σ (σ × Bool) :=
  match tokens with
  | [] => .ok (s, false)
  | _ => executeGroups launch [] tokens s

/-- The words that `is_builtin_name` knows. -/
def builtinNames : List String :=
  ["hop", "reveal", "locate", "peek", "activities", "resume", "ping", "spy", "snoop"]

/-- `is_builtin_name`. -/
def isBuiltinName (name : Str) : Bool := builtinNames.any fun b => name = b.toList

/-- The line begins with the name of a builtin. -/
def startsBuiltin (tokens : List Token) : Bool := tokens.head?.any fun t => isBuiltinName t.value

/-- `exec_cmd`, with the run of a builtin as a parameter. -/
def execCmdWith (builtin : List Token → σ → Except σ σ) (tokens : List Token) (s : σ) :
    Except σ (σ × Bool) :=
  if startsBuiltin tokens then (builtin tokens s).map (·, false)
  else executePipeline launch tokens s

end Cutting

/-! ## Builtins -/

/-- The loop of `strip_redirections`: the tokens that stay, the input files and the output files. -/
def stripLoop : List Token → List Token × List Str × List (Str × Bool)
  | op :: file :: rest =>
    if Parser.isRedirection op.type && file.type == .word then
      let (kept, inFiles, outFiles) := stripLoop rest
      if op.type = .opLt then (kept, file.value :: inFiles, outFiles)
      else (kept, inFiles, (file.value, op.type = .opGtgt) :: outFiles)
    else
      let (kept, inFiles, outFiles) := stripLoop (file :: rest)
      (op :: kept, inFiles, outFiles)
  | tokens => (tokens, [], [])

/-- `strip_redirections`, which never removes the first token. -/
def stripRedirections (tokens : List Token) : List Token × List Str × List (Str × Bool) :=
  match tokens with
  | [] => ([], [], [])
  | t :: ts =>
    let (kept, inFiles, outFiles) := stripLoop ts
    (t :: kept, inFiles, outFiles)

/-- `dup`. -/
def FdTable.dup (fds : FdTable) (fd : Nat) : Option Nat × FdTable :=
  match fds.get fd with
  | none => (none, fds)
  | some d =>
    let (new, fds) := fds.alloc d
    (some new, fds)

/-- `dup2(saved, fd)` and `close(saved)`, if there is something to restore. -/
def FdTable.restore (fds : FdTable) (saved : Option Nat) (fd : Nat) : FdTable :=
  match saved with
  | none => fds
  | some saved => (FdTable.dup2 fds saved fd).close saved

namespace World

/-- Point descriptor 0 to the input files; the result is `saved_stdin`, and `none` if that fails. -/
def swapStdin (w : World) (inFiles : List Str) : World × Option (Option Nat) :=
  if inFiles = [] then (w, some none)
  else
    match w.setupInput inFiles 9001 with
    | (w, .fd tmpIn) =>
      let (saved, fds) := w.fds.dup 0
      ({ w with fds := (fds.dup2 tmpIn 0).close tmpIn }.unlink (tmpInName 9001), some saved)
    | (w, _) => (w, none)

/-- The temporary file for the output of a builtin. -/
def tmpBuiltinName (w : World) : Str :=
  ".cshell_tmp_out_builtin_".toList ++ (toString w.shellPid).toList

/-- Point descriptor 1 to the temporary file; the result is `tmp_out_fd` and `saved_stdout`, and
`none` if a target is not valid. -/
def swapStdout (w : World) (outFiles : List (Str × Bool)) :
    World × Option (Option Nat × Option Nat) :=
  if outFiles = [] then (w, some (none, none))
  else
    match w.outregValidate outFiles with
    | (w, false) => (w, none)
    | (w, true) =>
      match w.fs.openWrite true (w.locate w.tmpBuiltinName) with
      | none =>
        let (saved, fds) := w.fds.dup 1
        ({ w with fds := fds }, some (none, saved))
      | some (ino, fs) =>
        let (tmpOutFd, fds) := w.fds.alloc (.file ino)
        let (saved, fds) := fds.dup 1
        ({ w with fs := fs, fds := fds.dup2 tmpOutFd 1 }, some (some tmpOutFd, saved))

/-- Restore descriptor 1, and copy what was written to the targets. -/
def restoreStdout (w : World) (tmpOutFd saved : Option Nat) (outFiles : List Str) : World :=
  match saved with
  | none => w
  | some _ =>
    let fds := w.fds.restore saved 1
    { w with
      fds := tmpOutFd.elim fds fds.close
      fs := deliver w.fs (w.locate w.tmpBuiltinName) (outFiles.map w.locate) }

/-- The second half of `exec_cmd`: `run_builtin` with its redirections. -/
def execBuiltin (run : List Token → World → Except World World) (tokens : List Token) (w : World) :
    Except World World := do
  let (tokens, inFiles, outFiles) := stripRedirections tokens
  let (w, stdin) := w.swapStdin inFiles
  match stdin with
  | none => return w
  | some savedStdin =>
    let (w, stdout) := w.swapStdout outFiles
    match stdout with
    | none => return { w with fds := w.fds.restore savedStdin 0 }
    | some (tmpOutFd, savedStdout) =>
      let w ← run tokens w
      let w := w.restoreStdout tmpOutFd savedStdout (outFiles.map Prod.fst)
      return { w with fds := w.fds.restore savedStdin 0 }

/-- `exec_cmd`. -/
def execCmd (run : List Token → World → Except World World) :
    List Token → World → Except World (World × Bool) :=
  execCmdWith launchGroup (execBuiltin run)

end World

end UnixCShell
