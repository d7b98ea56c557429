import UnixCShell.Jobs.Basic
import UnixCShell.Shell.Process

/-!
# Pipelines

`pipeline.c` and `resolver.c`. A command group is a list of tokens; `launch_group` cuts it into
stages, starts a child for every stage that can be started, and then waits for the children in the
foreground or registers them as a background job. A group is the range of tokens from `start` up to
`end_excl`; lines that `valid_syntax` accepts have no redirection operator at the end of a group, so
that looking at `curr->next` does not leave the range.
-/

namespace UnixCShell

open Lib

/-! ## Commands -/

/-- What the collection loop finds in a stage; a target is appended to if it comes with `>>`. -/
structure Stage where
  args     : List Str := []
  inFiles  : List Str := []
  outFiles : List (Str × Bool) := []
  deriving DecidableEq, Repr

/-- The collection loop, which stops at a pipe, and when `args` is full. -/
def collectStage (s : Stage) : List Token → Stage
  | [] => s
  | t :: ts =>
    if t.type = .opPipe ∨ 127 ≤ s.args.length then s
    else match t.type, ts with
      | .opLt, file :: ts => collectStage { s with inFiles := s.inFiles ++ [file.value] } ts
      | .opGt, file :: ts => collectStage
          { s with outFiles := s.outFiles ++ [(file.value, false)] } ts
      | .opGtgt, file :: ts => collectStage
          { s with outFiles := s.outFiles ++ [(file.value, true)] } ts
      | _, ts => collectStage { s with args := s.args ++ [t.value] } ts

/-- `cmd_starts`: the group itself, and what follows each of its pipes. -/
def cmdStarts (group : List Token) : List (List Token) :=
  group :: (group.tails.filterMap fun
    | t :: ts => if t.type = .opPipe then some ts else none
    | [] => none)

/-- The stages of a group. -/
def stages (group : List Token) : List Stage := (cmdStarts group).map (collectStage {})

/-- `build_cmdline` with a buffer of `outsize` bytes. -/
def buildCmdline (outsize : Nat) : Str → List Token → Str
  | out, [] => out
  | out, t :: ts =>
    let space := if out = [] then 0 else 1
    if out.length + t.value.length + space + 1 ≥ outsize then out
    else buildCmdline outsize (out ++ (if out = [] then [] else [' ']) ++ t.value) ts

namespace World

/-- `is_exe`. -/
def isExecutable (w : World) (path : Str) : Bool := w.isExe (w.locate path)

/-- `resolve_command_path`; the buffer of a path has 8192 bytes, that of the working directory
4096. -/
def resolveCommandPath (w : World) (cmd : Str) : Option Str :=
  if '/' ∈ cmd then
    if w.isExecutable cmd then some cmd else none
  else
    let skipCwd : Bool := cmd.head? = some '%'
    let searchCmd := if skipCwd then cmd.tail else cmd
    let here := (w.cwd ++ '/' :: searchCmd).take 8191
    if !skipCwd && w.cwd.length < 4096 && w.isExecutable here then some here
    else (w.path.map fun dir => (dir ++ '/' :: searchCmd).take 8191).find? w.isExecutable

end World

/-! ## The fork loop -/

/-- The variables of the loop: `pgid`, the pids and names of the stages that are `alive`, and
`lone_not_found`. -/
structure Launch where
  pgid         : Int := 0
  procs        : List (Int × Str) := []
  loneNotFound : Bool := false
  deriving DecidableEq, Repr

/-- What comes of a stage before `fork`: it is left out, its command is not found, or a program is
ready to run. -/
inductive Prepared where
  | skipped
  | notFound
  | ready (path : Str) (input : InputFd)
  deriving DecidableEq, Repr

namespace World

/-- Close and remove the temporary input file of the stage `i`. -/
def dropInput (w : World) (input : InputFd) (i : Nat) : World :=
  match input with
  | .fd n => { w with fds := w.fds.close n }.unlink (tmpInName i)
  | _ => w

/-- The body of the loop up to `fork`. -/
def prepareStage (w : World) (i : Nat) (stage : Stage) : World × Prepared :=
  match stage.args with
  | [] => (w, .skipped)
  | cmd :: _ =>
    match w.setupInput stage.inFiles i with
    | (w, .missing) => (w, .skipped)
    | (w, input) =>
      match w.outregValidate stage.outFiles with
      | (w, false) => (w.dropInput input i, .skipped)
      | (w, true) =>
        match w.resolveCommandPath cmd with
        | some path => (w, .ready path input)
        | none =>
          let displayName := if cmd.head? = some '%' then cmd.tail else cmd
          let w := w.eprint ("cshell: command not found (".toList ++ displayName ++ ")\n".toList)
          (w.dropInput input i, .notFound)

/-- The standard input of a child: the temporary file, or the pipe in front of the stage. -/
def childInput (fds : FdTable) (i : Nat) (pipes : List (Nat × Nat)) (input : InputFd) : FdTable :=
  match input, i with
  | .fd n, _ => fds.dup2 n 0
  | _, 0 => fds
  | _, i + 1 => (pipes[i]?).elim fds fun p => fds.dup2 p.1 0

/-- The descriptors of a child; its temporary output file is opened on the way. -/
def childFds (w : World) (pid : Int) (i : Nat) (pipes : List (Nat × Nat)) (stage : Stage)
    (input : InputFd) : Files Str Char × FdTable :=
  let fds := childInput w.fds i pipes input
  let (fs, fds) :=
    if stage.outFiles = [] then (w.fs, (pipes[i]?).elim fds fun p => fds.dup2 p.2 1)
    else
      match w.fs.openWrite true (w.locate (tmpOutName pid)) with
      | none => (w.fs, fds)
      | some (ino, fs) =>
        let (fd, fds) := fds.alloc (.file ino)
        (fs, (fds.dup2 fd 1).close fd)
  let fds := fds.closePipes pipes
  match input with
  | .fd n => (fs, fds.close n)
  | _ => (fs, fds)

/-- `fork`, behind the signals that arrive before the child is there. -/
def fork (w : World) : World × Option Nat :=
  match w.forks with
  | [] => (w, none)
  | f :: forks => ({ w with forks := forks }.sigchldHandler f.events, f.pid)

/-- What a new child does up to `execv`: it moves to the group `pgid`, the first stage to a group of
its own, and sets up its descriptors. -/
def startChild (w : World) (pid : Int) (i : Nat) (pipes : List (Nat × Nat)) (stage : Stage)
    (path : Str) (input : InputFd) (pgid : Int) : World :=
  let (fs, fds) := w.childFds pid i pipes stage input
  let child : Process :=
    { pid := pid
      pgrp := w.shellPid
      path := path
      args := stage.args
      fds := fds
      reaped := false }
  let w := { w with fs := fs, children := w.children ++ [child] }
  w.setpgid pid (if i = 0 then pid else pgid)

/-- The body of the loop from `fork` on; `child` is `-1` where `fork` fails. -/
def spawnStage (w : World) (i : Nat) (pipes : List (Nat × Nat)) (stage : Stage) (path : Str)
    (input : InputFd) (l : Launch) : World × Launch :=
  let (w, child) := match w.fork with
    | (w, none) => (w, -1)
    | (w, some pid) => (w.startChild pid i pipes stage path input l.pgid, (pid : Int))
  let pgid := if i = 0 then child else l.pgid
  let w := (w.setpgid child pgid).dropInput input i
  let w := w.outregRegister child (stage.outFiles.map Prod.fst)
  (w, { l with pgid := pgid, procs := l.procs ++ [(child, stage.args.headD [])] })

/-- The body of the loop. -/
def launchStage (numCmds : Nat) (pipes : List (Nat × Nat)) (s : World × Launch) (e : Stage × Nat) :
    World × Launch :=
  match s.1.prepareStage e.2 e.1 with
  | (w, .skipped) => (w, s.2)
  | (w, .notFound) => (w, { s.2 with loneNotFound := s.2.loneNotFound || numCmds == 1 })
  | (w, .ready path input) => w.spawnStage e.2 pipes e.1 path input s.2

/-- `launch_group` up to the closing of the pipes behind the loop. -/
def forkLoop (w : World) (group : List Token) : World × Launch :=
  let todo := stages group
  let (w, pipes) := w.makePipes (todo.length - 1)
  let (w, l) := todo.zipIdx.foldl (launchStage todo.length pipes) (w, {})
  ({ w with fds := w.fds.closePipes pipes }, l)

/-! ## `launch_group` -/

/-- The background branch of `launch_group`. -/
def startBackground (w : World) (l : Launch) (cmdline : Str) : World :=
  let (w, number) := w.jobsRegister l.pgid l.procs cmdline true .running
  w.print ("[".toList ++ (toString number).toList ++ "] ".toList ++
    (toString ((l.procs.head?.map Prod.fst).getD 0)).toList ++ "\n".toList)

/-- The message about a job that has been stopped. -/
def printStopped (w : World) (number : Int) (cmdline : Str) : World :=
  w.print ("[".toList ++ (toString number).toList ++ "] + Stopped    ".toList ++ cmdline ++
    "\n".toList)

/-- The foreground branch of `launch_group` behind `jobs_wait_foreground`, up to the call of
`jobs_flush_notifications`: a group that has been stopped becomes a job. -/
def settleForeground (w : World) (l : Launch) (cmdline : Str) (stopped : Bool) : World :=
  let w := w.termReclaim
  if stopped then
    let (w, number) := w.jobsRegister l.pgid l.procs cmdline false .stopped
    w.printStopped number cmdline
  else (l.procs.map Prod.fst).foldl outregFinalize w

/-- The foreground branch of `launch_group` behind `jobs_wait_foreground`. -/
def afterForeground (w : World) (l : Launch) (cmdline : Str) (stopped : Bool) : World :=
  (w.settleForeground l cmdline stopped).jobsFlushNotifications

/-- `launch_group`; the result says that a lone command was not found. -/
def launchGroup (group : List Token) (background : Bool) (w : World) :
    Except World (World × Bool) := do
  let cmdline := buildCmdline 1024 [] group
  let (w, l) := w.forkLoop group
  if l.procs = [] then return (w, l.loneNotFound)
  if background then return (w.startBackground l cmdline, false)
  let pids := l.procs.map Prod.fst
  let (w, waiter) ← (w.termGiveTo l.pgid).waitLoop pids (.start pids)
  return (w.afterForeground l cmdline waiter.stopped, false)

/-! ### What the loop of `launch_group` leaves alone -/

theorem makePipes_frame (w : World) (n : Nat) :
    ∃ fds nextPipe, (w.makePipes n).1 = { w with fds := fds, nextPipe := nextPipe } := by
  induction n generalizing w with
  | zero => exact ⟨_, _, rfl⟩
  | succ n ih =>
    obtain ⟨fds, nextPipe, h⟩ := ih { w with
      fds := ((w.fds.alloc (.pipeRead w.nextPipe)).2.alloc (.pipeWrite w.nextPipe)).2
      nextPipe := w.nextPipe + 1 }
    exact ⟨fds, nextPipe, h⟩

theorem dropInput_frame (w : World) (input : InputFd) (i : Nat) :
    ∃ fs fds, w.dropInput input i = { w with fs := fs, fds := fds } := by
  unfold dropInput
  split <;> exact ⟨_, _, rfl⟩

theorem fork_snd (w : World) : w.fork.2 = w.forks.head?.bind (·.pid) := by
  unfold fork
  cases w.forks <;> rfl

theorem fork_frame (w : World) :
    ∃ forks children pending, w.fork.1 =
      { w with forks := forks, children := children, pending := pending } := by
  unfold fork
  split
  · exact ⟨_, _, _, rfl⟩
  · next f forks _ =>
    obtain ⟨children, pending, h⟩ := sigchldHandler_frame { w with forks := forks } f.events
    exact ⟨forks, children, pending, h⟩

theorem setpgid_frame (w : World) (pid pgid : Int) :
    ∃ children, w.setpgid pid pgid = { w with children := children } := by
  unfold setpgid
  split <;> exact ⟨_, rfl⟩

theorem startChild_frame (w : World) (pid : Int) (i : Nat)
    (pipes : List (Nat × Nat)) (stage : Stage) (path : Str) (input : InputFd) (pgid : Int) :
    ∃ fs children, w.startChild pid i pipes stage path input pgid =
      { w with fs := fs, children := children } := by
  obtain ⟨children, h⟩ := setpgid_frame { w with
    fs := (w.childFds pid i pipes stage input).1
    children := w.children ++ [⟨pid, w.shellPid, path, stage.args,
      (w.childFds pid i pipes stage input).2, false⟩] } pid (if i = 0 then pid else pgid)
  exact ⟨_, children, h⟩

theorem prepareStage_frame (w : World) (i : Nat) (stage : Stage) :
    ∃ fs fds err, (w.prepareStage i stage).1 = { w with fs := fs, fds := fds, err := err } := by
  obtain ⟨fs₁, fds₁, err₁, h₁⟩ := w.setupInput_frame stage.inFiles i
  obtain ⟨fs₂, err₂, h₂⟩ := (w.setupInput stage.inFiles i).1.outregValidate_frame stage.outFiles
  rw [h₁] at h₂
  unfold prepareStage
  split
  · exact ⟨_, _, _, rfl⟩
  · split
    · rename_i hsetup
      rw [hsetup] at h₁
      exact ⟨_, _, _, h₁⟩
    · rename_i w₁ input _ hsetup
      rw [hsetup] at h₁
      subst h₁
      -- whether the targets are valid or not, only the files and the messages have changed
      split
      · rename_i w₂ hvalid
        rw [hvalid] at h₂
        subst h₂
        obtain ⟨fs, fds, h⟩ := dropInput_frame _ input i
        exact ⟨fs, fds, _, h⟩
      · rename_i w₂ hvalid
        rw [hvalid] at h₂
        subst h₂
        split
        · exact ⟨_, _, _, rfl⟩
        · obtain ⟨fs, fds, h⟩ := dropInput_frame _ input i
          exact ⟨fs, fds, _, h⟩

end World

/-! ### Command lines for examples -/

/-- A word. -/
def word (s : String) : Token := ⟨.word, s.toList⟩

/-- The operator of a pipeline. -/
def pipe : Token := ⟨.opPipe, ['|']⟩

/-- A shell that finds the programs of `/bin` only. -/
def World.inBin (programs : List String) (forks : List Fork) : World :=
  { init with
    path := ["/bin".toList]
    isExe := fun name => programs.any fun p => name = "/bin/".toList ++ p.toList
    forks := forks }

end UnixCShell
