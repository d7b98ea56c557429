import UnixCShell.Lexer.Basic
import UnixCShell.Lib.Files
import UnixCShell.Lib.Slots
import UnixCShell.Lib.Stdio

/-!
# The shell and its surroundings

The state that the modules of the shell share. `World` holds the variables of the shell (the job
table, the output registry, the queues of wait events and of notifications, the descriptor table
and the stream `stdin`) next to what the operating system keeps for it: the files, the children it
has forked, the process group the terminal belongs to. What the environment decides is in the state
too, as a list of things to come: the results of `fork`, and the events that a `sigsuspend` waits
for. So the shell is a function of its state.
-/

namespace UnixCShell

open Lib

/-- The argument of `WIFEXITED` and its like. -/
inductive WaitStatus where
  | exited (code : Nat)
  | signaled (sig : Nat)
  | stopped (sig : Nat)
  | continued
  deriving DecidableEq, Repr

/-- Neither stopped nor continued: the process is gone. -/
def WaitStatus.final : WaitStatus → Bool
  | .exited _ | .signaled _ => true
  | .stopped _ | .continued => false

/-- `WIFSTOPPED`. -/
def WaitStatus.isStop : WaitStatus → Bool
  | .stopped _ => true
  | _ => false

/-- A process and what `waitpid` says about it. -/
abbrev WaitEvent := Int × WaitStatus

/-! ## Descriptors -/

/-- What a descriptor refers to: what the shell was started with, a file, or one end of a pipe. -/
inductive Desc where
  | input
  | output
  | error
  | file (ino : Nat)
  | pipeRead (pipe : Nat)
  | pipeWrite (pipe : Nat)
  deriving DecidableEq, Repr

/-- A descriptor table; descriptors are positions. -/
abbrev FdTable := List (Option Desc)

namespace FdTable

/-- The lowest descriptor that is not open. -/
def lowest (fds : FdTable) : Nat := fds.findIdx (· = none)

def get (fds : FdTable) (fd : Nat) : Option Desc := (fds[fd]?).join

/-- Open `d` at the position `fd`. -/
def put (fds : FdTable) (fd : Nat) (d : Desc) : FdTable :=
  if fd < fds.length then fds.set fd (some d)
  else fds ++ List.replicate (fd - fds.length) none ++ [some d]

/-- A new descriptor for `d`. -/
def alloc (fds : FdTable) (d : Desc) : Nat × FdTable := (fds.lowest, fds.put fds.lowest d)

def close (fds : FdTable) (fd : Nat) : FdTable := fds.set fd none

/-- `dup2(old, new)`. -/
def dup2 (fds : FdTable) (old new : Nat) : FdTable :=
  match fds.get old with
  | some d => fds.put new d
  | none => fds

end FdTable

/-! ## Processes -/

/-- A child of the shell. `reaped` says that its exit has been collected by `waitpid`, so that it no
longer counts as a member of its group. -/
structure Process where
  pid    : Int
  pgrp   : Int
  path   : Str
  args   : List Str
  fds    : FdTable
  reaped : Bool
  deriving DecidableEq, Repr

/-- What a call of `fork` brings: the new pid, or nothing if it fails; and the events that the
`SIGCHLD` handler collects before the new child has been put into its process group. -/
structure Fork where
  pid    : Option Nat
  events : List WaitEvent
  deriving DecidableEq, Repr

/-! ## Tables of the shell -/

/-- `OutSpec`: the files that the output of a process will be copied to. -/
structure OutSpec where
  pid      : Int
  outFiles : List Str
  deriving DecidableEq, Repr

/-- `OUTREG_MAX` and `OUTREG_FILES_MAX`. -/
def outregMax : Nat := 128
def outregFilesMax : Nat := 16

inductive JobState where
  | running
  | stopped
  deriving DecidableEq, Repr

/-- One process of a job: an index into `pids`, `names` and `done`. -/
structure JobProc where
  pid  : Int
  name : Str
  done : Bool
  deriving DecidableEq, Repr

/-- `Job`, without its `used` flag. -/
structure Job where
  jobNumber  : Nat
  pgid       : Int
  procs      : List JobProc
  cmdline    : Str
  state      : JobState
  background : Bool
  deriving DecidableEq, Repr

/-- `JOBS_MAX`, `JOB_MAX_PROCS`, `PENDING_MAX` and `NOTIF_MAX`. -/
def jobsMax : Nat := 64
def jobMaxProcs : Nat := 32
def pendingMax : Nat := 256
def notifMax : Nat := 64

/-! ## The state -/

structure World where
  /-- The files, under their absolute names. -/
  fs            : Files Str Char
  cwd           : Str
  /-- Is this name a directory? -/
  isDir         : Str → Bool
  /-- Is this name an executable regular file? -/
  isExe         : Str → Bool
  /-- The directories of `PATH`. -/
  path          : List Str
  fds           : FdTable
  nextPipe      : Nat
  /-- The shell, which leads its own process group. -/
  shellPid      : Int
  /-- The process group that the terminal belongs to. -/
  terminal      : Int
  children      : List Process
  /-- The calls of `kill`: a target and a signal. -/
  kills         : List (Int × Nat)
  forks         : List Fork
  arrivals      : List (List WaitEvent)
  /-- `stdin`, and what is still to be read from the descriptor the shell was started with. -/
  stdin         : Stream Char
  input         : List Str
  registry      : Slots outregMax OutSpec
  jobs          : Slots jobsMax Job
  nextJobNumber : Nat
  pending       : List WaitEvent
  notifs        : List Str
  /-- What has been written to the standard output and the standard error. -/
  out           : Str
  err           : Str

namespace World

/-- A shell that has just been started, in an empty directory in which it may create and open every
file. -/
def init : World where
  fs := ⟨fun _ => none, fun _ => [], 0, fun _ => true, fun _ => true, by simp⟩
  cwd := "/home".toList
  isDir _ := false
  isExe _ := true
  path := []
  fds := [some .input, some .output, some .error]
  nextPipe := 0
  shellPid := 100
  terminal := 100
  children := []
  kills := []
  forks := []
  arrivals := []
  stdin := .ahead []
  input := []
  registry := .empty
  jobs := .empty
  nextJobNumber := 1
  pending := []
  notifs := []
  out := []
  err := []

/-- The absolute name of a file. -/
def locate (w : World) (name : Str) : Str :=
  if name.head? = some '/' then name else w.cwd ++ '/' :: name

/-- `printf` and `fflush`: the text goes wherever descriptor 1 leads. -/
def print (w : World) (s : Str) : World :=
  match w.fds.get 1 with
  | some .output => { w with out := w.out ++ s }
  | some (.file ino) => { w with fs := w.fs.append ino s }
  | _ => w

/-- `fprintf(stderr, ..)`. -/
def eprint (w : World) (s : Str) : World := { w with err := w.err ++ s }

/-- A child is reaped when its exit is collected. -/
def collect (w : World) (e : WaitEvent) : World :=
  if e.2.final then
    { w with
      children := w.children.map fun p => if p.pid = e.1 then { p with reaped := true } else p }
  else w

/-- Put an event into the queue; an event that finds the queue full is lost. -/
def enqueue (w : World) (e : WaitEvent) : World :=
  if w.pending.length < pendingMax then { w with pending := w.pending ++ [e] } else w

/-- `jobs_sigchld_handler`, which finds the events `es`. -/
def sigchldHandler (w : World) : List WaitEvent → World
  | [] => w
  | e :: es => sigchldHandler ((w.collect e).enqueue e) es

end World

end UnixCShell
