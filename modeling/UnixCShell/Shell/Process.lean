import UnixCShell.Shell.World

/-!
# Process groups and descriptors of children

What `setpgid`, `kill` and `tcsetpgrp` do. A process can be moved to a group of its own or to a
group that has a member; a member that has exited counts until it has been reaped. `kill` with a
negative argument addresses a group, with two exceptions: `0` is the group of the caller, `-1` is
everyone.
-/

namespace UnixCShell.World

/-- Has the group `g` a member? -/
def groupExists (w : World) (g : Int) : Bool :=
  g = w.shellPid || w.children.any fun p => p.pgrp = g && !p.reaped

/-- The group that `setpgid(pid, pgid)` asks for; `0` is the one with the number of the process. -/
def groupNumber (pid pgid : Int) : Int := if pgid = 0 then pid else pgid

/-- `setpgid(pid, pgid)` for a child of the shell; a negative group is invalid. -/
def setpgid (w : World) (pid pgid : Int) : World :=
  if 0 ≤ pgid ∧ (groupNumber pid pgid = pid ∨ w.groupExists (groupNumber pid pgid)) then
    { w with children := w.children.map fun p =>
        if p.pid = pid ∧ p.reaped = false then { p with pgrp := groupNumber pid pgid } else p }
  else w

/-- The processes that `kill(target, sig)` signals, if the shell calls it. -/
def killTargets (w : World) (target : Int) : List Int :=
  let inGroup g := (w.children.filter fun p => p.pgrp = g && !p.reaped).map (·.pid)
  if 0 < target then [target]
  else if target = 0 then w.shellPid :: inGroup w.shellPid
  else if target = -1 then (w.children.filter fun p => !p.reaped).map (·.pid)
  else if -target = w.shellPid then w.shellPid :: inGroup w.shellPid
  else inGroup (-target)

/-- `kill(target, sig)`. What the signal does to its targets is up to them; the shell sees it as
wait events. -/
def kill (w : World) (target : Int) (sig : Nat) : World :=
  { w with kills := w.kills ++ [(target, sig)] }

/-- `SIGTERM` and `SIGCONT`. -/
def sigterm : Nat := 15
def sigcont : Nat := 18

/-- `term_give_to`: the terminal can be given to a group that exists. -/
def termGiveTo (w : World) (pgid : Int) : World :=
  if 0 < pgid ∧ w.groupExists pgid then { w with terminal := pgid } else w

/-- `term_reclaim`. -/
def termReclaim (w : World) : World := { w with terminal := w.shellPid }

/-- `pipe`, `n` times: the descriptors of the read and the write ends. -/
def makePipes (w : World) : Nat → World × List (Nat × Nat)
  | 0 => (w, [])
  | n + 1 =>
    let (r, fds) := w.fds.alloc (.pipeRead w.nextPipe)
    let (wr, fds) := fds.alloc (.pipeWrite w.nextPipe)
    let (w, pipes) := makePipes { w with fds := fds, nextPipe := w.nextPipe + 1 } n
    (w, (r, wr) :: pipes)

end UnixCShell.World

/-- Close both ends of every pipe. -/
def UnixCShell.FdTable.closePipes (fds : FdTable) (pipes : List (Nat × Nat)) : FdTable :=
  pipes.foldl (fun fds p => (FdTable.close fds p.1).close p.2) fds
