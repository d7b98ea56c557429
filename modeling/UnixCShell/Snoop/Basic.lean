import UnixCShell.Lib.ExchangeSort
import UnixCShell.Shell.World

/-!
# The command `snoop`

`snoop.c`: `record_call`, `print_summary` and `trace_loop`. The traced process is stopped at the
beginning and at the end of every system call, and whenever a signal is to be delivered to it;
`trace_loop` tells the two kinds of stops of a system call apart by a flag that it toggles.

What the process does is a list of reports of `waitpid`. The clock and the arithmetic of `double`
are parameters: nothing depends on what the times are.
-/

namespace UnixCShell.Snoop

open Lib

/-- `syscall_names`. -/
def syscallNames : List (Int × String) :=
  [(0, "read"), (1, "write"), (2, "open"), (3, "close"), (4, "stat"), (5, "fstat"), (6, "lstat"),
    (7, "poll"), (8, "lseek"), (9, "mmap"), (10, "mprotect"), (11, "munmap"), (12, "brk"),
    (13, "rt_sigaction"), (14, "rt_sigprocmask"), (16, "ioctl"), (17, "pread64"), (18, "pwrite64"),
    (19, "readv"), (20, "writev"), (21, "access"), (22, "pipe"), (23, "select"),
      (24, "sched_yield"),
    (25, "mremap"), (28, "madvise"), (32, "dup"), (33, "dup2"), (34, "pause"), (35, "nanosleep"),
    (39, "getpid"), (41, "socket"), (42, "connect"), (43, "accept"), (44, "sendto"),
      (45, "recvfrom"),
    (56, "clone"), (57, "fork"), (58, "vfork"), (59, "execve"), (60, "exit"),
      (61, "wait4"), (62, "kill"),
    (63, "uname"), (72, "fcntl"), (73, "flock"), (74, "fsync"), (79, "getcwd"), (80, "chdir"),
    (82, "rename"), (83, "mkdir"), (84, "rmdir"), (87, "unlink"), (89, "readlink"), (90, "chmod"),
    (92, "chown"), (95, "umask"), (96, "gettimeofday"), (97, "getrlimit"),
      (99, "sysinfo"), (100, "times"),
    (102, "getuid"), (104, "getgid"), (107, "geteuid"), (108, "getegid"), (109, "setpgid"),
    (110, "getppid"), (111, "getpgrp"), (112, "setsid"), (131, "sigaltstack"), (137, "statfs"),
    (158, "arch_prctl"), (186, "gettid"), (201, "time"), (202, "futex"), (217, "getdents64"),
    (218, "set_tid_address"), (228, "clock_gettime"), (229, "clock_getres"),
      (230, "clock_nanosleep"),
    (231, "exit_group"), (232, "epoll_wait"), (257, "openat"), (262, "newfstatat"),
    (273, "set_robust_list"), (302, "prlimit64"), (318, "getrandom"), (332, "statx"), (334, "rseq"),
    (435, "clone3"), (439, "faccessat2")]

/-- `lookup_syscall_name`. -/
def lookupSyscallName (num : Int) : Str :=
  match syscallNames.find? (·.1 = num) with
  | some (_, name) => name.toList
  | none => "syscall_".toList ++ (toString num).toList

/-- `SyscallStat`. -/
structure SyscallStat (δ : Type) where
  sysno     : Int
  calls     : Nat
  totalTime : δ
  firstSeq  : Nat

/-- `STATS_MAX`. -/
def statsMax : Nat := 512

/-- `stats` up to `stats_count`, and `seq_counter`. -/
structure Stats (δ : Type) where
  rows       : List (SyscallStat δ)
  seqCounter : Nat

variable {τ δ : Type}

/-- One more call in a row. -/
def SyscallStat.bump [Add δ] (r : SyscallStat δ) (dt : δ) : SyscallStat δ :=
  { r with calls := r.calls + 1, totalTime := r.totalTime + dt }

/-- `record_call`. -/
def recordCall [Add δ] (s : Stats δ) (sysno : Int) (dt : δ) : Stats δ :=
  match s.rows.findIdx? (·.sysno = sysno) with
  | some i => { s with rows := s.rows.modify i (·.bump dt) }
  | none =>
    if s.rows.length < statsMax then
      ⟨s.rows ++ [⟨sysno, 1, dt, s.seqCounter⟩], s.seqCounter + 1⟩ else s

/-! ## The trace -/

/-- `SIGTRAP`, and `SIGTRAP | 0x80`, which marks the stops of system calls. -/
def sigtrap : Nat := 5
def sigtrapSyscall : Nat := sigtrap ||| 0x80

/-- What a call of `waitpid` brings: a failure, or a status. With a status come the value of
`orig_rax` that `PTRACE_GETREGS` would read (nothing if it fails) and the time. -/
inductive Report (τ : Type) where
  | failed
  | status (status : WaitStatus) (origRax : Option Int) (clock : τ)

/-- The variables of `trace_loop`, and the signals that it has passed to `PTRACE_SYSCALL`. -/
structure Tracer (τ δ : Type) where
  inSyscall    : Bool
  currentSysno : Int
  entryTime    : τ
  sigToDeliver : Nat
  stats        : Stats δ
  resumes      : List Nat

/-- `PTRACE_SYSCALL`. -/
def Tracer.resume (t : Tracer τ δ) : Tracer τ δ :=
  { t with resumes := t.resumes ++ [t.sigToDeliver], sigToDeliver := 0 }

section

variable [Add δ] (timeDiff : τ → τ → δ)

/-- The body of `if (WIFSTOPPED(status))`. -/
def Tracer.stopped (t : Tracer τ δ) (sig : Nat) (origRax : Option Int) (clock : τ) : Tracer τ δ :=
  if sig = sigtrapSyscall then
    match origRax with
    | none => t
    | some sysno =>
      if !t.inSyscall then { t with currentSysno := sysno, entryTime := clock, inSyscall := true }
      else
        { t with
          stats := recordCall t.stats t.currentSysno (timeDiff t.entryTime clock)
          inSyscall := false }
  else if sig = sigtrap then t
  else { t with sigToDeliver := sig }

/-- The loop of `trace_loop`. There is no result as long as the reports have not come to an end. -/
def traceReports : Tracer τ δ → List (Report τ) → Option (Tracer τ δ)
  | _, [] => none
  | t, .failed :: _ => some t.resume
  | t, .status (.exited _) _ _ :: _ => some t.resume
  | t, .status (.signaled _) _ _ :: _ => some t.resume
  | t, .status (.stopped sig) origRax clock :: rs =>
      traceReports (t.resume.stopped timeDiff sig origRax clock) rs
  | t, .status .continued _ _ :: rs => traceReports t.resume rs

/-- `trace_loop`, behind `run_snoop`, which clears the table; `entryTime` is not initialised. -/
def traceLoop (entryTime : τ) (reports : List (Report τ)) : Option (Tracer τ δ) :=
  traceReports timeDiff ⟨false, -1, entryTime, 0, ⟨[], 0⟩, []⟩ reports

end

/-! ## The summary -/

/-- The condition under which `print_summary` exchanges two rows. -/
def swap (x y : SyscallStat δ) : Bool :=
  y.calls > x.calls || (y.calls = x.calls && y.firstSeq < x.firstSeq)

/-- The rows as `print_summary` sorts them. -/
def summaryRows (s : Stats δ) : List (SyscallStat δ) := exchangeSortBy swap s.rows

/-- `%-*s`. -/
def padRight (width : Nat) (s : Str) : Str := s ++ List.replicate (width - s.length) ' '

/-- One line of the summary; `fixed` is `%.3f`. -/
def SyscallStat.line (fixed : δ → Str) (r : SyscallStat δ) : Str :=
  padRight 13 (lookupSyscallName r.sysno) ++ ' ' :: padRight 7 (toString r.calls).toList ++ ' ' ::
    fixed r.totalTime ++ "s\n".toList

/-- The first line of the summary. -/
def summaryHeader : Str :=
  padRight 13 "syscall".toList ++ ' ' :: padRight 7 "calls".toList ++ " time\n".toList

/-- `print_summary`. -/
def printSummary (fixed : δ → Str) (s : Stats δ) (w : World) : World :=
  w.eprint (summaryHeader ++ (summaryRows s).flatMap (·.line fixed))

end UnixCShell.Snoop
