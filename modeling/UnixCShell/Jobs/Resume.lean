import Mathlib.Algebra.Group.Int.Defs
import Mathlib.Algebra.GroupWithZero.Nat
import UnixCShell.Pipeline.Basic

/-!
# The command `resume`

`resume.c`. The job is continued; `resume %n bg` leaves it at that, `resume %n fg` waits for it with
`jobs_wait_foreground`, if asked to for a limited time. The function is cut at the wait, which other
modules take one event at a time.
-/

namespace UnixCShell

/-! ## Arguments -/

/-- `isspace`. -/
def isSpace (c : Char) : Bool := c.toNat = 32 || (9 ≤ c.toNat && c.toNat ≤ 13)

/-- `strtol(s, &endp, 10)`: the number, which is clamped to 64 bits, and the string at `endp`. -/
def strtol (s : Str) : Int × Str :=
  let (negative, body) := match s.dropWhile isSpace with
    | '-' :: cs => (true, cs)
    | '+' :: cs => (false, cs)
    | cs => (false, cs)
  match body.takeWhile Char.isDigit with
  | [] => (0, s)
  | digits =>
    let n : Int := digits.foldl (fun n c => 10 * n + (c.toNat - '0'.toNat)) 0
    (max (-2 ^ 63) (min (2 ^ 63 - 1) (if negative then -n else n)), body.dropWhile Char.isDigit)

/-- The arguments of `resume`; `timeout` is `none` where the C variable is `-1`. -/
structure ResumeArgs where
  jobNumber : Int
  isFg      : Bool
  timeout   : Option Int
  deriving DecidableEq, Repr

/-- The first half of `run_resume`; `none` is `resume: invalid syntax`. What follows `bg` or a
complete `--timeout` is an error, and the number of the job is cut to 32 bits. -/
def parseResume (args : List Str) : Option ResumeArgs :=
  match args with
  | ('%' :: c :: cs) :: mode :: rest =>
    match strtol (c :: cs) with
    | (number, []) =>
      let number := number.bmod (2 ^ 32)
      if mode = "fg".toList then
        match rest with
        | [] => some ⟨number, true, none⟩
        | [option, seconds] =>
          match strtol seconds with
          | (timeout, []) =>
            if option = "--timeout".toList ∧ seconds ≠ [] ∧ 0 ≤ timeout then
              some ⟨number, true, some timeout⟩
            else none
          | _ => none
        | _ => none
      else if mode = "bg".toList ∧ rest = [] then some ⟨number, false, none⟩
      else none
    | _ => none
  | _ => none

namespace World

/-! ## Around the wait -/

/-- The second half of `run_resume` up to the wait: the job to wait for, if any. -/
def startResume (w : World) (jobNumber : Int) (isFg : Bool) : World × Option Job :=
  match w.jobsFindByNumber jobNumber with
  | none => (w.eprint "resume: no such job\n".toList, none)
  | some slot =>
    match w.jobs.cell slot with
    | none => (w, none)
    | some j =>
      let w := w.kill (-j.pgid) sigcont
      let w := { w with jobs := w.jobs.set slot (some { j with state := .running }) }
      if isFg then ((w.print (j.cmdline ++ "\n".toList)).termGiveTo j.pgid, some j)
      else
        (w.print ("[".toList ++ (toString j.jobNumber).toList ++ "] + Running    ".toList ++
          j.cmdline ++ "\n".toList), none)

/-- `job->state = JOB_STOPPED` for the job with this number, if there is one. -/
def markStopped (w : World) (jobNumber : Int) : World :=
  match w.jobsFindByNumber jobNumber with
  | none => w
  | some slot =>
    match w.jobs.cell slot with
    | none => w
    | some j => { w with jobs := w.jobs.set slot (some { j with state := .stopped }) }

/-- The rest of `run_resume`, up to the call of `jobs_flush_notifications`. -/
def settleResume (w : World) (j : Job) (l : Waiter) (timedOut : Bool) : World :=
  let w := w.termReclaim
  if timedOut && !l.stopped && l.doneCount < j.procs.length then
    let w := (w.kill (-j.pgid) sigterm).print "resume: job timed out\n".toList
    w.jobsRemove j.jobNumber
  else if l.stopped then
    (w.markStopped j.jobNumber).printStopped j.jobNumber (j.cmdline.take 1023)
  else ((j.procs.map (·.pid)).foldl outregFinalize w).jobsRemove j.jobNumber

/-- The rest of `run_resume`. -/
def afterResume (w : World) (j : Job) (l : Waiter) (timedOut : Bool) : World :=
  (w.settleResume j l timedOut).jobsFlushNotifications

end World

end UnixCShell
