import UnixCShell.Redirection.Basic

/-!
# Jobs

`jobs.c`: the job table, the queue of wait events and the two loops that empty it. At the prompt,
`jobs_process_pending` gives every event to `handle_tracked_event`, which updates the table. While
a job runs in the foreground, `jobs_wait_foreground` keeps its own account of the processes it
waits for, and gives only the events of other processes to `handle_tracked_event`.
-/

namespace UnixCShell

open Lib

namespace World

/-! ## Notifications -/

/-- `queue_notification`; a message is cut to the 255 bytes that fit. -/
def queueNotification (w : World) (msg : Str) : World :=
  if w.notifs.length < notifMax then { w with notifs := w.notifs ++ [msg.take 255] } else w

/-- `jobs_flush_notifications`. -/
def jobsFlushNotifications (w : World) : World :=
  { w.print (w.notifs.flatMap fun msg => msg ++ ['\n']) with notifs := [] }

/-! ## The table -/

/-- `jobs_register`; the result is the number of the new job, `-1` if the table is full. -/
def jobsRegister (w : World) (pgid : Int) (procs : List (Int × Str)) (cmdline : Str)
    (background : Bool) (state : JobState) : World × Int :=
  match w.jobs.firstFree with
  | none => (w, -1)
  | some slot =>
    let job : Job :=
      { jobNumber := w.nextJobNumber
        pgid := pgid
        procs := (procs.take jobMaxProcs).map fun p => ⟨p.1, p.2, false⟩
        cmdline := cmdline
        state := state
        background := background }
    ({ w with jobs := w.jobs.set slot (some job), nextJobNumber := w.nextJobNumber + 1 },
      w.nextJobNumber)

/-- `jobs_find_by_number`. -/
def jobsFindByNumber (w : World) (jobNumber : Int) : Option (Fin jobsMax) :=
  w.jobs.findSlot fun j => j.jobNumber = jobNumber

/-- `jobs_find_by_pid`; the index of the process is left to the caller. -/
def jobsFindByPid (w : World) (pid : Int) : Option (Fin jobsMax) :=
  w.jobs.findSlot fun j => j.procs.any fun p => p.pid = pid

/-- `jobs_remove`. -/
def jobsRemove (w : World) (jobNumber : Int) : World :=
  match w.jobsFindByNumber jobNumber with
  | none => w
  | some slot => { w with jobs := w.jobs.set slot none }

end World

/-- `j->done[idx] = 1`, where `idx` is the first process with this pid. -/
def Job.finish (j : Job) (pid : Int) : Job :=
  { j with procs := j.procs.modify (j.procs.findIdx fun p => p.pid = pid) fun p =>
      { p with done := true } }

/-- `all_done`. -/
def Job.allDone (j : Job) : Bool := j.procs.all (·.done)

/-- The message about a background job that has finished. -/
def Job.message (j : Job) (status : WaitStatus) : Str :=
  let how := match status with
    | .signaled _ => "abnormally"
    | _ => "normally"
  (j.procs.head?.map (·.name)).getD [] ++ " with pid ".toList ++
    (toString ((j.procs.head?.map (·.pid)).getD 0)).toList ++ " exited ".toList ++ how.toList

namespace World

/-- A background job that has finished is announced. -/
def announce (w : World) (j : Job) (status : WaitStatus) : World :=
  if j.background then w.queueNotification (j.message status) else w

/-- The end of `handle_tracked_event`: a process of the job in `slot` is gone. -/
def finishProc (w : World) (slot : Fin jobsMax) (j : Job) (e : WaitEvent) : World :=
  let j := j.finish e.1
  let w := { w with jobs := w.jobs.set slot (some j) }
  if j.allDone then (w.announce j e.2).jobsRemove j.jobNumber else w

/-- `handle_tracked_event` behind its first line: what an event does to the job table. -/
def trackJob (w : World) (e : WaitEvent) : World :=
  match w.jobsFindByPid e.1 with
  | none => w
  | some slot =>
    match w.jobs.cell slot with
    | none => w
    | some j =>
      match e.2 with
      | .stopped _ => { w with jobs := w.jobs.set slot (some { j with state := .stopped }) }
      | .continued => { w with jobs := w.jobs.set slot (some { j with state := .running }) }
      | _ => w.finishProc slot j e

/-- `handle_tracked_event`. -/
def handleTrackedEvent (w : World) (e : WaitEvent) : World := (w.outregFinalize e.1).trackJob e

/-- `jobs_process_pending`. -/
def jobsProcessPending (w : World) : World :=
  w.pending.foldl handleTrackedEvent { w with pending := [] }

end World

/-! ## Waiting in the foreground -/

/-- The variables of `jobs_wait_foreground`: `done_local`, `done_count` and `stopped`. -/
structure Waiter where
  done      : List Bool
  doneCount : Nat
  stopped   : Bool
  deriving DecidableEq, Repr

namespace Waiter

/-- The variables before the loop. -/
def start (pids : List Int) : Waiter := ⟨List.replicate pids.length false, 0, false⟩

/-- The loop goes on. -/
def waiting (l : Waiter) (pids : List Int) : Bool := l.doneCount < pids.length && !l.stopped

/-- `idx`: the first process with this pid that has not finished. -/
def index (l : Waiter) (pids : List Int) (pid : Int) : Option Nat :=
  (List.range pids.length).find? fun i => pids[i]? = some pid && l.done[i]? = some false

end Waiter

namespace World

/-- The body of the loop behind `take_pending`. -/
def waitEvent (w : World) (pids : List Int) (l : Waiter) (e : WaitEvent) : World × Waiter :=
  match l.index pids e.1 with
  | some idx =>
    match e.2 with
    | .stopped _ => (w, { l with stopped := true })
    | .continued => (w, l)
    | _ => (w.outregFinalize e.1,
        { l with done := l.done.set idx true, doneCount := l.doneCount + 1 })
  | none => (w.handleTrackedEvent e, l)

/-! ### What the event handlers leave alone -/

theorem announce_frame (w : World) (j : Job) (status : WaitStatus) :
    ∃ notifs, w.announce j status = { w with notifs := notifs } := by
  unfold announce queueNotification
  split
  · split <;> exact ⟨_, rfl⟩
  · exact ⟨_, rfl⟩

theorem jobsRemove_frame (w : World) (jobNumber : Int) :
    ∃ jobs, w.jobsRemove jobNumber = { w with jobs := jobs } := by
  unfold jobsRemove
  split <;> exact ⟨_, rfl⟩

theorem finishProc_frame (w : World) (slot : Fin jobsMax) (j : Job) (e : WaitEvent) :
    ∃ jobs notifs, w.finishProc slot j e = { w with jobs := jobs, notifs := notifs } := by
  simp only [finishProc]
  split
  · obtain ⟨notifs, h₁⟩ := announce_frame { w with jobs := w.jobs.set slot (some (j.finish e.1)) }
      (j.finish e.1) e.2
    obtain ⟨jobs, h₂⟩ :=
      jobsRemove_frame ({ w with jobs := w.jobs.set slot (some (j.finish e.1)) }.announce
      (j.finish e.1) e.2) (j.finish e.1).jobNumber
    rw [h₂, h₁]
    exact ⟨_, _, rfl⟩
  · exact ⟨_, _, rfl⟩

theorem trackJob_frame (w : World) (e : WaitEvent) :
    ∃ jobs notifs, w.trackJob e = { w with jobs := jobs, notifs := notifs } := by
  unfold trackJob
  split
  · exact ⟨_, _, rfl⟩
  · split
    · exact ⟨_, _, rfl⟩
    · split
      · exact ⟨_, _, rfl⟩
      · exact ⟨_, _, rfl⟩
      · exact finishProc_frame ..

theorem handleTrackedEvent_frame (w : World) (e : WaitEvent) :
    ∃ fs registry jobs notifs, w.handleTrackedEvent e =
      { w with fs := fs, registry := registry, jobs := jobs, notifs := notifs } := by
  obtain ⟨fs, registry, h₁⟩ := w.outregFinalize_frame e.1
  obtain ⟨jobs, notifs, h₂⟩ := (w.outregFinalize e.1).trackJob_frame e
  rw [handleTrackedEvent, h₂, h₁]
  exact ⟨_, _, _, _, rfl⟩

theorem waitEvent_frame (w : World) (pids : List Int) (l : Waiter) (e : WaitEvent) :
    ∃ fs registry jobs notifs, (w.waitEvent pids l e).1 =
      { w with fs := fs, registry := registry, jobs := jobs, notifs := notifs } := by
  unfold waitEvent
  split
  · split
    · exact ⟨_, _, _, _, rfl⟩
    · exact ⟨_, _, _, _, rfl⟩
    · obtain ⟨fs, registry, h⟩ := w.outregFinalize_frame e.1
      exact ⟨fs, registry, w.jobs, w.notifs, h⟩
  · exact handleTrackedEvent_frame w e

theorem sigchldHandler_frame (w : World) (es : List WaitEvent) :
    ∃ children pending, w.sigchldHandler es =
      { w with children := children, pending := pending } := by
  induction es generalizing w with
  | nil => exact ⟨_, _, rfl⟩
  | cons e es ih =>
    rw [sigchldHandler]
    obtain ⟨children, pending, h⟩ := ih ((w.collect e).enqueue e)
    rw [h]
    unfold enqueue collect
    split <;> split <;> exact ⟨_, _, rfl⟩

/-- The loop of `jobs_wait_foreground`, without the abort flag. An empty queue is refilled by the
next signals; if no signal will ever come, the shell waits forever (`error`). -/
def waitLoop (w : World) (pids : List Int) (l : Waiter) : Except World (World × Waiter) :=
  if l.waiting pids then
    match _ : w.pending with
    | e :: es =>
      let r := { w with pending := es }.waitEvent pids l e
      waitLoop r.1 pids r.2
    | [] =>
      match _ : w.arrivals with
      | [] => .error w
      | es :: rest => waitLoop ({ w with arrivals := rest }.sigchldHandler es) pids l
  else .ok (w, l)
termination_by (w.arrivals.length, w.pending.length)
decreasing_by
  · obtain ⟨_, _, _, _, h⟩ := waitEvent_frame { w with pending := es } pids l e
    have _ : r.1 = _ := h
    simp_all [Prod.lex_def]
  · obtain ⟨_, _, h⟩ := sigchldHandler_frame { w with arrivals := rest } es
    simp_all [Prod.lex_def]

end World

end UnixCShell
