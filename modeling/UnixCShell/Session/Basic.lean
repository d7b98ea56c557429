import UnixCShell.Jobs.Resume
import UnixCShell.Lib.Runs

/-!
# Sessions

The shell as a state machine. A step is what happens between two points at which a signal can come
in: one stage of a pipeline, one event of `jobs_wait_foreground`, one call of
`jobs_process_pending`. The runs of the `SIGCHLD` handler are steps as well, so that a run of the
machine is an interleaving of the shell with its children.

Next to the state of the shell there is a record that the shell does not have: the events that it
has taken from the queue so far.
-/

namespace UnixCShell

open Lib

/-- What `jobs_wait_foreground` is called for: by `launch_group`, or by `run_resume`, which works on
a copy of the job. -/
inductive Awaited where
  | launch (l : Launch) (cmdline : Str)
  | job (j : Job)
  deriving DecidableEq

/-- The argument of `jobs_wait_foreground`. -/
def Awaited.pids : Awaited → List Int
  | .launch l _ => l.procs.map Prod.fst
  | .job j => j.procs.map (·.pid)

/-- Where the shell is: not in a command, in the loop of `launch_group`, or in that of
`jobs_wait_foreground`. The flags of the last say that an alarm has been set, and that it has gone
off. -/
inductive Control where
  | idle
  | forking (todo : List (Stage × Nat)) (numCmds : Nat) (pipes : List (Nat × Nat)) (l : Launch)
      (cmdline : Str) (background : Bool)
  | waiting (on : Awaited) (l : Waiter) (alarm timedOut : Bool)
  deriving DecidableEq

structure Session where
  world    : World
  control  : Control
  /-- The events that have been taken from the queue. -/
  consumed : List WaitEvent

/-- The steps. -/
inductive Act where
  /-- The `SIGCHLD` handler runs and finds these events. -/
  | signals (es : List WaitEvent)
  /-- The alarm of `resume` goes off. -/
  | alarm
  | processPending
  | flush
  | launch (group : List Token) (background : Bool)
  /-- The next stage of a pipeline; `fork` returns `pid` if it is called. -/
  | stage (pid : Option Nat)
  /-- The end of the loop of `launch_group`. -/
  | started
  /-- One event of `jobs_wait_foreground`. -/
  | wait
  /-- The end of the loop of `jobs_wait_foreground`. -/
  | finish
  | resume (args : List Str)
  deriving DecidableEq

/-- The events can be found by `waitpid`: each is about a child that has not been reaped. -/
def World.Reapable (w : World) : List WaitEvent → Prop
  | [] => True
  | e :: es =>
    (∃ c ∈ w.children, c.pid = e.1 ∧ c.reaped = false) ∧ ((w.collect e).enqueue e).Reapable es

instance World.Reapable.instDecidable (w : World) : ∀ es, Decidable (w.Reapable es)
  | [] => .isTrue trivial
  | e :: es =>
    have := instDecidable ((w.collect e).enqueue e) es
    inferInstanceAs (Decidable (_ ∧ _))

namespace Session

/-- `SIGCHLD` is blocked in `jobs_wait_foreground` while the queue is not empty. -/
def Unblocked (s : Session) : Prop :=
  match s.control with
  | .waiting .. => s.world.pending = []
  | _ => True

instance (s : Session) : Decidable s.Unblocked :=
  match h : s.control with
  | .waiting .. => decidable_of_iff (s.world.pending = []) (by simp [Unblocked, h])
  | .idle | .forking .. => .isTrue (by simp [Unblocked, h])

/-- `launch_group` up to its loop. -/
def launch (s : Session) (group : List Token) (background : Bool) : Session :=
  let todo := stages group
  let (w, pipes) := s.world.makePipes (todo.length - 1)
  { s with
    world := w
    control := .forking todo.zipIdx todo.length pipes {} (buildCmdline 1024 [] group) background }

/-- `launch_group` behind its loop: it returns, or it goes on to wait. -/
def started (s : Session) (pipes : List (Nat × Nat)) (l : Launch) (cmdline : Str)
    (background : Bool) :
    Session :=
  let w := { s.world with fds := s.world.fds.closePipes pipes }
  if l.procs = [] then { s with world := w, control := .idle }
  else if background then { s with world := w.startBackground l cmdline, control := .idle }
  else
    { s with
      world := w.termGiveTo l.pgid
      control := .waiting (.launch l cmdline) (.start (l.procs.map Prod.fst)) false false }

/-- `run_resume` up to the wait. -/
def resume (s : Session) (args : List Str) : Session :=
  match parseResume args with
  | none => { s with world := s.world.eprint "resume: invalid syntax\n".toList }
  | some r =>
    match s.world.startResume r.jobNumber r.isFg with
    | (w, none) => { s with world := w }
    | (w, some j) =>
      -- `alarm(0)` sets no alarm
      let alarm := (r.timeout.getD 0) % 2 ^ 32 ≠ 0
      { s with
        world := w
        control := .waiting (.job j) (.start (j.procs.map (·.pid))) alarm false }

/-- What follows `jobs_wait_foreground`, up to the call of `jobs_flush_notifications`. -/
def settle (s : Session) (on : Awaited) (l : Waiter) (timedOut : Bool) : World :=
  match on with
  | .launch launch cmdline => s.world.settleForeground launch cmdline l.stopped
  | .job j => s.world.settleResume j l timedOut

/-- What follows `jobs_wait_foreground`. -/
def finish (s : Session) (on : Awaited) (l : Waiter) (timedOut : Bool) : Session :=
  let w := match on with
    | .launch launch cmdline => s.world.afterForeground launch cmdline l.stopped
    | .job j => s.world.afterResume j l timedOut
  { s with world := w, control := .idle }

/-- One step. The pid of a child that has not been reaped is not given to another one. -/
def step (s : Session) (a : Act) : Option Session :=
  match a, s.control with
  | .signals es, _ =>
    if s.world.Reapable es ∧ s.Unblocked then some
      { s with world := s.world.sigchldHandler es } else none
  | .alarm, .waiting on l true _ => some { s with control := .waiting on l true true }
  | .processPending, .idle =>
    some { s with world := s.world.jobsProcessPending, consumed := s.consumed ++ s.world.pending }
  | .flush, .idle => some { s with world := s.world.jobsFlushNotifications }
  | .launch group background, .idle => some (s.launch group background)
  | .stage pid, .forking (e :: todo) numCmds pipes l cmdline background =>
    if ∀ c ∈ s.world.children, (pid.map fun n => (n : Int)) = some c.pid → c.reaped then
      let (w, l) := World.launchStage numCmds pipes ({ s.world with forks := [⟨pid, []⟩] }, l) e
      some { s with
        world := { w with forks := [] }
        control := .forking todo numCmds pipes l cmdline background }
    else none
  | .started, .forking [] _ pipes l cmdline background =>
    some (s.started pipes l cmdline background)
  | .wait, .waiting on l alarm timedOut =>
    if l.waiting on.pids then
      match s.world.pending with
      | [] => none
      | e :: es =>
        let (w, l) := { s.world with pending := es }.waitEvent on.pids l e
        some ⟨w, .waiting on l alarm timedOut, s.consumed ++ [e]⟩
    else none
  | .finish, .waiting on l _ timedOut =>
    if l.waiting on.pids && !timedOut then none else some (s.finish on l timedOut)
  | .resume args, .idle => some (s.resume args)
  | _, _ => none

/-- The last thing is that the notifications are printed. -/
theorem finish_flushes (s : Session) (on : Awaited) (l : Waiter) (timedOut : Bool) :
    (s.finish on l timedOut).world = (s.settle on l timedOut).jobsFlushNotifications := by
  cases on <;> rfl

/-- The end of the loop of `launch_group` closes the pipes; what else it does depends on the
group. -/
theorem started_world (s : Session) (pipes : List (Nat × Nat)) (l : Launch) (cmdline : Str)
    (background : Bool) :
    let w := { s.world with fds := s.world.fds.closePipes pipes }
    (s.started pipes l cmdline background).world = w ∨
      (s.started pipes l cmdline background).world = w.startBackground l cmdline ∨
      (s.started pipes l cmdline background).world = w.termGiveTo l.pgid := by
  unfold started
  dsimp only
  split
  · exact .inl rfl
  · split
    · exact .inr (.inl rfl)
    · exact .inr (.inr rfl)

theorem resume_world (s : Session) (args : List Str) :
    (s.resume args).world = s.world.eprint "resume: invalid syntax\n".toList ∨
      ∃ number isFg, (s.resume args).world = (s.world.startResume number isFg).1 := by
  unfold resume
  cases parseResume args with
  | none => exact .inl rfl
  | some r =>
    refine .inr ⟨r.jobNumber, r.isFg, ?_⟩
    dsimp only
    split
    · rename_i hstart
      rw [hstart]
    · rename_i hstart
      rw [hstart]

/-- The steps that are possible, one rule for each. -/
inductive Steps : Session → Act → Session → Prop where
  | signals {s es} (hes : s.world.Reapable es) (hunblocked : s.Unblocked) :
      Steps s (.signals es) { s with world := s.world.sigchldHandler es }
  | alarm {w on l timedOut consumed} :
      Steps ⟨w, .waiting on l true timedOut, consumed⟩ .alarm ⟨w, .waiting on l true true, consumed⟩
  | processPending {w consumed} :
      Steps ⟨w, .idle, consumed⟩ .processPending
        ⟨w.jobsProcessPending, .idle, consumed ++ w.pending⟩
  | flush {w consumed} : Steps ⟨w, .idle, consumed⟩ .flush
      ⟨w.jobsFlushNotifications, .idle, consumed⟩
  | launch {w consumed group background} :
      Steps ⟨w, .idle, consumed⟩ (.launch group background)
        (Session.launch ⟨w, .idle, consumed⟩ group background)
  | stage {w e todo numCmds pipes l cmdline background consumed pid w' l'}
      (hpid : ∀ c ∈ w.children, (pid.map fun n => (n : Int)) = some c.pid → c.reaped)
      (hlaunch : World.launchStage numCmds pipes
        ({ w with forks := [⟨pid, []⟩] }, l) e = (w', l')) :
      Steps ⟨w, .forking (e :: todo) numCmds pipes l cmdline background, consumed⟩ (.stage pid)
        ⟨{ w' with forks := [] }, .forking todo numCmds pipes l' cmdline background, consumed⟩
  | started {w numCmds pipes l cmdline background consumed} :
      Steps ⟨w, .forking [] numCmds pipes l cmdline background, consumed⟩ .started
        (Session.started ⟨w, .forking [] numCmds pipes l cmdline background, consumed⟩ pipes l
          cmdline background)
  | wait {w on l alarm timedOut consumed e es w' l'} (hwaiting : l.waiting on.pids = true)
      (hpending : w.pending = e :: es)
        (hevent : { w with pending := es }.waitEvent on.pids l e = (w', l')) :
      Steps ⟨w, .waiting on l alarm timedOut, consumed⟩ .wait
        ⟨w', .waiting on l' alarm timedOut, consumed ++ [e]⟩
  | finish {w on l alarm timedOut consumed} (hends : (l.waiting on.pids && !timedOut) = false) :
      Steps ⟨w, .waiting on l alarm timedOut, consumed⟩ .finish
        (Session.finish ⟨w, .waiting on l alarm timedOut, consumed⟩ on l timedOut)
  | resume {w consumed args} :
      Steps ⟨w, .idle, consumed⟩ (.resume args) (Session.resume ⟨w, .idle, consumed⟩ args)

theorem steps_of_step {s s' : Session} {a : Act} (h : s.step a = some s') : s.Steps a s' := by
  obtain ⟨w, control, consumed⟩ := s
  unfold step at h
  split at h
  · obtain ⟨⟨hes, hunblocked⟩, heq⟩ := Option.ite_none_right_eq_some.mp h
    cases heq
    exact .signals hes hunblocked
  · next hc =>
    cases hc
    cases h
    exact .alarm
  · next hc =>
    cases hc
    cases h
    exact .processPending
  · next hc =>
    cases hc
    cases h
    exact .flush
  · next hc =>
    cases hc
    cases h
    exact .launch
  · next hc =>
    cases hc
    obtain ⟨hpid, heq⟩ := Option.ite_none_right_eq_some.mp h
    cases heq
    exact .stage hpid rfl
  · next hc =>
    cases hc
    cases h
    exact .started
  · next hc =>
    cases hc
    obtain ⟨hwaiting, hevent⟩ := Option.ite_none_right_eq_some.mp h
    cases hpending : w.pending with
    | nil =>
      rw [hpending] at hevent
      cases hevent
    | cons e es =>
      rw [hpending] at hevent
      cases hevent
      exact .wait hwaiting hpending rfl
  · next hc =>
    cases hc
    obtain ⟨hends, heq⟩ := Option.ite_none_left_eq_some.mp h
    cases heq
    exact .finish (Bool.not_eq_true _ ▸ hends)
  · next hc =>
    cases hc
    cases h
    exact .resume
  · cases h

/-- A session that begins. -/
def init (w : World) : Session := ⟨w, .idle, []⟩

end Session

end UnixCShell
