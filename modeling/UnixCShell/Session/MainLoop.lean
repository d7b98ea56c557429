import UnixCShell.Session.Notifications
import UnixCShell.Session.Stdout

/-!
# The main loop

`main.c` around the machine of `Session.Basic`. The loop prints the notifications and the prompt,
and waits in `getline`. If a signal interrupts `getline`, the events that have come in are handled,
and the loop starts again; otherwise a line is executed.

Next to the state there is a record of two things that the shell does not keep: the messages about
the background jobs that were taken from the table, and the text that `jobs_flush_notifications` has
written to the standard output.
-/

namespace UnixCShell

open Lib

namespace World

/-- `jobs_init`. -/
def jobsInit (w : World) : World :=
  { w with jobs := .empty, nextJobNumber := 1, pending := [], notifs := [] }

/-- `jobs_has_stopped`. -/
def jobsHasStopped (w : World) : Bool := (w.jobs.findSlot fun j => j.state = .stopped).isSome

end World

/-- Where the loop is: at its top, in `getline`, in `jobs_process_pending`, in `exec_cmd`, or behind
its end. -/
inductive Phase where
  | top
  | reading
  | draining
  | executing
  | exited
  deriving DecidableEq, Repr

structure Main where
  session   : Session
  phase     : Phase
  eofWarned : Bool

inductive MainAct where
  /-- The `SIGCHLD` handler runs and finds these events. -/
  | signals (es : List WaitEvent)
  /-- The top of the loop, up to `getline`. -/
  | prompt
  /-- A signal interrupts `getline`. -/
  | interrupted
  /-- One event of `jobs_process_pending`, or its end. -/
  | drain
  /-- The end of the input. -/
  | eof
  /-- `getline` returns a line. -/
  | line
  /-- A step of a command. -/
  | exec (a : Act)
  /-- The line has been executed. -/
  | done
  deriving DecidableEq

/-- What a command can do. Neither does it call `jobs_process_pending`, nor does it flush the
notifications but at the end of a wait. -/
def Act.ofCommand : Act → Bool
  | .signals _ | .processPending | .flush => false
  | .alarm | .launch .. | .stage _ | .started | .wait | .finish | .resume _ => true

/-- The steps in which `jobs_flush_notifications` is called. -/
def MainAct.flushes : MainAct → Bool
  | .prompt | .exec .finish => true
  | _ => false

namespace Main

def world (s : Main) : World := s.session.world

/-- The same, in another world. -/
def withWorld (s : Main) (w : World) : Main := { s with session := { s.session with world := w } }

/-- One step. `SIGCHLD` is blocked in `jobs_process_pending`. -/
def step (s : Main) (a : MainAct) : Option Main :=
  match a, s.phase with
  | .signals es, phase =>
    if phase = .draining then none
    else (s.session.step (.signals es)).map fun t => { s with session := t }
  | .prompt, .top => some { s.withWorld s.world.jobsFlushNotifications with phase := .reading }
  | .interrupted, .reading => some { s with phase := .draining }
  | .drain, .draining =>
    match s.world.pending with
    | [] => some { s with phase := .top }
    | e :: es =>
      some { s with
        session := ⟨{ s.world with pending := es }.handleTrackedEvent e, s.session.control,
          s.session.consumed ++ [e]⟩ }
  | .eof, .reading =>
    if s.world.jobsHasStopped && !s.eofWarned then
      some { s.withWorld (s.world.eprint "cshell: there are stopped jobs\n".toList) with
        phase := .top, eofWarned := true }
    else some { s.withWorld (s.world.print "\n".toList) with phase := .exited }
  | .line, .reading => some { s with phase := .executing, eofWarned := false }
  | .exec a, .executing =>
    if a.ofCommand then (s.session.step a).map fun t => { s with session := t } else none
  | .done, .executing => if s.session.control = .idle then some { s with phase := .top } else none
  | _, _ => none

/-- The event that `handle_tracked_event` is called for in this step, if it is, and the state before
the call. -/
def handled (s : Main) (a : MainAct) : Option (World × WaitEvent) :=
  match a, s.phase, s.session.control, s.world.pending with
  | .drain, .draining, _, e :: es => some ({ s.world with pending := es }, e)
  | .exec .wait, .executing, .waiting on l _ _, e :: es =>
    if l.waiting on.pids ∧ l.index on.pids e.1 = none then some ({ s.world with pending := es }, e)
    else none
  | _, _, _, _ => none

/-- The messages about the background jobs that this step takes from the table because all their
processes have finished. -/
def notices (s : Main) (a : MainAct) : List Str :=
  match s.handled a with
  | some (w, e) => (w.completed e).toList.map fun j => (j.message e.2).take 255
  | none => []

/-- The state in which `jobs_flush_notifications` is called in this step, if it is. -/
def flushing (s : Main) (a : MainAct) : Option World :=
  match a, s.phase, s.session.control with
  | .prompt, .top, _ => some s.world
  | .exec .finish, .executing, .waiting on l _ timedOut => some (s.session.settle on l timedOut)
  | _, _, _ => none

/-- What `jobs_flush_notifications` adds to the standard output in the step from `s` to `s'`. -/
def flushed (s : Main) (a : MainAct) (s' : Main) : Str :=
  match s.flushing a with
  | some w => s'.world.out.drop w.out.length
  | none => []

/-- A shell that has just been started. -/
def init (w : World) : Main := ⟨.init w.jobsInit, .top, false⟩

/-- The steps that are possible, one rule for each. -/
inductive Steps : Main → MainAct → Main → Prop where
  | signals {session phase eofWarned es t} (hphase : phase ≠ .draining)
      (ht : session.step (.signals es) = some t) :
      Steps ⟨session, phase, eofWarned⟩ (.signals es) ⟨t, phase, eofWarned⟩
  | prompt {w control consumed eofWarned} :
      Steps ⟨⟨w, control, consumed⟩, .top, eofWarned⟩ .prompt
        ⟨⟨w.jobsFlushNotifications, control, consumed⟩, .reading, eofWarned⟩
  | interrupted {session eofWarned} :
      Steps ⟨session, .reading, eofWarned⟩ .interrupted ⟨session, .draining, eofWarned⟩
  | drain {w control consumed eofWarned e es} (hpending : w.pending = e :: es) :
      Steps ⟨⟨w, control, consumed⟩, .draining, eofWarned⟩ .drain
        ⟨⟨{ w with pending := es }.handleTrackedEvent e, control, consumed ++ [e]⟩, .draining,
          eofWarned⟩
  | drained {session eofWarned} (hpending : session.world.pending = []) :
      Steps ⟨session, .draining, eofWarned⟩ .drain ⟨session, .top, eofWarned⟩
  | warned {w control consumed} (hstopped : w.jobsHasStopped = true) :
      Steps ⟨⟨w, control, consumed⟩, .reading, false⟩ .eof
        ⟨⟨w.eprint "cshell: there are stopped jobs\n".toList, control, consumed⟩, .top, true⟩
  | eof {w control consumed eofWarned} (hwarned : w.jobsHasStopped = true → eofWarned = true) :
      Steps ⟨⟨w, control, consumed⟩, .reading, eofWarned⟩ .eof
        ⟨⟨w.print "\n".toList, control, consumed⟩, .exited, eofWarned⟩
  | line {session eofWarned} :
      Steps ⟨session, .reading, eofWarned⟩ .line ⟨session, .executing, false⟩
  | exec {session eofWarned b t} (hb : b.ofCommand = true) (ht : session.step b = some t) :
      Steps ⟨session, .executing, eofWarned⟩ (.exec b) ⟨t, .executing, eofWarned⟩
  | done {session eofWarned} (hidle : session.control = .idle) :
      Steps ⟨session, .executing, eofWarned⟩ .done ⟨session, .top, eofWarned⟩

theorem steps_of_step {s s' : Main} {a : MainAct} (h : s.step a = some s') : s.Steps a s' := by
  obtain ⟨session, phase, eofWarned⟩ := s
  cases a with
  | signals es =>
    simp only [step, Option.ite_none_left_eq_some, Option.map_eq_some_iff] at h
    obtain ⟨hphase, t, ht, rfl⟩ := h
    exact .signals hphase ht
  | prompt =>
    cases phase with
    | top =>
      cases h
      exact .prompt
    | reading | draining | executing | exited => cases h
  | interrupted =>
    cases phase with
    | reading =>
      cases h
      exact .interrupted
    | top | draining | executing | exited => cases h
  | drain =>
    cases phase with
    | draining =>
      simp only [step, world] at h
      split at h
      · next hpending =>
        cases h
        exact .drained hpending
      · next e es hpending =>
        cases h
        exact .drain hpending
    | top | reading | executing | exited => cases h
  | eof =>
    cases phase with
    | reading =>
      simp only [step] at h
      split at h
      · next hwarn =>
        cases h
        obtain ⟨hstopped, rfl⟩ : session.world.jobsHasStopped = true ∧ eofWarned = false := by
          simpa [world] using hwarn
        exact .warned hstopped
      · next hwarn =>
        cases h
        exact .eof (by simpa [world] using hwarn)
    | top | draining | executing | exited => cases h
  | line =>
    cases phase with
    | reading =>
      cases h
      exact .line
    | top | draining | executing | exited => cases h
  | exec b =>
    cases phase with
    | executing =>
      simp only [step, Option.ite_none_right_eq_some, Option.map_eq_some_iff] at h
      obtain ⟨hb, t, ht, rfl⟩ := h
      exact .exec hb ht
    | top | reading | draining | exited => cases h
  | done =>
    cases phase with
    | executing =>
      simp only [step, Option.ite_none_right_eq_some] at h
      obtain ⟨hidle, heq⟩ := h
      cases heq
      exact .done hidle
    | top | reading | draining | exited => cases h

end Main

/-- The shell with the record. -/
structure Recorded where
  main      : Main
  announced : List Str
  printed   : Str

namespace Recorded

def step (s : Recorded) (a : MainAct) : Option Recorded :=
  (s.main.step a).map fun m =>
    { main := m
      announced := s.announced ++ s.main.notices a
      printed := s.printed ++ s.main.flushed a m }

def init (w : World) : Recorded := ⟨.init w, [], []⟩

end Recorded

/-! ## The steps of a command -/

namespace World

/-- The job table and the queue are the same. -/
structure SameBoard (w w' : World) : Prop where
  jobs   : w'.jobs = w.jobs
  next   : w'.nextJobNumber = w.nextJobNumber
  notifs : w'.notifs = w.notifs

theorem SameBoard.sigchldHandler (w : World) (es : List WaitEvent) :
    w.SameBoard (w.sigchldHandler es) := by
  obtain ⟨_, _, h⟩ := w.sigchldHandler_frame es
  rw [h]
  exact ⟨rfl, rfl, rfl⟩

theorem SameBoard.print (w : World) (text : Str) : w.SameBoard (w.print text) := by
  unfold World.print
  split <;> exact ⟨rfl, rfl, rfl⟩

/-- An event of a process that is waited for. -/
theorem SameBoard.waitEvent {w : World} {pids : List Int} {l : Waiter} {e : WaitEvent} {k : Nat}
    (hidx : l.index pids e.1 = some k) : w.SameBoard (w.waitEvent pids l e).1 := by
  obtain ⟨pid, status⟩ := e
  unfold World.waitEvent
  rw [hidx]
  cases status with
  | stopped | continued => exact ⟨rfl, rfl, rfl⟩
  | exited | signaled =>
    obtain ⟨_, _, h⟩ := w.outregFinalize_frame pid
    simp only [h]
    exact ⟨rfl, rfl, rfl⟩

end World

/-- The shell is in `jobs_wait_foreground`. -/
def Control.isWaiting : Control → Bool
  | .waiting .. => true
  | _ => false

namespace Session

variable {s s' : Session}

theorem started_notifs (pipes : List (Nat × Nat)) (l : Launch) (cmdline : Str) (background : Bool) :
    (s.started pipes l cmdline background).world.notifs = s.world.notifs := by
  rcases s.started_world pipes l cmdline background with h | h | h <;> rw [h]
  · simp [World.startBackground]
  · simp

theorem started_numbered (h : s.world.ledger.Numbered) (pipes : List (Nat × Nat))
    (l : Launch) (cmdline : Str) (background : Bool) :
    (s.started pipes l cmdline background).world.ledger.Numbered := by
  rcases s.started_world pipes l cmdline background with hw | hw | hw <;> rw [hw]
  · exact h
  · simp only [World.startBackground, World.ledger_print]
    exact Ledger.Numbered.jobsRegister
      (w := { s.world with fds := s.world.fds.closePipes pipes }) h ..
  · rw [World.ledger_termGiveTo]
    exact h

/-- A stage of a pipeline. -/
theorem stage_numbered {w : World} (h : w.ledger.Numbered) (l : Launch) (pid : Option Nat)
    (e : Stage × Nat) (numCmds : Nat) (pipes : List (Nat × Nat)) :
    (World.launchStage numCmds pipes ({ w with forks := [⟨pid, []⟩] }, l) e).1.ledger.Numbered := by
  rcases w.launchStage_ledger l pid e numCmds pipes with ⟨hw, -⟩ | ⟨_, hw, -⟩ | ⟨_, _, -, hw, -⟩
  · rw [hw]
    exact h
  · rw [hw]
    exact h
  · rw [hw]
    exact h.congr rfl rfl

/-- Outside of `jobs_wait_foreground`, a command does not touch the queue. -/
theorem step_notifs {a : Act} (hstep : s.step a = some s') (hc : s.control.isWaiting = false)
    (ha : a.ofCommand = true) (h : s.world.ledger.Numbered) :
    s'.world.ledger.Numbered ∧ s'.world.notifs = s.world.notifs := by
  cases steps_of_step hstep with
  | signals | processPending | flush => cases ha
  | alarm | wait | finish => cases hc
  | @launch w consumed group background =>
    refine ⟨?_, w.notifs_makePipes _⟩
    rw [Session.launch, World.ledger_makePipes]
    exact h
  | @stage w e todo numCmds pipes l cmdline background consumed pid w' l' _ hlaunch =>
    have hnumbered := stage_numbered h l pid e numCmds pipes
    have hnotifs := World.notifs_launchStage { w with forks := [⟨pid, []⟩] } l e numCmds pipes
    rw [hlaunch] at hnumbered hnotifs
    exact ⟨hnumbered, hnotifs⟩
  | started => exact ⟨started_numbered h .., started_notifs ..⟩
  | @resume w consumed args =>
    rcases resume_world ⟨w, .idle, consumed⟩ args with hw | ⟨number, isFg, hw⟩
    · rw [hw]
      exact ⟨h, rfl⟩
    · rw [hw]
      exact ⟨h.startResume number isFg, w.notifs_startResume number isFg⟩

theorem finish_world (h : s.world.ledger.Numbered) (on : Awaited) (l : Waiter) (timedOut : Bool) :
    (s.finish on l timedOut).world.ledger.Numbered ∧
      (s.finish on l timedOut).world.notifs = [] := by
  cases on with
  | launch launch cmdline => exact ⟨h.afterForeground .., rfl⟩
  | job j => exact ⟨h.afterResume .., rfl⟩

/-- Up to the flush, the end of a wait leaves the queue alone. -/
theorem settle_notifs (s : Session) (on : Awaited) (l : Waiter) (timedOut : Bool) :
    (s.settle on l timedOut).notifs = s.world.notifs := by
  cases on with
  | launch launch cmdline =>
    simp only [settle, World.settleForeground]
    split <;> simp [World.termReclaim]
  | job j =>
    simp only [settle, World.settleResume]
    split
    · simp [World.termReclaim, World.kill]
    · split <;> simp [World.termReclaim]

end Session

/-! ## The invariant -/

namespace Main

/-- The queue has just been flushed, and no event has been handled since. -/
def quiet (s : Main) : Bool :=
  match s.phase with
  | .reading => true
  | .executing => !s.session.control.isWaiting
  | _ => false

/-- Each message in the queue stands for a slot of the job table that has become free since the last
flush. -/
structure Inv (s : Main) : Prop where
  numbered : s.world.ledger.Numbered
  room     : s.world.notifs.length + s.world.jobs.used.card ≤ notifMax
  quiet    : s.quiet = true → s.world.notifs = []
  idle     : s.phase ≠ .executing → s.session.control = .idle

variable {s s' : Main} {a : MainAct}

theorem room_of_nil {w : World} (h : w.notifs = []) :
    w.notifs.length + w.jobs.used.card ≤ notifMax := by
  rw [h, List.length_nil, Nat.zero_add]
  exact w.jobs.card_used_le

theorem Inv.init (w : World) : (Main.init w).Inv :=
  ⟨.empty rfl, room_of_nil rfl, fun _ => rfl, fun _ => rfl⟩

/-- A state with an empty queue. -/
theorem Inv.of_nil (hnumbered : s.world.ledger.Numbered) (hnil : s.world.notifs = [])
    (hidle : s.phase ≠ .executing → s.session.control = .idle) : s.Inv :=
  ⟨hnumbered, room_of_nil hnil, fun _ => hnil, hidle⟩

/-- A state with the same table and the same queue. -/
theorem Inv.of_same (h : s.Inv) (hsame : s.world.SameBoard s'.world)
    (hquiet : s'.quiet = true → s.quiet = true)
    (hidle : s'.phase ≠ .executing → s'.session.control = .idle) : s'.Inv := by
  obtain ⟨hjobs, hnext, hnotifs⟩ := hsame
  refine ⟨h.numbered.congr hjobs hnext, ?_, ?_, hidle⟩
  · rw [hnotifs, hjobs]
    exact h.room
  · intro hq
    rw [hnotifs]
    exact h.quiet (hquiet hq)

/-- What a step does to the queue: it empties it, or it appends the messages that are due. -/
def Queues (s : Main) (a : MainAct) (s' : Main) : Prop :=
  (∀ w e, s.handled a = some (w, e) → w.queues e = true → w.notifs.length < notifMax) ∧
    if a.flushes then s'.world.notifs = [] ∧ s.handled a = none
    else s'.world.notifs = s.world.notifs ++ s.notices a

/-- A step without events and without a flush. -/
theorem Queues.of_same (hhandled : s.handled a = none) (hflush : a.flushes = false)
    (hnotifs : s'.world.notifs = s.world.notifs) : Queues s a s' := by
  constructor
  · intro w e hsome
    rw [hhandled] at hsome
    cases hsome
  · rw [hflush, notices, hhandled]
    simpa using hnotifs

/-- A step in which an event is handled. -/
theorem Inv.handle (h : s.Inv) (e : WaitEvent) (es : List WaitEvent)
    (hhandled : s.handled a = some ({ s.world with pending := es }, e)) (hflush : a.flushes = false)
    (hworld : s'.world = { s.world with pending := es }.handleTrackedEvent e)
    (hquiet : s'.quiet = false) (hidle : s'.phase ≠ .executing → s'.session.control = .idle) :
    s'.Inv ∧ Queues s a s' := by
  have hnumbered : ({ s.world with pending := es } : World).ledger.Numbered :=
    h.numbered.congr rfl rfl
  obtain ⟨hnum, hlt, hnotifs, hroom⟩ := World.handleTrackedEvent_room hnumbered h.room e
  rw [← hworld] at hnum hnotifs hroom
  refine ⟨⟨hnum, hroom, fun hq => ?_, hidle⟩, ?_, ?_⟩
  · rw [hquiet] at hq
    cases hq
  · intro w e' hsome
    rw [hhandled] at hsome
    cases hsome
    exact hlt
  · rw [hflush, notices, hhandled]
    exact hnotifs

/-- The handler. -/
theorem Inv.signals (h : s.Inv) {es : List WaitEvent} {t : Session}
    (hstep : s.session.step (.signals es) = some t) :
    { s with session := t }.Inv ∧ Queues s (.signals es) { s with session := t } := by
  obtain ⟨session, phase, eofWarned⟩ := s
  cases Session.steps_of_step hstep with
  | signals =>
    have hsame := World.SameBoard.sigchldHandler session.world es
    exact ⟨h.of_same hsame id h.idle, .of_same rfl rfl hsame.notifs⟩

/-- One event of `jobs_wait_foreground`. -/
theorem Inv.wait (h : s.Inv) (hphase : s.phase = .executing) {t : Session}
    (hstep : s.session.step .wait = some t) :
    { s with session := t }.Inv ∧ Queues s (.exec .wait) { s with session := t } := by
  obtain ⟨session, phase, eofWarned⟩ := s
  subst hphase
  cases Session.steps_of_step hstep with
  | @wait w on l alarm timedOut consumed e es w' l' hwaiting hpending hevent =>
    cases hidx : l.index on.pids e.1 with
    | none =>
      apply h.handle e es _ rfl _ rfl (fun hne => absurd rfl hne)
      · simp only [handled, world, hpending, hwaiting, hidx, and_self, if_true]
      · simp only [World.waitEvent, hidx] at hevent
        cases hevent
        rfl
    | some k =>
      -- the event is one of the processes that are waited for
      have hboard := World.SameBoard.waitEvent (w := { w with pending := es }) hidx
      rw [hevent] at hboard
      have hsame : w.SameBoard w' := ⟨hboard.jobs, hboard.next, hboard.notifs⟩
      refine ⟨h.of_same hsame (fun hq => by cases hq) (fun hne => absurd rfl hne),
        .of_same ?_ rfl hsame.notifs⟩
      simp [handled, world, hpending, hidx]

/-- The end of `jobs_wait_foreground`. -/
theorem Inv.finish (h : s.Inv) (hphase : s.phase = .executing) {t : Session}
    (hstep : s.session.step .finish = some t) :
    { s with session := t }.Inv ∧ Queues s (.exec .finish) { s with session := t } := by
  obtain ⟨session, phase, eofWarned⟩ := s
  subst hphase
  cases Session.steps_of_step hstep with
  | @finish w on l alarm timedOut consumed =>
    obtain ⟨hnumbered, hnil⟩ :=
      Session.finish_world (s := ⟨w, .waiting on l alarm timedOut, consumed⟩)
        h.numbered on l timedOut
    refine ⟨.of_nil hnumbered hnil (fun hne => absurd rfl hne), ?_, ?_⟩
    · intro w e hsome
      cases hsome
    · exact ⟨hnil, rfl⟩

/-- A step of a command. -/
theorem Inv.exec (h : s.Inv) (hphase : s.phase = .executing) {b : Act}
    (hb : b.ofCommand = true) {t : Session} (hstep : s.session.step b = some t) :
    { s with session := t }.Inv ∧ Queues s (.exec b) { s with session := t } := by
  by_cases hwait : b = .wait
  · subst hwait
    exact h.wait hphase hstep
  by_cases hfinish : b = .finish
  · subst hfinish
    exact h.finish hphase hstep
  have hhandled : s.handled (.exec b) = none := by
    cases b <;> first | rfl | exact absurd rfl hwait
  have hflush : (MainAct.exec b).flushes = false := by
    cases b <;> first | rfl | exact absurd rfl hfinish
  have hidle : s.phase ≠ .executing → t.control = .idle := fun hne => absurd hphase hne
  cases hcontrol : s.session.control.isWaiting with
  | false =>
    obtain ⟨hnumbered, hnotifs⟩ := Session.step_notifs hstep hcontrol hb h.numbered
    have hnil : s.world.notifs = [] := h.quiet (by simp [Main.quiet, hphase, hcontrol])
    exact ⟨.of_nil hnumbered (hnotifs.trans hnil) hidle, .of_same hhandled hflush hnotifs⟩
  | true =>
    -- only an alarm is left
    obtain ⟨⟨w, control, consumed⟩, phase, eofWarned⟩ := s
    cases control with
    | idle | forking => cases hcontrol
    | waiting on l alarm timedOut =>
      cases b with
      | alarm =>
        cases alarm with
        | false => cases hstep
        | true =>
          cases hstep
          exact ⟨h.of_same ⟨rfl, rfl, rfl⟩ id hidle, .of_same hhandled hflush rfl⟩
      | wait => exact absurd rfl hwait
      | finish => exact absurd rfl hfinish
      | signals | processPending | flush => cases hb
      | launch | stage | started | resume => cases hstep

theorem Inv.step (h : s.Inv) (hstep : s.step a = some s') : s'.Inv ∧ Queues s a s' := by
  cases steps_of_step hstep with
  | signals _ ht => exact h.signals ht
  | @prompt w control consumed eofWarned =>
    have hnumbered : w.jobsFlushNotifications.ledger.Numbered := by
      rw [World.ledger_jobsFlushNotifications]
      exact h.numbered
    refine ⟨.of_nil hnumbered rfl fun _ => h.idle (by simp), ?_, rfl, rfl⟩
    intro w e hsome
    cases hsome
  | interrupted | warned =>
    exact ⟨h.of_same ⟨rfl, rfl, rfl⟩ (fun hq => by cases hq) fun _ => h.idle (by simp),
      .of_same rfl rfl rfl⟩
  | drained hpending =>
    refine ⟨h.of_same ⟨rfl, rfl, rfl⟩ (fun hq => by cases hq) fun _ => h.idle (by simp),
      .of_same ?_ rfl rfl⟩
    simp [handled, world, hpending]
  | @drain w control consumed eofWarned e es hpending =>
    have hidle : control = .idle := h.idle (by simp)
    apply h.handle e es _ rfl rfl rfl fun _ => hidle
    simp [handled, world, hpending]
  | @eof w control consumed eofWarned =>
    have hsame := World.SameBoard.print w "\n".toList
    exact ⟨h.of_same hsame (fun hq => by cases hq) fun _ => h.idle (by simp),
      .of_same rfl rfl hsame.notifs⟩
  | line =>
    exact ⟨h.of_same ⟨rfl, rfl, rfl⟩ (fun _ => rfl) fun hne => absurd rfl hne,
      .of_same rfl rfl rfl⟩
  | exec hb ht => exact h.exec rfl hb ht
  | done hidle =>
    exact ⟨h.of_same ⟨rfl, rfl, rfl⟩ (fun hq => by cases hq) fun _ => hidle, .of_same rfl rfl rfl⟩

end Main

/-! ## The output -/

/-- `jobs_flush_notifications` prints every message of the queue on a line of its own. -/
theorem World.out_jobsFlushNotifications {w : World} (h : w.fds.get 1 = some .output) :
    w.jobsFlushNotifications.out = w.out ++ w.notifs.flatMap fun msg => msg ++ ['\n'] := by
  simp [jobsFlushNotifications, World.print, h]

theorem World.out_handleTrackedEvent (w : World) (e : WaitEvent) :
    (w.handleTrackedEvent e).out = w.out := by
  obtain ⟨_, _, _, _, h⟩ := w.handleTrackedEvent_frame e
  rw [h]

theorem World.out_waitEvent (w : World) (pids : List Int) (l : Waiter) (e : WaitEvent) :
    (w.waitEvent pids l e).1.out = w.out := by
  obtain ⟨_, _, _, _, h⟩ := w.waitEvent_frame pids l e
  rw [h]

namespace Main

variable {s s' : Main} {a : MainAct}

/-- A step that flushes ends with a call of `jobs_flush_notifications`, in a state with the same
queue and the same descriptors. -/
theorem exists_flushing (hstep : s.step a = some s') (hflush : a.flushes = true) :
    ∃ w, s.flushing a = some w ∧ s'.world = w.jobsFlushNotifications ∧
      w.notifs = s.world.notifs ∧ w.fds = s.world.fds := by
  cases steps_of_step hstep with
  | prompt => exact ⟨_, rfl, rfl, rfl, rfl⟩
  | @exec session eofWarned b t _ ht =>
    cases b with
    | finish =>
      cases Session.steps_of_step ht with
      | finish =>
        exact ⟨_, rfl, Session.finish_flushes .., Session.settle_notifs .., Session.fds_settle ..⟩
    | _ => cases hflush
  | _ => cases hflush

theorem flushing_eq_none (hflush : a.flushes = false) : s.flushing a = none := by
  cases a with
  | prompt => cases hflush
  | exec b =>
    cases b with
    | finish => cases hflush
    | _ => rfl
  | _ => rfl

/-- The text of a flush is the queue, and nothing else. -/
theorem flushed_eq (hstep : s.step a = some s') (hopen : s.world.fds.get 1 = some .output) :
    s.flushed a s' = if a.flushes then s.world.notifs.flatMap fun msg => msg ++ ['\n'] else [] := by
  cases hflush : a.flushes with
  | true =>
    obtain ⟨w, hw, hworld, hnotifs, hfds⟩ := exists_flushing hstep hflush
    have hout := World.out_jobsFlushNotifications (w := w) (by rw [hfds]; exact hopen)
    rw [flushed, hw]
    dsimp only
    rw [hworld, hout, List.drop_left, hnotifs]
    rfl
  | false =>
    rw [flushed, flushing_eq_none hflush]
    rfl

/-- The standard output of the shell stays open. -/
theorem hasOpen_step {k : Nat} {d : Desc} (h : s.session.HasOpen k d) (hstep : s.step a = some s') :
    s'.session.HasOpen k d := by
  have hsame {t : Session} (hfds : t.world.fds = s.world.fds)
      (hcontrol : t.control = s.session.control) : t.HasOpen k d :=
    ⟨by rw [hfds]; exact h.leads, fun heq => h.apart (hcontrol ▸ heq)⟩
  cases steps_of_step hstep with
  | signals _ ht => exact h.step ht
  | exec _ ht => exact h.step ht
  | prompt => exact hsame (World.fds_jobsFlushNotifications _) rfl
  | drain => exact hsame (World.fds_handleTrackedEvent _ _) rfl
  | warned => exact hsame rfl rfl
  | eof => exact hsame (World.print_fds _ _) rfl
  | interrupted | drained | line | done => exact h

/-- `handle_tracked_event` prints nothing. -/
theorem out_of_handled {w : World} {e : WaitEvent} (hstep : s.step a = some s')
    (hhandled : s.handled a = some (w, e)) : s'.world.out = s.world.out := by
  cases steps_of_step hstep with
  | drained => rfl
  | drain => exact World.out_handleTrackedEvent _ _
  | @exec session eofWarned b t _ ht =>
    cases b with
    | wait =>
      cases Session.steps_of_step ht with
      | @wait v on l alarm timedOut consumed e es v' l' _ _ hevent =>
        have hout := World.out_waitEvent { v with pending := es } on.pids l e
        rw [hevent] at hout
        exact hout
    | _ => cases hhandled
  | _ => cases hhandled

end Main

namespace Recorded

variable {s s' : Recorded} {a : MainAct}

/-- What has been announced has been printed or is in the queue. -/
structure Balanced (s : Recorded) : Prop where
  hasOpen : s.main.session.HasOpen 1 .output
  balance : (s.announced.flatMap fun msg => msg ++ ['\n']) =
    s.printed ++ s.main.world.notifs.flatMap fun msg => msg ++ ['\n']

theorem inv_run {w : World} {acts : List MainAct}
    (hrun : Lib.run Recorded.step (init w) acts = some s) :
    s.main.Inv := by
  refine run_invariant (I := fun s => s.main.Inv) (fun s a s' h hstep => ?_) (Main.Inv.init w) hrun
  obtain ⟨m, hm, rfl⟩ := Option.map_eq_some_iff.mp hstep
  exact (h.step hm).1

theorem Balanced.step (h : s.Balanced) (hinv : s.main.Inv) (hstep : s.step a = some s') :
    s'.Balanced := by
  obtain ⟨m, hm, rfl⟩ := Option.map_eq_some_iff.mp hstep
  obtain ⟨-, -, hqueue⟩ := hinv.step hm
  refine ⟨Main.hasOpen_step h.hasOpen hm, ?_⟩
  dsimp only
  rw [List.flatMap_append, h.balance, Main.flushed_eq hm h.hasOpen.leads]
  cases hflush : a.flushes with
  | true =>
    -- the queue moves to the output, and no event is handled in this step
    rw [hflush] at hqueue
    obtain ⟨hnil, hhandled⟩ := hqueue
    rw [hnil, Main.notices, hhandled]
    simp
  | false =>
    rw [hflush] at hqueue
    rw [hqueue]
    simp

theorem Balanced.run {w : World} {acts : List MainAct} (hopen : w.fds.get 1 = some .output)
    (hrun : Lib.run Recorded.step (init w) acts = some s) : s.Balanced := by
  refine (run_invariant (I := fun s => s.main.Inv ∧ s.Balanced) (fun s a s' h hstep => ?_)
    ⟨Main.Inv.init w, .init hopen, rfl⟩ hrun).2
  have hbalanced := h.2.step h.1 hstep
  obtain ⟨m, hm, rfl⟩ := Option.map_eq_some_iff.mp hstep
  exact ⟨(h.1.step hm).1, hbalanced⟩

/-- In every run of the shell, the queue has room for every message. So if the shell has a standard
output, then when the prompt is displayed, and when the shell has waited for a job in the
foreground, `jobs_flush_notifications` has written to it the message about each background job that
has finished until then, once and in order; and nothing is printed where such a job is found. -/
theorem notifications_printed (w : World) {acts : List MainAct}
    (hrun : Lib.run step (init w) acts = some s) (hstep : s.step a = some s') :
    (∀ v e, s.main.handled a = some (v, e) → v.queues e = true → v.notifs.length < notifMax) ∧
      (w.fds.get 1 = some .output → a.flushes = true →
        s'.printed = s'.announced.flatMap fun msg => msg ++ ['\n']) ∧
      ∀ v e, s.main.handled a = some (v, e) → s'.main.world.out = s.main.world.out := by
  have hs : s.main.Inv := inv_run hrun
  refine ⟨?_, fun hopen hflush => ?_, fun v e hhandled => ?_⟩
  · obtain ⟨m, hm, rfl⟩ := Option.map_eq_some_iff.mp hstep
    exact (hs.step hm).2.1
  · have hbalanced := (Balanced.run hopen hrun).step hs hstep
    obtain ⟨m, hm, rfl⟩ := Option.map_eq_some_iff.mp hstep
    obtain ⟨-, -, hqueue⟩ := hs.step hm
    rw [if_pos hflush] at hqueue
    have hbalance := hbalanced.balance
    rw [show m.world.notifs = [] from hqueue.1, List.flatMap_nil, List.append_nil] at hbalance
    exact hbalance.symm
  · obtain ⟨m, hm, rfl⟩ := Option.map_eq_some_iff.mp hstep
    exact Main.out_of_handled hm hhandled

/-- A program is started in the background, and exits while the shell waits for a line. -/
def beforePrompt : Recorded :=
  (Lib.run step (init (.inBin ["a"] [])) [.prompt, .line, .exec (.launch [word "a"] true),
    .exec (.stage (some 7)), .exec .started, .done, .prompt, .signals [(7, .exited 0)],
      .interrupted, .drain,
    .drain]).get (by decide +kernel)

def atPrompt : Recorded := (beforePrompt.step .prompt).get (by decide +kernel)

theorem notifications_printed_atPrompt :
    atPrompt.printed = "a with pid 7 exited normally\n".toList ∧
      atPrompt.printed = atPrompt.announced.flatMap (fun msg => msg ++ ['\n']) ∧
      atPrompt.main.world.out = "[1] 7\na with pid 7 exited normally\n".toList :=
  ⟨by decide +kernel,
    (notifications_printed _ (Option.some_get _).symm (Option.some_get _).symm : _ ∧
      _ ∧ _).2.1 rfl rfl,
    by decide +kernel⟩

end Recorded

end UnixCShell
