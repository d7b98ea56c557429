import UnixCShell.Pipeline.Groups
import UnixCShell.Session.Live

/-!
# Notifications

A background job that has finished is announced: `handle_tracked_event` puts a message into a queue
of `NOTIF_MAX` messages, and `jobs_flush_notifications` prints the queue. A message that finds the
queue full is lost. This module says what the functions of the shell do to the queue. The point is
that each message comes with a job that leaves the table, so that the messages in the queue and the
jobs in the table together do not become more while events are handled.
-/

namespace UnixCShell

open Lib

/-! ## Functions that do not touch the queue -/

namespace World

variable (w : World)

@[simp] theorem notifs_print (s : Str) : (w.print s).notifs = w.notifs := by
  unfold print
  split <;> rfl

@[simp] theorem notifs_printStopped (number : Int) (cmdline : Str) :
    (w.printStopped number cmdline).notifs = w.notifs := w.notifs_print _

@[simp] theorem notifs_termGiveTo (pgid : Int) : (w.termGiveTo pgid).notifs = w.notifs := by
  unfold termGiveTo
  split <;> rfl

@[simp] theorem notifs_outregFinalize (pid : Int) : (w.outregFinalize pid).notifs = w.notifs := by
  obtain ⟨_, _, h⟩ := w.outregFinalize_frame pid
  rw [h]

@[simp] theorem notifs_foldl_outregFinalize (pids : List Int) :
    (pids.foldl outregFinalize w).notifs = w.notifs := by
  induction pids generalizing w with
  | nil => rfl
  | cons pid pids ih => rw [List.foldl_cons, ih, notifs_outregFinalize]

@[simp] theorem notifs_jobsRegister (pgid : Int) (procs : List (Int × Str)) (cmdline : Str)
    (background : Bool) (state : JobState) :
    (w.jobsRegister pgid procs cmdline background state).1.notifs = w.notifs := by
  unfold jobsRegister
  split <;> rfl

@[simp] theorem notifs_jobsRemove (number : Int) : (w.jobsRemove number).notifs = w.notifs := by
  obtain ⟨_, h⟩ := w.jobsRemove_frame number
  rw [h]

@[simp] theorem notifs_markStopped (number : Int) : (w.markStopped number).notifs = w.notifs := by
  unfold markStopped
  split
  · rfl
  · split <;> rfl

@[simp] theorem notifs_sigchldHandler (es : List WaitEvent) :
    (w.sigchldHandler es).notifs = w.notifs := by
  obtain ⟨_, _, h⟩ := w.sigchldHandler_frame es
  rw [h]

@[simp] theorem notifs_makePipes (n : Nat) : (w.makePipes n).1.notifs = w.notifs := by
  obtain ⟨_, _, h⟩ := w.makePipes_frame n
  rw [h]

@[simp] theorem notifs_setpgid (pid pgid : Int) : (w.setpgid pid pgid).notifs = w.notifs := by
  unfold setpgid
  split <;> rfl

theorem notifs_startResume (number : Int) (isFg : Bool) :
    (w.startResume number isFg).1.notifs = w.notifs := by
  unfold startResume
  split
  · rfl
  · split
    · rfl
    · dsimp only
      split
      · rw [notifs_termGiveTo, notifs_print]
        rfl
      · rw [notifs_print]
        rfl

theorem notifs_fork : w.fork.1.notifs = w.notifs := by
  unfold fork
  split
  · rfl
  · exact notifs_sigchldHandler ..

theorem notifs_spawnStage (i : Nat) (pipes : List (Nat × Nat)) (stage : Stage) (path : Str)
    (input : InputFd) (l : Launch) :
    (w.spawnStage i pipes stage path input l).1.notifs = w.notifs := by
  have hend : ∀ (w : World) (child pgid : Int),
      (((w.setpgid child pgid).dropInput input i).outregRegister child
        (stage.outFiles.map Prod.fst)).notifs = w.notifs := by
    intro w child pgid
    obtain ⟨_, h₁⟩ := ((w.setpgid child pgid).dropInput input i).outregRegister_frame child
      (stage.outFiles.map Prod.fst)
    obtain ⟨_, _, h₂⟩ := (w.setpgid child pgid).dropInput_frame input i
    rw [h₁, h₂]
    exact w.notifs_setpgid child pgid
  have hfork := w.notifs_fork
  rcases hw : w.fork with ⟨w₁, _ | pid⟩
  · rw [hw] at hfork
    simp only [spawnStage, hw, hend]
    exact hfork
  · rw [hw] at hfork
    obtain ⟨_, _, hchild⟩ := w₁.startChild_frame pid i pipes stage path input l.pgid
    simp only [spawnStage, hw, hend, hchild]
    exact hfork

theorem notifs_launchStage (l : Launch) (e : Stage × Nat) (numCmds : Nat)
    (pipes : List (Nat × Nat)) :
    (launchStage numCmds pipes (w, l) e).1.notifs = w.notifs := by
  obtain ⟨_, _, _, hw⟩ := w.prepareStage_frame e.2 e.1
  unfold launchStage
  rcases hprep : w.prepareStage e.2 e.1 with ⟨w₁, prepared⟩
  rw [hprep] at hw
  subst hw
  cases prepared with
  | skipped | notFound => rfl
  | ready path input => exact notifs_spawnStage ..

end World

/-! ## Numbers -/

namespace Ledger.Numbered

variable {w : World}

/-- The numbers depend on the table and the counter only. -/
theorem congr {b b' : Ledger} (h : b.Numbered) (hjobs : b'.jobs = b.jobs)
    (hnext : b'.next = b.next) :
    b'.Numbered := by
  constructor
  · rw [hjobs, hnext]
    exact h.lt
  · rw [hjobs]
    exact h.inj

theorem jobsRegister (h : w.ledger.Numbered) (pgid : Int) (procs : List (Int × Str)) (cmdline : Str)
    (background : Bool) (state : JobState) :
    (w.jobsRegister pgid procs cmdline background state).1.ledger.Numbered := by
  rcases w.jobsRegister_ledger pgid procs cmdline background state with hw | ⟨slot, -, hw⟩
  · rw [hw]
    exact h
  · rw [hw]
    exact h.addJob slot rfl

theorem jobsRemove (h : w.ledger.Numbered) (number : Int) :
    (w.jobsRemove number).ledger.Numbered := by
  unfold World.jobsRemove
  cases hfind : w.jobsFindByNumber number with
  | none => exact h
  | some slot =>
    obtain ⟨j, hj, -⟩ := Slots.findSlot_eq_some hfind
    exact (Updates.setJob hj fun i hi => by cases hi).numbered h

theorem markStopped (h : w.ledger.Numbered) (number : Int) :
    (w.markStopped number).ledger.Numbered := by
  unfold World.markStopped
  cases w.jobsFindByNumber number with
  | none => exact h
  | some slot =>
    cases hj : w.jobs.cell slot with
    | none => simpa only [hj] using h
    | some j =>
      simp only [hj]
      exact (Updates.setJob hj fun i hi => by cases hi; exact ⟨rfl, rfl⟩).numbered h

theorem startResume (h : w.ledger.Numbered) (number : Int) (isFg : Bool) :
    (w.startResume number isFg).1.ledger.Numbered := by
  rcases w.startResume_ledger number isFg with ⟨hw, -⟩ | ⟨slot, j, -, hj, hw, -⟩
  · rw [hw]
    exact h
  · rw [hw]
    exact (Updates.setJob hj fun i hi => by cases hi; exact ⟨rfl, rfl⟩).numbered h

theorem afterForeground (h : w.ledger.Numbered) (l : Launch) (cmdline : Str) (stopped : Bool) :
    (w.afterForeground l cmdline stopped).ledger.Numbered := by
  simp only [World.afterForeground, World.settleForeground, World.ledger_jobsFlushNotifications]
  split
  · rw [World.ledger_printStopped]
    exact jobsRegister (w := w.termReclaim) h ..
  · rw [World.ledger_foldl_outregFinalize]
    exact h

theorem afterResume (h : w.ledger.Numbered) (j : Job) (l : Waiter) (timedOut : Bool) :
    (w.afterResume j l timedOut).ledger.Numbered := by
  simp only [World.afterResume, World.settleResume, World.ledger_jobsFlushNotifications]
  split
  · apply jobsRemove
    rw [World.ledger_print]
    exact h
  · split
    · rw [World.ledger_printStopped]
      exact markStopped (w := w.termReclaim) h ..
    · apply jobsRemove
      rw [World.ledger_foldl_outregFinalize]
      exact h

end Ledger.Numbered

/-! ## An event -/

namespace World

/-- `handle_tracked_event` calls `queue_notification`. -/
def queues (w : World) (e : WaitEvent) : Bool :=
  match w.jobsFindByPid e.1 with
  | none => false
  | some slot =>
    match w.jobs.cell slot with
    | none => false
    | some j => e.2.final && (j.finish e.1).allDone && j.background

/-- The background job that is in the table before `handle_tracked_event` and not after it. -/
def completed (w : World) (e : WaitEvent) : Option Job :=
  (List.finRange jobsMax).findSome? fun slot =>
    match w.jobs.cell slot, (w.handleTrackedEvent e).jobs.cell slot with
    | some j, none => if j.background then some j else none
    | _, _ => none

variable {w : World} {e : WaitEvent}

theorem track_isNone (j : Job) : (j.track e).isNone = (e.2.final && (j.finish e.1).allDone) := by
  obtain ⟨pid, status⟩ := e
  cases status with
  | stopped | continued => rfl
  | exited | signaled =>
    simp only [Job.track, WaitStatus.final, Bool.true_and]
    split <;> simp_all

/-- The message does not depend on what is marked. -/
theorem message_finish (j : Job) (pid : Int) (status : WaitStatus) :
    (j.finish pid).message status = j.message status := by
  have hhead : ∀ {β : Type} (f : JobProc → β), (∀ p, f { p with done := true } = f p) →
      (j.finish pid).procs.head?.map f = j.procs.head?.map f := by
    intro β f hf
    unfold Job.finish
    cases j.procs with
    | nil => rfl
    | cons p ps =>
      generalize (p :: ps).findIdx (fun q => q.pid = pid) = n
      cases n with
      | zero => exact congrArg some (hf p)
      | succ n => rfl
  unfold Job.message
  rw [hhead (·.name) fun _ => rfl, hhead (·.pid) fun _ => rfl]

theorem queues_found {slot : Fin jobsMax} {j : Job} (hfind : w.jobsFindByPid e.1 = some slot)
    (hj : w.jobs.cell slot = some j) : w.queues e = ((j.track e).isNone && j.background) := by
  rw [track_isNone, queues, hfind]
  simp only [hj]

theorem trackJob_notifs {slot : Fin jobsMax} {j : Job} (hfind : w.jobsFindByPid e.1 = some slot)
    (hj : w.jobs.cell slot = some j) :
    (w.trackJob e).notifs =
      if w.queues e then (w.queueNotification (j.message e.2)).notifs else w.notifs := by
  rw [queues_found hfind hj, track_isNone, trackJob, hfind]
  simp only [hj]
  obtain ⟨pid, status⟩ := e
  have hfinish : (w.finishProc slot j (pid, status)).notifs =
      if ((j.finish pid).allDone && j.background) = true then
        (w.queueNotification (j.message status)).notifs
      else w.notifs := by
    simp only [finishProc]
    by_cases hall : (j.finish pid).allDone = true
    · rw [if_pos hall, hall, Bool.true_and, notifs_jobsRemove, announce, message_finish]
      change (if j.background = true then _ else _ : World).notifs = _
      split
      · unfold queueNotification
        split <;> rfl
      · rfl
    · rw [if_neg hall, if_neg (by simp [hall])]
  cases status with
  | stopped | continued => rfl
  | exited | signaled => exact hfinish

theorem queues_congr {w' : World} (h : w'.jobs = w.jobs) : w'.queues e = w.queues e := by
  simp only [queues, jobsFindByPid, h]

theorem trackJob_cases (h : w.ledger.Numbered) (e : WaitEvent) :
    (w.trackJob e).ledger = w.ledger ∧ (w.trackJob e).notifs = w.notifs ∧ w.queues e = false ∨
      ∃ slot j, w.jobs.cell slot = some j ∧
        (w.trackJob e).ledger = w.ledger.setJob slot (j.track e) ∧
        w.queues e = ((j.track e).isNone && j.background) ∧
        (w.trackJob e).notifs =
          if w.queues e ∧ w.notifs.length < notifMax then w.notifs ++ [(j.message e.2).take 255]
          else w.notifs := by
  cases hfind : w.jobsFindByPid e.1 with
  | none =>
    left
    rw [trackJob, queues, hfind]
    exact ⟨rfl, rfl, rfl⟩
  | some slot =>
    obtain ⟨j, hj, -⟩ := Slots.findSlot_eq_some hfind
    refine .inr ⟨slot, j, hj, trackJob_ledger_found h hfind hj, queues_found hfind hj, ?_⟩
    rw [trackJob_notifs hfind hj, queueNotification]
    cases w.queues e with
    | false => simp
    | true =>
      simp only [if_true, true_and]
      split <;> rfl

/-- An event changes nothing, or one job, which it may complete. -/
theorem handleTrackedEvent_cases (h : w.ledger.Numbered) (e : WaitEvent) :
    (w.handleTrackedEvent e).ledger = w.ledger ∧ (w.handleTrackedEvent e).notifs = w.notifs ∧
        w.queues e = false ∨
      ∃ slot j, w.jobs.cell slot = some j ∧
        (w.handleTrackedEvent e).ledger = w.ledger.setJob slot (j.track e) ∧
        w.queues e = ((j.track e).isNone && j.background) ∧
        (w.handleTrackedEvent e).notifs =
          if w.queues e ∧ w.notifs.length < notifMax then w.notifs ++ [(j.message e.2).take 255]
          else w.notifs := by
  -- `outreg_finalize` concerns neither the table nor the queue
  have hledger := w.ledger_outregFinalize e.1
  have hjobs := w.jobs_outregFinalize e.1
  have := trackJob_cases (hledger ▸ h) e
  rwa [hledger, hjobs, queues_congr hjobs, notifs_outregFinalize] at this

/-- The job that disappears from the table is the one that is announced. -/
theorem completed_eq {slot : Fin jobsMax} {j : Job} (hj : w.jobs.cell slot = some j)
    (hledger : (w.handleTrackedEvent e).ledger = w.ledger.setJob slot (j.track e)) :
    w.completed e = if (j.track e).isNone && j.background then some j else none := by
  have hjobs : (w.handleTrackedEvent e).jobs = w.jobs.set slot (j.track e) :=
    congrArg Ledger.jobs hledger
  have hother : ∀ k, k ≠ slot → (match w.jobs.cell k, (w.handleTrackedEvent e).jobs.cell k with
      | some j, none => if j.background then some j else none
      | _, _ => none) = none := by
    intro k hk
    rw [hjobs, Slots.cell_set_of_ne _ _ hk]
    cases w.jobs.cell k <;> rfl
  rw [completed, Slots.findSome?_finRange hother, hj, hjobs, Slots.cell_set_self]
  cases j.track e <;> rfl

/-- A queue of as many messages as jobs can leave the table: an event that completes a background
job finds room for its message, and frees a slot of the table. -/
theorem handleTrackedEvent_room (h : w.ledger.Numbered)
    (hroom : w.notifs.length + w.jobs.used.card ≤ notifMax) (e : WaitEvent) :
    (w.handleTrackedEvent e).ledger.Numbered ∧
      (w.queues e = true → w.notifs.length < notifMax) ∧
      (w.handleTrackedEvent e).notifs =
        w.notifs ++ (w.completed e).toList.map (fun j => (j.message e.2).take 255) ∧
      (w.handleTrackedEvent e).notifs.length +
        (w.handleTrackedEvent e).jobs.used.card ≤ notifMax := by
  rcases handleTrackedEvent_cases h e with ⟨hledger, hnotifs, hqueues⟩ |
    ⟨slot, j, hj, hledger, hqueues, hnotifs⟩
  · have hjobs : (w.handleTrackedEvent e).jobs = w.jobs := congrArg Ledger.jobs hledger
    have hnone : w.completed e = none := by
      rw [completed, List.findSome?_eq_none_iff]
      intro k _
      rw [hjobs]
      cases w.jobs.cell k <;> rfl
    rw [hledger, hnotifs, hjobs, hqueues, hnone]
    simp [h, hroom]
  have hjobs : (w.handleTrackedEvent e).jobs = w.jobs.set slot (j.track e) :=
    congrArg Ledger.jobs hledger
  have hnumbered : (w.ledger.setJob slot (j.track e)).Numbered :=
    (Ledger.Updates.setJob hj fun i hi => Job.track_same hi).numbered h
  rw [hledger, hnotifs, hjobs, completed_eq hj hledger, hqueues]
  cases htrack : j.track e with
  | some j' =>
    rw [htrack] at hnumbered
    rw [Slots.used_set_some hj]
    simp [hnumbered, hroom]
  | none =>
    rw [htrack] at hnumbered
    have hcard := Slots.card_used_set_none hj
    have hlt : w.notifs.length < notifMax := by omega
    cases hbackground : j.background with
    | false =>
      simp [hnumbered]
      omega
    | true =>
      simp [hnumbered, hlt]
      omega

end World

end UnixCShell
