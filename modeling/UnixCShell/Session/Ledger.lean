import UnixCShell.Session.Basic

/-!
# The ledger

What the bookkeeping of jobs depends on: the job table, the children and whether they have been
reaped, and the queue of events. For every function of the shell this module says what it does to
the ledger; most of them leave it alone.
-/

namespace UnixCShell

open Lib

structure Ledger where
  jobs    : Slots jobsMax Job
  next    : Nat
  /-- The pids of the children, and whether they have been reaped. -/
  roster  : List (Int × Bool)
  pending : List WaitEvent

/-- The pids of the processes of a job. -/
def Job.pids (j : Job) : List Int := j.procs.map (·.pid)

namespace World

def ledger (w : World) : Ledger :=
  ⟨w.jobs, w.nextJobNumber, w.children.map fun c => (c.pid, c.reaped), w.pending⟩

/-! ## Functions that do not touch the ledger -/

variable (w : World)

@[simp] theorem ledger_print (s : Str) : (w.print s).ledger = w.ledger := by
  unfold print
  split <;> rfl

@[simp] theorem ledger_kill (target : Int) (sig : Nat) : (w.kill target sig).ledger = w.ledger :=
  rfl

@[simp] theorem ledger_jobsFlushNotifications : w.jobsFlushNotifications.ledger = w.ledger :=
  w.ledger_print _

@[simp] theorem ledger_printStopped (number : Int) (cmdline : Str) :
    (w.printStopped number cmdline).ledger = w.ledger := w.ledger_print _

@[simp] theorem ledger_termReclaim : w.termReclaim.ledger = w.ledger := rfl

@[simp] theorem ledger_termGiveTo (pgid : Int) : (w.termGiveTo pgid).ledger = w.ledger := by
  unfold termGiveTo
  split <;> rfl

@[simp] theorem ledger_outregFinalize (pid : Int) : (w.outregFinalize pid).ledger = w.ledger := by
  obtain ⟨_, _, h⟩ := w.outregFinalize_frame pid
  rw [h]
  rfl

@[simp] theorem ledger_foldl_outregFinalize (pids : List Int) :
    (pids.foldl outregFinalize w).ledger = w.ledger := by
  induction pids generalizing w with
  | nil => rfl
  | cons pid pids ih => rw [List.foldl_cons, ih, ledger_outregFinalize]

@[simp] theorem ledger_announce (j : Job) (status : WaitStatus) :
    (w.announce j status).ledger = w.ledger := by
  obtain ⟨_, h⟩ := w.announce_frame j status
  rw [h]
  rfl

theorem ledger_makePipes (n : Nat) : (w.makePipes n).1.ledger = w.ledger := by
  obtain ⟨_, _, h⟩ := w.makePipes_frame n
  rw [h]
  rfl

/-- A change of process group is no change of the ledger. -/
@[simp] theorem ledger_setpgid (pid pgid : Int) : (w.setpgid pid pgid).ledger = w.ledger := by
  unfold setpgid
  split
  · simp only [ledger, List.map_map]
    congr 1
    apply List.map_congr_left
    intro c _
    simp only [Function.comp]
    split <;> rfl
  · rfl

theorem ledger_spawnStage_end (input : InputFd) (i : Nat) (child : Int) (outFiles : List Str) :
    ((w.dropInput input i).outregRegister child outFiles).ledger = w.ledger := by
  obtain ⟨_, h₁⟩ := (w.dropInput input i).outregRegister_frame child outFiles
  obtain ⟨_, _, h₂⟩ := w.dropInput_frame input i
  rw [h₁, h₂]
  rfl

end World

/-! ## The job table -/

namespace Ledger

/-- Write to a slot of the job table. -/
def setJob (b : Ledger) (slot : Fin jobsMax) (j : Option Job) : Ledger :=
  { b with jobs := b.jobs.set slot j }

/-- Register a job in a slot. -/
def addJob (b : Ledger) (slot : Fin jobsMax) (j : Job) : Ledger :=
  { b with jobs := b.jobs.set slot (some j), next := b.next + 1 }

/-- The numbers in the table are different, and smaller than the next one. -/
structure Numbered (b : Ledger) : Prop where
  lt  : ∀ j ∈ b.jobs, j.jobNumber < b.next
  inj : ∀ {i k : Fin jobsMax} {j j' : Job}, b.jobs.cell i = some j → b.jobs.cell k = some j' →
    j.jobNumber = j'.jobNumber → i = k

theorem Numbered.empty {b : Ledger} (h : b.jobs = .empty) : b.Numbered := by
  have hnone : ∀ j, j ∉ b.jobs := fun j hj => Slots.not_mem_empty (h ▸ hj)
  exact ⟨fun j hj => absurd hj (hnone j), fun hj => absurd ⟨_, hj⟩ (hnone _)⟩

theorem cell_addJob {b : Ledger} {slot k : Fin jobsMax} {j i : Job}
    (h : (b.addJob slot j).jobs.cell k = some i) :
    k = slot ∧ i = j ∨ k ≠ slot ∧ b.jobs.cell k = some i := by
  rcases Slots.cell_set_eq_some.mp h with ⟨hk, hnew⟩ | hold
  · exact .inl ⟨hk, (Option.some.inj hnew).symm⟩
  · exact .inr hold

theorem Numbered.addJob {b : Ledger} (h : b.Numbered) (slot : Fin jobsMax) {j : Job}
    (hnum : j.jobNumber = b.next) : (b.addJob slot j).Numbered := by
  have hlt : ∀ {k : Fin jobsMax} {i : Job}, b.jobs.cell k = some i → i.jobNumber < b.next :=
    fun hi => h.lt _ ⟨_, hi⟩
  constructor
  · rintro i ⟨k, hk⟩
    change i.jobNumber < b.next + 1
    rcases cell_addJob hk with ⟨-, rfl⟩ | ⟨-, hi⟩
    · omega
    · have := hlt hi
      omega
  · intro k₁ k₂ i₁ i₂ h₁ h₂ heq
    rcases cell_addJob h₁ with ⟨rfl, rfl⟩ | ⟨hk₁, hi₁⟩ <;>
      rcases cell_addJob h₂ with ⟨rfl, rfl⟩ | ⟨hk₂, hi₂⟩
    · rfl
    · have := hlt hi₂
      omega
    · have := hlt hi₁
      omega
    · exact h.inj hi₁ hi₂ heq

end Ledger

/-- What an event does to the job it belongs to; `none` if the job has finished. -/
def Job.track (j : Job) (e : WaitEvent) : Option Job :=
  match e.2 with
  | .stopped _ => some { j with state := .stopped }
  | .continued => some { j with state := .running }
  | _ => if (j.finish e.1).allDone then none else some (j.finish e.1)

namespace World

variable {w : World}

theorem jobsRegister_ledger (pgid : Int) (procs : List (Int × Str)) (cmdline : Str)
    (background : Bool) (state : JobState) :
    (w.jobsRegister pgid procs cmdline background state).1.ledger = w.ledger ∨
      ∃ slot, w.jobs.cell slot = none ∧
        (w.jobsRegister pgid procs cmdline background state).1.ledger =
          w.ledger.addJob slot
            ⟨w.nextJobNumber, pgid, (procs.take jobMaxProcs).map fun p =>
              ⟨p.1, p.2, false⟩, cmdline,
              state, background⟩ := by
  unfold jobsRegister
  split
  · exact .inl rfl
  · rename_i slot hfree
    exact .inr ⟨slot, Slots.firstFree_eq_some hfree, rfl⟩

/-! The table changes, the queue does not. -/

theorem jobsRegister_pending (pgid : Int) (procs : List (Int × Str)) (cmdline : Str)
    (background : Bool) (state : JobState) :
    (w.jobsRegister pgid procs cmdline background state).1.ledger.pending = w.ledger.pending := by
  unfold jobsRegister
  split <;> rfl

theorem jobsRemove_pending (number : Int) :
    (w.jobsRemove number).ledger.pending = w.ledger.pending := by
  obtain ⟨_, h⟩ := w.jobsRemove_frame number
  rw [h]
  rfl

theorem markStopped_pending (number : Int) :
    (w.markStopped number).ledger.pending = w.ledger.pending := by
  unfold markStopped
  split
  · rfl
  · split <;> rfl

theorem waitEvent_pending (pids : List Int) (l : Waiter) (e : WaitEvent) :
    (w.waitEvent pids l e).1.ledger.pending = w.ledger.pending := by
  obtain ⟨_, _, _, _, h⟩ := w.waitEvent_frame pids l e
  rw [h]
  rfl

theorem startBackground_pending (l : Launch) (cmdline : Str) :
    (w.startBackground l cmdline).ledger.pending = w.ledger.pending := by
  simp only [startBackground, ledger_print]
  exact jobsRegister_pending ..

theorem afterForeground_pending (l : Launch) (cmdline : Str) (stopped : Bool) :
    (w.afterForeground l cmdline stopped).ledger.pending = w.ledger.pending := by
  simp only [afterForeground, settleForeground, ledger_jobsFlushNotifications]
  split
  · rw [ledger_printStopped, jobsRegister_pending, ledger_termReclaim]
  · rw [ledger_foldl_outregFinalize, ledger_termReclaim]

theorem afterResume_pending (j : Job) (l : Waiter) (timedOut : Bool) :
    (w.afterResume j l timedOut).ledger.pending = w.ledger.pending := by
  simp only [afterResume, settleResume, ledger_jobsFlushNotifications]
  split
  · rw [jobsRemove_pending, ledger_print, ledger_kill, ledger_termReclaim]
  · split
    · rw [ledger_printStopped, markStopped_pending, ledger_termReclaim]
    · rw [jobsRemove_pending, ledger_foldl_outregFinalize, ledger_termReclaim]

theorem jobsFindByNumber_eq (h : w.ledger.Numbered) {slot : Fin jobsMax} {j : Job}
    (hj : w.jobs.cell slot = some j) : w.jobsFindByNumber j.jobNumber = some slot := by
  apply Slots.findSlot_of_unique hj (by simp)
  intro k j' hj' hnum
  exact h.inj hj' hj (Int.ofNat.inj (of_decide_eq_true hnum))

theorem jobsRemove_ledger {b : Ledger} (hw : w.ledger = b) (h : b.Numbered)
    {slot : Fin jobsMax} {j : Job} (hj : b.jobs.cell slot = some j) :
    (w.jobsRemove j.jobNumber).ledger = b.setJob slot none := by
  subst hw
  rw [jobsRemove, jobsFindByNumber_eq h hj]
  rfl

theorem markStopped_ledger {b : Ledger} (hw : w.ledger = b) (h : b.Numbered)
    {slot : Fin jobsMax} {j : Job} (hj : b.jobs.cell slot = some j) :
    (w.markStopped j.jobNumber).ledger = b.setJob slot (some { j with state := .stopped }) := by
  subst hw
  have hj' : w.jobs.cell slot = some j := hj
  rw [markStopped, jobsFindByNumber_eq h hj]
  simp only [hj']
  rfl

/-- `run_resume` finds no job, or continues one; in the foreground it goes on to wait for it. -/
theorem startResume_ledger (w : World) (number : Int) (isFg : Bool) :
    (w.startResume number isFg).1.ledger = w.ledger ∧ (w.startResume number isFg).2 = none ∨
      ∃ slot j, w.jobsFindByNumber number = some slot ∧ w.jobs.cell slot = some j ∧
        (w.startResume number isFg).1.ledger =
          w.ledger.setJob slot (some { j with state := .running }) ∧
        (w.startResume number isFg).2 = if isFg then some j else none := by
  unfold startResume
  cases hfind : w.jobsFindByNumber number with
  | none => exact .inl ⟨rfl, rfl⟩
  | some slot =>
    cases hj : w.jobs.cell slot with
    | none =>
      left
      simp [hj]
    | some j =>
      refine .inr ⟨slot, j, rfl, hj, ?_⟩
      cases isFg with
      | false =>
        simp only [hj, Bool.false_eq_true, if_false, ledger_print]
        exact ⟨rfl, trivial⟩
      | true =>
        simp only [hj, if_true, ledger_print, ledger_termGiveTo]
        exact ⟨rfl, trivial⟩

end World

namespace Ledger

/-- Jobs have gone or have been changed, but none has been added, and no job has another number or
other processes than before. -/
structure Updates (b b' : Ledger) : Prop where
  next   : b'.next = b.next
  roster : b'.roster = b.roster
  jobs   : ∀ {k : Fin jobsMax} {j' : Job}, b'.jobs.cell k = some j' →
    ∃ j, b.jobs.cell k = some j ∧ j'.jobNumber = j.jobNumber ∧ j'.pids = j.pids

theorem Updates.refl (b : Ledger) : Updates b b := ⟨rfl, rfl, fun h => ⟨_, h, rfl, rfl⟩⟩

theorem Updates.setJob {b : Ledger} {slot : Fin jobsMax} {j : Job} {j' : Option Job}
    (hj : b.jobs.cell slot = some j)
    (hj' : ∀ i ∈ j', i.jobNumber = j.jobNumber ∧ i.pids = j.pids) :
    Updates b (b.setJob slot j') := by
  refine ⟨rfl, rfl, ?_⟩
  intro k i hi
  rcases Slots.cell_set_eq_some.mp hi with ⟨rfl, hnew⟩ | ⟨-, hold⟩
  · exact ⟨j, hj, hj' i hnew⟩
  · exact ⟨i, hold, rfl, rfl⟩

theorem Updates.numbered {b b' : Ledger} (hu : Updates b b') (h : b.Numbered) : b'.Numbered := by
  constructor
  · rintro j' ⟨k, hk⟩
    obtain ⟨j, hj, hnum, -⟩ := hu.jobs hk
    rw [hnum, hu.next]
    exact h.lt j ⟨k, hj⟩
  · intro i k j₁ j₂ h₁ h₂ heq
    obtain ⟨i₁, hi₁, hn₁, -⟩ := hu.jobs h₁
    obtain ⟨i₂, hi₂, hn₂, -⟩ := hu.jobs h₂
    apply h.inj hi₁ hi₂
    rw [← hn₁, ← hn₂, heq]

end Ledger

theorem Job.any_pid {j : Job} {pid : Int} :
    (j.procs.any fun p => p.pid = pid) = true ↔ pid ∈ j.pids := by
  simp [Job.pids]

theorem Job.finish_pids (j : Job) (pid : Int) : (j.finish pid).pids = j.pids := by
  simp only [Job.pids, Job.finish]
  apply List.ext_getElem?
  intro k
  simp only [List.getElem?_map, List.getElem?_modify]
  cases j.procs[k]? with
  | none => rfl
  | some p => simp only [Option.map_some]; split <;> rfl

/-- A process is left alone, or it has the pid and is marked. -/
theorem Job.finish_proc {j : Job} {pid : Int} {i : Nat} {p' : JobProc}
    (h : (j.finish pid).procs[i]? = some p') :
    ∃ p, j.procs[i]? = some p ∧ (p' = p ∨ p.pid = pid ∧ p' = { p with done := true }) := by
  simp only [Job.finish, List.getElem?_modify, Option.map_eq_map, Option.map_eq_some_iff] at h
  obtain ⟨p, hp, rfl⟩ := h
  refine ⟨p, hp, ?_⟩
  split
  · rename_i hidx
    obtain ⟨hlt, hval⟩ := List.getElem?_eq_some_iff.mp hp
    subst hidx
    have hfound := List.findIdx_getElem (w := hlt)
    rw [hval] at hfound
    exact .inr ⟨of_decide_eq_true hfound, rfl⟩
  · exact .inl rfl

/-- What is left of a job is still the same job. -/
theorem Job.track_same {j j' : Job} {e : WaitEvent} (h : j' ∈ j.track e) :
    j'.jobNumber = j.jobNumber ∧ j'.pids = j.pids := by
  obtain ⟨pid, status⟩ := e
  cases status with
  | stopped | continued =>
    cases h
    exact ⟨rfl, rfl⟩
  | exited | signaled =>
    simp only [Job.track] at h
    split at h
    · cases h
    · cases h
      exact ⟨rfl, j.finish_pids pid⟩

namespace World

variable {w : World} {e : WaitEvent}

theorem trackJob_ledger_unknown (h : ∀ j ∈ w.jobs, e.1 ∉ j.pids) :
    (w.trackJob e).ledger = w.ledger := by
  have hfind : w.jobsFindByPid e.1 = none := by
    apply Slots.findSlot_eq_none.mpr
    intro j hj
    rw [← Bool.not_eq_true, Job.any_pid]
    exact h j hj
  rw [trackJob, hfind]

theorem finishProc_ledger (h : w.ledger.Numbered) {slot : Fin jobsMax} {j : Job}
    (hj : w.jobs.cell slot = some j) :
    (w.finishProc slot j e).ledger =
      w.ledger.setJob slot (if (j.finish e.1).allDone then none else some (j.finish e.1)) := by
  simp only [finishProc]
  split
  · -- the job is found again under its number, and removed
    have hnum : (w.ledger.setJob slot (some (j.finish e.1))).Numbered :=
      (Ledger.Updates.setJob hj (by rintro i ⟨⟩; exact ⟨rfl, Job.finish_pids ..⟩)).numbered h
    have hledger : ({ w with jobs := w.jobs.set slot (some (j.finish e.1)) }.announce (j.finish e.1)
        e.2).ledger = w.ledger.setJob slot (some (j.finish e.1)) := ledger_announce ..
    rw [jobsRemove_ledger hledger hnum (Slots.cell_set_self ..)]
    simp [Ledger.setJob]
  · rfl

/-- An event of a process that the search finds in `slot`. -/
theorem trackJob_ledger_found (h : w.ledger.Numbered) {slot : Fin jobsMax} {j : Job}
    (hfind : w.jobsFindByPid e.1 = some slot) (hj : w.jobs.cell slot = some j) :
    (w.trackJob e).ledger = w.ledger.setJob slot (j.track e) := by
  rw [trackJob, hfind]
  simp only [hj]
  obtain ⟨pid, status⟩ := e
  cases status with
  | stopped | continued => rfl
  | exited | signaled => exact finishProc_ledger h hj

/-- An event of a process that one job has. -/
theorem trackJob_ledger (h : w.ledger.Numbered) {slot : Fin jobsMax} {j : Job}
    (hj : w.jobs.cell slot = some j) (hmem : e.1 ∈ j.pids)
    (huniq : ∀ k j', w.jobs.cell k = some j' → e.1 ∈ j'.pids → k = slot) :
    (w.trackJob e).ledger = w.ledger.setJob slot (j.track e) := by
  have hfind : w.jobsFindByPid e.1 = some slot :=
    Slots.findSlot_of_unique hj (Job.any_pid.mpr hmem) fun k j' hk hp =>
      huniq k j' hk (Job.any_pid.mp hp)
  exact trackJob_ledger_found h hfind hj

/-- An event changes nothing, or one job that has the process. -/
theorem trackJob_ledger_cases (h : w.ledger.Numbered) (e : WaitEvent) :
    (w.trackJob e).ledger = w.ledger ∧ (∀ j ∈ w.jobs, e.1 ∉ j.pids) ∨
      ∃ slot j, w.jobs.cell slot = some j ∧ e.1 ∈ j.pids ∧
        (w.trackJob e).ledger = w.ledger.setJob slot (j.track e) := by
  cases hfind : w.jobsFindByPid e.1 with
  | none =>
    have hnot : ∀ j ∈ w.jobs, e.1 ∉ j.pids := by
      intro j hj
      rw [← Job.any_pid, Bool.not_eq_true]
      exact Slots.findSlot_eq_none.mp hfind j hj
    exact .inl ⟨trackJob_ledger_unknown hnot, hnot⟩
  | some slot =>
    obtain ⟨j, hj, hany⟩ := Slots.findSlot_eq_some hfind
    exact .inr ⟨slot, j, hj, Job.any_pid.mp hany, trackJob_ledger_found h hfind hj⟩

/-- `outreg_finalize`, the first line of `handle_tracked_event`, does not concern the table. -/
theorem jobs_outregFinalize (w : World) (pid : Int) : (w.outregFinalize pid).jobs = w.jobs :=
  congrArg Ledger.jobs (w.ledger_outregFinalize pid)

theorem jobsFindByPid_outregFinalize (w : World) (pid pid' : Int) :
    (w.outregFinalize pid).jobsFindByPid pid' = w.jobsFindByPid pid' := by
  rw [jobsFindByPid, jobs_outregFinalize, jobsFindByPid]

theorem handleTrackedEvent_ledger_unknown (h : ∀ j ∈ w.jobs, e.1 ∉ j.pids) :
    (w.handleTrackedEvent e).ledger = w.ledger := by
  rw [handleTrackedEvent, trackJob_ledger_unknown (by rwa [jobs_outregFinalize]),
    ledger_outregFinalize]

theorem handleTrackedEvent_ledger_found (h : w.ledger.Numbered) {slot : Fin jobsMax} {j : Job}
    (hfind : w.jobsFindByPid e.1 = some slot) (hj : w.jobs.cell slot = some j) :
    (w.handleTrackedEvent e).ledger = w.ledger.setJob slot (j.track e) := by
  rw [← w.ledger_outregFinalize e.1] at h ⊢
  rw [handleTrackedEvent]
  apply trackJob_ledger_found h
  · rwa [jobsFindByPid_outregFinalize]
  · rwa [jobs_outregFinalize]

/-! ## Children -/

theorem ledger_collect (w : World) (e : WaitEvent) :
    (w.collect e).ledger = { w.ledger with
      roster := w.ledger.roster.map fun c => if e.2.final ∧
        c.1 = e.1 then (c.1, true) else c } := by
  unfold collect
  split
  · simp only [ledger, List.map_map]
    congr 1
    apply List.map_congr_left
    intro c _
    simp only [Function.comp]
    split <;> simp_all
  · simp_all [ledger]

theorem ledger_enqueue (w : World) (e : WaitEvent) :
    (w.enqueue e).ledger = { w.ledger with
      pending := w.pending ++ if decide (w.pending.length < pendingMax) then [e] else [] } := by
  unfold enqueue
  by_cases h : w.pending.length < pendingMax <;> simp [h, ledger]

theorem ledger_startChild (w : World) (pid : Int) (i : Nat)
    (pipes : List (Nat × Nat)) (stage : Stage) (path : Str) (input : InputFd) (pgid : Int) :
    (w.startChild pid i pipes stage path input pgid).ledger =
      { w.ledger with roster := w.ledger.roster ++ [(pid, false)] } := by
  simp only [startChild, ledger_setpgid]
  simp [ledger]

/-- A stage adds nothing, a process whose `fork` has failed, or a new child. -/
theorem launchStage_ledger (w : World) (l : Launch) (pid : Option Nat)
    (e : Stage × Nat) (numCmds : Nat) (pipes : List (Nat × Nat)) :
    let s := launchStage numCmds pipes ({ w with forks := [⟨pid, []⟩] }, l) e
    s.1.ledger = w.ledger ∧ s.2.procs = l.procs ∨
    (∃ name, s.1.ledger = w.ledger ∧ s.2.procs = l.procs ++ [(-1, name)]) ∨
    ∃ n name, pid = some n ∧ s.1.ledger =
      { w.ledger with roster := w.ledger.roster ++ [((n : Int), false)] } ∧
      s.2.procs = l.procs ++ [((n : Int), name)] := by
  intro s
  obtain ⟨fs, fds, err, hw⟩ := prepareStage_frame { w with forks := [⟨pid, []⟩] } e.2 e.1
  rcases hprep : prepareStage { w with forks := [⟨pid, []⟩] } e.2 e.1 with ⟨w₁, prepared⟩
  rw [hprep] at hw
  subst hw
  cases prepared with
  | skipped =>
    left
    simp only [s, launchStage, hprep]
    exact ⟨rfl, trivial⟩
  | notFound =>
    left
    simp only [s, launchStage, hprep]
    exact ⟨rfl, trivial⟩
  | ready path input =>
    right
    simp only [s, launchStage, hprep, spawnStage, fork, sigchldHandler]
    cases pid with
    | none =>
      left
      simp only [ledger_spawnStage_end, ledger_setpgid]
      exact ⟨_, rfl, rfl⟩
    | some n =>
      right
      simp only [ledger_spawnStage_end, ledger_setpgid, ledger_startChild]
      exact ⟨n, _, rfl, rfl, rfl⟩

end World

end UnixCShell
