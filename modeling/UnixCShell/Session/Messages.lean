import UnixCShell.Session.Capacity
import UnixCShell.Session.Notifications

/-!
# What a notification says

When the last process of a background job has exited, `handle_tracked_event` announces the job under
the name and the pid of its first process, but with the status of the event that it has at hand,
which is the exit of the last one. `message_truthful_iff` says when the message is right: if the
process that was last ended in the same way as the first one (and if the message is not cut off
before it says so).
-/

namespace UnixCShell

open Lib

/-- `WIFSIGNALED`. -/
def WaitStatus.isSignal : WaitStatus → Bool
  | .signaled _ => true
  | _ => false

namespace Job

/-- `pids[0]`. -/
def firstPid (j : Job) : Int := (j.procs.head?.map (·.pid)).getD 0

/-- Whom the message about the job is about. -/
def subject (j : Job) : Str :=
  (j.procs.head?.map (·.name)).getD [] ++ " with pid ".toList ++ (toString j.firstPid).toList

/-- The message names the first process of the job, and says that it exited abnormally if and only
if it was terminated by a signal; `how` says how the processes ended. -/
def Truthful (j : Job) (how : Int → WaitStatus) (msg : Str) : Prop :=
  j.subject <+: msg ∧
    (j.subject ++ " exited abnormally".toList <+: msg ↔ (how j.firstPid).isSignal = true)

theorem message_eq (j : Job) (status : WaitStatus) :
    j.message status = j.subject ++
      (if status.isSignal then " exited abnormally" else " exited normally").toList := by
  cases status <;> simp [message, subject, firstPid, WaitStatus.isSignal]

/-- What a message of 255 bytes says. -/
theorem truthful_iff (j : Job) (how : Int → WaitStatus) (status : WaitStatus) :
    j.Truthful how ((j.message status).take 255) ↔
      j.subject.length ≤ 255 ∧
        (status.isSignal = true ∧ j.subject.length + 18 ≤ 255 ↔
          (how j.firstPid).isSignal = true) := by
  have hsays : j.subject ++ " exited abnormally".toList <+: j.message status ↔
      status.isSignal = true := by
    rw [message_eq, List.prefix_append_right_inj]
    cases status.isSignal <;> decide
  have hlength : (j.subject ++ " exited abnormally".toList).length = j.subject.length + 18 :=
    List.length_append
  have hnames : j.subject <+: j.message status := by
    rw [message_eq]
    exact List.prefix_append ..
  rw [Truthful, List.prefix_take_iff, List.prefix_take_iff, hsays, hlength]
  simp only [hnames, true_and]

end Job

/-! ## The job until its last exit -/

/-- What the table says about a job of which the exits in `es` have been consumed. -/
def Job.After (j : Job) (es : List WaitEvent) (j' : Job) : Prop :=
  j'.background = j.background ∧
    j'.procs = j.procs.map fun p => { p with done := decide (Exited es p.pid) }

namespace Job.After

variable {j j' : Job} {es : List WaitEvent} {e : WaitEvent}

theorem start (hfresh : ∀ p ∈ j.procs, p.done = false) : j.After [] j := by
  refine ⟨rfl, ?_⟩
  have hnone : ∀ pid, ¬ Exited [] pid := by
    rintro pid ⟨e, he, -⟩
    cases he
  conv_lhs => rw [← List.map_id j.procs]
  apply List.map_congr_left
  intro p hp
  have hdone := hfresh p hp
  simp only [hnone, decide_false, ← hdone]
  rfl

/-- Events of other processes, and events that are no exits. -/
theorem other (h : j.After es j') (hno : ∀ p ∈ j.procs, e.2.final = true → e.1 ≠ p.pid) :
    j.After (es ++ [e]) j' := by
  refine ⟨h.1, h.2.trans (List.map_congr_left fun p hp => ?_)⟩
  simp only [exited_concat_of_ne (hno p hp)]

/-- The exit of a process of the job is marked. -/
theorem finish (h : j.After es j') (hnodup : j.pids.Nodup) (hpids : j'.pids = j.pids)
    (hfinal : e.2.final = true) : j.After (es ++ [e]) (j'.finish e.1) := by
  refine ⟨h.1, ?_⟩
  rw [Job.finish_procs, h.2, List.map_map]
  · apply List.map_congr_left
    intro p _
    simp only [Function.comp, exited_concat, hfinal, and_true]
    by_cases hp : p.pid = e.1
    · simp [hp]
    · simp [hp, Ne.symm hp]
  · intro i k hi hk
    rw [hpids] at hi hk
    exact (List.getElem?_inj (List.getElem?_eq_some_iff.mp hi).1 hnodup).mp (hi.trans hk.symm)

theorem allDone_iff (h : j.After es j') : j'.allDone = true ↔ ∀ pid ∈ j.pids, Exited es pid := by
  rw [Job.allDone, h.2, List.all_map, List.all_eq_true, Job.pids, List.forall_mem_map]
  simp

/-- As long as an exit is missing, something is left of the job. -/
theorem track (h : j.After es j') (hnodup : j.pids.Nodup) (hpids : j'.pids = j.pids)
    (hopen : ∃ pid ∈ j.pids, ¬ Exited (es ++ [e]) pid) :
    ∃ i, j'.track e = some i ∧ j.After (es ++ [e]) i := by
  by_cases hfinal : e.2.final = true
  · have hfinish := h.finish hnodup hpids hfinal
    have hnot : (j'.finish e.1).allDone = false := by
      rw [← Bool.not_eq_true, hfinish.allDone_iff]
      intro hall
      obtain ⟨pid, hpid, hx⟩ := hopen
      exact hx (hall pid hpid)
    refine ⟨j'.finish e.1, ?_, hfinish⟩
    obtain ⟨pid, status⟩ := e
    cases status with
    | stopped | continued => cases hfinal
    | exited | signaled => simp only [Job.track, hnot, Bool.false_eq_true, if_false]
  · have hother := h.other fun _ _ hf => absurd hf hfinal
    obtain ⟨pid, status⟩ := e
    cases status with
    | stopped | continued => exact ⟨_, rfl, hother⟩
    | exited | signaled => exact absurd rfl hfinal

theorem message (h : j.After es j') (status : WaitStatus) :
    j'.message status = j.message status := by
  simp only [Job.message, h.2, List.head?_map, Option.map_map]
  rfl

end Job.After

theorem Holds.after {w : World} {slot : Fin jobsMax} {j : Job} {acts : List TableAct}
    (h : Holds w.ledger slot j.jobNumber j.pids (· = j)) (hnodup : j.pids.Nodup)
    (hfresh : ∀ p ∈ j.procs, p.done = false) (hforeign : ∀ a ∈ acts, a.Foreign j.pids j.jobNumber)
    (hopen : ∃ pid ∈ j.pids, ¬ Exited (acts.filterMap TableAct.event?) pid) :
    Holds (acts.foldl World.tableAct w).ledger slot j.jobNumber j.pids
      (j.After (acts.filterMap TableAct.event?)) := by
  have hstart : Holds w.ledger slot j.jobNumber j.pids (j.After []) := by
    apply h.imp
    rintro j' - rfl
    exact .start hfresh
  refine Holds.foldl (P := j.After) ?_ ?_ hstart hforeign hopen
  · intro es e hnot j' _ hj'
    apply hj'.other
    intro p hp _ heq
    exact hnot (heq ▸ List.mem_map_of_mem hp)
  · intro es e hopen _ j' hpids hj'
    exact hj'.track hnodup hpids hopen

/-! ## The last exit -/

/-- The event completes a background job, and the queue is not full. -/
theorem World.handleTrackedEvent_notifs {w : World} {e : WaitEvent} {slot : Fin jobsMax} {j : Job}
    (hfind : w.jobsFindByPid e.1 = some slot) (hj : w.jobs.cell slot = some j)
    (hnone : j.track e = none) (hbackground : j.background = true)
    (hroom : w.notifs.length < notifMax) :
    (w.handleTrackedEvent e).notifs = w.notifs ++ [(j.message e.2).take 255] := by
  have hfind' : (w.outregFinalize e.1).jobsFindByPid e.1 = some slot := by
    rwa [jobsFindByPid_outregFinalize]
  have hj' : (w.outregFinalize e.1).jobs.cell slot = some j := by rwa [jobs_outregFinalize]
  rw [handleTrackedEvent, trackJob_notifs hfind' hj', queues_found hfind' hj', hnone, hbackground,
    queueNotification]
  simp [hroom]

/-- All processes of the job exit, as `how` says, and the exit that is consumed last is `last`. -/
structure Job.Ends (j : Job) (how : Int → WaitStatus) (acts : List TableAct) (last : WaitEvent) :
    Prop where
  foreign : ∀ a ∈ acts, a.Foreign j.pids j.jobNumber
  how     : ∀ e ∈ acts.filterMap TableAct.event? ++ [last], e.1 ∈ j.pids →
    e.2.final = true → e.2 = how e.1
  own     : last.1 ∈ j.pids
  final   : last.2.final = true
  others  : ∀ pid ∈ j.pids, Exited (acts.filterMap TableAct.event?) pid ↔ pid ≠ last.1

/-- A background job has been registered, and whatever its processes and the other jobs have done
since, now the last exit of its processes is consumed; the queue may have been printed in between,
so only the table has to be the one after `acts`. The message is about the first process, but it
says how the last one ended. So it is right if and only if both ended in the same way; if the
message is cut at 255 bytes, there is no mistake only as long as what is left says enough. -/
theorem World.message_truthful_iff {w v : World} {slot : Fin jobsMax} {j : Job}
    {how : Int → WaitStatus} {acts : List TableAct} {last : WaitEvent}
    (hj : Holds w.ledger slot j.jobNumber j.pids (· = j)) (hbackground : j.background = true)
    (hnodup : j.pids.Nodup) (hfresh : ∀ p ∈ j.procs, p.done = false)
    (hends : j.Ends how acts last) (hv : v.jobs = (acts.foldl World.tableAct w).jobs)
    (hroom : v.notifs.length < notifMax) :
    ∃ msg, (v.handleTrackedEvent last).notifs = v.notifs ++ [msg] ∧
      (j.Truthful how msg ↔
        j.subject.length ≤ 255 ∧
          ((how last.1).isSignal = true ∧ j.subject.length + 18 ≤ 255 ↔
            (how j.firstPid).isSignal = true)) := by
  have hopen : ∃ pid ∈ j.pids, ¬ Exited (acts.filterMap TableAct.event?) pid :=
    ⟨last.1, hends.own, fun hx => (hends.others _ hends.own).mp hx rfl⟩
  have hafter := hj.after hnodup hfresh hends.foreign hopen
  obtain ⟨j', hj', -, hpids, hj''⟩ := hafter.job
  replace hj' : v.jobs.cell slot = some j' := by
    rw [hv]
    exact hj'
  have hfind : v.jobsFindByPid last.1 = some slot := by
    have hown : last.1 ∈ j'.pids := hpids ▸ hends.own
    refine Slots.findSlot_of_unique hj' (Job.any_pid.mpr hown) fun k i hi hp => ?_
    rw [hv] at hi
    by_contra hk
    exact hafter.alone k i hi hk last.1 hends.own (Job.any_pid.mp hp)
  have hnone : j'.track last = none := by
    have hall : (j'.finish last.1).allDone = true := by
      rw [(hj''.finish hnodup hpids hends.final).allDone_iff]
      intro pid hpid
      rw [exited_concat, hends.others pid hpid]
      by_cases heq : last.1 = pid
      · exact .inr ⟨heq, hends.final⟩
      · exact .inl (Ne.symm heq)
    rw [← Option.isNone_iff_eq_none, World.track_isNone, hends.final, hall]
    rfl
  have hhow : last.2 = how last.1 :=
    hends.how last (List.mem_append_right _ List.mem_cons_self) hends.own hends.final
  refine ⟨_, World.handleTrackedEvent_notifs hfind hj' hnone (hj''.1.trans hbackground) hroom, ?_⟩
  rw [hj''.message, Job.truthful_iff, hhow]

/-! ## Two processes -/

/-- `sleep | sleep &`. -/
def sleepPair : World :=
  (World.init.jobsRegister 200 [(200, "sleep".toList), (201, "sleep".toList)]
    "sleep | sleep".toList true
    .running).1

def sleepPairJob : Job :=
  ⟨1, 200, [⟨200, "sleep".toList, false⟩, ⟨201, "sleep".toList, false⟩],
    "sleep | sleep".toList, .running, true⟩

theorem holds_sleepPair :
    Holds sleepPair.ledger ⟨0, (by decide : 0 < jobsMax)⟩ 1 [200, 201] (· = sleepPairJob) :=
  Holds.registered (w := .init) (.empty rfl) (fun _ hj => absurd hj Slots.not_mem_empty) (by decide)
    (by decide) 200 "sleep | sleep".toList true .running

/-- The first is terminated by a signal, the second exits. -/
def firstKilled (pid : Int) : WaitStatus := if pid = 200 then .signaled 9 else .exited 0

/-- The exit of the first is consumed last. -/
theorem message_truthful_sleepPair :
    ∃ msg, ((sleepPair.handleTrackedEvent (201, .exited 0)).handleTrackedEvent
      (200, .signaled 9)).notifs = [msg] ∧ sleepPairJob.Truthful firstKilled msg := by
  have hends : sleepPairJob.Ends firstKilled [.event (201, .exited 0)] (200, .signaled 9) :=
    ⟨by simp [TableAct.Foreign], by decide, by decide, rfl, by decide⟩
  have hnotifs : (sleepPair.handleTrackedEvent (201, .exited 0)).notifs = [] := by decide +kernel
  obtain ⟨msg, hmsg, htruthful⟩ := World.message_truthful_iff
    (v := sleepPair.handleTrackedEvent (201, .exited 0)) holds_sleepPair rfl (by decide)
      (by decide) hends rfl
    (by rw [hnotifs]; decide)
  refine ⟨msg, by rw [hmsg, hnotifs]; rfl, htruthful.mpr (by decide +kernel)⟩

/-- The same two exits, consumed in both orders. -/
theorem message_sleepPair_order :
    sleepPair.jobs.cell ⟨0, (by decide : 0 < jobsMax)⟩ = some sleepPairJob ∧
      ((sleepPair.handleTrackedEvent (201, .exited 0)).handleTrackedEvent
        (200, .signaled 9)).notifs =
        ["sleep with pid 200 exited abnormally".toList] ∧
      ((sleepPair.handleTrackedEvent (200, .signaled 9)).handleTrackedEvent
        (201, .exited 0)).notifs =
        ["sleep with pid 200 exited normally".toList] ∧
      ¬ sleepPairJob.Truthful firstKilled "sleep with pid 200 exited normally".toList := by
  refine ⟨by decide +kernel, by decide +kernel, by decide +kernel, ?_⟩
  rintro ⟨-, hsays⟩
  have := hsays.mpr (by decide)
  revert this
  decide +kernel

end UnixCShell
