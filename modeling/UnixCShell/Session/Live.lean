import UnixCShell.Session.Invariant

/-!
# Jobs whose processes are gone

A job leaves the table when all its processes have been marked as gone. So the table is right if the
marks are: `jobs_live` says when. A process is marked by `handle_tracked_event`, or by
`jobs_wait_foreground` in an array of its own, which is forgotten when the loop ends. The marks are
right in all runs in which, whenever the loop takes a stop, it has not taken an exit before.
-/

namespace UnixCShell

open Lib

/-! ## The invariant across commands -/

/-- Jobs have gone or changed their state, but nothing else has happened to the table. -/
structure Ledger.Keeps (b b' : Ledger) : Prop where
  next   : b'.next = b.next
  roster : b'.roster = b.roster
  jobs   : ∀ {k : Fin jobsMax} {j' : Job}, b'.jobs.cell k = some j' →
    ∃ j, b.jobs.cell k = some j ∧ j'.jobNumber = j.jobNumber ∧ j'.procs = j.procs

namespace Ledger.Keeps

variable {b : Ledger}

theorem refl (b : Ledger) : b.Keeps b := ⟨rfl, rfl, fun h => ⟨_, h, rfl, rfl⟩⟩

theorem updates {b' : Ledger} (h : b.Keeps b') : b.Updates b' := by
  refine ⟨h.next, h.roster, fun hk => ?_⟩
  obtain ⟨j, hj, hnum, hprocs⟩ := h.jobs hk
  exact ⟨j, hj, hnum, by rw [Job.pids, hprocs, Job.pids]⟩

theorem setJob {slot : Fin jobsMax} {j : Job} {j' : Option Job} (hj : b.jobs.cell slot = some j)
    (hj' : ∀ i ∈ j', i.jobNumber = j.jobNumber ∧ i.procs = j.procs) :
    b.Keeps (b.setJob slot j') := by
  refine ⟨rfl, rfl, ?_⟩
  intro k i hi
  rcases Slots.cell_set_eq_some.mp hi with ⟨rfl, hnew⟩ | ⟨-, hold⟩
  · exact ⟨j, hj, hj' i hnew⟩
  · exact ⟨i, hold, rfl, rfl⟩

end Ledger.Keeps

/-- The account before the first event. -/
theorem Account.start {pids : List Int} {consumed : List WaitEvent} (hne : pids ≠ [])
    (h : ∀ pid ∈ pids, ¬ Exited consumed pid) : Account pids (.start pids) consumed := by
  refine ⟨hne, List.length_replicate, by simp [Waiter.start, List.count_replicate], ?_,
    fun h => by cases h⟩
  intro k pid hk
  refine iff_of_false ?_ (h pid (List.mem_of_getElem? hk))
  simp [Waiter.start, List.getElem?_replicate]

/-- A stopped loop has taken no exit. -/
theorem Account.not_exited_of_stopped {pids : List Int} {l : Waiter} {consumed : List WaitEvent}
    (h : Account pids l consumed) (hstopped : l.stopped = true) :
    ∀ pid ∈ pids, ¬ Exited consumed pid := by
  intro pid hpid
  obtain ⟨k, hk⟩ := List.mem_iff_getElem?.mp hpid
  rw [← h.done_iff hk]
  intro hdone
  have hcount : l.done.count true = 0 := h.count.symm.trans (h.stopped hstopped)
  exact List.count_eq_zero.mp hcount (List.mem_of_getElem? hdone)

/-- A new job of processes that belong to no job. -/
theorem Ownership.addJob {b : Ledger} (h : Ownership b) (slot : Fin jobsMax) {j : Job}
    (hfree : Unowned b j.pids) : Ownership (b.addJob slot j) := by
  constructor
  · intro k₁ k₂ i₁ i₂ h₁ h₂ pid hpos hp₁ hp₂
    rcases Ledger.cell_addJob h₁ with ⟨rfl, rfl⟩ | ⟨hk₁, hi₁⟩ <;>
      rcases Ledger.cell_addJob h₂ with ⟨rfl, rfl⟩ | ⟨hk₂, hi₂⟩
    · rfl
    · exact absurd hp₂ (hfree.free i₂ ⟨_, hi₂⟩ pid hp₁ hpos)
    · exact absurd hp₁ (hfree.free i₁ ⟨_, hi₁⟩ pid hp₂ hpos)
    · exact h.owner hi₁ hi₂ pid hpos hp₁ hp₂
  · rintro i ⟨k, hk⟩
    rcases Ledger.cell_addJob hk with ⟨-, rfl⟩ | ⟨-, hi⟩
    · exact hfree.distinct
    · exact h.distinct i ⟨k, hi⟩
  · rintro i ⟨k, hk⟩
    rcases Ledger.cell_addJob hk with ⟨-, rfl⟩ | ⟨-, hi⟩
    · exact hfree.child
    · exact h.child i ⟨k, hi⟩

namespace Inv

variable {b b' : Ledger} {c c' : Control} {consumed queue : List WaitEvent} {e : WaitEvent}

/-- The shell turns to something else: what the loop knew about the jobs that stay must be nothing,
and so must what the next loop knows. -/
theorem turn (h : Inv b c consumed queue) (hk : b.Keeps b')
    (hold : ∀ j ∈ b'.jobs, ∀ p ∈ j.procs, ¬ c.DoneLocal p.pid)
    (hnew : ∀ pid, ¬ c'.DoneLocal pid)
    (hunfinished : ∀ j ∈ b'.jobs, ∃ p ∈ j.procs, ¬ Exited consumed p.pid)
    (hcontrol : ControlOk b' consumed c') : Inv b' c' consumed queue := by
  refine ⟨hk.updates.numbered h.numbered, by rw [hk.roster]; exact h.events,
    h.ownership.updates hk.updates, ?_, fun j hj _ => hunfinished j hj, hcontrol⟩
  rintro j ⟨k, hj⟩ p hp
  obtain ⟨j₀, hj₀, -, hprocs⟩ := hk.jobs hj
  rw [or_iff_left (hnew p.pid), ← h.done_iff j₀ ⟨k, hj₀⟩ p (hprocs ▸ hp),
    or_iff_left (hold j ⟨k, hj⟩ p hp)]

/-- The loop was not for a job of the table. -/
theorem leave (h : Inv b c consumed queue) (hc : ∀ j, ¬ c.Awaits j)
    (hnew : ∀ pid, ¬ c'.DoneLocal pid) (hcontrol : ControlOk b consumed c') :
    Inv b c' consumed queue :=
  h.turn (.refl b) (fun j hj _ hp => h.not_doneLocal hj (hc j) hp) hnew
    (fun j hj => h.unfinished j hj (hc j)) hcontrol

/-- A new job, none of whose processes is gone. -/
theorem addJob (h : Inv b .idle consumed queue) (slot : Fin jobsMax) {j : Job}
    (hnum : j.jobNumber = b.next) (hfree : Unowned b j.pids)
    (hne : j.procs ≠ []) (hdone : ∀ p ∈ j.procs, p.done = false)
    (hexit : ∀ pid ∈ j.pids, ¬ Exited consumed pid) :
    Inv (b.addJob slot j) .idle consumed queue := by
  refine ⟨h.numbered.addJob slot hnum, h.events, h.ownership.addJob slot hfree, ?_, ?_, trivial⟩
  · rintro i ⟨k, hk⟩ p hp
    rcases Ledger.cell_addJob hk with ⟨-, rfl⟩ | ⟨-, hi⟩
    · refine iff_of_false ?_ (hexit p.pid (List.mem_map_of_mem hp))
      simp [hdone p hp, Control.DoneLocal]
    · exact h.done_iff i ⟨k, hi⟩ p hp
  · rintro i ⟨k, hk⟩ haw
    rcases Ledger.cell_addJob hk with ⟨-, rfl⟩ | ⟨-, hi⟩
    · obtain ⟨p, hp⟩ := List.exists_mem_of_ne_nil _ hne
      exact ⟨p, hp, hexit p.pid (List.mem_map_of_mem hp)⟩
    · exact h.unfinished i ⟨k, hi⟩ haw

end Inv

theorem Distinct.take {pids : List Int} (h : Distinct pids) (n : Nat) : Distinct (pids.take n) := by
  intro i k pid hpos hi hk
  rw [List.getElem?_take] at hi hk
  split at hi
  · split at hk
    · exact h hpos hi hk
    · cases hk
  · cases hi

/-- One more process, which is new or does not count. -/
theorem Distinct.concat {pids : List Int} (h : Distinct pids) {pid : Int}
    (hnew : 0 < pid → pid ∉ pids) : Distinct (pids ++ [pid]) := by
  -- the new process is at the end only
  have hlast : ∀ {i q}, 0 < q → (pids ++ [pid])[i]? = some q →
      pids[i]? = some q ∨ i = pids.length ∧ q = pid := by
    intro i q _ hi
    rcases Nat.lt_trichotomy i pids.length with hlt | heq | hgt
    · rw [List.getElem?_append_left hlt] at hi
      exact .inl hi
    · subst heq
      simp at hi
      exact .inr ⟨rfl, hi.symm⟩
    · rw [List.getElem?_eq_none (by simp; omega)] at hi
      cases hi
  intro i k q hpos hi hk
  rcases hlast hpos hi with hi | ⟨rfl, rfl⟩ <;> rcases hlast hpos hk with hk | ⟨rfl, heq⟩
  · exact h hpos hi hk
  · exact absurd (List.mem_of_getElem? hi) (heq ▸ hnew (heq ▸ hpos))
  · exact absurd (List.mem_of_getElem? hk) (hnew hpos)
  · rfl

theorem Unowned.take {b : Ledger} {pids : List Int} (h : Unowned b pids) (n : Nat) :
    Unowned b (pids.take n) :=
  ⟨h.distinct.take n, fun pid hpid => h.child pid (List.mem_of_mem_take hpid),
    fun j hj pid hpid => h.free j hj pid (List.mem_of_mem_take hpid)⟩

/-- `jobs_register` finds no slot, or adds a job in which nothing is marked. -/
theorem World.jobsRegister_new (w : World) (pgid : Int) (procs : List (Int × Str)) (cmdline : Str)
    (background : Bool) (state : JobState) :
    (w.jobsRegister pgid procs cmdline background state).1.ledger = w.ledger ∨
      ∃ slot j, (w.jobsRegister pgid procs cmdline background state).1.ledger =
        w.ledger.addJob slot j ∧
        j.jobNumber = w.ledger.next ∧ j.pids = (procs.map Prod.fst).take jobMaxProcs ∧
        ∀ p ∈ j.procs, p.done = false := by
  rcases w.jobsRegister_ledger pgid procs cmdline background state with hw | ⟨slot, -, hw⟩
  · exact .inl hw
  · refine .inr ⟨slot, _, hw, rfl, ?_, ?_⟩
    · rw [Job.pids, List.map_map, ← List.map_take]
      rfl
    · intro p hp
      obtain ⟨q, -, rfl⟩ := List.mem_map.mp hp
      rfl

/-- A `fork` that fails leaves `-1` behind, which is no child. -/
theorem Unowned.failed {b : Ledger} {pids : List Int} (h : Unowned b pids) :
    Unowned b (pids ++ [-1]) := by
  have hold : ∀ pid ∈ pids ++ [-1], 0 < pid → pid ∈ pids := by
    intro pid hpid hpos
    rcases List.mem_append.mp hpid with hpid | hpid
    · exact hpid
    · rw [List.mem_singleton.mp hpid] at hpos
      exact absurd hpos (by decide)
  exact ⟨h.distinct.concat fun hpos => absurd hpos (by decide),
    fun pid hpid hpos => h.child pid (hold pid hpid hpos) hpos,
    fun j hj pid hpid hpos => h.free j hj pid (hold pid hpid hpos) hpos⟩

section

variable {b : Ledger} {pid : Int}

/-- A new child, which nothing has been heard of. -/
theorem EventLog.fork {roster : List (Int × Bool)} {events : List WaitEvent}
    (h : EventLog roster events) (hpos : 0 < pid) (hnew : pid ∉ roster.map Prod.fst) :
    EventLog (roster ++ [(pid, false)]) events := by
  refine ⟨?_, ?_, ?_, h.once⟩
  · intro c hc
    rcases List.mem_append.mp hc with hc | hc
    · exact h.positive c hc
    · rw [List.mem_singleton.mp hc]
      exact hpos
  · intro e he
    rw [List.map_append]
    exact List.mem_append_left _ (h.known e he)
  · intro e he hfinal c hc heq
    rcases List.mem_append.mp hc with hc | hc
    · exact h.reaped e he hfinal c hc heq
    · rw [List.mem_singleton.mp hc] at heq
      exact absurd (h.known e he) (heq ▸ hnew)

theorem Ownership.fork (h : Ownership b) (pid : Int) :
    Ownership { b with roster := b.roster ++ [(pid, false)] } := by
  refine ⟨h.owner, h.distinct, fun j hj q hq hpos => ?_⟩
  rw [List.map_append]
  exact List.mem_append_left _ (h.child j hj q hq hpos)

/-- The new child belongs to no job. -/
theorem Unowned.fork {pids : List Int} (h : Unowned b pids) (hown : Ownership b) (hpos : 0 < pid)
    (hnew : pid ∉ b.roster.map Prod.fst) :
    Unowned { b with roster := b.roster ++ [(pid, false)] } (pids ++ [pid]) := by
  refine ⟨h.distinct.concat fun _ hmem => hnew (h.child _ hmem hpos), ?_, ?_⟩
  · intro q hq hq'
    rw [List.map_append]
    rcases List.mem_append.mp hq with hq | hq
    · exact List.mem_append_left _ (h.child q hq hq')
    · exact List.mem_append_right _ hq
  · intro j hj q hq hq'
    rcases List.mem_append.mp hq with hq | hq
    · exact h.free j hj q hq hq'
    · rw [List.mem_singleton.mp hq]
      exact fun hmem => hnew (hown.child j hj _ hmem hpos)

variable {consumed queue : List WaitEvent} {l l' : Launch} {name : Str}

/-- A launch goes on with a stage for which `fork` has failed: nobody has the pid `-1`. -/
theorem EventLog.failedStage (h : EventLog b.roster (consumed ++ queue))
    (hfree : Unowned b (l.procs.map Prod.fst))
    (hexit : ∀ pid ∈ l.procs.map Prod.fst, ¬ Exited consumed pid)
    (hl : l'.procs = l.procs ++ [(-1, name)]) :
    Unowned b (l'.procs.map Prod.fst) ∧ ∀ pid ∈ l'.procs.map Prod.fst, ¬ Exited consumed pid := by
  rw [hl, List.map_append, List.forall_mem_append]
  refine ⟨hfree.failed, hexit, List.forall_mem_singleton.mpr fun hx => ?_⟩
  have hpos : 0 < (-1 : Int) := (h.exited_known hx).2
  exact absurd hpos (by decide)

/-- A launch goes on with a new child. -/
theorem EventLog.newStage (h : EventLog b.roster (consumed ++ queue)) (hown : Ownership b)
    (hfree : Unowned b (l.procs.map Prod.fst))
    (hexit : ∀ pid ∈ l.procs.map Prod.fst, ¬ Exited consumed pid) (hpos : 0 < pid)
    (hnew : pid ∉ b.roster.map Prod.fst) (hl : l'.procs = l.procs ++ [(pid, name)]) :
    Unowned { b with roster := b.roster ++ [(pid, false)] } (l'.procs.map Prod.fst) ∧
      ∀ pid ∈ l'.procs.map Prod.fst, ¬ Exited consumed pid := by
  rw [hl, List.map_append, List.forall_mem_append]
  refine ⟨hfree.fork hown hpos hnew, hexit, List.forall_mem_singleton.mpr fun hx => ?_⟩
  exact hnew (h.exited_known hx).1

end

namespace Inv

variable {b : Ledger} {consumed queue : List WaitEvent}
  {todo todo' : List (Stage × Nat)} {numCmds : Nat}
  {pipes : List (Nat × Nat)} {l l' : Launch} {cmdline name : Str} {background : Bool}

/-- A stage for which `fork` has failed. -/
theorem failedStage (h : Inv b (.forking todo numCmds pipes l cmdline background) consumed queue)
    (hl : l'.procs = l.procs ++ [(-1, name)]) :
    Inv b (.forking todo' numCmds pipes l' cmdline background) consumed queue := by
  obtain ⟨hfree, hexit⟩ := h.control
  exact ⟨h.numbered, h.events, h.ownership, h.done_iff, h.unfinished,
    h.events.failedStage hfree hexit hl⟩

/-- A stage that has been started. -/
theorem newStage (h : Inv b (.forking todo numCmds pipes l cmdline background) consumed queue)
    {n : Nat} (hpos : 0 < (n : Int)) (hnew : (n : Int) ∉ b.roster.map Prod.fst)
    (hl : l'.procs = l.procs ++ [((n : Int), name)]) :
    Inv { b with roster := b.roster ++ [((n : Int), false)] }
      (.forking todo' numCmds pipes l' cmdline background) consumed queue := by
  obtain ⟨hfree, hexit⟩ := h.control
  exact ⟨⟨h.numbered.lt, h.numbered.inj⟩, h.events.fork hpos hnew, h.ownership.fork _, h.done_iff,
    h.unfinished, h.events.newStage h.ownership hfree hexit hpos hnew hl⟩

/-- `jobs_register` for processes of which none is gone. -/
theorem register {w : World} (h : Inv w.ledger .idle consumed queue)
    (hfree : Unowned w.ledger (l.procs.map Prod.fst)) (hne : l.procs ≠ [])
    (hexit : ∀ pid ∈ l.procs.map Prod.fst, ¬ Exited consumed pid) (cmdline : Str)
    (background : Bool) (state : JobState) :
    Inv (w.jobsRegister l.pgid l.procs cmdline background state).1.ledger .idle consumed queue := by
  rcases w.jobsRegister_new l.pgid l.procs cmdline background state with
    hw | ⟨slot, j, hw, hnum, hpids, hdone⟩
  · rw [hw]
    exact h
  · have hfree' : Unowned w.ledger j.pids := by
      rw [hpids]
      exact hfree.take _
    rw [hw]
    apply h.addJob slot hnum hfree' _ hdone
    · rw [hpids]
      exact fun pid hpid => hexit pid (List.mem_of_mem_take hpid)
    · intro hnil
      rw [Job.pids, hnil, List.map_nil, eq_comm, List.take_eq_nil_iff, List.map_eq_nil_iff] at hpids
      exact hpids.elim (by decide) hne

end Inv

/-! ## The invariant across events -/

/-- Children may have been reaped, but nothing else has happened. -/
structure Ledger.Reaps (b b' : Ledger) : Prop where
  jobs : b'.jobs = b.jobs
  next : b'.next = b.next
  pids : b'.roster.map Prod.fst = b.roster.map Prod.fst

namespace Ledger.Reaps

variable {b b' : Ledger}

theorem numbered (hr : b.Reaps b') (h : b.Numbered) : b'.Numbered := by
  obtain ⟨hjobs, hnext, -⟩ := hr
  constructor
  · rw [hjobs, hnext]
    exact h.lt
  · rw [hjobs]
    exact h.inj

theorem ownership (hr : b.Reaps b') (h : Ownership b) : Ownership b' := by
  obtain ⟨hjobs, -, hpids⟩ := hr
  constructor
  · rw [hjobs]
    exact h.owner
  · rw [hjobs]
    exact h.distinct
  · rw [hjobs, hpids]
    exact h.child

theorem unowned (hr : b.Reaps b') {pids : List Int} (h : Unowned b pids) : Unowned b' pids := by
  obtain ⟨hjobs, -, hpids⟩ := hr
  refine ⟨h.distinct, ?_, ?_⟩
  · rw [hpids]
    exact h.child
  · rw [hjobs]
    exact h.free

end Ledger.Reaps

/-- The handler reaps children and queues events. -/
theorem World.sigchldHandler_reaps {w : World} {consumed es : List WaitEvent}
    (h : EventLog w.ledger.roster (consumed ++ w.pending)) (hes : w.Reapable es) :
    w.ledger.Reaps (w.sigchldHandler es).ledger ∧
      EventLog (w.sigchldHandler es).ledger.roster (consumed ++ (w.sigchldHandler es).pending) := by
  induction es generalizing w with
  | nil => exact ⟨⟨rfl, rfl, rfl⟩, h⟩
  | cons e es ih =>
    obtain ⟨⟨p, hp, hpid, hunreaped⟩, hrest⟩ := hes
    have hledger : ((w.collect e).enqueue e).ledger = { w.ledger with
        roster := w.ledger.roster.map fun c => if e.2.final ∧ c.1 = e.1 then (c.1, true) else c
        pending := w.pending ++ if decide (w.pending.length < pendingMax) then [e] else [] } := by
      have hpending : (w.collect e).pending = w.pending :=
        congrArg Ledger.pending (w.ledger_collect e)
      rw [World.ledger_enqueue, World.ledger_collect, hpending]
    have hreap := h.reap ⟨(p.pid, p.reaped), List.mem_map_of_mem hp, hpid, hunreaped⟩
      (decide (w.pending.length < pendingMax))
    rw [List.append_assoc] at hreap
    have hnext : EventLog ((w.collect e).enqueue e).ledger.roster
        (consumed ++ ((w.collect e).enqueue e).ledger.pending) := by
      rw [hledger]
      exact hreap
    obtain ⟨⟨hjobs, hnum, hpids⟩, hevents⟩ := ih hnext hrest
    rw [hledger] at hjobs hnum hpids
    refine ⟨⟨hjobs, hnum, hpids.trans ?_⟩, hevents⟩
    rw [List.map_map]
    apply List.map_congr_left
    intro c _
    simp only [Function.comp]
    split <;> rfl

/-- Children may have been reaped, and events may have come in. -/
theorem Inv.reaped {b b' : Ledger} {c : Control} {consumed queue queue' : List WaitEvent}
    (h : Inv b c consumed queue) (hr : b.Reaps b')
    (hevents : EventLog b'.roster (consumed ++ queue')) :
    Inv b' c consumed queue' := by
  refine ⟨hr.numbered h.numbered, hevents, hr.ownership h.ownership,
    by rw [hr.jobs]; exact h.done_iff,
    by rw [hr.jobs]; exact h.unfinished, ?_⟩
  have hc := h.control
  cases c with
  | idle => trivial
  | forking => exact ⟨hr.unowned hc.1, hc.2⟩
  | waiting on l alarm timedOut =>
    cases on with
    | launch => exact ⟨hr.unowned hc.1, hc.2⟩
    | job =>
      rw [ControlOk, hr.jobs]
      exact hc

theorem Inv.sigchldHandler {w : World} {c : Control} {consumed es : List WaitEvent}
    (h : Inv w.ledger c consumed w.pending) (hes : w.Reapable es) :
    Inv (w.sigchldHandler es).ledger c consumed (w.sigchldHandler es).pending := by
  obtain ⟨hreaps, hevents⟩ := World.sigchldHandler_reaps h.events hes
  exact h.reaped hreaps hevents

theorem Inv.handleTrackedEvent {w : World} {c : Control}
    {consumed queue : List WaitEvent} {e : WaitEvent} (h : Inv w.ledger c consumed (e :: queue))
    (hnot : e.1 ∉ c.pids) :
    Inv (w.handleTrackedEvent e).ledger c (consumed ++ [e]) queue := by
  have hw := w.ledger_outregFinalize e.1
  have hjobs : (w.outregFinalize e.1).jobs = w.jobs := congrArg Ledger.jobs hw
  rw [World.handleTrackedEvent]
  by_cases hknown : ∃ slot j, w.jobs.cell slot = some j ∧ e.1 ∈ j.pids
  · obtain ⟨slot, j, hj, hmem⟩ := hknown
    have hpos : 0 < e.1 := h.events.pid_positive (List.mem_append_right _ List.mem_cons_self)
    rw [World.trackJob_ledger (by rw [hw]; exact h.numbered) (by rw [hjobs]; exact hj) hmem, hw]
    · exact h.tracked_known hnot hj hmem
    · intro k j' hk hmem'
      rw [hjobs] at hk
      exact h.ownership.owner hk hj e.1 hpos hmem' hmem
  · have hunknown : ∀ j ∈ w.jobs, e.1 ∉ j.pids := by
      rintro j ⟨slot, hj⟩ hmem
      exact hknown ⟨slot, j, hj, hmem⟩
    rw [World.trackJob_ledger_unknown (by rw [hjobs]; exact hunknown), hw]
    exact h.tracked_unknown hnot hunknown

/-- `jobs_process_pending`, one event after the other. -/
theorem Inv.processAll {w : World} {consumed es : List WaitEvent}
    (h : Inv w.ledger .idle consumed es) :
    Inv (es.foldl World.handleTrackedEvent w).ledger .idle (consumed ++ es) [] := by
  induction es generalizing w consumed with
  | nil => rwa [List.append_nil]
  | cons e es ih =>
    have := ih (h.handleTrackedEvent List.not_mem_nil)
    rwa [List.append_assoc] at this

theorem World.foldl_handleTrackedEvent_pending (w : World) (es : List WaitEvent) :
    (es.foldl World.handleTrackedEvent w).pending = w.pending := by
  induction es generalizing w with
  | nil => rfl
  | cons e es ih =>
    obtain ⟨_, _, _, _, h⟩ := w.handleTrackedEvent_frame e
    rw [List.foldl_cons, ih, h]

theorem Inv.jobsProcessPending {w : World} {consumed : List WaitEvent}
    (h : Inv w.ledger .idle consumed w.pending) :
    Inv w.jobsProcessPending.ledger .idle (consumed ++ w.pending) w.jobsProcessPending.pending := by
  rw [World.jobsProcessPending, World.foldl_handleTrackedEvent_pending]
  exact Inv.processAll (w := { w with pending := [] }) (h.reaped ⟨rfl, rfl, rfl⟩ h.events)

/-- One event of `jobs_wait_foreground`. A stop of a process that is waited for must come before the
exits. -/
theorem Inv.waitEvent {w : World} {on : Awaited} {l : Waiter} {alarm timedOut : Bool}
    {consumed queue : List WaitEvent} {e : WaitEvent}
    (h : Inv w.ledger (.waiting on l alarm timedOut) consumed (e :: queue))
    (hrunning : l.stopped = false) (hsafe : e.2.isStop = true → e.1 ∈ on.pids → l.doneCount = 0) :
    Inv (w.waitEvent on.pids l e).1.ledger (.waiting on (w.waitEvent on.pids l e).2 alarm timedOut)
      (consumed ++ [e]) queue := by
  unfold World.waitEvent
  cases hidx : l.index on.pids e.1 with
  | none =>
    have hnot : e.1 ∉ on.pids := h.not_mem_pids hidx
    -- the account is that of the processes that are waited for, so it stays
    exact h.handleTrackedEvent hnot
  | some k =>
    have hmem : e.1 ∈ on.pids := List.mem_of_getElem? (Waiter.index_eq_some hidx).1
    obtain ⟨pid, status⟩ := e
    cases status with
    | stopped sig => exact h.waited_other rfl rfl rfl fun _ => hsafe rfl hmem
    | continued => exact h.waited_other rfl rfl rfl h.account.stopped
    | exited | signaled =>
      simp only [World.ledger_outregFinalize]
      exact h.waited_exit rfl hrunning hidx

/-! ## The end of a wait -/

/-- The rest of `launch_group`. -/
theorem Inv.afterForeground {w : World} {launch : Launch} {cmdline : Str} {l : Waiter}
    {alarm timedOut : Bool} {consumed queue : List WaitEvent}
    (h : Inv w.ledger (.waiting (.launch launch cmdline) l alarm timedOut) consumed queue) :
    Inv (w.afterForeground launch cmdline l.stopped).ledger .idle consumed queue := by
  have hidle : Inv w.ledger .idle consumed queue := h.leave (fun _ => id) (fun _ => id) trivial
  obtain ⟨hfree, haccount⟩ := h.control
  simp only [World.afterForeground, World.settleForeground, World.ledger_jobsFlushNotifications]
  split
  · rename_i hstopped
    rw [World.ledger_printStopped]
    refine Inv.register (w := w.termReclaim) hidle hfree ?_
      (haccount.not_exited_of_stopped hstopped)
      _ _ _
    intro hnil
    exact haccount.nonempty (by simp [Awaited.pids, hnil])
  · rw [World.ledger_foldl_outregFinalize]
    exact hidle

/-- The awaited job is removed. -/
theorem Inv.removeAwaited {b : Ledger} {j j' : Job} {l : Waiter} {alarm timedOut : Bool}
    {consumed queue : List WaitEvent}
    (h : Inv b (.waiting (.job j) l alarm timedOut) consumed queue) {slot : Fin jobsMax}
    (hj' : b.jobs.cell slot = some j') (hnum : j'.jobNumber = j.jobNumber) :
    Inv (b.setJob slot none) .idle consumed queue := by
  -- the jobs that are left are not waited for
  have hleft : ∀ i ∈ (b.setJob slot none).jobs, i ∈ b.jobs ∧
      ¬ (Control.waiting (.job j) l alarm timedOut).Awaits i := by
    intro i hi
    obtain ⟨k, hne, hk⟩ := Slots.mem_set_none.mp hi
    refine ⟨⟨k, hk⟩, fun haw => hne (h.numbered.inj hk hj' ?_)⟩
    exact (hnum.trans haw).symm
  apply h.turn (.setJob hj' fun i hi => by cases hi)
  · intro i hi p hp
    exact h.not_doneLocal (hleft i hi).1 (hleft i hi).2 hp
  · exact fun _ => id
  · exact fun i hi => h.unfinished i (hleft i hi).1 (hleft i hi).2
  · trivial

/-- The awaited job has been stopped. -/
theorem Inv.stopAwaited {b : Ledger} {j j' : Job} {l : Waiter} {alarm timedOut : Bool}
    {consumed queue : List WaitEvent}
    (h : Inv b (.waiting (.job j) l alarm timedOut) consumed queue) {slot : Fin jobsMax}
    (hj' : b.jobs.cell slot = some j') (hnum : j'.jobNumber = j.jobNumber)
    (hprocs : j'.procs = j.procs) (hstopped : l.stopped = true) :
    Inv (b.setJob slot (some { j' with state := .stopped })) .idle consumed queue := by
  have hexit : ∀ pid ∈ j.pids, ¬ Exited consumed pid := h.account.not_exited_of_stopped hstopped
  have hcases : ∀ i ∈ (b.setJob slot (some { j' with state := .stopped })).jobs,
      i.procs = j.procs ∨ i ∈ b.jobs ∧ ¬ (Control.waiting (.job j) l alarm timedOut).Awaits i := by
    intro i hi
    rcases Slots.mem_set_some.mp hi with rfl | ⟨k, hne, hk⟩
    · exact .inl hprocs
    · refine .inr ⟨⟨k, hk⟩, fun haw => hne (h.numbered.inj hk hj' ?_)⟩
      exact (hnum.trans haw).symm
  apply h.turn (.setJob hj' fun i hi => by cases hi; exact ⟨rfl, rfl⟩)
  · intro i hi p hp
    rcases hcases i hi with heq | ⟨hmem, haw⟩
    · rw [h.account.doneLocal_iff]
      exact fun hx => hexit p.pid (List.mem_map_of_mem (heq ▸ hp)) hx.2
    · exact h.not_doneLocal hmem haw hp
  · exact fun _ => id
  · intro i hi
    rcases hcases i hi with heq | ⟨hmem, haw⟩
    · rw [heq]
      obtain ⟨pid, hpid⟩ := List.exists_mem_of_ne_nil _ h.account.nonempty
      obtain ⟨p, hp, rfl⟩ := List.mem_map.mp hpid
      exact ⟨p, hp, hexit p.pid (List.mem_map_of_mem hp)⟩
    · exact h.unfinished i hmem haw
  · trivial

/-- The rest of `run_resume`. -/
theorem Inv.afterResume {w : World} {j : Job} {l : Waiter} {alarm timedOut : Bool}
    {consumed queue : List WaitEvent}
    (h : Inv w.ledger (.waiting (.job j) l alarm timedOut) consumed queue) :
    Inv (w.afterResume j l timedOut).ledger .idle consumed queue := by
  obtain ⟨⟨slot, j', hj', hnum, hprocs⟩, -, -⟩ := h.control
  simp only [World.afterResume, World.settleResume, World.ledger_jobsFlushNotifications]
  rw [← hnum]
  split
  · rw [World.jobsRemove_ledger (b := w.ledger) (by simp) h.numbered hj']
    exact h.removeAwaited hj' hnum
  · split
    · rename_i hstopped
      rw [World.ledger_printStopped, World.markStopped_ledger w.ledger_termReclaim h.numbered hj']
      exact h.stopAwaited hj' hnum hprocs hstopped
    · rw [World.jobsRemove_ledger (b := w.ledger) (by simp) h.numbered hj']
      exact h.removeAwaited hj' hnum

/-! ## The steps of a session -/

namespace Session

/-- The invariant of a session. -/
def Sound (s : Session) : Prop := Inv s.world.ledger s.control s.consumed s.world.ledger.pending

/-- What is assumed of the environment: pipelines fit into the arrays of `jobs.c`, and no pid is
used twice. -/
def Assumed (s : Session) : Act → Prop
  | .launch group _ => (stages group).length ≤ jobMaxProcs
  | .stage (some pid) => 0 < pid ∧ ∀ c ∈ s.world.children, c.pid ≠ pid
  | _ => True

instance (s : Session) (a : Act) : Decidable (s.Assumed a) :=
  match a with
  | .launch group _ => inferInstanceAs (Decidable ((stages group).length ≤ jobMaxProcs))
  | .stage (some pid) =>
    inferInstanceAs (Decidable (0 < pid ∧ ∀ c ∈ s.world.children, c.pid ≠ pid))
  | .stage none | .signals _ | .alarm | .processPending | .flush | .started | .wait | .finish
  | .resume _ => .isTrue trivial

/-- A stop of a process that is waited for is not taken behind an exit. -/
def SafeWait : Control → List WaitEvent → Prop
  | .waiting on l _ _, e :: _ => e.2.isStop = true → e.1 ∈ on.pids → l.doneCount = 0
  | _, _ => True

instance : ∀ c es, Decidable (SafeWait c es)
  | .waiting on l _ _, e :: _ =>
    inferInstanceAs (Decidable (e.2.isStop = true → e.1 ∈ on.pids → l.doneCount = 0))
  | .waiting .., [] | .idle, _ | .forking .., _ => .isTrue trivial

/-- A job that is to be waited for has lost no process. -/
def SafeResume (w : World) : Option ResumeArgs → Prop
  | some r => r.isFg = true →
    ∀ j ∈ (w.jobsFindByNumber r.jobNumber).bind w.jobs.cell, ∀ p ∈ j.procs, p.done = false
  | none => True

instance (w : World) : ∀ r, Decidable (SafeResume w r)
  | some r => inferInstanceAs (Decidable (r.isFg = true →
      ∀ j ∈ (w.jobsFindByNumber r.jobNumber).bind w.jobs.cell, ∀ p ∈ j.procs, p.done = false))
  | none => .isTrue trivial

/-- The steps that keep the marks right. -/
def Safe (s : Session) : Act → Prop
  | .wait => SafeWait s.control s.world.pending
  | .resume args => SafeResume s.world (parseResume args)
  | _ => True

instance (s : Session) (a : Act) : Decidable (s.Safe a) :=
  match a with
  | .wait => inferInstanceAs (Decidable (SafeWait _ _))
  | .resume _ => inferInstanceAs (Decidable (SafeResume _ _))
  | .stage _ | .signals _ | .alarm | .processPending | .flush | .started | .launch .. | .finish =>
    .isTrue trivial

variable {s s' : Session}

/-- `launch_group` behind its loop. -/
theorem Sound.started {numCmds : Nat} {pipes : List (Nat × Nat)} {l : Launch} {cmdline : Str}
    {background : Bool} (h : s.Sound)
    (hc : s.control = .forking [] numCmds pipes l cmdline background) :
    (s.started pipes l cmdline background).Sound := by
  unfold Sound at h
  rw [hc] at h
  obtain ⟨hfree, hexit⟩ := h.control
  have hidle : Inv s.world.ledger .idle s.consumed s.world.ledger.pending :=
    h.leave (fun _ => id) (fun _ => id) trivial
  unfold Session.started Sound
  dsimp only
  split
  · exact hidle
  · rename_i hne
    have hpids : l.procs.map Prod.fst ≠ [] := by simpa using hne
    split
    · rw [World.startBackground_pending]
      simp only [World.startBackground, World.ledger_print]
      exact Inv.register (w := { s.world with fds := s.world.fds.closePipes pipes })
        hidle hfree hne hexit
        _ _ _
    · have haccount : Account (Awaited.launch l cmdline).pids
        (.start (l.procs.map Prod.fst)) s.consumed :=
        Account.start hpids hexit
      rw [World.ledger_termGiveTo]
      apply h.leave (fun _ => id)
      · intro pid hdone
        obtain ⟨hmem, hx⟩ := haccount.doneLocal_iff.mp hdone
        exact hexit pid hmem hx
      · exact ⟨hfree, haccount⟩

/-- A job that is continued. -/
theorem Sound.continue (h : s.Sound) (hc : s.control = .idle) {slot : Fin jobsMax} {j : Job}
    (hj : s.world.ledger.jobs.cell slot = some j) :
    Inv (s.world.ledger.setJob slot (some { j with state := .running })) .idle s.consumed
      s.world.ledger.pending := by
  unfold Sound at h
  rw [hc] at h
  have hkeeps : s.world.ledger.Keeps
    (s.world.ledger.setJob slot (some { j with state := .running })) :=
    .setJob hj fun i hi => by cases hi; exact ⟨rfl, rfl⟩
  apply h.turn hkeeps (fun _ _ _ _ => id) (fun _ => id)
  · rintro i ⟨k, hk⟩
    obtain ⟨i₀, hi₀, -, hprocs⟩ := hkeeps.jobs hk
    rw [hprocs]
    exact h.unfinished i₀ ⟨k, hi₀⟩ id
  · trivial

/-- A job that is waited for, and has all its processes. -/
theorem Inv.await {b : Ledger} {consumed queue : List WaitEvent} (h : Inv b .idle consumed queue)
    {slot : Fin jobsMax} {j j' : Job} (hj' : b.jobs.cell slot = some j')
    (hnum : j'.jobNumber = j.jobNumber) (hprocs : j'.procs = j.procs)
    (hdone : ∀ p ∈ j.procs, p.done = false) (alarm : Bool) :
    Inv b (.waiting (.job j) (.start j.pids) alarm false) consumed queue := by
  have hexit : ∀ pid ∈ j.pids, ¬ Exited consumed pid := by
    intro pid hpid hx
    obtain ⟨p, hp, rfl⟩ := List.mem_map.mp hpid
    have := (h.done_iff j' ⟨slot, hj'⟩ p (hprocs ▸ hp)).mpr hx
    simp [hdone p hp, Control.DoneLocal] at this
  have hne : j.pids ≠ [] := by
    obtain ⟨p, hp, -⟩ := h.unfinished j' ⟨slot, hj'⟩ id
    exact List.ne_nil_of_mem (List.mem_map_of_mem (hprocs ▸ hp))
  have haccount : Account (Awaited.job j).pids (.start j.pids) consumed := Account.start hne hexit
  apply h.turn (.refl b) (fun _ _ _ _ => id)
  · intro pid hlocal
    obtain ⟨hmem, hx⟩ := haccount.doneLocal_iff.mp hlocal
    exact hexit pid hmem hx
  · exact fun i hi => h.unfinished i hi id
  · exact ⟨⟨slot, j', hj', hnum, hprocs⟩, hdone, haccount⟩

/-- `run_resume` up to the wait. -/
theorem Sound.resume (h : s.Sound) (hc : s.control = .idle) {args : List Str}
    (hsafe : s.Safe (.resume args)) : (s.resume args).Sound := by
  unfold Session.resume
  cases hparse : parseResume args with
  | none => exact h
  | some r =>
    obtain ⟨number, isFg, timeout⟩ := r
    rcases hstart : s.world.startResume number isFg with ⟨w, found⟩
    have hcases := s.world.startResume_ledger number isFg
    rw [hstart] at hcases
    simp only [hstart]
    rcases hcases with ⟨hw, rfl⟩ | ⟨slot, j, hfind, hj, hw, rfl⟩
    · change Inv w.ledger s.control s.consumed w.ledger.pending
      rw [show w.ledger = _ from hw]
      exact h
    · have hcont := h.continue hc hj
      replace hw : w.ledger = _ := hw
      cases isFg with
      | false =>
        change Inv w.ledger s.control s.consumed w.ledger.pending
        rw [hw, hc]
        exact hcont
      | true =>
        have hdone : ∀ p ∈ j.procs, p.done = false := by
          simp only [Safe, hparse] at hsafe
          exact hsafe rfl j (by simp [hfind, hj])
        change Inv w.ledger (.waiting (.job j) (.start j.pids) _ false) s.consumed w.ledger.pending
        rw [hw]
        exact Inv.await (j := j) hcont (Slots.cell_set_self ..) rfl rfl hdone _

/-- `launch_group` up to its loop. -/
theorem Sound.launch (h : s.Sound) (hc : s.control = .idle) (group : List Token)
    (background : Bool) :
    (s.launch group background).Sound := by
  unfold Sound at h
  rw [hc] at h
  have hw := s.world.ledger_makePipes ((stages group).length - 1)
  change Inv (s.world.makePipes _).1.ledger (.forking _ _ _ {} _ _) s.consumed
    (s.world.makePipes _).1.ledger.pending
  rw [hw]
  refine h.leave (fun _ => id) (fun _ => id) ⟨⟨?_, ?_, ?_⟩, ?_⟩
  · intro i k pid _ hi
    simp at hi
  · exact fun _ hpid => absurd hpid List.not_mem_nil
  · exact fun _ _ _ hpid => absurd hpid List.not_mem_nil
  · exact fun _ hpid => absurd hpid List.not_mem_nil

/-- The end of a wait. -/
theorem Sound.finish {on : Awaited} {l : Waiter} {alarm timedOut : Bool} (h : s.Sound)
    (hc : s.control = .waiting on l alarm timedOut) : (s.finish on l timedOut).Sound := by
  unfold Sound at h
  rw [hc] at h
  cases on with
  | launch launch cmdline =>
    change Inv (s.world.afterForeground launch cmdline l.stopped).ledger .idle s.consumed
      (s.world.afterForeground launch cmdline l.stopped).ledger.pending
    rw [World.afterForeground_pending]
    exact h.afterForeground
  | job j =>
    change Inv (s.world.afterResume j l timedOut).ledger .idle s.consumed
      (s.world.afterResume j l timedOut).ledger.pending
    rw [World.afterResume_pending]
    exact h.afterResume

/-- The pid of a new child is not on the roster. -/
theorem Assumed.not_mem_roster {n : Nat} (h : s.Assumed (.stage (some n))) :
    (n : Int) ∉ s.world.ledger.roster.map Prod.fst := by
  intro hmem
  obtain ⟨c, hmemc, heq⟩ := List.mem_map.mp hmem
  obtain ⟨p, hp, rfl⟩ := List.mem_map.mp hmemc
  exact h.2 p hp heq

/-- The next stage of a pipeline. -/
theorem Sound.stage {e : Stage × Nat} {todo : List (Stage × Nat)} {numCmds : Nat}
    {pipes : List (Nat × Nat)} {l : Launch} {cmdline : Str} {background : Bool} (h : s.Sound)
    (hc : s.control = .forking (e :: todo) numCmds pipes l cmdline background) {pid : Option Nat}
    (hassumed : s.Assumed (.stage pid)) :
    let r := World.launchStage numCmds pipes ({ s.world with forks := [⟨pid, []⟩] }, l) e
    Sound { s with
      world := { r.1 with forks := [] }
      control := .forking todo numCmds pipes r.2 cmdline background } := by
  intro r
  change Inv r.1.ledger (.forking todo numCmds pipes r.2 cmdline background) s.consumed
    r.1.ledger.pending
  unfold Sound at h
  rw [hc] at h
  have hcases : r.1.ledger = _ ∧ _ ∨ _ := s.world.launchStage_ledger l pid e numCmds pipes
  rcases hcases with ⟨hledger, hl⟩ | ⟨name, hledger, hl⟩ | ⟨n, name, rfl, hledger, hl⟩
  · rw [hledger]
    refine h.leave (fun _ => id) (fun _ => id) ?_
    rw [ControlOk, hl]
    exact h.control
  · rw [hledger]
    exact h.failedStage hl
  · rw [hledger]
    exact h.newStage (by exact_mod_cast hassumed.1) hassumed.not_mem_roster hl

/-- One event of a wait. -/
theorem Sound.wait {on : Awaited} {l : Waiter} {alarm timedOut : Bool} (h : s.Sound)
    (hc : s.control = .waiting on l alarm timedOut) (hsafe : s.Safe .wait)
    (hwaiting : l.waiting on.pids = true) {e : WaitEvent} {es : List WaitEvent}
    (hpending : s.world.pending = e :: es) :
    Inv ({ s.world with pending := es }.waitEvent on.pids l e).1.ledger
      (.waiting on ({ s.world with pending := es }.waitEvent on.pids l e).2 alarm timedOut)
      (s.consumed ++ [e])
        ({ s.world with pending := es }.waitEvent on.pids l e).1.ledger.pending := by
  rw [World.waitEvent_pending]
  unfold Sound at h
  rw [hc] at h
  change Inv _ _ _ s.world.pending at h
  rw [hpending] at h
  refine Inv.waitEvent (w := { s.world with pending := es })
    (h.reaped ⟨rfl, rfl, rfl⟩ h.events) ?_ ?_
  · simp only [Waiter.waiting, Bool.and_eq_true, Bool.not_eq_eq_eq_not, Bool.not_true] at hwaiting
    exact hwaiting.2
  · simp only [Safe, hc, hpending] at hsafe
    exact hsafe

/-- The invariant is kept by the steps that are permitted. -/
theorem Sound.step (h : s.Sound) {a : Act} (hassumed : s.Assumed a) (hsafe : s.Safe a)
    (hstep : s.step a = some s') : s'.Sound := by
  cases steps_of_step hstep with
  | signals hes => exact Inv.sigchldHandler h hes
  | alarm =>
    exact ⟨h.numbered, h.events, h.ownership, h.done_iff, h.unfinished,
      Inv.control_account h.control h.account⟩
  | processPending => exact Inv.jobsProcessPending h
  | flush =>
    unfold Sound
    simp only [World.ledger_jobsFlushNotifications]
    exact h
  | launch => exact h.launch rfl _ _
  | @stage w e todo numCmds pipes l cmdline background consumed pid w' l' _ hlaunch =>
    have hstage := h.stage rfl hassumed
    rw [hlaunch] at hstage
    exact hstage
  | started => exact h.started rfl
  | @wait w on l alarm timedOut consumed e es w' l' hwaiting hpending hevent =>
    have hwait := h.wait rfl hsafe hwaiting hpending
    rw [hevent] at hwait
    exact hwait
  | finish => exact h.finish rfl
  | resume => exact h.resume rfl hsafe

end Session

/-! ## The table is right -/

/-- The shell has waited for this job, and the loop has ended. -/
def Control.Over : Control → Job → Prop
  | .waiting on l _ _, j => on.Is j ∧ l.waiting on.pids = false
  | _, _ => False

/-- The marks are right: a process is marked, in the table or in the array of a loop that is
running, if and only if its exit has been taken from the queue; and a job all of whose processes are
gone is not in the table, unless a loop has just ended that will remove it. -/
def Session.Live (s : Session) : Prop :=
  (∀ j ∈ s.world.jobs, ∀ p ∈ j.procs,
    p.done = true ∨ s.control.DoneLocal p.pid ↔ Exited s.consumed p.pid) ∧
  ∀ j ∈ s.world.jobs, (∀ p ∈ j.procs, Exited s.consumed p.pid) → s.control.Over j

/-- A loop that has taken all exits ends. -/
theorem Account.over {pids : List Int} {l : Waiter} {consumed : List WaitEvent}
    (h : Account pids l consumed) (hall : ∀ pid ∈ pids, Exited consumed pid) :
    l.waiting pids = false := by
  have hdone : l.done = List.replicate pids.length true := by
    apply List.ext_getElem?
    intro k
    by_cases hk : k < pids.length
    · rw [List.getElem?_replicate, if_pos hk, h.done_iff (List.getElem?_eq_getElem hk)]
      exact hall _ (List.getElem_mem hk)
    · rw [List.getElem?_eq_none (by rw [h.length]; omega), List.getElem?_eq_none (by simp; omega)]
  have hcount : l.doneCount = pids.length := by
    rw [h.count, hdone, List.count_replicate_self]
  simp [Waiter.waiting, hcount]

theorem Session.Sound.live {s : Session} (h : s.Sound) : s.Live := by
  refine ⟨h.done_iff, fun j hj hall => ?_⟩
  by_cases haw : s.control.Awaits j
  · cases hc : s.control with
    | idle | forking => rw [hc] at haw; exact haw
    | waiting on l alarm timedOut =>
      rw [hc] at haw
      cases on with
      | launch => exact absurd haw id
      | job j₀ =>
        unfold Sound at h
        rw [hc] at h
        obtain ⟨⟨slot, j', hj', hnum, hprocs⟩, -, haccount⟩ := h.control
        refine ⟨haw, haccount.over fun pid hpid => ?_⟩
        -- the awaited job is this one
        obtain ⟨k, hk⟩ := hj
        have hslot := h.numbered.inj hj' hk (hnum.trans haw)
        rw [← hslot] at hk
        obtain rfl : j' = j := Option.some.inj (hj'.symm.trans hk)
        obtain ⟨p, hp, rfl⟩ := List.mem_map.mp hpid
        exact hall p (hprocs ▸ hp)
  · obtain ⟨p, hp, hx⟩ := h.unfinished j hj haw
    exact absurd (hall p hp) hx

theorem Session.sound_init {w : World} (hjobs : w.jobs = .empty) (hchildren : w.children = [])
    (hpending : w.pending = []) : (Session.init w).Sound := by
  have hnone : ∀ j, j ∉ w.jobs := fun j hj => Slots.not_mem_empty (hjobs ▸ hj)
  have hcell : ∀ {k j}, w.jobs.cell k ≠ some j := fun {k j} hk => hnone j ⟨k, hk⟩
  have hevents : EventLog w.ledger.roster ([] ++ w.ledger.pending) := by
    simp only [World.ledger, hchildren, hpending]
    exact ⟨by simp, by simp, by simp, by simp⟩
  exact ⟨.empty hjobs, hevents,
    ⟨fun _ _ _ _ h => absurd h hcell, fun j hj => absurd hj (hnone j),
      fun j hj => absurd hj (hnone j)⟩,
    fun j hj => absurd hj (hnone j), fun j hj => absurd hj (hnone j), trivial⟩

/-- In every session whose steps are permitted the table is right; between two commands that means:
a process is marked in the table if and only if its exit has been taken from the queue, and every
job has a process that is not gone. -/
theorem jobs_live {w : World} (hjobs : w.jobs = .empty) (hchildren : w.children = [])
    (hpending : w.pending = []) {acts : List Act} {s : Session}
    (hacts : AllSteps Session.step (fun s a => s.Assumed a ∧ s.Safe a) (.init w) acts)
    (hrun : run Session.step (.init w) acts = some s) :
    s.Live ∧ (s.control = .idle → ∀ j ∈ s.world.jobs,
      (∀ p ∈ j.procs, p.done = true ↔ Exited s.consumed p.pid) ∧
        ∃ p ∈ j.procs, ¬ Exited s.consumed p.pid) := by
  have hsound : s.Sound := run_invariant_of (I := Session.Sound)
    (fun _ _ _ h hp hstep => h.step hp.1 hp.2 hstep) hacts
    (Session.sound_init hjobs hchildren hpending) hrun
  refine ⟨hsound.live, fun hidle j hj => ?_⟩
  unfold Session.Sound at hsound
  rw [hidle] at hsound
  refine ⟨fun p hp => ?_, hsound.unfinished j hj id⟩
  have hiff := hsound.done_iff j hj p hp
  have hlocal : ¬ Control.idle.DoneLocal p.pid := id
  rwa [or_iff_left hlocal] at hiff

/-- `sleep | sleep &`, of which the first has exited: the job stays, and the first process is
marked. -/
def backgroundSession : List Act :=
  [.launch [word "sleep", pipe, word "sleep"] true, .stage (some 200), .stage (some 201), .started,
    .signals [(200, .exited 0)], .processPending]

theorem jobs_live_backgroundSession :
    ∃ s, run Session.step (.init (World.inBin ["sleep"] [])) backgroundSession = some s ∧ s.Live :=
  ⟨_, (Option.some_get (by decide +kernel)).symm,
    (jobs_live rfl rfl rfl (by decide +kernel) (Option.some_get (by decide +kernel)).symm).1⟩

/-- `sleep | sleep` in the foreground: the first exits, the second is stopped, so that both become a
job; then the second exits. -/
def stoppedSession : List Act :=
  [.launch [word "sleep", pipe, word "sleep"] false, .stage (some 200), .stage (some 201), .started,
    .signals [(200, .exited 0)], .wait, .signals [(201, .stopped 20)], .wait, .finish,
    .signals [(201, .exited 0)], .processPending]

/-- The state in which it ends. -/
def stoppedEnd : Session :=
  (run Session.step (.init (World.inBin ["sleep"] [])) stoppedSession).get (by decide +kernel)

/-- The exits of both processes have been taken, but the job is in the table, with the first process
not marked. -/
theorem not_live_stoppedSession :
    run Session.step (.init (World.inBin ["sleep"] [])) stoppedSession = some stoppedEnd ∧
      stoppedEnd.control = .idle ∧ ¬ stoppedEnd.Live ∧
      ∃ j ∈ stoppedEnd.world.jobs, j.procs.map (fun p => (p.pid, p.done)) =
        [(200, false), (201, true)] ∧
        ∀ p ∈ j.procs, Exited stoppedEnd.consumed p.pid := by
  have hidle : stoppedEnd.control = .idle := by decide +kernel
  have hjob : ∃ j ∈ stoppedEnd.world.jobs,
      j.procs.map (fun p => (p.pid, p.done)) = [(200, false), (201, true)] ∧
        ∀ p ∈ j.procs, Exited stoppedEnd.consumed p.pid :=
    ⟨(stoppedEnd.world.jobs.cell ⟨0, by decide⟩).get (by decide +kernel),
      ⟨⟨0, by decide⟩, (Option.some_get _).symm⟩, by decide +kernel, by decide +kernel⟩
  refine ⟨(Option.some_get _).symm, hidle, fun hlive => ?_, hjob⟩
  obtain ⟨j, hj, -, hall⟩ := hjob
  have hover := hlive.2 j hj hall
  rw [hidle] at hover
  exact hover

end UnixCShell
