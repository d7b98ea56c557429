import UnixCShell.Session.Live

/-!
# Who has taken an exit

What holds in every run of the shell, in whatever order exits and stops come in. A process that is
marked in the job table has exited. The converse fails where `jobs_wait_foreground` has taken the
exit: it marks the process in an array of its own, which is forgotten when the loop is stopped.
These are the only exits that the table does not know (`Books.known`).
-/

namespace UnixCShell

open Lib

/-- In this step `jobs_wait_foreground` takes the exit of the process `pid`. -/
def Session.Takes (s : Session) (a : Act) (pid : Int) : Prop :=
  match a, s.control, s.world.pending with
  | .wait, .waiting on l _ _, e :: _ =>
    e.1 = pid ∧ e.2.final = true ∧ (l.index on.pids e.1).isSome
  | _, _, _ => False

instance (s : Session) (a : Act) (pid : Int) : Decidable (s.Takes a pid) := by
  unfold Session.Takes
  split <;> infer_instance

/-! ## The invariant -/

/-- The array of `jobs_wait_foreground` marks only processes that have exited. -/
structure Counts (pids : List Int) (l : Waiter) (consumed : List WaitEvent) : Prop where
  length : l.done.length = pids.length
  exited : ∀ ⦃k : Nat⦄ ⦃pid : Int⦄, pids[k]? = some pid → l.done[k]? = some true →
    Exited consumed pid

/-- What holds of the command that is being executed. Of the processes `Q` no exit has been taken by
`jobs_wait_foreground`. -/
def KeptControl (Q : List Int) (b : Ledger) (consumed : List WaitEvent) : Control → Prop
  | .idle => True
  | .forking _ _ _ l _ _ =>
    Unowned b (l.procs.map Prod.fst) ∧ ∀ pid ∈ l.procs.map Prod.fst, ¬ Exited consumed pid
  | .waiting (.launch l cmdline) waiter _ _ =>
    Counts (Awaited.launch l cmdline).pids waiter consumed ∧ Unowned b (l.procs.map Prod.fst) ∧
      ∀ pid ∈ l.procs.map Prod.fst, pid ∈ Q → ¬ Exited consumed pid
  | .waiting (.job j) waiter _ _ => Counts (Awaited.job j).pids waiter consumed

/-- The invariant; `queue` are the events that are still to be taken. -/
structure Books (Q : List Int) (b : Ledger) (c : Control) (consumed queue : List WaitEvent) :
    Prop where
  numbered  : b.Numbered
  events    : EventLog b.roster (consumed ++ queue)
  ownership : Ownership b
  marked    : ∀ j ∈ b.jobs, ∀ p ∈ j.procs, p.done = true → Exited consumed p.pid
  known     : ∀ j ∈ b.jobs, ∀ p ∈ j.procs, p.pid ∈ Q → Exited consumed p.pid → p.done = true
  control   : KeptControl Q b consumed c

theorem Counts.start (pids : List Int) (consumed : List WaitEvent) :
    Counts pids (.start pids) consumed := by
  refine ⟨List.length_replicate, fun k pid _ hdone => ?_⟩
  simp [Waiter.start, List.getElem?_replicate] at hdone

theorem Exited.concat {es : List WaitEvent} {pid : Int} (h : Exited es pid) (e : WaitEvent) :
    Exited (es ++ [e]) pid := exited_concat.mpr (.inl h)

theorem Counts.concat {pids : List Int} {l : Waiter} {consumed : List WaitEvent}
    (h : Counts pids l consumed) (e : WaitEvent) : Counts pids l (consumed ++ [e]) :=
  ⟨h.length, fun _ _ hk hdone => (h.exited hk hdone).concat e⟩

/-- An exit is entered into the array. -/
theorem Counts.exit {pids : List Int} {l : Waiter} {consumed : List WaitEvent} {e : WaitEvent}
    (h : Counts pids l consumed) (hfinal : e.2.final = true) {k : Nat}
    (hidx : l.index pids e.1 = some k) :
    Counts pids { l with done := l.done.set k true, doneCount := l.doneCount + 1 }
      (consumed ++ [e]) := by
  refine ⟨by rw [List.length_set]; exact h.length, fun i pid hi hdone => ?_⟩
  obtain ⟨hk, -⟩ := Waiter.index_eq_some hidx
  rw [List.getElem?_set] at hdone
  split at hdone
  · next heq =>
    subst heq
    rw [hk] at hi
    cases hi
    exact exited_concat.mpr (.inr ⟨rfl, hfinal⟩)
  · exact (h.exited hi hdone).concat e

namespace Books

variable {Q : List Int} {b b' : Ledger} {c c' : Control} {consumed queue queue' : List WaitEvent}
  {e : WaitEvent}

theorem counts {on : Awaited} {l : Waiter} {alarm timedOut : Bool}
    (h : Books Q b (.waiting on l alarm timedOut) consumed queue) : Counts on.pids l consumed := by
  have hc := h.control
  cases on with
  | launch => exact hc.1
  | job => exact hc

/-! ### Between events -/

/-- The shell turns to something else, and what the table says about the processes stays. -/
theorem turn (h : Books Q b c consumed queue) (hk : b.Keeps b')
    (hcontrol : KeptControl Q b' consumed c') : Books Q b' c' consumed queue := by
  refine ⟨hk.updates.numbered h.numbered, by rw [hk.roster]; exact h.events,
    h.ownership.updates hk.updates, ?_, ?_, hcontrol⟩
  · rintro j ⟨k, hj⟩ p hp
    obtain ⟨i, hi, -, hprocs⟩ := hk.jobs hj
    exact h.marked i ⟨k, hi⟩ p (hprocs ▸ hp)
  · rintro j ⟨k, hj⟩ p hp
    obtain ⟨i, hi, -, hprocs⟩ := hk.jobs hj
    exact h.known i ⟨k, hi⟩ p (hprocs ▸ hp)

/-- Children may have been reaped, and events may have come in. -/
theorem reaped (h : Books Q b c consumed queue) (hr : b.Reaps b')
    (hevents : EventLog b'.roster (consumed ++ queue')) : Books Q b' c consumed queue' := by
  refine ⟨hr.numbered h.numbered, hevents, hr.ownership h.ownership,
    by rw [hr.jobs]; exact h.marked,
    by rw [hr.jobs]; exact h.known, ?_⟩
  have hc := h.control
  cases c with
  | idle => trivial
  | forking => exact ⟨hr.unowned hc.1, hc.2⟩
  | waiting on l alarm timedOut =>
    cases on with
    | launch => exact ⟨hc.1, hr.unowned hc.2.1, hc.2.2⟩
    | job => exact hc

/-- A new job, of processes whose exits have not been taken. -/
theorem addJob (h : Books Q b .idle consumed queue) (slot : Fin jobsMax) {j : Job}
    (hnum : j.jobNumber = b.next) (hfree : Unowned b j.pids) (hdone : ∀ p ∈ j.procs, p.done = false)
    (hexit : ∀ pid ∈ j.pids, pid ∈ Q → ¬ Exited consumed pid) :
    Books Q (b.addJob slot j) .idle consumed queue := by
  refine ⟨h.numbered.addJob slot hnum, h.events, h.ownership.addJob slot hfree, ?_, ?_, trivial⟩
  · rintro i ⟨k, hk⟩ p hp hmarked
    rcases Ledger.cell_addJob hk with ⟨-, rfl⟩ | ⟨-, hi⟩
    · rw [hdone p hp] at hmarked
      cases hmarked
    · exact h.marked i ⟨k, hi⟩ p hp hmarked
  · rintro i ⟨k, hk⟩ p hp hQ hx
    rcases Ledger.cell_addJob hk with ⟨-, rfl⟩ | ⟨-, hi⟩
    · exact absurd hx (hexit p.pid (List.mem_map_of_mem hp) hQ)
    · exact h.known i ⟨k, hi⟩ p hp hQ hx

theorem register {w : World} (h : Books Q w.ledger .idle consumed queue) {l : Launch}
    (hfree : Unowned w.ledger (l.procs.map Prod.fst))
    (hexit : ∀ pid ∈ l.procs.map Prod.fst, pid ∈ Q → ¬ Exited consumed pid) (cmdline : Str)
    (background : Bool) (state : JobState) :
    Books Q (w.jobsRegister l.pgid l.procs cmdline background state).1.ledger .idle consumed
      queue := by
  rcases w.jobsRegister_new l.pgid l.procs cmdline background state with
    hw | ⟨slot, j, hw, hnum, hpids, hdone⟩
  · rw [hw]
    exact h
  · rw [hw]
    refine h.addJob slot hnum (by rw [hpids]; exact hfree.take _) hdone ?_
    rw [hpids]
    exact fun pid hpid => hexit pid (List.mem_of_mem_take hpid)

/-! ### Events -/

/-- What is said of the command stays right when an event of another process is taken. -/
theorem control_tracked (h : Books Q b c consumed (e :: queue)) (hnot : e.1 ∉ c.pids)
    (hu : b.Updates b') : KeptControl Q b' (consumed ++ [e]) c := by
  have hexit : ∀ pid ∈ c.pids, (Exited (consumed ++ [e]) pid ↔ Exited consumed pid) := by
    intro pid hpid
    apply exited_concat_of_ne
    rintro - rfl
    exact hnot hpid
  have hc := h.control
  cases c with
  | idle => trivial
  | forking => exact ⟨hc.1.updates hu, fun pid hpid => by rw [hexit pid hpid]; exact hc.2 pid hpid⟩
  | waiting on l alarm timedOut =>
    cases on with
    | launch =>
      refine ⟨hc.1.concat e, hc.2.1.updates hu, fun pid hpid hQ => ?_⟩
      rw [hexit pid hpid]
      exact hc.2.2 pid hpid hQ
    | job => exact Counts.concat hc e

/-- The event is not one of a job in another slot. -/
theorem next_ne (h : Books Q b c consumed (e :: queue)) {slot k : Fin jobsMax} {j i : Job}
    (hj : b.jobs.cell slot = some j) (hmem : e.1 ∈ j.pids) (hi : b.jobs.cell k = some i)
    (hne : k ≠ slot) {p : JobProc} (hp : p ∈ i.procs) : e.1 ≠ p.pid := by
  intro heq
  have hpos : 0 < e.1 := h.events.pid_positive (List.mem_append_right _ List.mem_cons_self)
  exact hne (h.ownership.owner hi hj e.1 hpos (heq ▸ List.mem_map_of_mem hp) hmem)

/-- `handle_tracked_event` on an event of a process that no job has. -/
theorem tracked_unknown (h : Books Q b c consumed (e :: queue)) (hnot : e.1 ∉ c.pids)
    (hunknown : ∀ j ∈ b.jobs, e.1 ∉ j.pids) : Books Q b c (consumed ++ [e]) queue := by
  refine ⟨h.numbered, h.events.take, h.ownership,
    fun j hj p hp hdone => (h.marked j hj p hp hdone).concat e, ?_,
      h.control_tracked hnot (.refl b)⟩
  intro j hj p hp hQ hx
  refine h.known j hj p hp hQ ?_
  rwa [exited_concat_of_ne] at hx
  intro _ heq
  exact hunknown j hj (heq ▸ List.mem_map_of_mem hp)

/-- What `handle_tracked_event` makes of the job of the process: it is marked if it has exited. -/
theorem tracked_job (h : Books Q b c consumed (e :: queue)) {slot : Fin jobsMax} {j j' : Job}
    (hj : b.jobs.cell slot = some j) (hj' : j' ∈ j.track e) {p : JobProc} (hp : p ∈ j'.procs) :
    (p.done = true → Exited (consumed ++ [e]) p.pid) ∧
      (p.pid ∈ Q → Exited (consumed ++ [e]) p.pid → p.done = true) := by
  have hmem : j ∈ b.jobs := ⟨slot, hj⟩
  have hpos : 0 < e.1 := h.events.pid_positive (List.mem_append_right _ List.mem_cons_self)
  by_cases hfinal : e.2.final = true
  · -- an exit: the process is marked, and no other process of the job has its pid
    have hfin : j' = j.finish e.1 := by
      obtain ⟨pid, status⟩ := e
      cases status with
      | stopped | continued => cases hfinal
      | exited | signaled =>
        simp only [Job.track] at hj'
        split at hj'
        · cases hj'
        · cases hj'
          rfl
    subst hfin
    rw [Job.finish_procs fun _ _ => h.ownership.distinct j hmem hpos] at hp
    obtain ⟨q, hq, rfl⟩ := List.mem_map.mp hp
    rw [exited_concat]
    by_cases heq : q.pid = e.1
    · rw [if_pos heq]
      exact ⟨fun _ => .inr ⟨heq.symm, hfinal⟩, fun _ _ => rfl⟩
    · rw [if_neg heq]
      refine ⟨fun hdone => .inl (h.marked j hmem q hq hdone), fun hQ hx => ?_⟩
      exact h.known j hmem q hq hQ (hx.resolve_right fun hx => heq hx.1.symm)
  · -- a stop or a continuation: only the state of the job changes
    have hprocs : j'.procs = j.procs := by
      obtain ⟨pid, status⟩ := e
      cases status with
      | stopped | continued =>
        cases hj'
        rfl
      | exited | signaled => exact absurd rfl hfinal
    rw [hprocs] at hp
    rw [exited_concat_of_ne fun hf => absurd hf hfinal]
    exact ⟨h.marked j hmem p hp, h.known j hmem p hp⟩

/-- `handle_tracked_event` on an event of a process of a job. -/
theorem tracked_known (h : Books Q b c consumed (e :: queue)) (hnot : e.1 ∉ c.pids)
    {slot : Fin jobsMax} {j : Job} (hj : b.jobs.cell slot = some j) (hmem : e.1 ∈ j.pids) :
    Books Q (b.setJob slot (j.track e)) c (consumed ++ [e]) queue := by
  have hu : b.Updates (b.setJob slot (j.track e)) := .setJob hj fun i hi => Job.track_same hi
  have hjob : ∀ i ∈ (b.setJob slot (j.track e)).jobs, ∀ p ∈ i.procs,
      (p.done = true → Exited (consumed ++ [e]) p.pid) ∧
        (p.pid ∈ Q → Exited (consumed ++ [e]) p.pid → p.done = true) := by
    rintro i ⟨k, hk⟩ p hp
    rcases Slots.cell_set_eq_some.mp hk with ⟨rfl, hi⟩ | ⟨hne, hi⟩
    · exact h.tracked_job hj hi hp
    · -- a job in another slot has other processes
      rw [exited_concat_of_ne fun _ => h.next_ne hj hmem hi hne hp]
      exact ⟨h.marked i ⟨k, hi⟩ p hp, h.known i ⟨k, hi⟩ p hp⟩
  exact ⟨hu.numbered h.numbered, h.events.take, h.ownership.updates hu,
    fun i hi p hp => (hjob i hi p hp).1, fun i hi p hp => (hjob i hi p hp).2,
    h.control_tracked hnot hu⟩

theorem handleTrackedEvent {w : World} (h : Books Q w.ledger c consumed (e :: queue))
    (hnot : e.1 ∉ c.pids) :
    Books Q (w.handleTrackedEvent e).ledger c (consumed ++ [e]) queue := by
  have hw := w.ledger_outregFinalize e.1
  rw [World.handleTrackedEvent]
  rcases World.trackJob_ledger_cases (w := w.outregFinalize e.1) (hw ▸ h.numbered) e with
    ⟨hledger, hunknown⟩ | ⟨slot, j, hj, hmem, hledger⟩
  · rw [hledger, hw]
    rw [World.jobs_outregFinalize] at hunknown
    exact h.tracked_unknown hnot hunknown
  · rw [hledger, hw]
    rw [World.jobs_outregFinalize] at hj
    exact h.tracked_known hnot hj hmem

theorem processAll {w : World} {es : List WaitEvent} (h : Books Q w.ledger .idle consumed es) :
    Books Q (es.foldl World.handleTrackedEvent w).ledger .idle (consumed ++ es) [] := by
  induction es generalizing w consumed with
  | nil => rwa [List.append_nil]
  | cons e es ih =>
    have := ih (h.handleTrackedEvent List.not_mem_nil)
    rwa [List.append_assoc] at this

/-- The process of an event that is not for the loop is not waited for. -/
theorem not_mem_pids {on : Awaited} {l : Waiter} {alarm timedOut : Bool}
    (h : Books Q b (.waiting on l alarm timedOut) consumed (e :: queue))
    (hidx : l.index on.pids e.1 = none) : e.1 ∉ on.pids := by
  intro hmem
  obtain ⟨k, hk⟩ := List.mem_iff_getElem?.mp hmem
  have hlt : k < l.done.length := by
    rw [h.counts.length]
    exact (List.getElem?_eq_some_iff.mp hk).1
  -- the search skips a pid of the list only if it is marked, and who has exited reports no more
  have hdone : l.done[k]? = some true := by
    have := Waiter.index_eq_none hidx hk
    rw [List.getElem?_eq_getElem hlt] at this ⊢
    simp_all
  exact h.events.next_not_exited (h.counts.exited hk hdone)

/-- `jobs_wait_foreground` keeps an event for itself. -/
theorem waited {on : Awaited} {l l' : Waiter} {alarm timedOut : Bool}
    (h : Books Q b (.waiting on l alarm timedOut) consumed (e :: queue))
    (hcounts : Counts on.pids l' (consumed ++ [e])) (hQ : e.2.final = true → e.1 ∉ Q) :
    Books Q b (.waiting on l' alarm timedOut) (consumed ++ [e]) queue := by
  have hold : ∀ pid ∈ Q, Exited (consumed ++ [e]) pid → Exited consumed pid := by
    intro pid hpid
    rw [exited_concat_of_ne]
    · exact id
    · rintro hfinal rfl
      exact hQ hfinal hpid
  refine ⟨h.numbered, h.events.take, h.ownership,
    fun j hj p hp hdone => (h.marked j hj p hp hdone).concat e,
    fun j hj p hp hpid hx => h.known j hj p hp hpid (hold p.pid hpid hx), ?_⟩
  have hc := h.control
  cases on with
  | launch =>
    exact ⟨hcounts, hc.2.1, fun pid hpid hmem hx => hc.2.2 pid hpid hmem (hold pid hmem hx)⟩
  | job => exact hcounts

theorem waitEvent {w : World} {on : Awaited} {l : Waiter} {alarm timedOut : Bool}
    (h : Books Q w.ledger (.waiting on l alarm timedOut) consumed (e :: queue))
    (hQ : e.2.final = true → (l.index on.pids e.1).isSome → e.1 ∉ Q) :
    Books Q (w.waitEvent on.pids l e).1.ledger
      (.waiting on (w.waitEvent on.pids l e).2 alarm timedOut) (consumed ++ [e]) queue := by
  unfold World.waitEvent
  cases hidx : l.index on.pids e.1 with
  | none => exact h.handleTrackedEvent (h.not_mem_pids hidx)
  | some k =>
    rw [hidx] at hQ
    obtain ⟨pid, status⟩ := e
    cases status with
    | stopped | continued =>
      -- nothing is marked
      refine h.waited ?_ fun hfinal => hQ hfinal rfl
      exact ⟨h.counts.length, fun _ _ hk hdone => (h.counts.exited hk hdone).concat _⟩
    | exited | signaled =>
      simp only [World.ledger_outregFinalize]
      exact h.waited (h.counts.exit rfl hidx) fun hfinal => hQ hfinal rfl

end Books

/-! ## The table is written to -/

namespace World

variable (w : World)

theorem keeps_jobsRemove (number : Int) : w.ledger.Keeps (w.jobsRemove number).ledger := by
  unfold jobsRemove
  split
  · exact .refl _
  · next slot hfind =>
    obtain ⟨j, hj, -⟩ := Slots.findSlot_eq_some hfind
    exact .setJob (b := w.ledger) hj nofun

theorem keeps_markStopped (number : Int) : w.ledger.Keeps (w.markStopped number).ledger := by
  unfold markStopped
  split
  · exact .refl _
  · split
    · exact .refl _
    · next j hj =>
      refine .setJob (b := w.ledger) hj fun i hi => ?_
      cases hi
      exact ⟨rfl, rfl⟩

theorem keeps_settleResume (j : Job) (l : Waiter) (timedOut : Bool) :
    w.ledger.Keeps (w.settleResume j l timedOut).ledger := by
  unfold settleResume
  split
  · have := keeps_jobsRemove ((w.termReclaim.kill (-j.pgid) sigterm).print
      "resume: job timed out\n".toList) j.jobNumber
    rwa [ledger_print, ledger_kill, ledger_termReclaim] at this
  · split
    · rw [ledger_printStopped]
      exact keeps_markStopped w.termReclaim j.jobNumber
    · have := keeps_jobsRemove ((j.procs.map (·.pid)).foldl outregFinalize w.termReclaim)
        j.jobNumber
      rwa [ledger_foldl_outregFinalize, ledger_termReclaim] at this

theorem keeps_startResume (number : Int) (isFg : Bool) :
    w.ledger.Keeps (w.startResume number isFg).1.ledger := by
  rcases w.startResume_ledger number isFg with ⟨hw, -⟩ | ⟨slot, j, -, hj, hw, -⟩
  · rw [hw]
    exact .refl _
  · rw [hw]
    refine .setJob (b := w.ledger) hj fun i hi => ?_
    cases hi
    exact ⟨rfl, rfl⟩

end World

/-! ## Sessions -/

namespace Session

/-- The books of a session are kept. -/
def Kept (Q : List Int) (s : Session) : Prop :=
  Books Q s.world.ledger s.control s.consumed s.world.ledger.pending

variable {Q : List Int} {s s' : Session}

theorem kept_init {w : World} (hjobs : w.jobs = .empty) (hchildren : w.children = [])
    (hpending : w.pending = []) : (Session.init w).Kept Q := by
  have hsound := sound_init hjobs hchildren hpending
  have hnone : ∀ j, j ∉ w.jobs := fun j hj => Slots.not_mem_empty (hjobs ▸ hj)
  exact ⟨hsound.numbered, hsound.events, hsound.ownership, fun j hj => absurd hj (hnone j),
    fun j hj => absurd hj (hnone j), trivial⟩

theorem Kept.launch (h : s.Kept Q) (group : List Token) (background : Bool) :
    (s.launch group background).Kept Q := by
  have hw := s.world.ledger_makePipes ((stages group).length - 1)
  change Books Q (s.world.makePipes _).1.ledger (.forking _ _ _ {} _ _) s.consumed
    (s.world.makePipes _).1.ledger.pending
  rw [hw]
  refine h.turn (.refl _) ⟨⟨?_, ?_, ?_⟩, ?_⟩
  · intro i k pid _ hi
    simp at hi
  · exact fun _ hpid => absurd hpid List.not_mem_nil
  · exact fun _ _ _ hpid => absurd hpid List.not_mem_nil
  · exact fun _ hpid => absurd hpid List.not_mem_nil

theorem Kept.stage {e : Stage × Nat} {todo : List (Stage × Nat)} {numCmds : Nat}
    {pipes : List (Nat × Nat)} {l : Launch} {cmdline : Str} {background : Bool} (h : s.Kept Q)
    (hc : s.control = .forking (e :: todo) numCmds pipes l cmdline background) {pid : Option Nat}
    (hassumed : s.Assumed (.stage pid)) :
    let r := World.launchStage numCmds pipes ({ s.world with forks := [⟨pid, []⟩] }, l) e
    Kept Q { s with
      world := { r.1 with forks := [] }
      control := .forking todo numCmds pipes r.2 cmdline background } := by
  intro r
  change Books Q r.1.ledger (.forking todo numCmds pipes r.2 cmdline background) s.consumed
    r.1.ledger.pending
  unfold Kept at h
  rw [hc] at h
  obtain ⟨hfree, hexit⟩ := h.control
  have hcases : r.1.ledger = _ ∧ _ ∨ _ := s.world.launchStage_ledger l pid e numCmds pipes
  rcases hcases with ⟨hledger, hl⟩ | ⟨name, hledger, hl⟩ | ⟨n, name, rfl, hledger, hl⟩
  · rw [hledger]
    refine h.turn (.refl _) ?_
    rw [KeptControl, hl]
    exact h.control
  · -- `fork` has failed
    rw [hledger]
    exact h.turn (.refl _) (h.events.failedStage hfree hexit hl)
  · -- there is a new child
    have hpos : 0 < (n : Int) := by exact_mod_cast hassumed.1
    have hnew := hassumed.not_mem_roster
    rw [hledger]
    exact ⟨⟨h.numbered.lt, h.numbered.inj⟩, h.events.fork hpos hnew, h.ownership.fork _, h.marked,
      h.known, h.events.newStage h.ownership hfree hexit hpos hnew hl⟩

theorem Kept.started {numCmds : Nat} {pipes : List (Nat × Nat)} {l : Launch} {cmdline : Str}
    {background : Bool} (h : s.Kept Q)
    (hc : s.control = .forking [] numCmds pipes l cmdline background) :
    (s.started pipes l cmdline background).Kept Q := by
  unfold Kept at h
  rw [hc] at h
  obtain ⟨hfree, hexit⟩ := h.control
  have hidle : Books Q s.world.ledger .idle s.consumed s.world.ledger.pending :=
    h.turn (.refl _) trivial
  unfold Session.started Kept
  dsimp only
  split
  · exact hidle
  · split
    · rw [World.startBackground_pending]
      simp only [World.startBackground, World.ledger_print]
      exact Books.register (w := { s.world with fds := s.world.fds.closePipes pipes }) hidle hfree
        (fun pid hpid _ => hexit pid hpid) _ _ _
    · rw [World.ledger_termGiveTo]
      exact h.turn (.refl _) ⟨.start _ _, hfree, fun pid hpid _ => hexit pid hpid⟩

theorem Kept.wait {on : Awaited} {l : Waiter} {alarm timedOut : Bool} (h : s.Kept Q)
    (hc : s.control = .waiting on l alarm timedOut) {e : WaitEvent} {es : List WaitEvent}
    (hpending : s.world.pending = e :: es) (htakes : ∀ pid ∈ Q, ¬ s.Takes .wait pid) :
    Books Q ({ s.world with pending := es }.waitEvent on.pids l e).1.ledger
      (.waiting on ({ s.world with pending := es }.waitEvent on.pids l e).2 alarm timedOut)
      (s.consumed ++ [e])
      ({ s.world with pending := es }.waitEvent on.pids l e).1.ledger.pending := by
  rw [World.waitEvent_pending]
  unfold Kept at h
  rw [hc] at h
  change Books Q _ _ _ s.world.pending at h
  rw [hpending] at h
  refine Books.waitEvent (w := { s.world with pending := es })
    (h.reaped ⟨rfl, rfl, rfl⟩ h.events) fun hfinal hidx hmem => htakes e.1 hmem ?_
  simp only [Takes, hc, hpending]
  exact ⟨trivial, hfinal, hidx⟩

theorem Kept.finish {on : Awaited} {l : Waiter} {alarm timedOut : Bool} (h : s.Kept Q)
    (hc : s.control = .waiting on l alarm timedOut) : (s.finish on l timedOut).Kept Q := by
  unfold Kept at h
  rw [hc] at h
  have hidle : Books Q s.world.ledger .idle s.consumed s.world.ledger.pending :=
    h.turn (.refl _) trivial
  unfold Kept
  cases on with
  | launch launch cmdline =>
    change Books Q (s.world.afterForeground launch cmdline l.stopped).ledger .idle s.consumed
      (s.world.afterForeground launch cmdline l.stopped).ledger.pending
    rw [World.afterForeground_pending]
    simp only [World.afterForeground, World.settleForeground, World.ledger_jobsFlushNotifications]
    split
    · rw [World.ledger_printStopped]
      exact Books.register (w := s.world.termReclaim) hidle h.control.2.1 h.control.2.2 _ _ _
    · rw [World.ledger_foldl_outregFinalize]
      exact hidle
  | job j =>
    change Books Q (s.world.afterResume j l timedOut).ledger .idle s.consumed
      (s.world.afterResume j l timedOut).ledger.pending
    rw [World.afterResume_pending, World.afterResume, World.ledger_jobsFlushNotifications]
    exact hidle.turn (s.world.keeps_settleResume j l timedOut) trivial

theorem Kept.resume (h : s.Kept Q) (hc : s.control = .idle) (args : List Str) :
    (s.resume args).Kept Q := by
  unfold Session.resume
  cases parseResume args with
  | none => exact h
  | some r =>
    have hkeeps := s.world.keeps_startResume r.jobNumber r.isFg
    have hpending : (s.world.startResume r.jobNumber r.isFg).1.ledger.pending =
        s.world.ledger.pending := by
      rcases s.world.startResume_ledger r.jobNumber r.isFg with ⟨hw, -⟩ | ⟨_, _, -, -, hw, -⟩ <;>
        rw [hw]
      rfl
    unfold Kept
    dsimp only
    split
    · next w heq =>
      rw [heq] at hkeeps hpending
      rw [hpending, hc]
      exact h.turn hkeeps trivial
    · next w j heq =>
      rw [heq] at hkeeps hpending
      rw [hpending]
      exact h.turn hkeeps (Counts.start _ _)

/-- The books are kept in every step in which no exit of the processes `Q` is taken by
`jobs_wait_foreground`. -/
theorem Kept.step (h : s.Kept Q) {a : Act} (hassumed : s.Assumed a)
    (htakes : ∀ pid ∈ Q, ¬ s.Takes a pid) (hstep : s.step a = some s') : s'.Kept Q := by
  cases steps_of_step hstep with
  | signals hes =>
    obtain ⟨hreaps, hevents⟩ := World.sigchldHandler_reaps h.events hes
    exact h.reaped hreaps hevents
  | alarm =>
    refine h.turn (.refl _) ?_
    have hc := h.control
    rename_i on l timedOut consumed
    cases on with
    | launch | job => exact hc
  | @processPending w consumed =>
    change Books Q w.jobsProcessPending.ledger .idle (consumed ++ w.pending)
      w.jobsProcessPending.pending
    rw [World.jobsProcessPending, World.foldl_handleTrackedEvent_pending]
    exact Books.processAll (w := { w with pending := [] }) (h.reaped ⟨rfl, rfl, rfl⟩ h.events)
  | flush =>
    unfold Kept
    simp only [World.ledger_jobsFlushNotifications]
    exact h
  | launch => exact h.launch _ _
  | @stage w e todo numCmds pipes l cmdline background consumed pid w' l' _ hlaunch =>
    have hstage := h.stage rfl hassumed
    rw [hlaunch] at hstage
    exact hstage
  | started => exact h.started rfl
  | @wait w on l alarm timedOut consumed e es w' l' _ hpending hevent =>
    have hwait := h.wait rfl hpending htakes
    rw [hevent] at hwait
    exact hwait
  | finish => exact h.finish rfl
  | resume => exact h.resume rfl _

theorem Kept.run {w : World} (hjobs : w.jobs = .empty) (hchildren : w.children = [])
    (hpending : w.pending = []) {acts : List Act}
    (hacts : AllSteps Session.step Session.Assumed (.init w) acts)
    (hnot : AllSteps Session.step (fun s a => ∀ pid ∈ Q, ¬ s.Takes a pid) (.init w) acts)
    (hrun : Lib.run Session.step (.init w) acts = some s) : s.Kept Q :=
  run_invariant_of (I := Kept Q) (fun _ _ _ h hp hstep => h.step hp.1 hp.2 hstep)
    (hacts.and hnot) (kept_init hjobs hchildren hpending) hrun

/-! ## Exits are taken for good -/

theorem Takes.exited {a : Act} {pid : Int} (h : s.Takes a pid) (hstep : s.step a = some s') :
    Exited s'.consumed pid := by
  cases steps_of_step hstep with
  | @wait w on l alarm timedOut consumed e es w' l' _ hpending _ =>
    simp only [Takes, hpending] at h
    obtain ⟨rfl, hfinal, -⟩ := h
    exact exited_concat.mpr (.inr ⟨rfl, hfinal⟩)
  | _ => exact h.elim

end Session

end UnixCShell
