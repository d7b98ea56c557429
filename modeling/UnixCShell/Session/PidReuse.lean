import UnixCShell.Jobs.Ping
import UnixCShell.Lib.Scan
import UnixCShell.Session.MainLoop

/-!
# Pids that are used again

A process that has exited stays listed in its job until the job is over, and the operating system
may give its pid to a new process in the meantime. `jobs_find_by_pid` takes the first process with
the pid, whether it is marked as done or not. This module follows the table together with what the
table does not know, namely which of the listed processes are gone, and says when the search is
right: a process that is gone must not stand before the live one with its pid, and must not stand
there alone.
-/

namespace UnixCShell

open Lib

/-! ## The search -/

namespace World

/-- The process at position `i` of the job in `slot`. -/
def proc (w : World) (slot : Fin jobsMax) (i : Nat) : Option JobProc := w.jobs.item Job.procs slot i

/-- `jobs_find_by_pid` with the index that it stores. -/
def lookup (w : World) (pid : Int) : Option (Fin jobsMax × Nat) :=
  (w.jobsFindByPid pid).bind fun slot =>
    (w.jobs.cell slot).map fun j => (slot, j.procs.findIdx fun p => p.pid = pid)

theorem lookup_eq_scan (w : World) (pid : Int) :
    w.lookup pid = w.jobs.scan Job.procs fun p => p.pid = pid := rfl

variable {w : World} {pid : Int} {slot slot' : Fin jobsMax} {i i' : Nat} {p : JobProc}

theorem lookup_proc (h : w.lookup pid = some (slot, i)) :
    ∃ p, w.proc slot i = some p ∧ p.pid = pid := by
  obtain ⟨p, hp, hq⟩ := Slots.scan_item (w.lookup_eq_scan pid ▸ h)
  exact ⟨p, hp, of_decide_eq_true hq⟩

theorem lookup_le (h : w.lookup pid = some (slot, i)) (hp : w.proc slot' i' = some p)
    (hpid : p.pid = pid) :
    toLex (slot, i) ≤ toLex (slot', i') :=
  Slots.scan_le (w.lookup_eq_scan pid ▸ h) hp (decide_eq_true hpid)

theorem lookup_isSome (hp : w.proc slot i = some p) (hpid : p.pid = pid) :
    ∃ slot' i', w.lookup pid = some (slot', i') := by
  rw [lookup_eq_scan]
  exact Slots.scan_isSome hp (decide_eq_true hpid)

end World

/-! ## Processes that are gone -/

/-- The table, and for each process in it whether its exit has been consumed. -/
structure Tracking where
  world : World
  gone  : Fin jobsMax → Nat → Bool

/-- What happens to the table. -/
inductive TrackAct where
  /-- An event is handled by `handle_tracked_event`. -/
  | event (e : WaitEvent)
  /-- `jobs_wait_foreground` takes an event of a process that it waits for. -/
  | waited (e : WaitEvent)
  /-- A group becomes a job; `gone` are its processes whose exits have been consumed already. -/
  | register (pgid : Int) (procs : List (Int × Str)) (gone : Nat → Bool) (cmdline : Str)
      (background : Bool)
      (state : JobState)
  | remove (jobNumber : Int)
  | resume (jobNumber : Int) (isFg : Bool)
  | markStopped (jobNumber : Int)

/-- The pids of the processes that are not gone. -/
def livePids (pids : List Int) (gone : Nat → Bool) : List Int :=
  (pids.zipIdx.filter fun p => !gone p.2).map Prod.fst

namespace Tracking

/-- A process with this pid stands at this place, and is alive. -/
def Live (s : Tracking) (pid : Int) (slot : Fin jobsMax) (i : Nat) : Prop :=
  s.gone slot i = false ∧ ∃ p, s.world.proc slot i = some p ∧ p.pid = pid

/-- A process with this pid stands at this place, and is gone. -/
def Finished (s : Tracking) (pid : Int) (slot : Fin jobsMax) (i : Nat) : Prop :=
  s.gone slot i = true ∧ ∃ p, s.world.proc slot i = some p ∧ p.pid = pid

/-- The pids of all processes in the table that are alive. -/
def pids (s : Tracking) : List Int :=
  (List.finRange jobsMax).flatMap fun slot =>
    livePids (((s.world.jobs.cell slot).map Job.pids).getD []) (s.gone slot)

/-- Who is gone after an event. -/
def goneAfter (s : Tracking) (e : WaitEvent) (slot : Fin jobsMax) (i : Nat) : Bool :=
  s.gone slot i || (e.2.final && (s.world.proc slot i).any fun p => p.pid = e.1)

/-- A new job, whose processes `gone` are gone already. -/
def register (s : Tracking) (pgid : Int) (procs : List (Int × Str))
    (gone : Nat → Bool) (cmdline : Str) (background : Bool) (state : JobState) : Tracking :=
  { world := (s.world.jobsRegister pgid procs cmdline background state).1
    gone := fun slot => if s.world.jobs.firstFree = some slot then gone else s.gone slot }

/-- One step. The operating system does not give the pid of a live process to another one. -/
def step (s : Tracking) : TrackAct → Option Tracking
  | .event e => some ⟨s.world.handleTrackedEvent e, s.goneAfter e⟩
  | .waited e => some ⟨s.world.outregFinalize e.1, s.goneAfter e⟩
  | .register pgid procs gone cmdline background state =>
    let new := livePids (procs.map Prod.fst) gone
    if new.Nodup ∧ ∀ pid ∈ new, pid ∉ s.pids then
      some (s.register pgid procs gone cmdline background state)
    else none
  | .remove number => some { s with world := s.world.jobsRemove number }
  | .resume number isFg => some { s with world := (s.world.startResume number isFg).1 }
  | .markStopped number => some { s with world := s.world.markStopped number }

/-- The shell behind `jobs_init`. -/
def init (w : World) : Tracking := ⟨w.jobsInit, fun _ _ => false⟩

/-- `jobs_find_by_pid` finds the live process with this pid, and finds nothing if there is none. -/
def Right (s : Tracking) (pid : Int) : Prop :=
  (∀ slot i, s.Live pid slot i → s.world.lookup pid = some (slot, i) ∧
      ∃ p, s.world.proc slot i = some p ∧ p.done = false) ∧
    ((∀ slot i, ¬ s.Live pid slot i) → s.world.lookup pid = none)

/-- Every process with this pid that is gone stands behind a live one. -/
def Unshadowed (s : Tracking) (pid : Int) : Prop :=
  ∀ slot i, s.Finished pid slot i → ∃ slot' i', s.Live pid slot' i' ∧
    toLex (slot', i') < toLex (slot, i)

/-- Live processes are not marked as done, and have different pids. -/
structure Inv (s : Tracking) : Prop where
  numbered : s.world.ledger.Numbered
  done     : ∀ {slot i p}, s.gone slot i = false → s.world.proc slot i = some p → p.done = false
  unique   : ∀ {pid slot slot' i i'}, s.Live pid slot i → s.Live pid slot' i' →
    slot = slot' ∧ i = i'

variable {s : Tracking} {pid : Int}

/-- The search is right if and only if what it comes to first is alive. -/
theorem Inv.right_iff (h : s.Inv) : s.Right pid ↔ s.Unshadowed pid := by
  constructor
  · rintro ⟨hlive, hnone⟩ slot i ⟨hgone, p, hp, hpid⟩
    by_cases hex : ∃ slot' i', s.Live pid slot' i'
    · obtain ⟨slot', i', hl⟩ := hex
      have hle := World.lookup_le (hlive slot' i' hl).1 hp hpid
      refine ⟨slot', i', hl, lt_of_le_of_ne hle fun heq => ?_⟩
      cases heq
      rw [hl.1] at hgone
      cases hgone
    · obtain ⟨k, n, hlookup⟩ := World.lookup_isSome hp hpid
      rw [hnone fun slot' i' hl => hex ⟨slot', i', hl⟩] at hlookup
      cases hlookup
  · intro hun
    -- whatever the search returns is alive
    have hfound : ∀ {slot i}, s.world.lookup pid = some (slot, i) → s.Live pid slot i := by
      intro slot i hlookup
      obtain ⟨p, hp, hpid⟩ := World.lookup_proc hlookup
      cases hgone : s.gone slot i with
      | false => exact ⟨hgone, p, hp, hpid⟩
      | true =>
        obtain ⟨slot', i', ⟨-, p', hp', hpid'⟩, hlt⟩ := hun slot i ⟨hgone, p, hp, hpid⟩
        exact absurd hlt (not_lt_of_ge (World.lookup_le hlookup hp' hpid'))
    constructor
    · rintro slot i ⟨hgone, p, hp, hpid⟩
      obtain ⟨slot', i', hlookup⟩ := World.lookup_isSome hp hpid
      obtain ⟨rfl, rfl⟩ := h.unique (hfound hlookup) ⟨hgone, p, hp, hpid⟩
      exact ⟨hlookup, p, hp, h.done hgone hp⟩
    · intro hnone
      cases hlookup : s.world.lookup pid with
      | none => rfl
      | some k => exact absurd (hfound hlookup) (hnone k.1 k.2)

/-! ## The invariant -/

/-- What is alive after a step was alive before, in the same place and with the same mark. -/
structure Ages (s s' : Tracking) : Prop where
  numbered : s.world.ledger.Numbered → s'.world.ledger.Numbered
  live     : ∀ {slot i p'}, s'.gone slot i = false → s'.world.proc slot i = some p' →
    s.gone slot i = false ∧ ∃ p, s.world.proc slot i = some p ∧ p'.pid = p.pid ∧ p'.done = p.done

theorem Inv.ages {s' : Tracking} (h : s.Inv) (ha : s.Ages s') : s'.Inv := by
  have hlive : ∀ {pid slot i}, s'.Live pid slot i → s.Live pid slot i := by
    rintro pid slot i ⟨hgone, p', hp', rfl⟩
    obtain ⟨hgone₀, p, hp, hpid, -⟩ := ha.live hgone hp'
    exact ⟨hgone₀, p, hp, hpid.symm⟩
  refine ⟨ha.numbered h.numbered, ?_, fun h₁ h₂ => h.unique (hlive h₁) (hlive h₂)⟩
  intro slot i p' hgone hp'
  obtain ⟨hgone₀, p, hp, -, hdone⟩ := ha.live hgone hp'
  rw [hdone]
  exact h.done hgone₀ hp

/-- Steps that only change the state of jobs, or remove jobs. -/
theorem Ages.of_keeps {w : World} (h : s.world.ledger.Keeps w.ledger) :
    s.Ages { s with world := w } := by
  refine ⟨h.updates.numbered, fun {slot i p'} hgone hp' => ⟨hgone, ?_⟩⟩
  obtain ⟨j', hj', hi⟩ := Slots.item_eq_some.mp hp'
  obtain ⟨j, hj, -, hprocs⟩ := h.jobs hj'
  exact ⟨p', Slots.item_eq_some.mpr ⟨j, hj, hprocs ▸ hi⟩, rfl, rfl⟩

end Tracking

/-- What an event does to the processes of a job. -/
theorem Job.track_proc {j j' : Job} {e : WaitEvent} (hj' : j' ∈ j.track e) {i : Nat} {p' : JobProc}
    (hp' : j'.procs[i]? = some p') :
    ∃ p, j.procs[i]? = some p ∧ p'.pid = p.pid ∧
      (p'.done = p.done ∨ e.2.final = true ∧ p.pid = e.1) := by
  obtain ⟨pid, status⟩ := e
  cases status with
  | stopped | continued =>
    cases hj'
    exact ⟨p', hp', rfl, .inl rfl⟩
  | exited | signaled =>
    simp only [Job.track] at hj'
    split at hj'
    · cases hj'
    · cases hj'
      obtain ⟨p, hp, rfl | ⟨hpid, rfl⟩⟩ := Job.finish_proc hp'
      · exact ⟨p', hp, rfl, .inl rfl⟩
      · exact ⟨p, hp, rfl, .inr ⟨rfl, hpid⟩⟩

namespace Tracking

variable {s : Tracking}

/-- What an event does to the processes in the table. -/
theorem proc_handleTrackedEvent {w : World} (hnumbered : w.ledger.Numbered) {e : WaitEvent}
    {slot : Fin jobsMax} {i : Nat} {p' : JobProc}
    (hp' : (w.handleTrackedEvent e).proc slot i = some p') :
    ∃ p, w.proc slot i = some p ∧ p'.pid = p.pid ∧
      (p'.done = p.done ∨ e.2.final = true ∧ p.pid = e.1) := by
  obtain ⟨j', hj', hi⟩ := Slots.item_eq_some.mp hp'
  have hsame : ∀ {j}, w.jobs.cell slot = some j → j.procs[i]? = some p' →
      ∃ p, w.proc slot i = some p ∧ p'.pid = p.pid ∧
        (p'.done = p.done ∨ e.2.final = true ∧ p.pid = e.1) :=
    fun hj hi => ⟨p', Slots.item_eq_some.mpr ⟨_, hj, hi⟩, rfl, .inl rfl⟩
  rcases World.handleTrackedEvent_cases hnumbered e with ⟨hledger, -⟩ | ⟨k, j, hj, hledger, -⟩
  · have hjobs : (w.handleTrackedEvent e).jobs = w.jobs := congrArg Ledger.jobs hledger
    rw [hjobs] at hj'
    exact hsame hj' hi
  · have hjobs : (w.handleTrackedEvent e).jobs = w.jobs.set k (j.track e) :=
      congrArg Ledger.jobs hledger
    rw [hjobs] at hj'
    rcases Slots.cell_set_eq_some.mp hj' with ⟨rfl, hnew⟩ | ⟨-, hold⟩
    · obtain ⟨p, hp, hrest⟩ := Job.track_proc hnew hi
      exact ⟨p, Slots.item_eq_some.mpr ⟨j, hj, hp⟩, hrest⟩
    · exact hsame hold hi

/-- An event that leaves a process alive is not its exit. -/
theorem goneAfter_eq_false {e : WaitEvent} {slot : Fin jobsMax} {i : Nat}
    (h : s.goneAfter e slot i = false) :
    s.gone slot i = false ∧ ∀ p, s.world.proc slot i = some p →
      ¬ (e.2.final = true ∧ p.pid = e.1) := by
  obtain ⟨hgone, hexit⟩ := Bool.or_eq_false_iff.mp h
  refine ⟨hgone, ?_⟩
  rintro p hp ⟨hfinal, hpid⟩
  rw [hfinal, hp] at hexit
  simp [hpid] at hexit

theorem Ages.event (hnumbered : s.world.ledger.Numbered) (e : WaitEvent) :
    s.Ages ⟨s.world.handleTrackedEvent e, s.goneAfter e⟩ := by
  constructor
  · intro _
    rcases World.handleTrackedEvent_cases hnumbered e with ⟨hledger, -⟩ | ⟨k, j, hj, hledger, -⟩
    · rw [hledger]
      exact hnumbered
    · rw [hledger]
      exact (Ledger.Updates.setJob hj fun i hi => Job.track_same hi).numbered hnumbered
  · intro slot i p' hgone hp'
    obtain ⟨hgone₀, hexit⟩ := goneAfter_eq_false hgone
    obtain ⟨p, hp, hpid, hdone⟩ := proc_handleTrackedEvent hnumbered hp'
    exact ⟨hgone₀, p, hp, hpid, hdone.resolve_right (hexit p hp)⟩

theorem Ages.waited (e : WaitEvent) : s.Ages ⟨s.world.outregFinalize e.1, s.goneAfter e⟩ := by
  refine ⟨fun hnumbered => ?_, fun {slot i p'} hgone hp' => ?_⟩
  · rw [World.ledger_outregFinalize]
    exact hnumbered
  rw [World.proc, World.jobs_outregFinalize] at hp'
  exact ⟨(goneAfter_eq_false hgone).1, p', hp', rfl, rfl⟩

/-! ### A new job -/

theorem mem_livePids {pids : List Int} {gone : Nat → Bool} {pid : Int} :
    pid ∈ livePids pids gone ↔ ∃ i, gone i = false ∧ pids[i]? = some pid := by
  simp [livePids, List.mem_zipIdx_iff_getElem?, and_comm]

/-- Different live processes have different pids. -/
theorem eq_of_nodup_livePids {pids : List Int} {gone : Nat → Bool} (h : (livePids pids gone).Nodup)
    {i k : Nat} {pid : Int} (hi : gone i = false ∧ pids[i]? = some pid)
    (hk : gone k = false ∧ pids[k]? = some pid) : i = k := by
  have hmem : ∀ {n}, gone n = false ∧ pids[n]? = some pid →
      (pid, n) ∈ pids.zipIdx.filter fun p => !gone p.2 := by
    rintro n ⟨hgone, hn⟩
    simp [List.mem_zipIdx_iff_getElem?, hgone, hn]
  exact congrArg Prod.snd (List.inj_on_of_nodup_map h (hmem hi) (hmem hk) rfl)

theorem live_iff {pid : Int} {slot : Fin jobsMax} {i : Nat} :
    s.Live pid slot i ↔ ∃ j, s.world.jobs.cell slot = some j ∧ s.gone slot i = false ∧
      j.pids[i]? = some pid := by
  simp only [Live, World.proc, Slots.item_eq_some, Job.pids, List.getElem?_map,
    Option.map_eq_some_iff]
  constructor
  · rintro ⟨hgone, p, ⟨j, hj, hp⟩, hpid⟩
    exact ⟨j, hj, hgone, p, hp, hpid⟩
  · rintro ⟨j, hj, hgone, p, hp, hpid⟩
    exact ⟨hgone, p, ⟨j, hj, hp⟩, hpid⟩

theorem Live.mem_pids {pid : Int} {slot : Fin jobsMax} {i : Nat} (h : s.Live pid slot i) :
    pid ∈ s.pids := by
  obtain ⟨j, hj, hi⟩ := live_iff.mp h
  refine List.mem_flatMap.mpr ⟨slot, List.mem_finRange slot, ?_⟩
  rw [hj]
  exact mem_livePids.mpr ⟨i, hi⟩

section Register

variable {pgid : Int} {procs : List (Int × Str)} {gone : Nat → Bool} {cmdline : Str}
  {background : Bool} {state : JobState} {k slot : Fin jobsMax} {i : Nat} {p : JobProc}

/-- The processes in the table behind `jobs_register`: those of the new job, and those of the others
as before. -/
theorem proc_register (hfree : s.world.jobs.firstFree = some k)
    (hp : (s.register pgid procs gone cmdline background state).world.proc slot i = some p) :
    slot = k ∧ (s.register pgid procs gone cmdline background state).gone slot = gone ∧
        p.done = false ∧ (procs.map Prod.fst)[i]? = some p.pid ∨
      (s.register pgid procs gone cmdline background state).gone slot = s.gone slot ∧
        s.world.proc slot i = some p := by
  obtain ⟨j, hj, hi⟩ := Slots.item_eq_some.mp hp
  simp only [register, World.jobsRegister, hfree] at hj ⊢
  rcases Slots.cell_set_eq_some.mp hj with ⟨rfl, hnew⟩ | ⟨hne, hold⟩
  · cases hnew
    rw [List.getElem?_map, Option.map_eq_some_iff] at hi
    obtain ⟨q, hq, rfl⟩ := hi
    rw [List.getElem?_take] at hq
    split at hq
    · exact .inl ⟨rfl, if_pos rfl, rfl, by rw [List.getElem?_map, hq, Option.map_some]⟩
    · cases hq
  · exact .inr ⟨if_neg fun heq => hne (Option.some.inj heq).symm,
      Slots.item_eq_some.mpr ⟨j, hold, hi⟩⟩

/-- A new job: its live processes have pids that no live process has. -/
theorem Inv.register (h : s.Inv) (hnodup : (livePids (procs.map Prod.fst) gone).Nodup)
    (hnew : ∀ pid ∈ livePids (procs.map Prod.fst) gone, pid ∉ s.pids) :
    (s.register pgid procs gone cmdline background state).Inv := by
  have hnumbered := h.numbered.jobsRegister pgid procs cmdline background state
  cases hfree : s.world.jobs.firstFree with
  | none =>
    simp only [Tracking.register, World.jobsRegister, hfree, reduceCtorEq, if_false]
    exact h
  | some k =>
    have hlive {pid slot i} :
        (s.register pgid procs gone cmdline background state).Live pid slot i →
          slot = k ∧ gone i = false ∧ (procs.map Prod.fst)[i]? = some pid ∨ s.Live pid slot i := by
      rintro ⟨hgone, p, hp, rfl⟩
      rcases proc_register hfree hp with ⟨hslot, heq, -, hpid⟩ | ⟨heq, hold⟩
      · exact .inl ⟨hslot, heq ▸ hgone, hpid⟩
      · exact .inr ⟨heq ▸ hgone, p, hold, rfl⟩
    -- the pid of a live process of the new job is not that of an old one
    have hcross : ∀ {pid i slot' i'}, gone i = false ∧ (procs.map Prod.fst)[i]? = some pid →
        ¬ s.Live pid slot' i' :=
      fun hi hold => hnew _ (mem_livePids.mpr ⟨_, hi⟩) hold.mem_pids
    refine ⟨hnumbered, ?_, ?_⟩
    · intro slot i p hgone hp
      rcases proc_register hfree hp with ⟨-, -, hdone, -⟩ | ⟨heq, hold⟩
      · exact hdone
      · exact h.done (heq ▸ hgone) hold
    · intro pid slot slot' i i' h₁ h₂
      rcases hlive h₁ with ⟨rfl, hi⟩ | hold <;> rcases hlive h₂ with ⟨rfl, hi'⟩ | hold'
      · exact ⟨rfl, eq_of_nodup_livePids hnodup hi hi'⟩
      · exact absurd hold' (hcross hi)
      · exact absurd hold (hcross hi')
      · exact h.unique hold hold'

end Register

/-! ### All steps -/

theorem keeps_jobsRemove (w : World) (number : Int) :
    w.ledger.Keeps (w.jobsRemove number).ledger := by
  unfold World.jobsRemove
  cases hfind : w.jobsFindByNumber number with
  | none => exact .refl _
  | some slot =>
    obtain ⟨j, hj, -⟩ := Slots.findSlot_eq_some hfind
    exact .setJob hj fun i hi => by cases hi

theorem keeps_startResume (w : World) (number : Int) (isFg : Bool) :
    w.ledger.Keeps (w.startResume number isFg).1.ledger := by
  rcases w.startResume_ledger number isFg with ⟨hw, -⟩ | ⟨slot, j, -, hj, hw, -⟩
  · rw [hw]
    exact .refl _
  · rw [hw]
    exact .setJob hj fun i hi => by cases hi; exact ⟨rfl, rfl⟩

theorem keeps_markStopped (w : World) (number : Int) :
    w.ledger.Keeps (w.markStopped number).ledger := by
  unfold World.markStopped
  cases w.jobsFindByNumber number with
  | none => exact .refl _
  | some slot =>
    cases hj : w.jobs.cell slot with
    | none => simp only [hj]; exact .refl _
    | some j =>
      simp only [hj]
      exact .setJob hj fun i hi => by cases hi; exact ⟨rfl, rfl⟩

theorem Inv.step {s' : Tracking} {a : TrackAct} (h : s.Inv) (hstep : s.step a = some s') :
    s'.Inv := by
  cases a with
  | event e =>
    cases hstep
    exact h.ages (.event h.numbered e)
  | waited e =>
    cases hstep
    exact h.ages (.waited e)
  | register pgid procs gone cmdline background state =>
    simp only [Tracking.step] at hstep
    split at hstep
    · rename_i hnew
      cases hstep
      exact h.register hnew.1 hnew.2
    · cases hstep
  | remove number =>
    cases hstep
    exact h.ages (.of_keeps (keeps_jobsRemove s.world number))
  | resume number isFg =>
    cases hstep
    exact h.ages (.of_keeps (keeps_startResume s.world number isFg))
  | markStopped number =>
    cases hstep
    exact h.ages (.of_keeps (keeps_markStopped s.world number))

theorem Inv.init (w : World) : (Tracking.init w).Inv := by
  have hnone : ∀ {slot i p}, (Tracking.init w).world.proc slot i ≠ some p := by
    intro slot i p hp
    obtain ⟨j, hj, -⟩ := Slots.item_eq_some.mp hp
    cases hj
  refine ⟨.empty rfl, fun _ hp => absurd hp hnone, ?_⟩
  rintro pid slot slot' i i' ⟨-, p, hp, -⟩
  exact absurd hp hnone

/-! ## Events and signals -/

/-- If the search is right, an event of a live process is charged to its job, and its exit to the
process itself. -/
theorem Right.charges {pid : Int} (h : s.Right pid) (hnumbered : s.world.ledger.Numbered)
    {slot : Fin jobsMax} {i : Nat} (hl : s.Live pid slot i) (status : WaitStatus) :
    ∃ j, s.world.jobs.cell slot = some j ∧ (j.procs.findIdx fun p => p.pid = pid) = i ∧
      (s.world.handleTrackedEvent (pid, status)).ledger =
        s.world.ledger.setJob slot (j.track (pid, status)) := by
  obtain ⟨hfind, j, hj, hidx⟩ :=
    Slots.scan_eq_some_cell (s.world.lookup_eq_scan pid ▸ (h.1 slot i hl).1)
  exact ⟨j, hj, hidx, World.handleTrackedEvent_ledger_found hnumbered hfind hj⟩

/-- If the search is right and no live process has the pid, no job is charged. -/
theorem Right.ignores {pid : Int} (h : s.Right pid) (hnone : ∀ slot i, ¬ s.Live pid slot i)
    (status : WaitStatus) : (s.world.handleTrackedEvent (pid, status)).ledger = s.world.ledger := by
  apply World.handleTrackedEvent_ledger_unknown
  rintro j ⟨slot, hj⟩ hmem
  obtain ⟨p, hp, hpid⟩ := List.mem_map.mp hmem
  obtain ⟨i, hi⟩ := List.mem_iff_getElem?.mp hp
  obtain ⟨slot', i', hlookup⟩ := World.lookup_isSome (Slots.item_eq_some.mpr ⟨j, hj, hi⟩) hpid
  rw [h.2 hnone] at hlookup
  cases hlookup

/-- If the search is right, `ping` signals a pid only if it is that of a live process of a job. -/
theorem Right.ping {pid : Int} (h : s.Right pid) {target sigStr : Str} {sig : Nat}
    (htarget : target.head? ≠ some '%')
    (hkills : (s.world.runPing [target, sigStr]).kills = s.world.kills ++ [(pid, sig)]) :
    ∃ slot i, s.Live pid slot i ∧ s.world.lookup pid = some (slot, i) := by
  rcases s.world.runPing_kills [target, sigStr] with hsame |
    ⟨_, _, pid', sig', hargs, hfound, -, hkills'⟩
  · rw [hsame] at hkills
    simp at hkills
  · cases hargs
    obtain ⟨rfl, rfl⟩ : pid' = pid ∧ sig' = sig := by
      simpa using hkills'.symm.trans hkills
    obtain ⟨slot, hslot⟩ := World.pingTarget_pid htarget hfound
    obtain ⟨j, hj, -⟩ := Slots.findSlot_eq_some hslot
    by_contra hnot
    have hnone := h.2 fun slot i hl => hnot ⟨slot, i, hl, (h.1 slot i hl).1⟩
    rw [World.lookup, hslot, Option.bind_some, hj, Option.map_some] at hnone
    cases hnone

/-- After whatever has happened to the table, as long as no pid is given to two live processes: the
search for a pid is right if and only if every process with this pid that is gone stands behind a
live one. If it is right, events go to the right job or, if there is none, to no job, and `ping`
signals live processes only. -/
theorem lookup_right_iff {w : World} {acts : List TrackAct} {s : Tracking}
    (hrun : run Tracking.step (.init w) acts = some s) (pid : Int) :
    (s.Right pid ↔ s.Unshadowed pid) ∧
      (s.Right pid →
        (∀ slot i, s.Live pid slot i → ∀ status,
          ∃ j, s.world.jobs.cell slot = some j ∧ (j.procs.findIdx fun p => p.pid = pid) = i ∧
            (s.world.handleTrackedEvent (pid, status)).ledger =
              s.world.ledger.setJob slot (j.track (pid, status))) ∧
        ((∀ slot i, ¬ s.Live pid slot i) → ∀ status,
          (s.world.handleTrackedEvent (pid, status)).ledger = s.world.ledger) ∧
        ∀ target sigStr sig, target.head? ≠ some '%' →
          (s.world.runPing [target, sigStr]).kills = s.world.kills ++ [(pid, sig)] →
            ∃ slot i, s.Live pid slot i ∧ s.world.lookup pid = some (slot, i)) := by
  have hinv : s.Inv := run_invariant (fun _ _ _ h hstep => Inv.step h hstep) (Inv.init w) hrun
  refine ⟨hinv.right_iff, fun hright => ⟨?_, ?_, ?_⟩⟩
  · intro slot i hl status
    exact hright.charges hinv.numbered hl status
  · intro hnone status
    exact hright.ignores hnone status
  · intro target sigStr sig htarget hkills
    exact hright.ping htarget hkills

/-- `sleep | sleep &`, of which the first process exits. -/
def firstExits : List TrackAct :=
  [.register 200 [(200, "sleep".toList), (201, "sleep".toList)] (fun _ => false)
    "sleep | sleep".toList true
    .running, .event (200, .exited 0)]

def firstGone : Tracking := (run Tracking.step (.init .init) firstExits).get (by decide +kernel)

/-- The second process is found. -/
theorem lookup_right_firstGone :
    run Tracking.step (.init .init) firstExits = some firstGone ∧ firstGone.Right 201 ∧
      201 ∈ firstGone.pids := by
  have hrun : run Tracking.step (.init .init) firstExits = some firstGone :=
    (Option.some_get _).symm
  refine ⟨hrun, (lookup_right_iff hrun 201).1.mpr ?_, by decide +kernel⟩
  rintro slot i ⟨hgone, p, hp, hpid⟩
  obtain ⟨j, hj, hi⟩ := Slots.item_eq_some.mp hp
  have hslot : ∀ k, firstGone.world.jobs.cell k ≠ none → k = ⟨0, (by decide : 0 < jobsMax)⟩ := by
    decide +kernel
  have hpids : ∀ j ∈ firstGone.world.jobs.cell ⟨0, (by decide : 0 < jobsMax)⟩, j.pids =
      [200, 201] := by
    decide +kernel
  obtain rfl := hslot slot (by rw [hj]; exact Option.some_ne_none j)
  have hat : j.pids[i]? = some 201 := by rw [Job.pids, List.getElem?_map, hi, Option.map_some, hpid]
  rw [hpids j hj] at hat
  rcases i with _ | _ | n
  · cases hat
  · have halive : firstGone.gone ⟨0, (by decide : 0 < jobsMax)⟩ 1 = false := by decide +kernel
    rw [halive] at hgone
    cases hgone
  · cases hat

/-- Then `cat &` gets the pid of the process that has exited. -/
def reused : Tracking :=
  (run Tracking.step firstGone
    [.register 200 [(200, "cat".toList)] (fun _ => false) "cat".toList true .running]).get
      (by decide +kernel)

/-- A process that has exited is found, and `ping` signals its pid. When the pid is used again, it
is still the old process that is found, and the exit of the new one is not marked. -/
theorem lookup_finds_finished :
    firstGone.pids = [201] ∧
      firstGone.world.lookup 200 = some (⟨0, (by decide : 0 < jobsMax)⟩, 0) ∧
      (firstGone.world.runPing ["200".toList, "9".toList]).kills = [(200, 9)] ∧
      reused.Live 200 ⟨1, (by decide : 1 < jobsMax)⟩ 0 ∧
      reused.world.lookup 200 = some (⟨0, (by decide : 0 < jobsMax)⟩, 0) ∧
      (reused.world.handleTrackedEvent (200, .exited 0)).proc ⟨1, (by decide : 1 < jobsMax)⟩ 0 =
        some ⟨200, "cat".toList, false⟩ := by
  refine ⟨by decide +kernel, by decide +kernel, by decide +kernel, ⟨by decide +kernel, ?_⟩,
    by decide +kernel, by decide +kernel⟩
  exact ⟨⟨200, "cat".toList, false⟩, by decide +kernel, rfl⟩

end Tracking

end UnixCShell
