import UnixCShell.Session.Ledger

/-!
# Who knows which process is gone

The exit of a process is taken from the queue once, either by `handle_tracked_event`, which marks
the process in the job table, or by `jobs_wait_foreground`, which marks it in its local array. The
invariant of this module says that the two accounts together are complete: a process of a job in the
table is marked in one of them if and only if its exit has been taken from the queue.
-/

namespace UnixCShell

open Lib

/-- An exit of the process is among the events. -/
def Exited (es : List WaitEvent) (pid : Int) : Prop := ∃ e ∈ es, e.1 = pid ∧ e.2.final = true

instance (es : List WaitEvent) (pid : Int) : Decidable (Exited es pid) :=
  inferInstanceAs (Decidable (∃ e ∈ es, _))

/-- The shell waits for this job of the table. -/
def Awaited.Is : Awaited → Job → Prop
  | .job j₀, j => j₀.jobNumber = j.jobNumber
  | .launch .., _ => False

namespace Control

/-- The processes that the shell is starting or waiting for. -/
def pids : Control → List Int
  | .idle => []
  | .forking _ _ _ l _ _ => l.procs.map Prod.fst
  | .waiting on _ _ _ => on.pids

/-- The local array of `jobs_wait_foreground` says that the process is gone. -/
def DoneLocal : Control → Int → Prop
  | .waiting on l _ _, pid => ∃ k : Nat, on.pids[k]? = some pid ∧ l.done[k]? = some true
  | _, _ => False

def Awaits : Control → Job → Prop
  | .waiting on _ _ _, j => on.Is j
  | _, _ => False

end Control

/-! ## The parts of the invariant -/

/-- Every event is about a child; a child that is not reaped has no exit among the events; and the
exit of a process is the last event about it. -/
structure EventLog (roster : List (Int × Bool)) (events : List WaitEvent) : Prop where
  positive : ∀ c ∈ roster, 0 < c.1
  known    : ∀ e ∈ events, e.1 ∈ roster.map Prod.fst
  reaped   : ∀ e ∈ events, e.2.final = true → ∀ c ∈ roster, c.1 = e.1 → c.2 = true
  once     : events.Pairwise fun a b => a.2.final = true → a.1 ≠ b.1

/-- No pid occurs twice; `-1`, which a `fork` that fails leaves behind, does not count. -/
def Distinct (pids : List Int) : Prop :=
  ∀ ⦃i k : Nat⦄ ⦃pid : Int⦄, 0 < pid → pids[i]? = some pid → pids[k]? = some pid → i = k

/-- Every child belongs to one job at most. -/
structure Ownership (b : Ledger) : Prop where
  owner    : ∀ ⦃i k j j'⦄, b.jobs.cell i = some j → b.jobs.cell k = some j' →
    ∀ pid, 0 < pid → pid ∈ j.pids → pid ∈ j'.pids → i = k
  distinct : ∀ j ∈ b.jobs, Distinct j.pids
  child    : ∀ j ∈ b.jobs, ∀ pid ∈ j.pids, 0 < pid → pid ∈ b.roster.map Prod.fst

/-- The processes are children that belong to no job. -/
structure Unowned (b : Ledger) (pids : List Int) : Prop where
  distinct : Distinct pids
  child    : ∀ pid ∈ pids, 0 < pid → pid ∈ b.roster.map Prod.fst
  free     : ∀ j ∈ b.jobs, ∀ pid ∈ pids, 0 < pid → pid ∉ j.pids

/-- The account of `jobs_wait_foreground`. It is stopped only by a stop that comes before all
exits. -/
structure Account (pids : List Int) (l : Waiter) (consumed : List WaitEvent) : Prop where
  nonempty : pids ≠ []
  length   : l.done.length = pids.length
  count    : l.doneCount = l.done.count true
  done_iff : ∀ ⦃k : Nat⦄ ⦃pid : Int⦄, pids[k]? = some pid →
    (l.done[k]? = some true ↔ Exited consumed pid)
  stopped  : l.stopped = true → l.doneCount = 0

/-- What holds of the command that is being executed. -/
def ControlOk (b : Ledger) (consumed : List WaitEvent) : Control → Prop
  | .idle => True
  | .forking _ _ _ l _ _ =>
    Unowned b (l.procs.map Prod.fst) ∧ ∀ pid ∈ l.procs.map Prod.fst, ¬ Exited consumed pid
  | .waiting (.launch l cmdline) waiter _ _ =>
    Unowned b (l.procs.map Prod.fst) ∧ Account (Awaited.launch l cmdline).pids waiter consumed
  | .waiting (.job j) waiter _ _ =>
    (∃ slot j', b.jobs.cell slot = some j' ∧ j'.jobNumber = j.jobNumber ∧ j'.procs = j.procs) ∧
      (∀ p ∈ j.procs, p.done = false) ∧ Account j.pids waiter consumed

/-- The invariant; `queue` are the events that are still to be taken. -/
structure Inv (b : Ledger) (control : Control) (consumed queue : List WaitEvent) : Prop where
  numbered   : b.Numbered
  events     : EventLog b.roster (consumed ++ queue)
  ownership  : Ownership b
  done_iff   : ∀ j ∈ b.jobs, ∀ p ∈ j.procs,
    p.done = true ∨ control.DoneLocal p.pid ↔ Exited consumed p.pid
  unfinished : ∀ j ∈ b.jobs, ¬ control.Awaits j → ∃ p ∈ j.procs, ¬ Exited consumed p.pid
  control    : ControlOk b consumed control

/-! ## Facts about the parts -/

theorem exited_concat {es : List WaitEvent} {e : WaitEvent} {pid : Int} :
    Exited (es ++ [e]) pid ↔ Exited es pid ∨ e.1 = pid ∧ e.2.final = true := by
  simp [Exited, or_and_right, exists_or]

/-- Events that are not exits, and exits of other processes, are no exit of this one. -/
theorem exited_concat_of_ne {es : List WaitEvent} {e : WaitEvent} {pid : Int}
    (h : e.2.final = true → e.1 ≠ pid) : Exited (es ++ [e]) pid ↔ Exited es pid := by
  rw [exited_concat]
  exact or_iff_left fun hx => h hx.2 hx.1

namespace EventLog

variable {roster : List (Int × Bool)} {events consumed queue : List WaitEvent} {e : WaitEvent}

theorem pid_positive (h : EventLog roster events) (he : e ∈ events) : 0 < e.1 := by
  obtain ⟨c, hc, heq⟩ := List.mem_map.mp (h.known e he)
  rw [← heq]
  exact h.positive c hc

theorem exited_known (h : EventLog roster (consumed ++ queue)) {pid : Int}
    (hx : Exited consumed pid) :
    pid ∈ roster.map Prod.fst ∧ 0 < pid := by
  obtain ⟨e, he, rfl, -⟩ := hx
  have hmem : e ∈ consumed ++ queue := List.mem_append_left _ he
  exact ⟨h.known e hmem, h.pid_positive hmem⟩

/-- Taking an event from the queue. -/
theorem take (h : EventLog roster (consumed ++ e :: queue)) :
    EventLog roster (consumed ++ [e] ++ queue) := by
  rwa [List.append_assoc]

/-- The process of the next event has not exited. -/
theorem next_not_exited (h : EventLog roster (consumed ++ e :: queue)) : ¬ Exited consumed e.1 := by
  rintro ⟨a, ha, heq, hfinal⟩
  exact (List.pairwise_append.mp h.once).2.2 a ha e List.mem_cons_self hfinal heq

/-- `waitpid` finds an event of a child that has not been reaped; the queue may have no room for
it. -/
theorem reap (h : EventLog roster events)
    (hc : ∃ c ∈ roster, c.1 = e.1 ∧ c.2 = false) (room : Bool) :
    EventLog (roster.map fun c => if e.2.final ∧ c.1 = e.1 then (c.1, true) else c)
      (events ++ if room then [e] else []) := by
  have hpids : (roster.map fun c => if e.2.final ∧ c.1 = e.1 then (c.1, true) else c).map Prod.fst =
      roster.map Prod.fst := by
    rw [List.map_map]
    apply List.map_congr_left
    intro c _
    simp only [Function.comp]
    split <;> rfl
  obtain ⟨c₀, hc₀, heq₀, hunreaped⟩ := hc
  have hsub : ∀ a ∈ events ++ (if room then [e] else []), a ∈ events ∨ a = e := by
    intro a ha
    rcases List.mem_append.mp ha with ha | ha
    · exact .inl ha
    · cases room <;> simp_all
  constructor
  · intro c hmem
    obtain ⟨c', hc', rfl⟩ := List.mem_map.mp hmem
    have := h.positive c' hc'
    split <;> exact this
  · intro a ha
    rw [hpids]
    rcases hsub a ha with ha | rfl
    · exact h.known a ha
    · rw [← heq₀]
      exact List.mem_map_of_mem hc₀
  · intro a ha hfinal c hmem hca
    obtain ⟨c', hc', rfl⟩ := List.mem_map.mp hmem
    rcases hsub a ha with ha | rfl
    · split at hca
      · rename_i hcond
        rw [if_pos hcond]
      · rename_i hcond
        rw [if_neg hcond]
        exact h.reaped a ha hfinal c' hc' hca
    · split at hca
      · rename_i hcond
        rw [if_pos hcond]
      · rename_i hcond
        exact absurd ⟨hfinal, hca⟩ hcond
  · -- a process with an earlier exit has been reaped
    rw [List.pairwise_append]
    refine ⟨h.once, by cases room <;> simp, ?_⟩
    intro a ha b hb hfinal heq
    have hbe : b = e := by cases room <;> simp_all
    subst hbe
    have := h.reaped a ha hfinal c₀ hc₀ (by rw [heq₀, heq])
    rw [hunreaped] at this
    cases this

end EventLog

/-! ### Owners -/

theorem Ownership.updates {b b' : Ledger} (h : Ownership b) (hu : b.Updates b') : Ownership b' := by
  constructor
  · intro i k j₁ j₂ h₁ h₂ pid hpos hp₁ hp₂
    obtain ⟨i₁, hi₁, -, heq₁⟩ := hu.jobs h₁
    obtain ⟨i₂, hi₂, -, heq₂⟩ := hu.jobs h₂
    exact h.owner hi₁ hi₂ pid hpos (heq₁ ▸ hp₁) (heq₂ ▸ hp₂)
  · rintro j ⟨k, hk⟩
    obtain ⟨i, hi, -, heq⟩ := hu.jobs hk
    rw [heq]
    exact h.distinct i ⟨k, hi⟩
  · rintro j ⟨k, hk⟩
    obtain ⟨i, hi, -, heq⟩ := hu.jobs hk
    rw [heq, hu.roster]
    exact h.child i ⟨k, hi⟩

theorem Unowned.updates {b b' : Ledger} {pids : List Int} (h : Unowned b pids) (hu : b.Updates b') :
    Unowned b' pids := by
  refine ⟨h.distinct, by rw [hu.roster]; exact h.child, ?_⟩
  rintro j ⟨k, hk⟩
  obtain ⟨i, hi, -, heq⟩ := hu.jobs hk
  rw [heq]
  exact h.free i ⟨k, hi⟩

/-- In a job that has the pid once, the process that is marked is the one with the pid. -/
theorem Job.finish_procs {j : Job} {pid : Int}
    (h : ∀ ⦃i k : Nat⦄, j.pids[i]? = some pid → j.pids[k]? = some pid → i = k) :
    (j.finish pid).procs =
      j.procs.map fun p => if p.pid = pid then { p with done := true } else p := by
  apply List.ext_getElem?
  intro k
  simp only [Job.finish, List.getElem?_modify, List.getElem?_map]
  cases hp : j.procs[k]? with
  | none => rfl
  | some p =>
    simp only [Option.map_eq_map, Option.map_some, Option.some.injEq]
    have hk : k < j.procs.length := (List.getElem?_eq_some_iff.mp hp).1
    by_cases heq : p.pid = pid
    · -- the search stops here, since the pid does not occur before
      have hfind : j.procs.findIdx (fun q => q.pid = pid) = k := by
        have hlt : j.procs.findIdx (fun q => q.pid = pid) < j.procs.length := by
          rw [List.findIdx_lt_length]
          exact ⟨p, List.mem_of_getElem? hp, by simpa using heq⟩
        have hfound := List.findIdx_getElem (w := hlt)
        apply h
        · rw [Job.pids, List.getElem?_map, List.getElem?_eq_getElem hlt]
          simpa using hfound
        · rw [Job.pids, List.getElem?_map, hp]
          simpa using heq
      rw [if_pos hfind, if_pos heq]
    · have hfind : j.procs.findIdx (fun q => q.pid = pid) ≠ k := by
        rintro rfl
        have hfound := List.findIdx_getElem (w := hk)
        rw [List.getElem?_eq_getElem hk, Option.some.injEq] at hp
        rw [hp] at hfound
        exact heq (by simpa using hfound)
      rw [if_neg hfind, if_neg heq]

/-! ### Accounts -/

/-- The local array knows exactly the exits of the processes that are waited for. -/
theorem Account.doneLocal_iff {on : Awaited} {l : Waiter} {consumed : List WaitEvent}
    (h : Account on.pids l consumed) {alarm timedOut : Bool} {pid : Int} :
    (Control.waiting on l alarm timedOut).DoneLocal pid ↔ pid ∈ on.pids ∧ Exited consumed pid := by
  constructor
  · rintro ⟨k, hk, hdone⟩
    exact ⟨List.mem_of_getElem? hk, (h.done_iff hk).mp hdone⟩
  · rintro ⟨hmem, hx⟩
    obtain ⟨k, hk⟩ := List.mem_iff_getElem?.mp hmem
    exact ⟨k, hk, (h.done_iff hk).mpr hx⟩

namespace Inv

variable {b b' : Ledger} {c : Control} {consumed queue : List WaitEvent} {e : WaitEvent}

/-- Whatever the shell waits for, it keeps an account. -/
theorem account {on : Awaited} {l : Waiter} {alarm timedOut : Bool}
    (h : Inv b (.waiting on l alarm timedOut) consumed queue) : Account on.pids l consumed := by
  have hc := h.control
  cases on with
  | launch => exact hc.2
  | job => exact hc.2.2

/-- A process of another job is not in the local array. -/
theorem not_doneLocal (h : Inv b c consumed queue) {j : Job} (hj : j ∈ b.jobs) (hnot : ¬ c.Awaits j)
    {p : JobProc} (hp : p ∈ j.procs) : ¬ c.DoneLocal p.pid := by
  have hmem : p.pid ∈ j.pids := List.mem_map_of_mem hp
  cases c with
  | idle | forking => exact id
  | waiting on l alarm timedOut =>
    rw [h.account.doneLocal_iff]
    rintro ⟨hon, hx⟩
    have hpos := (h.events.exited_known hx).2
    have hc := h.control
    cases on with
    | launch launch cmdline => exact hc.1.free j hj p.pid hon hpos hmem
    | job j₀ =>
      obtain ⟨⟨slot, j₁, hj₁, hnum, hprocs⟩, -, -⟩ := hc
      obtain ⟨k, hk⟩ := hj
      have hon' : p.pid ∈ j₁.pids := by
        rw [Job.pids, hprocs]
        exact hon
      have hslot := h.ownership.owner hj₁ hk p.pid hpos hon' hmem
      rw [← hslot, hj₁] at hk
      cases hk
      exact hnot hnum.symm

/-- The next event is not an exit of a process that belongs to a job in another slot. -/
theorem next_ne (h : Inv b c consumed (e :: queue)) {slot k : Fin jobsMax} {j i : Job}
    (hj : b.jobs.cell slot = some j) (hmem : e.1 ∈ j.pids) (hi : b.jobs.cell k = some i)
    (hne : k ≠ slot) {p : JobProc} (hp : p ∈ i.procs) : e.1 ≠ p.pid := by
  intro heq
  have hpos : 0 < e.1 := h.events.pid_positive (List.mem_append_right _ List.mem_cons_self)
  exact hne (h.ownership.owner hi hj e.1 hpos (heq ▸ List.mem_map_of_mem hp) hmem)

/-- The control does not care about events of other processes. -/
theorem control_tracked (h : Inv b c consumed (e :: queue)) (hnot : e.1 ∉ c.pids)
    (hu : b.Updates b') (hslot : ∀ k j, b.jobs.cell k = some j → e.1 ∉ j.pids →
      b'.jobs.cell k = some j) :
    ControlOk b' (consumed ++ [e]) c := by
  have hexit : ∀ pid ∈ c.pids, (Exited (consumed ++ [e]) pid ↔ Exited consumed pid) := by
    intro pid hpid
    apply exited_concat_of_ne
    rintro - rfl
    exact hnot hpid
  have haccount : ∀ {on l alarm timedOut}, c = .waiting on l alarm timedOut →
      Account on.pids l consumed → Account on.pids l (consumed ++ [e]) := by
    rintro on l alarm timedOut rfl ha
    refine ⟨ha.nonempty, ha.length, ha.count, fun k pid hk => ?_, ha.stopped⟩
    rw [ha.done_iff hk, hexit pid (List.mem_of_getElem? hk)]
  have hc := h.control
  cases c with
  | idle => trivial
  | forking todo n pipes l cmdline background =>
    exact ⟨hc.1.updates hu, fun pid hpid => by rw [hexit pid hpid]; exact hc.2 pid hpid⟩
  | waiting on l alarm timedOut =>
    cases on with
    | launch => exact ⟨hc.1.updates hu, haccount rfl hc.2⟩
    | job j =>
      obtain ⟨⟨slot, j', hj', hnum, hprocs⟩, hdone, ha⟩ := hc
      refine ⟨⟨slot, j', hslot slot j' hj' ?_, hnum, hprocs⟩, hdone, haccount rfl ha⟩
      rw [Job.pids, hprocs]
      exact hnot

/-- `handle_tracked_event` on an event of a process that no job has. -/
theorem tracked_unknown (h : Inv b c consumed (e :: queue)) (hnot : e.1 ∉ c.pids)
    (hunknown : ∀ j ∈ b.jobs, e.1 ∉ j.pids) : Inv b c (consumed ++ [e]) queue := by
  have hexit : ∀ j ∈ b.jobs, ∀ p ∈ j.procs,
      (Exited (consumed ++ [e]) p.pid ↔ Exited consumed p.pid) := by
    intro j hj p hp
    apply exited_concat_of_ne
    intro _ heq
    exact hunknown j hj (heq ▸ List.mem_map_of_mem hp)
  refine ⟨h.numbered, h.events.take, h.ownership, ?_, ?_,
    h.control_tracked hnot (.refl b) fun k j hk _ => hk⟩
  · intro j hj p hp
    rw [hexit j hj p hp]
    exact h.done_iff j hj p hp
  · intro j hj haw
    obtain ⟨p, hp, hx⟩ := h.unfinished j hj haw
    exact ⟨p, hp, by rwa [hexit j hj p hp]⟩

/-- What `handle_tracked_event` makes of the job of the process. -/
theorem tracked_job (h : Inv b c consumed (e :: queue)) {slot : Fin jobsMax} {j j' : Job}
    (hj : b.jobs.cell slot = some j) (hj' : j' ∈ j.track e) :
    (∀ p ∈ j'.procs, p.done = true ∨ c.DoneLocal p.pid ↔ Exited (consumed ++ [e]) p.pid) ∧
      (¬ c.Awaits j → ∃ p ∈ j'.procs, ¬ Exited (consumed ++ [e]) p.pid) := by
  have hmem : j ∈ b.jobs := ⟨slot, hj⟩
  have hpos : 0 < e.1 := h.events.pid_positive (List.mem_append_right _ List.mem_cons_self)
  by_cases hfinal : e.2.final = true
  · -- a process is marked, and there is one that is not
    have hfin : j' = j.finish e.1 ∧ (j.finish e.1).allDone = false := by
      obtain ⟨pid, status⟩ := e
      cases status with
      | stopped | continued => cases hfinal
      | exited | signaled =>
        simp only [Job.track] at hj'
        split at hj'
        · cases hj'
        · cases hj'
          exact ⟨rfl, by simp_all⟩
    obtain ⟨rfl, hnotall⟩ := hfin
    have hprocs := Job.finish_procs fun _ _ => h.ownership.distinct j hmem hpos
    have hdone : ∀ p ∈ (j.finish e.1).procs,
        p.done = true ∨ c.DoneLocal p.pid ↔ Exited (consumed ++ [e]) p.pid := by
      intro p' hp'
      rw [hprocs] at hp'
      obtain ⟨p, hp, rfl⟩ := List.mem_map.mp hp'
      have hiff := h.done_iff j hmem p hp
      rw [exited_concat]
      by_cases heq : p.pid = e.1
      · rw [if_pos heq]
        simp [heq, hfinal]
      · rw [if_neg heq, hiff]
        simp [Ne.symm heq]
    refine ⟨hdone, fun haw => ?_⟩
    rw [Job.allDone, List.all_eq_false] at hnotall
    obtain ⟨p', hp', hnotdone⟩ := hnotall
    refine ⟨p', hp', ?_⟩
    rw [← hdone p' hp', not_or]
    refine ⟨hnotdone, ?_⟩
    rw [hprocs] at hp'
    obtain ⟨p, hp, rfl⟩ := List.mem_map.mp hp'
    have hlocal := h.not_doneLocal hmem haw hp
    split <;> exact hlocal
  · -- only the state of the job has changed
    have hprocs : j'.procs = j.procs := by
      obtain ⟨pid, status⟩ := e
      cases status with
      | stopped | continued =>
        cases hj'
        rfl
      | exited | signaled => exact absurd rfl hfinal
    have hexit : ∀ pid, Exited (consumed ++ [e]) pid ↔ Exited consumed pid := fun pid =>
      exited_concat_of_ne fun hf => absurd hf hfinal
    simp only [hprocs, hexit]
    exact ⟨h.done_iff j hmem, h.unfinished j hmem⟩

/-- `handle_tracked_event` on an event of a process of a job. -/
theorem tracked_known (h : Inv b c consumed (e :: queue)) (hnot : e.1 ∉ c.pids) {slot : Fin jobsMax}
    {j : Job} (hj : b.jobs.cell slot = some j) (hmem : e.1 ∈ j.pids) :
    Inv (b.setJob slot (j.track e)) c (consumed ++ [e]) queue := by
  have hu : b.Updates (b.setJob slot (j.track e)) := .setJob hj fun i hi => Job.track_same hi
  have hcell : ∀ {k : Fin jobsMax} {i : Job}, (b.setJob slot (j.track e)).jobs.cell k = some i →
      k = slot ∧ i ∈ j.track e ∨ k ≠ slot ∧ b.jobs.cell k = some i :=
    fun hi => Slots.cell_set_eq_some.mp hi
  refine ⟨hu.numbered h.numbered, h.events.take, h.ownership.updates hu, ?_, ?_, ?_⟩
  · rintro i ⟨k, hk⟩ p hp
    rcases hcell hk with ⟨rfl, hi⟩ | ⟨hne, hi⟩
    · exact (h.tracked_job hj hi).1 p hp
    · rw [exited_concat_of_ne fun _ => h.next_ne hj hmem hi hne hp]
      exact h.done_iff i ⟨k, hi⟩ p hp
  · rintro i ⟨k, hk⟩ haw
    rcases hcell hk with ⟨rfl, hi⟩ | ⟨hne, hi⟩
    · apply (h.tracked_job hj hi).2
      intro haw'
      apply haw
      have hnum := (Job.track_same hi).1
      cases c with
      | waiting on l alarm timedOut =>
        cases on with
        | job j₀ => exact Eq.trans haw' hnum.symm
        | launch => exact haw'
      | idle | forking => exact haw'
    · obtain ⟨p, hp, hx⟩ := h.unfinished i ⟨k, hi⟩ haw
      refine ⟨p, hp, ?_⟩
      rwa [exited_concat_of_ne fun _ => h.next_ne hj hmem hi hne hp]
  · apply h.control_tracked hnot hu
    intro k i hk hi
    have hne : k ≠ slot := by
      rintro rfl
      rw [hj] at hk
      cases hk
      exact hi hmem
    exact (Slots.cell_set_of_ne _ _ hne).trans hk

end Inv

/-! ## Waiting in the foreground -/

theorem Waiter.index_eq_some {l : Waiter} {pids : List Int} {pid : Int} {k : Nat}
    (h : l.index pids pid = some k) : pids[k]? = some pid ∧ l.done[k]? = some false := by
  simpa using List.find?_some h

theorem Waiter.index_eq_none {l : Waiter} {pids : List Int} {pid : Int}
    (h : l.index pids pid = none) {k : Nat} (hk : pids[k]? = some pid) :
    l.done[k]? ≠ some false := by
  have hlt : k < pids.length := (List.getElem?_eq_some_iff.mp hk).1
  have := List.find?_eq_none.mp h k (List.mem_range.mpr hlt)
  simpa [hk] using this

/-- The process of an event that is not for the loop is not waited for: if it were, it would be
marked, and its exit would have been taken before. -/
theorem Inv.not_mem_pids {b : Ledger} {on : Awaited} {l : Waiter} {alarm timedOut : Bool}
    {consumed queue : List WaitEvent} {e : WaitEvent}
    (h : Inv b (.waiting on l alarm timedOut) consumed (e :: queue))
    (hidx : l.index on.pids e.1 = none) :
    e.1 ∉ on.pids := by
  intro hmem
  obtain ⟨k, hk⟩ := List.mem_iff_getElem?.mp hmem
  have hlt : k < l.done.length := by
    rw [h.account.length]
    exact (List.getElem?_eq_some_iff.mp hk).1
  have hdone : l.done[k]? = some true := by
    have := Waiter.index_eq_none hidx hk
    rw [List.getElem?_eq_getElem hlt] at this ⊢
    simp_all
  exact h.events.next_not_exited ((h.account.done_iff hk).mp hdone)

/-- An exit is entered into the account. -/
theorem Account.exit {pids : List Int} {l : Waiter} {consumed : List WaitEvent} {e : WaitEvent}
    (h : Account pids l consumed) (hdistinct : Distinct pids) (hpos : 0 < e.1)
    (hfinal : e.2.final = true) (hrunning : l.stopped = false) {k : Nat}
    (hidx : l.index pids e.1 = some k) :
    Account pids { l with done := l.done.set k true, doneCount := l.doneCount + 1 }
      (consumed ++ [e]) := by
  obtain ⟨hk, hdone⟩ := Waiter.index_eq_some hidx
  obtain ⟨hlt, hval⟩ := List.getElem?_eq_some_iff.mp hdone
  refine ⟨h.nonempty, by rw [List.length_set]; exact h.length, ?_, ?_, by simp [hrunning]⟩
  · rw [h.count, List.count_set hlt, hval]
    simp
  · intro i pid hi
    rw [exited_concat, List.getElem?_set]
    by_cases hki : k = i
    · subst hki
      rw [hk] at hi
      cases hi
      simp [hlt, hfinal]
    · have hne : e.1 ≠ pid := by
        rintro rfl
        exact hki (hdistinct hpos hk hi)
      rw [if_neg hki, h.done_iff hi]
      simp [hne]

namespace Inv

variable {b b' : Ledger} {c : Control} {consumed queue : List WaitEvent} {e : WaitEvent}

theorem pids_distinct {on : Awaited} {l : Waiter} {alarm timedOut : Bool}
    (h : Inv b (.waiting on l alarm timedOut) consumed queue) : Distinct on.pids := by
  have hc := h.control
  cases on with
  | launch => exact hc.1.distinct
  | job j =>
    obtain ⟨⟨slot, j', hj', -, hprocs⟩, -, -⟩ := hc
    have := h.ownership.distinct j' ⟨slot, hj'⟩
    rwa [Job.pids, hprocs] at this

/-- A process that is waited for belongs to no job but the awaited one. -/
theorem pids_awaited {on : Awaited} {l : Waiter} {alarm timedOut : Bool}
    (h : Inv b (.waiting on l alarm timedOut) consumed queue) {pid : Int} (hpid : pid ∈ on.pids)
    (hpos : 0 < pid) {j : Job} (hj : j ∈ b.jobs) (hmem : pid ∈ j.pids) :
    (Control.waiting on l alarm timedOut).Awaits j := by
  have hc := h.control
  cases on with
  | launch => exact absurd hmem (hc.1.free j hj pid hpid hpos)
  | job j₀ =>
    obtain ⟨⟨slot, j', hj', hnum, hprocs⟩, -, -⟩ := hc
    obtain ⟨k, hk⟩ := hj
    have hslot := h.ownership.owner hj' hk pid hpos (by rw [Job.pids, hprocs]; exact hpid) hmem
    rw [← hslot, hj'] at hk
    cases hk
    exact hnum.symm

/-- A new account replaces the old one. -/
theorem control_account {on : Awaited} {l l' : Waiter} {alarm alarm' timedOut timedOut' : Bool}
    {consumed' : List WaitEvent} (h : ControlOk b consumed (.waiting on l alarm timedOut))
    (ha : Account on.pids l' consumed') :
    ControlOk b consumed' (.waiting on l' alarm' timedOut') := by
  cases on with
  | launch => exact ⟨h.1, ha⟩
  | job => exact ⟨h.1, h.2.1, ha⟩

/-- `jobs_wait_foreground` takes an exit of a process it waits for. -/
theorem waited_exit {on : Awaited} {l : Waiter} {alarm timedOut : Bool}
    (h : Inv b (.waiting on l alarm timedOut) consumed (e :: queue)) (hfinal : e.2.final = true)
    (hrunning : l.stopped = false) {k : Nat} (hidx : l.index on.pids e.1 = some k) :
    Inv b (.waiting on { l with
        done := l.done.set k true
        doneCount := l.doneCount + 1 } alarm timedOut) (consumed ++ [e]) queue := by
  have hpos : 0 < e.1 := h.events.pid_positive (List.mem_append_right _ List.mem_cons_self)
  have hmem : e.1 ∈ on.pids := List.mem_of_getElem? (Waiter.index_eq_some hidx).1
  have ha := h.account.exit h.pids_distinct hpos hfinal hrunning hidx
  refine ⟨h.numbered, h.events.take, h.ownership, ?_, ?_, control_account h.control ha⟩
  · intro j hj p hp
    have hiff := h.done_iff j hj p hp
    rw [h.account.doneLocal_iff] at hiff
    rw [ha.doneLocal_iff, exited_concat]
    by_cases heq : e.1 = p.pid
    · simp [← heq, hfinal, hmem]
    · simp only [heq, false_and, or_false]
      exact hiff
  · intro j hj haw
    obtain ⟨p, hp, hx⟩ := h.unfinished j hj haw
    refine ⟨p, hp, ?_⟩
    rw [exited_concat_of_ne fun _ heq => haw (h.pids_awaited hmem hpos hj ?_)]
    · exact hx
    · rw [heq]
      exact List.mem_map_of_mem hp

/-- `jobs_wait_foreground` takes another event of a process it waits for. -/
theorem waited_other {on : Awaited} {l l' : Waiter} {alarm timedOut : Bool}
    (h : Inv b (.waiting on l alarm timedOut) consumed (e :: queue)) (hfinal : e.2.final = false)
    (hdone : l'.done = l.done) (hcount : l'.doneCount = l.doneCount)
    (hstopped : l'.stopped = true → l'.doneCount = 0) :
    Inv b (.waiting on l' alarm timedOut) (consumed ++ [e]) queue := by
  have hexit : ∀ pid, Exited (consumed ++ [e]) pid ↔ Exited consumed pid := fun pid =>
    exited_concat_of_ne fun hf => by rw [hfinal] at hf; cases hf
  have ha : Account on.pids l' (consumed ++ [e]) := by
    refine ⟨h.account.nonempty, by rw [hdone]; exact h.account.length, ?_, ?_, hstopped⟩
    · rw [hdone, hcount]
      exact h.account.count
    · intro k pid hk
      rw [hdone, hexit]
      exact h.account.done_iff hk
  refine ⟨h.numbered, h.events.take, h.ownership, ?_, ?_, control_account h.control ha⟩
  · intro j hj p hp
    have hiff := h.done_iff j hj p hp
    rw [h.account.doneLocal_iff] at hiff
    rw [ha.doneLocal_iff, hexit]
    exact hiff
  · intro j hj haw
    simp only [hexit]
    exact h.unfinished j hj haw

end Inv

end UnixCShell
