import UnixCShell.Session.Invariant

/-!
# Groups of many processes

`launch_group` has room for 128 stages. Behind it there is less room: `jobs_register` keeps the
first `JOB_MAX_PROCS` processes of a group and drops the others without a word, and the array
`done_local` of `jobs_wait_foreground` has `JOB_MAX_PROCS` entries, although its loops run over all
processes. This module says what is right for the groups that fit, and that it is wrong for all
others.
-/

namespace UnixCShell

open Lib

/-- The live processes of a group that `launch_group` admits. -/
structure Group where
  procs    : List (Int × Str)
  nonempty : procs ≠ []
  admitted : procs.length ≤ 128
  distinct : (procs.map Prod.fst).Nodup

def Group.pids (g : Group) : List Int := g.procs.map Prod.fst

/-! ## In the foreground -/

namespace Waiter

/-- The entries of `done_local` that the search for `idx` looks at, from process `i` on. -/
def searchReads (l : Waiter) (pid : Int) : Nat → List Int → List Nat
  | _, [] => []
  | i, p :: pids =>
    if p = pid then
      if l.done[i]? = some false then [i] else i :: searchReads l pid (i + 1) pids
    else searchReads l pid (i + 1) pids

/-- The entries of `done_local` that are read or written for an event. -/
def accesses (l : Waiter) (pids : List Int) (e : WaitEvent) : List Nat :=
  l.searchReads e.1 0 pids ++ if e.2.final then (l.index pids e.1).toList else []

theorem searchReads_lt {l : Waiter} {pid : Int} {pids : List Int} {i k : Nat}
    (h : k ∈ l.searchReads pid i pids) : k < i + pids.length := by
  induction pids generalizing i with
  | nil => cases h
  | cons p pids ih =>
    rw [List.length_cons]
    rw [searchReads] at h
    split at h
    · split at h
      · rw [List.mem_singleton.mp h]
        omega
      · rcases List.mem_cons.mp h with rfl | h
        · omega
        · have := ih h
          omega
    · have := ih h
      omega

/-- The search comes to the first process with the pid. -/
theorem mem_searchReads (l : Waiter) {pid : Int} {before : List Int} (h : pid ∉ before)
    (after : List Int) (i : Nat) :
    i + before.length ∈ l.searchReads pid i (before ++ pid :: after) := by
  induction before generalizing i with
  | nil =>
    rw [List.nil_append, searchReads, if_pos rfl]
    split <;> simp
  | cons p before ih =>
    obtain ⟨hp, hbefore⟩ := not_or.mp (mt List.mem_cons.mpr h)
    rw [List.cons_append, searchReads, if_neg (Ne.symm hp), List.length_cons,
      Nat.add_comm before.length,
      ← Nat.add_assoc]
    exact ih hbefore (i + 1)

theorem accesses_lt {l : Waiter} {pids : List Int} {e : WaitEvent} {k : Nat}
    (h : k ∈ l.accesses pids e) : k < pids.length := by
  rcases List.mem_append.mp h with h | h
  · have := searchReads_lt h
    omega
  · split at h
    · have hidx : l.index pids e.1 = some k := Option.mem_toList.mp h
      exact (List.getElem?_eq_some_iff.mp (index_eq_some hidx).1).1
    · cases h

end Waiter

/-- A call of `jobs_wait_foreground`: its variables, the events it has taken from the queue, and the
entries of `done_local` it has read or written. -/
structure Wait where
  world    : World
  waiter   : Waiter
  taken    : List WaitEvent
  accesses : List Nat

namespace Wait

def start (w : World) (pids : List Int) : Wait := ⟨w, .start pids, [], []⟩

/-- One round of the loop; after its end no event is taken. -/
def step (pids : List Int) (s : Wait) (e : WaitEvent) : Wait :=
  if s.waiter.waiting pids then
    let r := s.world.waitEvent pids s.waiter e
    ⟨r.1, r.2, s.taken ++ [e], s.accesses ++ s.waiter.accesses pids e⟩
  else s

end Wait

/-- `jobs_wait_foreground` stays inside `done_local`, and has counted all processes only after an
exit of each of them. -/
def TracksForeground (pids : List Int) : Prop :=
  ∀ (w : World) (es : List WaitEvent),
    let s := es.foldl (Wait.step pids) (.start w pids)
    (∀ k ∈ s.accesses, k < jobMaxProcs) ∧
      (s.waiter.doneCount = pids.length → ∀ pid ∈ pids, Exited s.taken pid)

/-- What is marked has exited, and what is counted is marked. -/
structure Wait.Inv (pids : List Int) (s : Wait) : Prop where
  length   : s.waiter.done.length = pids.length
  count    : s.waiter.doneCount = s.waiter.done.count true
  exited   : ∀ {k : Nat} {pid : Int}, pids[k]? = some pid → s.waiter.done[k]? = some true →
    Exited s.taken pid
  accesses : ∀ k ∈ s.accesses, k < pids.length

namespace Wait

theorem Inv.start (w : World) (pids : List Int) : (Wait.start w pids).Inv pids := by
  refine ⟨by simp [Wait.start, Waiter.start], ?_, ?_, by simp [Wait.start]⟩
  · simp [Wait.start, Waiter.start, List.count_replicate]
  · intro k pid hk hdone
    simp [Wait.start, Waiter.start, List.getElem?_replicate] at hdone

/-- The variables of the loop stay as they are, or a process that was not marked has exited. -/
theorem waitEvent_waiter (w : World) (pids : List Int) (l : Waiter) (e : WaitEvent) :
    (w.waitEvent pids l e).2.done = l.done ∧ (w.waitEvent pids l e).2.doneCount = l.doneCount ∨
      ∃ k, l.index pids e.1 = some k ∧ e.2.final = true ∧
        (w.waitEvent pids l e).2.done = l.done.set k true ∧
        (w.waitEvent pids l e).2.doneCount = l.doneCount + 1 := by
  obtain ⟨pid, status⟩ := e
  unfold World.waitEvent
  cases hidx : l.index pids pid with
  | none => exact .inl ⟨rfl, rfl⟩
  | some k =>
    cases status with
    | stopped | continued => exact .inl ⟨rfl, rfl⟩
    | exited | signaled => exact .inr ⟨k, rfl, rfl, rfl, rfl⟩

theorem Inv.step {pids : List Int} {s : Wait} (h : s.Inv pids) (e : WaitEvent) :
    (s.step pids e).Inv pids := by
  unfold Wait.step
  split
  swap
  · exact h
  have haccess : ∀ k ∈ s.accesses ++ s.waiter.accesses pids e, k < pids.length := by
    intro k hk
    rcases List.mem_append.mp hk with hk | hk
    · exact h.accesses k hk
    · exact Waiter.accesses_lt hk
  have hexited : ∀ {pid}, Exited s.taken pid → Exited (s.taken ++ [e]) pid :=
    fun hx => exited_concat.mpr (.inl hx)
  rcases waitEvent_waiter s.world pids s.waiter e with ⟨hdone, hcount⟩ |
    ⟨i, hidx, hfinal, hdone, hcount⟩
  · refine ⟨by rw [hdone]; exact h.length, by rw [hdone, hcount]; exact h.count, ?_, haccess⟩
    intro k pid hk htrue
    rw [hdone] at htrue
    exact hexited (h.exited hk htrue)
  · obtain ⟨hi, hfalse⟩ := Waiter.index_eq_some hidx
    obtain ⟨hlt, hval⟩ := List.getElem?_eq_some_iff.mp hfalse
    refine ⟨by rw [hdone, List.length_set]; exact h.length, ?_, ?_, haccess⟩
    · rw [hdone, hcount, h.count, List.count_set hlt, hval]
      simp
    · intro k pid hk htrue
      rw [hdone, List.getElem?_set] at htrue
      by_cases hik : i = k
      · subst hik
        rw [hi] at hk
        cases hk
        exact exited_concat.mpr (.inr ⟨rfl, hfinal⟩)
      · rw [if_neg hik] at htrue
        exact hexited (h.exited hk htrue)

theorem Inv.foldl {pids : List Int} {s : Wait} (h : s.Inv pids) (es : List WaitEvent) :
    (es.foldl (Wait.step pids) s).Inv pids := by
  induction es generalizing s with
  | nil => exact h
  | cons e es ih => exact ih (h.step e)

/-- When all processes are counted, all are marked. -/
theorem Inv.all_exited {pids : List Int} {s : Wait} (h : s.Inv pids)
    (hcount : s.waiter.doneCount = pids.length) : ∀ pid ∈ pids, Exited s.taken pid := by
  intro pid hpid
  obtain ⟨k, hk⟩ := List.mem_iff_getElem?.mp hpid
  have hall : ∀ b ∈ s.waiter.done, true = b := by
    rw [← List.count_eq_length, ← h.count, hcount, h.length]
  have hlt : k < s.waiter.done.length := by
    rw [h.length]
    exact (List.getElem?_eq_some_iff.mp hk).1
  apply h.exited hk
  rw [List.getElem?_eq_getElem hlt, ← hall _ (List.getElem_mem hlt)]

end Wait

/-- The variables of the loop do not depend on the rest of the state. -/
theorem World.waitEvent_snd (w w' : World) (pids : List Int) (l : Waiter) (e : WaitEvent) :
    (w.waitEvent pids l e).2 = (w'.waitEvent pids l e).2 := by
  unfold World.waitEvent
  split
  · split <;> rfl
  · rfl

/-- Whatever `jobs_wait_foreground` returns comes from rounds of this loop. -/
theorem World.waitLoop_rounds {w w' : World} {pids : List Int} {l l' : Waiter}
    (h : w.waitLoop pids l = .ok (w', l')) (s : Wait) (hs : s.waiter = l) :
    ∃ es : List WaitEvent, (es.foldl (Wait.step pids) s).waiter = l' := by
  fun_induction World.waitLoop w pids l generalizing s with
  | case1 w l hwaiting e es hpending r ih =>
    have hround : (s.step pids e).waiter = r.2 := by
      rw [Wait.step, hs, if_pos hwaiting]
      exact World.waitEvent_snd ..
    obtain ⟨es', hes'⟩ := ih h (s.step pids e) hround
    exact ⟨e :: es', hes'⟩
  | case2 => cases h
  | case3 w l hwaiting hpending es rest harrivals ih => exact ih h s hs
  | case4 =>
    cases h
    exact ⟨[], hs⟩

theorem tracksForeground_of_le {pids : List Int} (h : pids.length ≤ jobMaxProcs) :
    TracksForeground pids := by
  intro w es s
  have hs : s.Inv pids := (Wait.Inv.start w pids).foldl es
  exact ⟨fun k hk => Nat.lt_of_lt_of_le (hs.accesses k hk) h, hs.all_exited⟩

/-- An event of the process behind the array is enough. -/
theorem not_tracksForeground {pids : List Int} (hnodup : pids.Nodup)
    (h : jobMaxProcs < pids.length) :
    ¬ TracksForeground pids := by
  intro htracks
  have hsplit : pids = pids.take jobMaxProcs ++ pids[jobMaxProcs] ::
      pids.drop (jobMaxProcs + 1) := by
    rw [← List.drop_eq_getElem_cons h, List.take_append_drop]
  have hnot : pids[jobMaxProcs] ∉ pids.take jobMaxProcs := by
    rw [hsplit, List.nodup_append] at hnodup
    intro hmem
    exact hnodup.2.2 _ hmem _ List.mem_cons_self rfl
  generalize pids[jobMaxProcs] = pid at hsplit hnot
  have hread := Waiter.mem_searchReads (.start pids) hnot (pids.drop (jobMaxProcs + 1)) 0
  rw [← hsplit, List.length_take, Nat.min_eq_left (Nat.le_of_lt h), Nat.zero_add] at hread
  have hwaiting : (Waiter.start pids).waiting pids = true := by
    simp only [Waiter.waiting, Waiter.start, Bool.not_false, Bool.and_true]
    exact decide_eq_true (Nat.zero_lt_of_lt h)
  have hmem : jobMaxProcs ∈ (Wait.step pids (.start .init pids) (pid, .exited 0)).accesses := by
    rw [Wait.step, Wait.start, if_pos hwaiting]
    exact List.mem_append_right _ (List.mem_append_left _ hread)
  exact absurd ((htracks .init [(pid, .exited 0)]).1 _ hmem) (Nat.lt_irrefl _)

/-! ## In the background -/

/-- What happens to the job table while a group runs in the background: an event is taken from the
queue, another group is registered, another job is removed. -/
inductive TableAct where
  | event (e : WaitEvent)
  | register (pgid : Int) (procs : List (Int × Str)) (cmdline : Str) (background : Bool)
      (state : JobState)
  | remove (jobNumber : Nat)

namespace TableAct

/-- The act is not about the group with these processes and this number, unless it is an event. -/
def Foreign (pids : List Int) (jobNumber : Nat) : TableAct → Prop
  | event _ => True
  | register _ procs _ _ _ => ∀ p ∈ procs, p.1 ∉ pids
  | remove number => number ≠ jobNumber

def event? : TableAct → Option WaitEvent
  | event e => some e
  | _ => none

end TableAct

def World.tableAct (w : World) : TableAct → World
  | .event e => w.handleTrackedEvent e
  | .register pgid procs cmdline background state =>
      (w.jobsRegister pgid procs cmdline background state).1
  | .remove jobNumber => w.jobsRemove jobNumber

/-- A job that `jobs_register` has put into the table stays there as long as the exit of one of its
processes has not been taken from the queue. -/
def TracksBackground (procs : List (Int × Str)) : Prop :=
  ∀ (w : World) (slot : Fin jobsMax) (pgid : Int) (cmdline : Str) (acts : List TableAct),
    w.ledger.Numbered → (∀ j ∈ w.jobs, ∀ p ∈ procs, p.1 ∉ j.pids) → w.jobs.firstFree = some slot →
    (∀ a ∈ acts, a.Foreign (procs.map Prod.fst) w.nextJobNumber) →
    (∃ p ∈ procs, ¬ Exited (acts.filterMap TableAct.event?) p.1) →
    ∃ j, (acts.foldl World.tableAct
      (w.jobsRegister pgid procs cmdline true .running).1).jobs.cell slot = some j ∧
        j.jobNumber = w.nextJobNumber

/-- The job in `slot` is the only one with its number and its processes, and what is marked in it
has exited. -/
structure Kept (b : Ledger) (slot : Fin jobsMax) (number : Nat) (pids : List Int)
    (es : List WaitEvent) :
    Prop where
  numbered : b.Numbered
  job      : ∃ j, b.jobs.cell slot = some j ∧ j.jobNumber = number ∧ j.pids = pids ∧
    ∀ p ∈ j.procs, p.done = true → Exited es p.pid
  alone    : ∀ k j, b.jobs.cell k = some j → k ≠ slot → ∀ pid ∈ pids, pid ∉ j.pids

/-- A process that `finish` marks has the pid. -/
theorem Job.finish_done {j : Job} {pid : Int} {p : JobProc} (hp : p ∈ (j.finish pid).procs)
    (hdone : p.done = true) : p.pid = pid ∨ ∃ q ∈ j.procs, q.pid = p.pid ∧ q.done = true := by
  obtain ⟨k, hk⟩ := List.mem_iff_getElem?.mp hp
  obtain ⟨q, hq, rfl | ⟨hpid, rfl⟩⟩ := Job.finish_proc hk
  · exact .inr ⟨p, List.mem_of_getElem? hq, rfl, hdone⟩
  · exact .inl hpid

/-- As long as a process has not exited, something is left of the job. -/
theorem Job.track_kept {j : Job} {es : List WaitEvent} {e : WaitEvent}
    (hdone : ∀ p ∈ j.procs, p.done = true → Exited es p.pid)
    (hopen : ∃ pid ∈ j.pids, ¬ Exited (es ++ [e]) pid) :
    ∃ j', j.track e = some j' ∧ ∀ p ∈ j'.procs, p.done = true → Exited (es ++ [e]) p.pid := by
  have hold : ∀ p ∈ j.procs, p.done = true → Exited (es ++ [e]) p.pid :=
    fun p hp hd => exited_concat.mpr (.inl (hdone p hp hd))
  have hfinish : e.2.final = true → ∀ p ∈ (j.finish e.1).procs, p.done = true →
      Exited (es ++ [e]) p.pid := by
    intro hfinal p hp hd
    rcases Job.finish_done hp hd with heq | ⟨q, hq, heq, hqd⟩
    · exact exited_concat.mpr (.inr ⟨heq.symm, hfinal⟩)
    · rw [← heq]
      exact hold q hq hqd
  have hnot : e.2.final = true → (j.finish e.1).allDone = false := by
    intro hfinal
    obtain ⟨pid, hpid, hx⟩ := hopen
    rw [← j.finish_pids e.1] at hpid
    obtain ⟨p, hp, rfl⟩ := List.mem_map.mp hpid
    rw [← Bool.not_eq_true]
    intro hall
    exact hx (hfinish hfinal p hp (List.all_eq_true.mp hall p hp))
  obtain ⟨pid, status⟩ := e
  cases status with
  | stopped | continued => exact ⟨_, rfl, hold⟩
  | exited | signaled =>
    refine ⟨j.finish pid, ?_, hfinish rfl⟩
    have hnotAll := hnot rfl
    simp only [Job.track, hnotAll, Bool.false_eq_true, if_false]

/-- The job in `slot` is the only one with its number and its processes, and it has the property
`P`. -/
structure Holds (b : Ledger) (slot : Fin jobsMax) (number : Nat) (pids : List Int)
    (P : Job → Prop) :
    Prop where
  numbered : b.Numbered
  job      : ∃ j, b.jobs.cell slot = some j ∧ j.jobNumber = number ∧ j.pids = pids ∧ P j
  alone    : ∀ k j, b.jobs.cell k = some j → k ≠ slot → ∀ pid ∈ pids, pid ∉ j.pids

namespace Holds

variable {b : Ledger} {w : World} {slot : Fin jobsMax} {number : Nat} {pids : List Int}
    {P Q : Job → Prop}

/-- A write to another slot that leaves no job with one of the processes there. -/
theorem setJob (h : Holds b slot number pids P) {k : Fin jobsMax} {j : Option Job} (hne : k ≠ slot)
    (hnumbered : (b.setJob k j).Numbered) (hj : ∀ i ∈ j, ∀ pid ∈ pids, pid ∉ i.pids) :
    Holds (b.setJob k j) slot number pids P := by
  refine ⟨hnumbered, ?_, ?_⟩
  · obtain ⟨i, hi, hjob⟩ := h.job
    exact ⟨i, (Slots.cell_set_of_ne _ _ (Ne.symm hne)).trans hi, hjob⟩
  · intro k' i hi hk'
    rcases Slots.cell_set_eq_some.mp hi with ⟨-, hnew⟩ | ⟨-, hold⟩
    · exact hj i hnew
    · exact h.alone k' i hold hk'

theorem imp (h : Holds b slot number pids P) (himp : ∀ j, j.pids = pids → P j → Q j) :
    Holds b slot number pids Q := by
  obtain ⟨j, hj, hnum, hpids, hP⟩ := h.job
  exact ⟨h.numbered, ⟨j, hj, hnum, hpids, himp j hpids hP⟩, h.alone⟩

/-- An event of another process, or one that leaves something of the job. -/
theorem event (h : Holds w.ledger slot number pids P) (e : WaitEvent)
    (hother : e.1 ∉ pids → ∀ j, j.pids = pids → P j → Q j)
    (hown : e.1 ∈ pids → ∀ j, j.pids = pids → P j → ∃ j', j.track e = some j' ∧ Q j') :
    Holds (w.handleTrackedEvent e).ledger slot number pids Q := by
  rw [World.handleTrackedEvent]
  rw [← w.ledger_outregFinalize e.1] at h
  generalize w.outregFinalize e.1 = w at h
  obtain ⟨j₀, hj₀, hnum, hpids, hP⟩ := h.job
  rcases World.trackJob_ledger_cases h.numbered e with ⟨hsame, hunknown⟩ | ⟨k, j, hj, hmem, hset⟩
  · rw [hsame]
    exact h.imp (hother (hpids ▸ hunknown j₀ ⟨slot, hj₀⟩))
  have hsame : ∀ i ∈ j.track e, i.jobNumber = j.jobNumber ∧ i.pids = j.pids :=
    fun i => Job.track_same
  have hnumbered : (w.ledger.setJob k (j.track e)).Numbered :=
    (Ledger.Updates.setJob hj hsame).numbered h.numbered
  rw [hset]
  by_cases hk : k = slot
  · subst hk
    obtain rfl : j₀ = j := Option.some.inj (hj₀.symm.trans hj)
    obtain ⟨j', hj', hQ⟩ := hown (hpids ▸ hmem) j₀ hpids hP
    rw [hj'] at hnumbered ⊢
    obtain ⟨hnum', hpids'⟩ := hsame j' hj'
    refine ⟨hnumbered, ⟨j', Slots.cell_set_self .., hnum'.trans hnum, hpids'.trans hpids, hQ⟩, ?_⟩
    intro k' i hi hne
    exact h.alone k' i ((Slots.cell_set_of_ne _ _ hne).symm.trans hi) hne
  · have hnot : e.1 ∉ pids := fun hpid => h.alone k j hj hk e.1 hpid hmem
    apply (h.imp (hother hnot)).setJob hk hnumbered
    intro i hi
    rw [(hsame i hi).2]
    exact h.alone k j hj hk

theorem register (h : Holds w.ledger slot number pids P) (pgid : Int) {procs : List (Int × Str)}
    (hforeign : ∀ p ∈ procs, p.1 ∉ pids) (cmdline : Str) (background : Bool) (state : JobState) :
    Holds (w.jobsRegister pgid procs cmdline background state).1.ledger slot number pids P := by
  rcases World.jobsRegister_ledger pgid procs cmdline background state with hsame | ⟨k, hfree, hadd⟩
  · rw [hsame]
    exact h
  rw [hadd]
  obtain ⟨j, hj, hjob⟩ := h.job
  have hne : slot ≠ k := by
    rintro rfl
    cases hj.symm.trans hfree
  refine ⟨h.numbered.addJob k rfl, ⟨j, (Slots.cell_set_of_ne _ _ hne).trans hj, hjob⟩, ?_⟩
  intro k' i hi hk'
  rcases Ledger.cell_addJob hi with ⟨-, rfl⟩ | ⟨-, hold⟩
  · intro pid hpid hmem
    simp only [Job.pids, List.map_map, List.mem_map, Function.comp] at hmem
    obtain ⟨p, hp, rfl⟩ := hmem
    exact hforeign p (List.mem_of_mem_take hp) hpid
  · exact h.alone k' i hold hk'

/-- A group with new processes, behind `jobs_register`. -/
theorem registered {procs : List (Int × Str)} (hnumbered : w.ledger.Numbered)
    (hnew : ∀ j ∈ w.jobs, ∀ p ∈ procs, p.1 ∉ j.pids) (hfree : w.jobs.firstFree = some slot)
    (hle : procs.length ≤ jobMaxProcs) (pgid : Int) (cmdline : Str) (background : Bool)
    (state : JobState) :
    Holds (w.jobsRegister pgid procs cmdline background state).1.ledger slot w.nextJobNumber
      (procs.map Prod.fst)
      (· = ⟨w.nextJobNumber, pgid, procs.map fun p => ⟨p.1, p.2, false⟩, cmdline, state,
        background⟩) := by
  simp only [World.jobsRegister, hfree, List.take_of_length_le hle]
  refine ⟨hnumbered.addJob slot rfl, ⟨_, Slots.cell_set_self .., rfl, ?_, rfl⟩, ?_⟩
  · rw [Job.pids, List.map_map]
    rfl
  · intro k j hj hk pid hpid
    obtain ⟨p, hp, rfl⟩ := List.mem_map.mp hpid
    exact hnew j ⟨k, (Slots.cell_set_of_ne _ _ hk).symm.trans hj⟩ p hp

theorem remove (h : Holds w.ledger slot number pids P) {other : Nat} (hne : other ≠ number) :
    Holds (w.jobsRemove other).ledger slot number pids P := by
  rw [World.jobsRemove]
  cases hfind : w.jobsFindByNumber other with
  | none => exact h
  | some k =>
    obtain ⟨j, hj, hnum⟩ := Slots.findSlot_eq_some hfind
    have hk : k ≠ slot := by
      rintro rfl
      obtain ⟨j₀, hj₀, hnum₀, -⟩ := h.job
      obtain rfl : j₀ = j := Option.some.inj (hj₀.symm.trans hj)
      exact hne ((Int.ofNat.inj (of_decide_eq_true hnum)).symm.trans hnum₀)
    have hnumbered : (w.ledger.setJob k none).Numbered :=
      (Ledger.Updates.setJob hj (by simp)).numbered h.numbered
    exact h.setJob hk hnumbered (by simp)

/-- A property that may speak of the events so far holds through whatever happens, as long as one
exit is missing. -/
theorem foldl {P : List WaitEvent → Job → Prop}
    (hother : ∀ es e, e.1 ∉ pids → ∀ j, j.pids = pids → P es j → P (es ++ [e]) j)
    (hown : ∀ es e, (∃ pid ∈ pids, ¬ Exited (es ++ [e]) pid) → e.1 ∈ pids →
      ∀ j, j.pids = pids → P es j →
      ∃ j', j.track e = some j' ∧ P (es ++ [e]) j')
    {es : List WaitEvent} (h : Holds w.ledger slot number pids (P es)) {acts : List TableAct}
    (hforeign : ∀ a ∈ acts, a.Foreign pids number)
    (hopen : ∃ pid ∈ pids, ¬ Exited (es ++ acts.filterMap TableAct.event?) pid) :
    Holds (acts.foldl World.tableAct w).ledger slot number pids
      (P (es ++ acts.filterMap TableAct.event?)) := by
  induction acts generalizing w es with
  | nil => simpa using h
  | cons a acts ih =>
    obtain ⟨ha, hacts⟩ := List.forall_mem_cons.mp hforeign
    rw [List.foldl_cons]
    cases a with
    | event e =>
      have htaken : es ++ (TableAct.event e :: acts).filterMap TableAct.event? =
          es ++ [e] ++ acts.filterMap TableAct.event? := List.append_cons ..
      rw [htaken] at hopen ⊢
      apply ih ?_ hacts hopen
      have hopen' : ∃ pid ∈ pids, ¬ Exited (es ++ [e]) pid := by
        obtain ⟨pid, hpid, hx⟩ := hopen
        refine ⟨pid, hpid, ?_⟩
        rintro ⟨e', he', hexit⟩
        exact hx ⟨e', List.mem_append_left _ he', hexit⟩
      exact h.event e (hother es e) (hown es e hopen')
    | register pgid procs cmdline background state =>
      rw [List.filterMap_cons_none rfl] at hopen ⊢
      exact ih (h.register pgid ha cmdline background state) hacts hopen
    | remove other =>
      rw [List.filterMap_cons_none rfl] at hopen ⊢
      exact ih (h.remove ha) hacts hopen

end Holds

/-- The job is kept by whatever happens, as long as one exit is missing. -/
theorem Kept.foldl {w : World} {slot : Fin jobsMax} {number : Nat} {pids : List Int}
    {es : List WaitEvent} (h : Kept w.ledger slot number pids es) {acts : List TableAct}
    (hforeign : ∀ a ∈ acts, a.Foreign pids number)
    (hopen : ∃ pid ∈ pids, ¬ Exited (es ++ acts.filterMap TableAct.event?) pid) :
    Kept (acts.foldl World.tableAct w).ledger slot number pids
      (es ++ acts.filterMap TableAct.event?) := by
  let P (es : List WaitEvent) (j : Job) : Prop := ∀ p ∈ j.procs, p.done = true → Exited es p.pid
  have hholds : Holds w.ledger slot number pids (P es) := ⟨h.numbered, h.job, h.alone⟩
  have hend := Holds.foldl (P := P) ?_ ?_ hholds hforeign hopen
  · exact ⟨hend.numbered, hend.job, hend.alone⟩
  · intro es e _ j _ hj p hp hd
    exact exited_concat.mpr (.inl (hj p hp hd))
  · rintro es e hopen - j rfl hj
    exact Job.track_kept hj hopen

theorem tracksBackground_of_le {procs : List (Int × Str)} (hle : procs.length ≤ jobMaxProcs) :
    TracksBackground procs := by
  intro w slot pgid cmdline acts hnumbered hnew hfree hforeign hopen
  have hholds := Holds.registered hnumbered hnew hfree hle pgid cmdline true .running
  have hkept : Kept (w.jobsRegister pgid procs cmdline true .running).1.ledger slot w.nextJobNumber
      (procs.map Prod.fst) [] := by
    obtain ⟨j, hj, hnum, hpids, rfl⟩ := hholds.job
    refine ⟨hholds.numbered, ⟨_, hj, hnum, hpids, ?_⟩, hholds.alone⟩
    intro p hp hdone
    obtain ⟨q, -, rfl⟩ := List.mem_map.mp hp
    cases hdone
  obtain ⟨p, hp, hx⟩ := hopen
  obtain ⟨j, hj, hnum, -⟩ := (hkept.foldl hforeign ⟨p.1, List.mem_map_of_mem hp, hx⟩).job
  exact ⟨j, hj, hnum⟩

/-- A group is tracked in full, in the foreground and in the background, if and only if it has no
more than `JOB_MAX_PROCS` processes. -/
theorem Group.tracked_iff (g : Group) :
    TracksForeground g.pids ∧ TracksBackground g.procs ↔ g.procs.length ≤ jobMaxProcs := by
  have hlength : g.pids.length = g.procs.length := List.length_map ..
  constructor
  · rintro ⟨hforeground, -⟩
    by_contra hgt
    have hnodup : g.pids.Nodup := g.distinct
    exact not_tracksForeground hnodup (by omega) hforeground
  · intro hle
    exact ⟨tracksForeground_of_le (by omega), tracksBackground_of_le hle⟩

/-- Thirty-three processes, as of a pipeline of so many commands. -/
def Group.thirtyThree : Group where
  procs := (List.range 33).map fun i => ((1000 + i : Nat), "cat".toList)
  nonempty := by decide
  admitted := by decide
  distinct := by decide +kernel

/-- In the foreground, the exit of the last process is looked up and marked behind the end of
`done_local`. In the background, the job is gone after thirty-two exits, while the last process has
not exited. -/
theorem Group.thirtyThree_untracked :
    let g := Group.thirtyThree
    let exits := (g.pids.take 32).map fun pid => ((pid, .exited 0) : WaitEvent)
    (Wait.step g.pids (.start .init g.pids) (1032, .exited 0)).accesses = [32, 32] ∧
      jobMaxProcs = 32 ∧
      1032 ∈ g.pids ∧ ¬ Exited exits 1032 ∧
      (World.init.jobsRegister 1000 g.procs [] true .running).2 = 1 ∧
      (exits.foldl World.handleTrackedEvent
        (World.init.jobsRegister 1000 g.procs [] true .running).1).jobsFindByNumber 1 = none := by
  decide +kernel

end UnixCShell
