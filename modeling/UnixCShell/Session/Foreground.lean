import UnixCShell.Jobs.Queue
import UnixCShell.Session.MainLoop

/-!
# Other jobs during a foreground wait

`jobs_wait_foreground` and `jobs_process_pending` are two loops over one queue. The first keeps the
events of the processes it waits for to itself, and treats all others as the second does: what it
leaves in the job table and in the queue of notifications is what `jobs_process_pending` would have
made of the other events (`waitLoop_others`).
-/

namespace UnixCShell

open Lib

/-- The events that are not about a member of `pids` that has not finished; `finished` are the
members that have. -/
def others (pids : List Int) : List Int → List WaitEvent → List WaitEvent
  | _, [] => []
  | finished, e :: es =>
    if e.1 ∈ pids ∧ e.1 ∉ finished then
      others pids (if e.2.final then e.1 :: finished else finished) es
    else e :: others pids finished es

namespace World

/-- The events that the shell will find in its queue: those that are there, and those that the next
signals bring. The handler runs when the queue is empty, so that only the events of one signal
compete for its places. -/
def events (w : World) : List WaitEvent := w.pending ++ w.arrivals.flatMap (·.take pendingMax)

/-! ## The table and the notifications -/

namespace SameBoard

variable {w w' w'' : World}

theorem refl (w : World) : w.SameBoard w := ⟨rfl, rfl, rfl⟩

theorem trans (h : w.SameBoard w') (h' : w'.SameBoard w'') : w.SameBoard w'' :=
  ⟨h'.jobs.trans h.jobs, h'.next.trans h.next, h'.notifs.trans h.notifs⟩

theorem symm (h : w.SameBoard w') : w'.SameBoard w := ⟨h.jobs.symm, h.next.symm, h.notifs.symm⟩

theorem outregFinalize (w : World) (pid : Int) : w.SameBoard (w.outregFinalize pid) := by
  obtain ⟨_, _, h⟩ := w.outregFinalize_frame pid
  rw [h]
  exact ⟨rfl, rfl, rfl⟩

theorem jobsRemove (h : w.SameBoard w') (number : Int) :
    (w.jobsRemove number).SameBoard (w'.jobsRemove number) := by
  unfold World.jobsRemove World.jobsFindByNumber
  rw [h.jobs]
  split
  · exact h
  · exact ⟨rfl, h.next, h.notifs⟩

theorem announce (h : w.SameBoard w') (j : Job) (status : WaitStatus) :
    (w.announce j status).SameBoard (w'.announce j status) := by
  unfold World.announce queueNotification
  rw [h.notifs]
  split
  · split
    · exact ⟨h.jobs, h.next, rfl⟩
    · exact h
  · exact h

theorem finishProc (h : w.SameBoard w') (slot : Fin jobsMax) (j : Job) (e : WaitEvent) :
    (w.finishProc slot j e).SameBoard (w'.finishProc slot j e) := by
  have hset : SameBoard { w with jobs := w.jobs.set slot (some (j.finish e.1)) }
      { w' with jobs := w'.jobs.set slot (some (j.finish e.1)) } :=
        ⟨by rw [h.jobs], h.next, h.notifs⟩
  simp only [World.finishProc]
  split
  · exact (hset.announce _ _).jobsRemove _
  · exact hset

/-- What an event does to the table and the notifications depends on nothing else. -/
theorem trackJob (h : w.SameBoard w') (e : WaitEvent) :
    (w.trackJob e).SameBoard (w'.trackJob e) := by
  unfold World.trackJob World.jobsFindByPid
  rw [h.jobs]
  split
  · exact h
  · split
    · exact h
    · split
      · exact ⟨rfl, h.next, h.notifs⟩
      · exact ⟨rfl, h.next, h.notifs⟩
      · exact h.finishProc ..

theorem handleTrackedEvent (h : w.SameBoard w') (e : WaitEvent) :
    (w.handleTrackedEvent e).SameBoard (w'.handleTrackedEvent e) :=
  trackJob (((outregFinalize w e.1).symm.trans h).trans (outregFinalize w' e.1)) e

theorem foldl (h : w.SameBoard w') (es : List WaitEvent) :
    (es.foldl World.handleTrackedEvent w).SameBoard (es.foldl World.handleTrackedEvent w') := by
  induction es generalizing w w' with
  | nil => exact h
  | cons e es ih => exact ih (h.handleTrackedEvent e)

end SameBoard

/-! ## The queue -/

open EventQueue in
theorem foldl_enqueueList {pending : List WaitEvent} (h : pending.length ≤ pendingMax)
    (es : List WaitEvent) : es.foldl enqueueList pending = (pending ++ es).take pendingMax := by
  induction es generalizing pending with
  | nil =>
    rw [List.append_nil, List.take_of_length_le h]
    rfl
  | cons e es ih =>
    rw [List.foldl_cons, enqueueList]
    split
    · rename_i hlt
      have hroom : (pending ++ [e]).length ≤ pendingMax := by
        rw [List.length_append]
        exact hlt
      rw [ih hroom, List.append_assoc, List.singleton_append]
    · rename_i hge
      have hfull : pending.length = pendingMax := by omega
      rw [ih h, List.take_append_of_le_length hfull.ge, List.take_append_of_le_length hfull.ge]

/-- The next signals come while the queue is empty. -/
theorem events_sigchldHandler {w : World} {es : List WaitEvent} {rest : List (List WaitEvent)}
    (hpending : w.pending = []) (harrivals : w.arrivals = es :: rest) :
    ({ w with arrivals := rest }.sigchldHandler es).events = w.events := by
  have hqueue : ({ w with arrivals := rest }.sigchldHandler es).pending = es.take pendingMax := by
    rw [EventQueue.pending_sigchldHandler]
    simp only [hpending]
    exact foldl_enqueueList (Nat.zero_le _) es
  have hrest : ({ w with arrivals := rest }.sigchldHandler es).arrivals = rest := by
    obtain ⟨_, _, h⟩ := { w with arrivals := rest }.sigchldHandler_frame es
    rw [h]
  rw [events, events, hqueue, hrest, hpending, harrivals, List.flatMap_cons, List.nil_append]

end World

/-! ## The loop -/

/-- The local array says which members have finished. -/
structure Marks (pids : List Int) (l : Waiter) (finished : List Int) : Prop where
  length   : l.done.length = pids.length
  done_iff : ∀ {k : Nat} {pid : Int}, pids[k]? = some pid →
    (l.done[k]? = some true ↔ pid ∈ finished)

namespace Marks

variable {pids : List Int} {l : Waiter} {finished : List Int} {pid : Int}

theorem start (pids : List Int) : Marks pids (.start pids) [] := by
  refine ⟨List.length_replicate, fun {k pid} hk => ?_⟩
  simp [Waiter.start, List.getElem?_replicate]

/-- The search finds the members that have not finished. -/
theorem index_none (h : Marks pids l finished) (hidx : l.index pids pid = none) :
    ¬ (pid ∈ pids ∧ pid ∉ finished) := by
  rintro ⟨hmem, hnot⟩
  obtain ⟨k, hk⟩ := List.mem_iff_getElem?.mp hmem
  have hlt : k < l.done.length := by
    rw [h.length]
    exact (List.getElem?_eq_some_iff.mp hk).1
  have htrue : l.done[k]? ≠ some true := fun hdone => hnot ((h.done_iff hk).mp hdone)
  have hfalse := Waiter.index_eq_none hidx hk
  rw [List.getElem?_eq_getElem hlt] at htrue hfalse
  simp_all

theorem index_some (h : Marks pids l finished) {k : Nat} (hidx : l.index pids pid = some k) :
    pid ∈ pids ∧ pid ∉ finished := by
  obtain ⟨hk, hdone⟩ := Waiter.index_eq_some hidx
  refine ⟨List.mem_of_getElem? hk, fun hmem => ?_⟩
  rw [(h.done_iff hk).mpr hmem] at hdone
  cases hdone

/-- A member finishes. -/
theorem finish (h : Marks pids l finished) (hnodup : pids.Nodup) {k : Nat}
    (hidx : l.index pids pid = some k) :
    Marks pids { l with done := l.done.set k true, doneCount := l.doneCount + 1 }
      (pid :: finished) := by
  obtain ⟨hk, hdone⟩ := Waiter.index_eq_some hidx
  obtain ⟨hlt, -⟩ := List.getElem?_eq_some_iff.mp hdone
  refine ⟨by rw [List.length_set]; exact h.length, fun {i pid'} hi => ?_⟩
  rw [List.getElem?_set, List.mem_cons]
  by_cases hki : k = i
  · subst hki
    rw [hk] at hi
    cases hi
    simp [hlt]
  · have hne : pid' ≠ pid := by
      rintro rfl
      exact hki ((List.getElem?_inj (by rw [← h.length]; exact hlt) hnodup).mp (hk.trans hi.symm))
    rw [if_neg hki, h.done_iff hi]
    simp [hne]

end Marks

namespace World

/-- What a round of the loop does, if the event is about a member that has not finished, and if it
is not. -/
theorem waitEvent_others {w : World} {pids : List Int} {l : Waiter}
    {finished : List Int} {e : WaitEvent} (h : Marks pids l finished) (hnodup : pids.Nodup) :
    (e.1 ∈ pids ∧ e.1 ∉ finished) ∧ w.SameBoard (w.waitEvent pids l e).1 ∧
        Marks pids (w.waitEvent pids l e).2 (if e.2.final then e.1 :: finished else finished) ∧
        (w.waitEvent pids l e).2.stopped = (l.stopped || e.2.isStop) ∨
      ¬ (e.1 ∈ pids ∧ e.1 ∉ finished) ∧ w.waitEvent pids l e = (w.handleTrackedEvent e, l) := by
  cases hidx : l.index pids e.1 with
  | none => exact .inr ⟨h.index_none hidx, by rw [waitEvent, hidx]⟩
  | some k =>
    refine .inl ⟨h.index_some hidx, .waitEvent hidx, ?_⟩
    have hfinish := h.finish hnodup hidx
    obtain ⟨pid, status⟩ := e
    rw [waitEvent, hidx]
    cases status with
    | stopped sig => exact ⟨⟨h.length, h.done_iff⟩, by simp [WaitStatus.isStop]⟩
    | continued => exact ⟨h, by simp [WaitStatus.isStop]⟩
    | exited | signaled => exact ⟨hfinish, by simp [WaitStatus.isStop]⟩

/-- The state in which the loop ends, or waits forever. -/
def afterWait : Except World (World × Waiter) → World
  | .ok r => r.1
  | .error w => w

/-- The last event is a stop of a member. -/
def EndsWithStop (pids : List Int) (es : List WaitEvent) : Prop :=
  ∃ e, es.getLast? = some e ∧ e.2.isStop = true ∧ e.1 ∈ pids

theorem endsWithStop_cons {pids : List Int} {e : WaitEvent} {es : List WaitEvent} (h : es ≠ []) :
    EndsWithStop pids (e :: es) ↔ EndsWithStop pids es := by
  have hlast : (e :: es).getLast? = es.getLast? := by
    rw [List.getLast?_cons, List.getLast?_eq_some_getLast h, Option.getD_some]
  rw [EndsWithStop, EndsWithStop, hlast]

/-- What the loop does from some round on: `es` are the events that it takes. -/
structure Rounds (pids finished : List Int) (w : World) (l : Waiter)
    (r : Except World (World × Waiter)) (es : List WaitEvent) : Prop where
  events  : w.events = es ++ (afterWait r).events
  board   : ((others pids finished es).foldl handleTrackedEvent w).SameBoard (afterWait r)
  ended   : l.waiting pids = false → es = [] ∧ r = .ok (w, l)
  some    : ∀ w' l', r = .ok (w', l') → l.waiting pids = true → es ≠ []
  stopped : ∀ w' l', r = .ok (w', l') → l.stopped = false →
    (l'.stopped = true ↔ EndsWithStop pids es)

theorem waitEvent_events (w : World) (pids : List Int) (l : Waiter) (e : WaitEvent) :
    (w.waitEvent pids l e).1.events = w.events := by
  obtain ⟨_, _, _, _, h⟩ := w.waitEvent_frame pids l e
  rw [h]
  rfl

namespace Rounds

variable {pids finished : List Int} {w : World} {l : Waiter} {r : Except World (World × Waiter)}
  {e : WaitEvent} {es : List WaitEvent}

/-- A round with an event of a member that has not finished. -/
theorem member (hwaiting : l.waiting pids = true) {w' : World} {l' : Waiter}
    (hevents : w.events = e :: w'.events) (hmem : e.1 ∈ pids ∧ e.1 ∉ finished)
    (hboard : w.SameBoard w') (hstop : l'.stopped = (l.stopped || e.2.isStop))
    (h : Rounds pids (if e.2.final then e.1 :: finished else finished) w' l' r es) :
    Rounds pids finished w l r (e :: es) where
  events := by rw [hevents, h.events, List.cons_append]
  board := by
    rw [others, if_pos hmem]
    exact (hboard.foldl _).trans h.board
  ended hover := by
    rw [hwaiting] at hover
    cases hover
  some _ _ _ _ := List.cons_ne_nil _ _
  stopped v m hr hrunning := by
    rw [hrunning, Bool.false_or] at hstop
    cases hs : e.2.isStop with
    | true =>
      -- the loop ends here
      rw [hs] at hstop
      obtain ⟨rfl, hover⟩ := h.ended (by simp [Waiter.waiting, hstop])
      obtain ⟨rfl, rfl⟩ := Prod.mk.inj (Except.ok.inj (hr.symm.trans hover))
      exact iff_of_true hstop ⟨e, rfl, hs, hmem.1⟩
    | false =>
      rw [hs] at hstop
      rw [h.stopped v m hr hstop]
      by_cases hnil : es = []
      · subst hnil
        refine iff_of_false ?_ ?_
        · rintro ⟨_, hlast, -⟩
          cases hlast
        · rintro ⟨e', hlast, hisStop, -⟩
          obtain rfl : e = e' := Option.some.inj hlast
          rw [hs] at hisStop
          cases hisStop
      · rw [endsWithStop_cons hnil]

/-- A round with another event. -/
theorem other (hwaiting : l.waiting pids = true) {w' : World} {l' : Waiter}
    (hevents : w.events = e :: w'.events) (hnot : ¬ (e.1 ∈ pids ∧ e.1 ∉ finished))
    (hboard : (w.handleTrackedEvent e).SameBoard w') (hsame : l' = l)
    (h : Rounds pids finished w' l' r es) :
    Rounds pids finished w l r (e :: es) where
  events := by rw [hevents, h.events, List.cons_append]
  board := by
    rw [others, if_neg hnot, List.foldl_cons]
    exact (hboard.foldl _).trans h.board
  ended hover := by
    rw [hwaiting] at hover
    cases hover
  some _ _ _ _ := List.cons_ne_nil _ _
  stopped v m hr hrunning := by
    subst hsame
    rw [endsWithStop_cons (h.some v m hr hwaiting), h.stopped v m hr hrunning]

end Rounds

theorem waitLoop_rounds_of {w : World} {pids : List Int} {l : Waiter} {finished : List Int}
    (h : Marks pids l finished) (hnodup : pids.Nodup) :
    ∃ es, Rounds pids finished w l (w.waitLoop pids l) es := by
  fun_induction World.waitLoop w pids l generalizing finished with
  | case1 w l hwaiting e es hpending r =>
    rename_i ih
    have hevents : w.events = e :: r.1.events := by
      rw [waitEvent_events, World.events, hpending]
      rfl
    have hsame : w.SameBoard { w with pending := es } := ⟨rfl, rfl, rfl⟩
    rcases waitEvent_others (w := { w with pending := es }) (e := e) h hnodup with
      ⟨hmem, hboard, hmarks, hstop⟩ | ⟨hnot, heq⟩
    · obtain ⟨es', hr⟩ := ih hmarks
      exact ⟨e :: es', hr.member hwaiting hevents hmem (hsame.trans hboard) hstop⟩
    · have hw : r.1 = { w with pending := es }.handleTrackedEvent e := congrArg Prod.fst heq
      have hl : r.2 = l := congrArg Prod.snd heq
      obtain ⟨es', hr⟩ := ih (hl ▸ h)
      refine ⟨e :: es', hr.other hwaiting hevents hnot ?_ hl⟩
      rw [hw]
      exact hsame.handleTrackedEvent e
  | case2 w l hwaiting hpending harrivals =>
    refine ⟨[], rfl, .refl w, ?_, ?_, ?_⟩
    · intro hover
      rw [hwaiting] at hover
      cases hover
    · rintro _ _ ⟨⟩
    · rintro _ _ ⟨⟩
  | case3 w l hwaiting hpending es rest harrivals ih =>
    obtain ⟨es', hr⟩ := ih h
    have hsame : w.SameBoard ({ w with arrivals := rest }.sigchldHandler es) := by
      have harrive : w.SameBoard { w with arrivals := rest } := ⟨rfl, rfl, rfl⟩
      exact harrive.trans (.sigchldHandler _ es)
    refine ⟨es', ?_, (hsame.foldl _).trans hr.board, ?_, hr.some, hr.stopped⟩
    · rw [← events_sigchldHandler hpending harrivals]
      exact hr.events
    · intro hover
      rw [hwaiting] at hover
      cases hover
  | case4 w l hwaiting =>
    have hover : l.waiting pids = false := by simpa using hwaiting
    refine ⟨[], rfl, .refl w, fun _ => ⟨rfl, rfl⟩, ?_, ?_⟩
    · intro _ _ _ hwait
      rw [hover] at hwait
      cases hwait
    · rintro _ _ ⟨⟩ hrunning
      refine iff_of_false ?_ ?_
      · rw [hrunning]
        exact Bool.false_ne_true
      · rintro ⟨_, hlast, -⟩
        cases hlast

end World

/-- **Other jobs during a foreground wait**: `jobs_wait_foreground` takes the events `es` from the
front of what comes in, and leaves the rest in its order; the job table and the notifications become
what `jobs_process_pending` makes of those of the events that are not about a process that is waited
for and has not finished; and if it returns, it says that it was stopped if and only if the last
event is a stop of a process it waits for. -/
theorem waitLoop_others (w : World) {pids : List Int} (hnodup : pids.Nodup) :
    let r := w.waitLoop pids (.start pids)
    ∃ es, w.events = es ++ (World.afterWait r).events ∧
      (World.afterWait r).jobs = { w with pending := others pids [] es }.jobsProcessPending.jobs ∧
      (World.afterWait r).notifs =
        { w with pending := others pids [] es }.jobsProcessPending.notifs ∧
      ∀ w' l', r = .ok (w', l') →
        (l'.stopped = true ↔ ∃ e, es.getLast? = some e ∧ e.2.isStop = true ∧ e.1 ∈ pids) := by
  intro r
  obtain ⟨es, h⟩ := World.waitLoop_rounds_of (w := w) (Marks.start pids) hnodup
  have hboard : ({ w with pending := others pids [] es }.jobsProcessPending).SameBoard
      (World.afterWait r) := by
    have hsame : World.SameBoard { w with pending := [] } w := ⟨rfl, rfl, rfl⟩
    exact (hsame.foldl _).trans h.board
  exact ⟨es, h.events, hboard.jobs, hboard.notifs, fun w' l' hr => h.stopped w' l' hr rfl⟩

/-- An exit of a process that nobody waits for, an exit and a stop of two that are waited for, and
an event that comes too late. -/
def stopComes : World :=
  { World.init with
    pending := [(300, .exited 0), (200, .exited 0), (201, .stopped 20), (300, .continued)] }

theorem waitLoop_others_stopComes : ([200, 201] : List Int).Nodup ∧
    ∃ es, stopComes.events = es ++
      (World.afterWait (stopComes.waitLoop [200, 201] (.start [200, 201]))).events ∧
      (World.afterWait (stopComes.waitLoop [200, 201] (.start [200, 201]))).jobs =
        { stopComes with pending := others [200, 201] [] es }.jobsProcessPending.jobs := by
  have hnodup : ([200, 201] : List Int).Nodup := by decide
  obtain ⟨es, hevents, hjobs, -⟩ := waitLoop_others stopComes hnodup
  exact ⟨hnodup, es, hevents, hjobs⟩

end UnixCShell
