import UnixCShell.Jobs.Basic
import UnixCShell.Lib.Runs
import UnixCShell.Lib.ShiftQueue

/-!
# The queue of wait events

The arrays `pending_pid` and `pending_status` of `jobs.c`, which the `SIGCHLD` handler fills while
the shell may be anywhere, and which `take_pending` shifts down. The steps are the rounds of its
loop; that the handler does not run between them is due to the signal mask, which
`jobs_process_pending` and `jobs_wait_foreground` set before they call it. Next to the queue there
is a record of the events that have been reaped and of those that have been taken.

In the other modules the queue is the list `World.pending`; `handler_refines` and `take_refines` say
that the arrays represent it.
-/

namespace UnixCShell

open Lib

/-- The functions that call `take_pending`. -/
inductive Drain where
  | processPending
  | waitForeground
  deriving DecidableEq, Repr

/-- Where the shell is: in neither of the two functions, in the loop of one of them, in the loop of
`take_pending`, which has read the event `e` and is at the cell `i`, or in `sigsuspend`. -/
inductive Taker where
  | outside
  | head (d : Drain)
  | shifting (d : Drain) (e : WaitEvent) (i : Nat)
  | suspended
  deriving DecidableEq, Repr

/-- `SIGCHLD` is blocked. -/
def Taker.blocked : Taker → Bool
  | .outside | .suspended => false
  | .head _ | .shifting .. => true

structure EventQueue where
  queue  : ShiftQueue WaitEvent
  taker  : Taker
  /-- The events that have been reaped; the flag says that the queue was full. -/
  reaped : List (WaitEvent × Bool)
  taken  : List WaitEvent
  deriving DecidableEq, Repr

/-- The steps. -/
inductive QueueAct where
  /-- The `SIGCHLD` handler runs and reaps these events. -/
  | handler (es : List WaitEvent)
  /-- Another signal ends `sigsuspend`. -/
  | wake
  | enter (d : Drain)
  | next
  /-- `jobs_wait_foreground` returns. -/
  | leave
  deriving DecidableEq, Repr

namespace EventQueue

/-- One round of `jobs_sigchld_handler`. -/
def reap (s : EventQueue) (e : WaitEvent) : EventQueue :=
  { s with
    queue := s.queue.push pendingMax e
    reaped := s.reaped ++ [(e, decide (s.queue.count = pendingMax))] }

/-- The next step of the shell. -/
def next (s : EventQueue) : Option EventQueue :=
  match s.taker with
  | .outside | .suspended => none
  | .head d =>
    if s.queue.count = 0 then
      match d with
      | .processPending => some { s with taker := .outside }
      | .waitForeground => some { s with taker := .suspended }
    else s.queue.cells.head?.map fun e => { s with taker := .shifting d e 1 }
  | .shifting d e i =>
    if i < s.queue.count then some
      { s with queue := s.queue.shift i, taker := .shifting d e (i + 1) }
    else some { s with queue := s.queue.shrink, taker := .head d, taken := s.taken ++ [e] }

def step (s : EventQueue) : QueueAct → Option EventQueue
  | .handler es =>
    if s.taker.blocked then none
    else
      -- `sigsuspend` returns behind the handler
      let taker := if s.taker = .suspended then .head .waitForeground else s.taker
      some { es.foldl reap s with taker := taker }
  | .wake => if s.taker = .suspended then some { s with taker := .head .waitForeground } else none
  | .enter d => if s.taker = .outside then some { s with taker := .head d } else none
  | .next => s.next
  | .leave => if s.taker = .head .waitForeground then some { s with taker := .outside } else none

/-- The queue behind `jobs_init`. -/
def init : EventQueue where
  queue := ⟨List.replicate pendingMax (0, .exited 0), 0⟩
  taker := .outside
  reaped := []
  taken := []

/-- The events that found room in the queue. -/
def kept (s : EventQueue) : List WaitEvent := (s.reaped.filter fun r => !r.2).map Prod.fst

/-! ## Nothing is lost -/

/-- The events that have not been taken: those in the queue, and the one that is being taken. -/
def waiting (s : EventQueue) : List WaitEvent :=
  match s.taker with
  | .shifting _ e i => e :: s.queue.behind i
  | _ => s.queue.contents

structure Inv (s : EventQueue) : Prop where
  valid : s.queue.Valid pendingMax
  /-- The loop of `take_pending` is at a cell of the queue. -/
  cell  : ∀ d e i, s.taker = .shifting d e i → 0 < i ∧ i ≤ s.queue.count
  exact : s.taken ++ s.waiting = s.kept

theorem inv_init : init.Inv where
  valid := ⟨by simp [init], Nat.zero_le _⟩
  cell d e i h := by simp [init] at h
  exact := rfl

theorem taker_foldl_reap (s : EventQueue) (es : List WaitEvent) :
    (es.foldl reap s).taker = s.taker := by
  induction es generalizing s with
  | nil => rfl
  | cons e es ih => exact ih (s.reap e)

theorem waiting_of_not_blocked {s : EventQueue} (h : s.taker.blocked = false) :
    s.waiting = s.queue.contents := by
  unfold waiting
  split
  · rename_i htaker
    rw [htaker] at h
    cases h
  · rfl

theorem Inv.reap {s : EventQueue} (h : s.Inv) (hblocked : s.taker.blocked = false) (e : WaitEvent) :
    (s.reap e).Inv where
  valid := h.valid.push e
  cell d e i htaker := by
    have hs : s.taker = .shifting d e i := htaker
    rw [hs] at hblocked
    cases hblocked
  exact := by
    have hexact := h.exact
    have hlength := h.valid.length_contents
    have hcount := h.valid.count
    have hwaiting : (s.reap e).waiting = (s.queue.push pendingMax e).contents :=
      waiting_of_not_blocked hblocked
    rw [waiting_of_not_blocked hblocked] at hexact
    rw [hwaiting, ShiftQueue.contents_push h.valid, hlength]
    show s.taken ++ _ = _
    by_cases hfull : s.queue.count = pendingMax
    · rw [if_neg (by omega), hexact]
      simp [kept, EventQueue.reap, hfull]
    · rw [if_pos (by omega), ← List.append_assoc, hexact]
      simp [kept, EventQueue.reap, hfull]

theorem Inv.handler {s : EventQueue} (h : s.Inv) (hblocked : s.taker.blocked = false)
    (es : List WaitEvent) :
    (es.foldl EventQueue.reap s).Inv := by
  induction es generalizing s with
  | nil => exact h
  | cons e es ih => exact ih (h.reap hblocked e) hblocked

/-- The shell moves without touching the queue. -/
theorem Inv.move {s : EventQueue} (h : s.Inv)
    (hwaiting : s.waiting = s.queue.contents) {taker : Taker}
    (htaker : ∀ d e i, taker ≠ .shifting d e i) : ({ s with taker := taker } : EventQueue).Inv where
  valid := h.valid
  cell d e i hs := absurd hs (htaker d e i)
  exact := by
    have hsame : ({ s with taker := taker } : EventQueue).waiting = s.queue.contents := by
      unfold waiting
      split
      · rename_i hs
        exact absurd hs (htaker _ _ _)
      · rfl
    rw [hsame, ← hwaiting]
    exact h.exact

theorem Inv.next {s s' : EventQueue} (h : s.Inv) (hnext : s.next = some s') : s'.Inv := by
  unfold EventQueue.next at hnext
  split at hnext
  · cases hnext
  · cases hnext
  · rename_i d htaker
    have hwaiting : s.waiting = s.queue.contents := by simp [waiting, htaker]
    split at hnext
    · cases d with
      | processPending =>
        cases hnext
        exact h.move hwaiting (by simp)
      | waitForeground =>
        cases hnext
        exact h.move hwaiting (by simp)
    · rename_i hcount
      obtain ⟨e, he, rfl⟩ := Option.map_eq_some_iff.mp hnext
      refine ⟨h.valid, ?_, ?_⟩
      · intro d' e' i hs
        cases hs
        exact ⟨Nat.one_pos, Nat.one_le_iff_ne_zero.mpr hcount⟩
      · -- the first event has been read, but is still in its cell
        have hcontents : e :: s.queue.behind 1 = s.queue.contents := by
          rw [ShiftQueue.behind_one]
          apply List.cons_head?_tail
          rw [ShiftQueue.contents, List.head?_take, if_neg hcount]
          exact he
        show s.taken ++ e :: s.queue.behind 1 = s.kept
        rw [hcontents, ← hwaiting]
        exact h.exact
  · rename_i d e i htaker
    obtain ⟨hpos, hle⟩ := h.cell d e i htaker
    have hexact := h.exact
    have hwaiting : s.waiting = e :: s.queue.behind i := by simp [waiting, htaker]
    rw [hwaiting] at hexact
    split at hnext
    · rename_i hlt
      cases hnext
      refine ⟨h.valid.shift i, ?_, ?_⟩
      · intro d' e' i' hs
        cases hs
        rw [ShiftQueue.count_shift]
        exact ⟨Nat.succ_pos i, hlt⟩
      · show s.taken ++ e :: (s.queue.shift i).behind (i + 1) = s.kept
        rw [ShiftQueue.behind_shift h.valid hpos hlt, hexact]
    · rename_i hge
      cases hnext
      obtain rfl : i = s.queue.count := by omega
      refine ⟨h.valid.shrink, fun d' e' i' hs => Taker.noConfusion hs, ?_⟩
      show s.taken ++ [e] ++ s.queue.shrink.contents = s.kept
      rw [ShiftQueue.contents_shrink h.valid, List.append_assoc]
      exact hexact

theorem Inv.step {s s' : EventQueue} (h : s.Inv) {a : QueueAct} (hstep : s.step a = some s') :
    s'.Inv := by
  cases a with
  | handler es =>
    rw [EventQueue.step, Option.ite_none_left_eq_some] at hstep
    obtain ⟨hblocked, hstep⟩ := hstep
    cases hstep
    have hb : s.taker.blocked = false := by simpa using hblocked
    have hb' : (es.foldl EventQueue.reap s).taker.blocked = false := by rwa [taker_foldl_reap]
    refine (h.handler hb es).move (waiting_of_not_blocked hb') ?_
    intro d e i hs
    split at hs
    · cases hs
    · rw [hs] at hb
      cases hb
  | wake =>
    rw [EventQueue.step, Option.ite_none_right_eq_some] at hstep
    obtain ⟨htaker, hstep⟩ := hstep
    cases hstep
    exact h.move (by simp [waiting, htaker]) (by simp)
  | enter d =>
    rw [EventQueue.step, Option.ite_none_right_eq_some] at hstep
    obtain ⟨htaker, hstep⟩ := hstep
    cases hstep
    exact h.move (by simp [waiting, htaker]) (by simp)
  | next => exact h.next hstep
  | leave =>
    rw [EventQueue.step, Option.ite_none_right_eq_some] at hstep
    obtain ⟨htaker, hstep⟩ := hstep
    cases hstep
    exact h.move (by simp [waiting, htaker]) (by simp)

/-- **The queue delivers in order**: whatever the handler and the two loops do, the events that have
been taken, followed by those in the queue, are the events that have been reaped, without those that
were reaped while the queue was full; and the queue never holds more than `PENDING_MAX` events.
While `take_pending` shifts the queue, the event that it has read comes first. -/
theorem events_in_order {acts : List QueueAct} {s : EventQueue}
    (hrun : run EventQueue.step init acts = some s) :
    ((∀ d e i, s.taker ≠ .shifting d e i) → s.taken ++ s.queue.contents = s.kept) ∧
      (∀ d e i, s.taker = .shifting d e i → s.taken ++ e :: s.queue.behind i = s.kept) ∧
      s.queue.count ≤ 256 := by
  have hinv : s.Inv := run_invariant (fun _ _ _ hi hs => hi.step hs) inv_init hrun
  have hexact := hinv.exact
  refine ⟨fun htaker => ?_, fun d e i htaker => ?_, hinv.valid.count⟩
  · unfold waiting at hexact
    split at hexact
    · rename_i hs
      exact absurd hs (htaker _ _ _)
    · exact hexact
  · simpa only [waiting, htaker] using hexact

/-- Two children exit, and `jobs_wait_foreground` takes the first event while a third one exits. -/
def twoExits : EventQueue :=
  (run EventQueue.step init [.handler [(7, .exited 0), (8, .exited 1)],
    .enter .waitForeground, .next, .next,
    .next, .leave, .handler [(9, .signaled 15)]]).get (by decide +kernel)

theorem events_in_order_twoExits :
    twoExits.taken = [(7, .exited 0)] ∧ twoExits.taken ++ twoExits.queue.contents =
      twoExits.kept := by
  have hrun : run EventQueue.step init
    [.handler [(7, .exited 0), (8, .exited 1)], .enter .waitForeground,
      .next, .next, .next, .leave, .handler [(9, .signaled 15)]] = some twoExits :=
        (Option.some_get _).symm
  have htaker : twoExits.taker = .outside := by decide +kernel
  exact ⟨by decide +kernel, (events_in_order hrun).1 (by simp [htaker])⟩

/-! ## The queue as a list -/

/-- `World.enqueue` on the list alone. -/
def enqueueList (pending : List WaitEvent) (e : WaitEvent) : List WaitEvent :=
  if pending.length < pendingMax then pending ++ [e] else pending

theorem contents_handler {s : EventQueue} (h : s.queue.Valid pendingMax) (es : List WaitEvent) :
    (es.foldl EventQueue.reap s).queue.contents = es.foldl enqueueList s.queue.contents := by
  induction es generalizing s with
  | nil => rfl
  | cons e es ih =>
    rw [List.foldl_cons, List.foldl_cons, ih (h.push e)]
    congr 1
    exact ShiftQueue.contents_push h e

theorem pending_sigchldHandler (w : World) (es : List WaitEvent) :
    (w.sigchldHandler es).pending = es.foldl enqueueList w.pending := by
  induction es generalizing w with
  | nil => rfl
  | cons e es ih =>
    rw [World.sigchldHandler, ih, List.foldl_cons]
    congr 1
    have hcollect : (w.collect e).pending = w.pending := by
      unfold World.collect
      split <;> rfl
    unfold World.enqueue enqueueList
    rw [hcollect]
    split
    · rfl
    · exact hcollect

/-- The handler does the same to the arrays and to `World.pending`. -/
theorem handler_refines {s : EventQueue} {w : World} (h : s.queue.Valid pendingMax)
    (hw : s.queue.contents = w.pending) (es : List WaitEvent) :
    (es.foldl EventQueue.reap s).queue.contents = (w.sigchldHandler es).pending := by
  rw [contents_handler h, pending_sigchldHandler, hw]

/-- The loop of `take_pending` from the cell `i` on. -/
theorem run_shift {s : EventQueue} {d : Drain} {e : WaitEvent} {i : Nat}
    (h : s.queue.Valid pendingMax) (htaker : s.taker = .shifting d e i) (hpos : 0 < i)
    (hle : i ≤ s.queue.count) :
    ∃ s', run EventQueue.step s (List.replicate (s.queue.count - i + 1) .next) = some s' ∧
      s'.queue.contents = s.queue.behind i ∧ s'.taker = .head d ∧ s'.taken = s.taken ++ [e] := by
  induction hn : s.queue.count - i generalizing s i with
  | zero =>
    obtain rfl : i = s.queue.count := by omega
    have hnext : s.step .next =
        some { s with queue := s.queue.shrink, taker := .head d, taken := s.taken ++ [e] } := by
      simp [EventQueue.step, EventQueue.next, htaker]
    refine ⟨_, by rw [List.replicate_one, run_step hnext]; rfl, ?_, rfl, rfl⟩
    exact ShiftQueue.contents_shrink h
  | succ n ih =>
    have hlt : i < s.queue.count := by omega
    have hnext : s.step .next =
        some { s with queue := s.queue.shift i, taker := .shifting d e (i + 1) } := by
      simp [EventQueue.step, EventQueue.next, htaker, hlt]
    obtain ⟨s', hrun, hcontents, htaker', htaken⟩ :=
      ih (s := { s with queue := s.queue.shift i, taker := .shifting d e (i + 1) }) (h.shift i) rfl
        (Nat.succ_pos i) (by rw [ShiftQueue.count_shift]; exact hlt)
        (by rw [ShiftQueue.count_shift]; omega)
    refine ⟨s', ?_, ?_, htaker', htaken⟩
    · rw [List.replicate_succ, run_step hnext, hrun]
    · rw [hcontents, ShiftQueue.behind_shift h hpos hlt]

/-- `take_pending` takes the first event of the list. -/
theorem take_refines {s : EventQueue} {d : Drain} {e : WaitEvent} {es : List WaitEvent}
    (h : s.queue.Valid pendingMax) (htaker : s.taker = .head d)
    (hcontents : s.queue.contents = e :: es) :
    ∃ s', run EventQueue.step s (List.replicate (s.queue.count + 1) .next) = some s' ∧
      s'.queue.contents = es ∧ s'.taker = .head d ∧ s'.taken = s.taken ++ [e] := by
  have hcount : s.queue.count ≠ 0 := by
    rw [← h.length_contents, hcontents]
    simp
  have hhead : s.queue.cells.head? = some e := by
    have hfirst : s.queue.contents.head? = some e := by rw [hcontents]; rfl
    rwa [ShiftQueue.contents, List.head?_take, if_neg hcount] at hfirst
  have hnext : s.step .next = some { s with taker := .shifting d e 1 } := by
    simp [EventQueue.step, EventQueue.next, htaker, hcount, hhead]
  obtain ⟨s', hrun, hcontents', htaker', htaken⟩ :=
    run_shift (s := { s with taker := .shifting d e 1 }) h rfl Nat.one_pos
      (Nat.one_le_iff_ne_zero.mpr hcount)
  refine ⟨s', ?_, ?_, htaker', htaken⟩
  · have hlength : s.queue.count + 1 = s.queue.count - 1 + 1 + 1 := by omega
    rw [hlength, List.replicate_succ, run_step hnext, hrun]
  · rw [hcontents', ShiftQueue.behind_one]
    show s.queue.contents.tail = es
    rw [hcontents]
    rfl

end EventQueue

end UnixCShell
