import Mathlib.Algebra.GroupWithZero.Nat
import Mathlib.Data.List.FinRange
import Mathlib.Logic.Function.Basic
import UnixCShell.Lib.Runs

/-!
# The process table of the kernel

`proc.c`, built with `MLFQ`, as a step system. A step (`Op`) is one critical section: what a hart
does to one process between `acquire(&p->lock)` and `release(&p->lock)`. The critical sections
are functions on the process and on the counter behind `mlfq_next_seq`; the loops of `wakeup`,
`kkill` and `mlfq_boost_all` are sequences of steps, one for each process, with steps of other
harts between them. Only `dispatch` is larger: its scan over the table is not interrupted.

`sched` hands the lock over to the scheduler, which clears `c->proc` before it releases it; so
giving up the CPU and changing the state are one step.
-/

namespace UnixCShell.Xv6

/-- `NPROC`. -/
def nproc : Nat := 64

instance : NeZero nproc := ⟨by decide⟩

/-- `MLFQ_LEVELS`. -/
def mlfqLevels : Nat := 4

/-- `mlfq_slice`. -/
def mlfqSlice : Nat → Nat
  | 0 => 1
  | 1 => 4
  | 2 => 8
  | 3 => 16
  | _ => 0

/-- `enum procstate`. -/
inductive ProcState where
  | unused | used | sleeping | runnable | running | zombie
  deriving DecidableEq, Repr

/-- `struct proc`, without memory, files and the saved context. Processes are named by their
index in `proc[]`, channels by their address. -/
structure Proc where
  state         : ProcState := .unused
  chan          : Nat := 0
  killed        : Bool := false
  xstate        : Int := 0
  pid           : Int := 0
  parent        : Option (Fin nproc) := none
  mlfqPriority  : Nat := 0
  mlfqTicksUsed : Nat := 0
  mlfqQtime     : Nat := 0
  deriving DecidableEq, Repr

/-! ## Critical sections -/

/-- `mlfq_enqueue`. The counter `seq` is kept without its wrap-around: the `uint64` of the source is
`seq % 2 ^ 64`. -/
def mlfqEnqueue (p : Proc) (seq : Nat) : Proc × Nat :=
  ({ p with mlfqTicksUsed := 0, mlfqQtime := seq % 2 ^ 64 }, seq + 1)

/-- `mlfq_boost_all`, for one process. -/
def boostProc (p : Proc) (seq : Nat) : Proc × Nat :=
  if p.state ≠ .unused then mlfqEnqueue { p with mlfqPriority := 0 } seq else (p, seq)

/-- `mlfq_tick` up to `release(&p->lock)`. -/
def tickProc (p : Proc) (seq : Nat) : Proc × Nat :=
  let p := { p with mlfqTicksUsed := p.mlfqTicksUsed + 1 }
  if p.mlfqTicksUsed ≥ mlfqSlice p.mlfqPriority then
    let p := if p.mlfqPriority < mlfqLevels - 1
      then { p with mlfqPriority := p.mlfqPriority + 1 } else p
    mlfqEnqueue p seq
  else (p, seq)

/-- `allocproc` from `found:` on. -/
def allocFound (pid : Int) (p : Proc) : Proc :=
  { p with pid := pid, state := .used, mlfqPriority := 0, mlfqTicksUsed := 0, mlfqQtime := 0 }

/-- `freeproc`. -/
def freeproc (p : Proc) : Proc :=
  { p with pid := 0, chan := 0, killed := false, xstate := 0, state := .unused }

/-- The end of `userinit` and of `kfork`. -/
def makeRunnable (p : Proc) (seq : Nat) : Proc × Nat :=
  let (p, seq) := mlfqEnqueue p seq
  ({ p with state := .runnable }, seq)

/-- `wakeup`, for one process. -/
def wakeupProc (chan : Nat) (p : Proc) (seq : Nat) : Proc × Nat :=
  if p.chan = chan then
    let p := { p with chan := 0 }
    if p.state = .sleeping then makeRunnable p seq else (p, seq)
  else (p, seq)

/-- `kkill`, for one process. -/
def killProc (pid : Int) (p : Proc) (seq : Nat) : Proc × Nat :=
  if p.pid = pid then
    let p := { p with killed := true }
    if p.state = .sleeping then makeRunnable p seq else (p, seq)
  else (p, seq)

/-! ## The kernel -/

/-- The process table, `c->proc` for every hart, and the counters. -/
structure Kernel (H : Type) where
  proc           : Fin nproc → Proc
  cpu            : H → Option (Fin nproc)
  initproc       : Option (Fin nproc)
  nextpid        : Int
  mlfqSeqCounter : Nat

namespace Kernel

variable {H : Type}

/-- The state behind `procinit`. -/
def init : Kernel H where
  proc _ := {}
  cpu _ := none
  initproc := none
  nextpid := 1
  mlfqSeqCounter := 1

/-- Change one process. -/
def setProc (k : Kernel H) (i : Fin nproc) (p : Proc) : Kernel H :=
  { k with proc := Function.update k.proc i p }

/-- Run a critical section on the process in slot `i`. -/
def locked (k : Kernel H) (i : Fin nproc) (body : Proc → Nat → Proc × Nat) : Kernel H :=
  let (p, seq) := body (k.proc i) k.mlfqSeqCounter
  { k.setProc i p with mlfqSeqCounter := seq }

/-- Set `c->proc`. -/
def setCpu [DecidableEq H] (k : Kernel H) (h : H) (i : Option (Fin nproc)) : Kernel H :=
  { k with cpu := Function.update k.cpu h i }

/-- One round of the scan in `scheduler`; the variables are `best`, `best_prio` and
`best_qtime`. -/
def scanProc (k : Kernel H) (best : Option (Fin nproc) × Nat × Nat) (i : Fin nproc) :
    Option (Fin nproc) × Nat × Nat :=
  let p := k.proc i
  if p.state = .runnable then
    if best.1 = none ∨ p.mlfqPriority < best.2.1 ∨
        (p.mlfqPriority = best.2.1 ∧ p.mlfqQtime < best.2.2) then
      (some i, p.mlfqPriority, p.mlfqQtime)
    else best
  else best

/-- The scan in `scheduler`: the process that it chooses. -/
def scan (k : Kernel H) : Option (Fin nproc) :=
  ((List.finRange nproc).foldl k.scanProc (none, mlfqLevels, 0)).1

end Kernel

/-- The steps. Those with a hart `h` are taken by the process that runs there. -/
inductive Op (H : Type) where
  | userinit (i : Fin nproc)
  | kforkAlloc (h : H) (i : Fin nproc) (copied : Bool)
  | kforkParent (h : H) (i : Fin nproc)
  | kforkStart (i : Fin nproc)
  | wakeup (i : Fin nproc) (chan : Nat)
  | kkill (i : Fin nproc) (pid : Int)
  | setkilled (i : Fin nproc)
  | sleepPrepare (h : H) (chan : Nat)
  | sleep (h : H)
  | reparent (h : H) (i : Fin nproc)
  | kexit (h : H) (status : Int)
  | kwait (h : H) (i : Fin nproc)
  | boost (i : Fin nproc)
  | tick (h : H)
  | yield (h : H)
  | dispatch (h : H)
  deriving DecidableEq, Repr

namespace Kernel

variable {H : Type} [DecidableEq H]

/-- What a step does; `none` where it is not enabled (or where the source panics). -/
def step (k : Kernel H) : Op H → Option (Kernel H)
  | .userinit i =>
    if (k.proc i).state = .unused then
      some { k.locked i (fun p seq => makeRunnable (allocFound k.nextpid p) seq) with
        initproc := some i, nextpid := k.nextpid + 1 }
    else none
  | .kforkAlloc h i copied =>
    -- a failed allocation or copy frees the slot before the lock is released
    if (k.cpu h).isSome ∧ (k.proc i).state = .unused then
      let np := allocFound k.nextpid (k.proc i)
      some { k.setProc i (if copied then np else freeproc np) with nextpid := k.nextpid + 1 }
    else none
  | .kforkParent h i =>
    if (k.cpu h).isSome ∧ (k.proc i).state = .used then
      some (k.setProc i { k.proc i with parent := k.cpu h })
    else none
  | .kforkStart i =>
    if (k.proc i).state = .used then some (k.locked i makeRunnable) else none
  | .wakeup i chan => some (k.locked i (wakeupProc chan))
  | .kkill i pid => some (k.locked i (killProc pid))
  | .setkilled i => some (k.setProc i { k.proc i with killed := true })
  | .sleepPrepare h chan =>
    (k.cpu h).bind fun i =>
      if chan ≠ 0 then some (k.setProc i { k.proc i with chan := chan }) else none
  | .sleep h =>
    (k.cpu h).bind fun i =>
      if (k.proc i).chan ≠ 0 then
        some ((k.setProc i { k.proc i with state := .sleeping }).setCpu h none)
      else some k
  | .reparent h i =>
    (k.cpu h).bind fun p =>
      if (k.proc i).parent = some p then
        some (k.setProc i { k.proc i with parent := k.initproc })
      else some k
  | .kexit h status =>
    (k.cpu h).bind fun i =>
      if k.initproc ≠ some i then
        some ((k.setProc i { k.proc i with xstate := status, state := .zombie }).setCpu h none)
      else none
  | .kwait h i =>
    (k.cpu h).bind fun p =>
      if (k.proc i).parent = some p ∧ (k.proc i).state = .zombie then
        some (k.setProc i (freeproc { k.proc i with parent := none }))
      else none
  | .boost i => some (k.locked i boostProc)
  | .tick h => (k.cpu h).bind fun i => some (k.locked i tickProc)
  | .yield h =>
    (k.cpu h).bind fun i =>
      some ((k.setProc i { k.proc i with state := .runnable }).setCpu h none)
  | .dispatch h =>
    if k.cpu h = none then
      match k.scan with
      | none => some k
      | some best =>
        -- the candidate is verified again under its own lock
        if (k.proc best).state = .runnable then
          some ((k.setProc best { k.proc best with state := .running }).setCpu h (some best))
        else some k
    else none

/-- `step` as a relation, with one rule for each way through a step. -/
inductive Step (k : Kernel H) : Op H → Kernel H → Prop where
  | userinit (i : Fin nproc) : (k.proc i).state = .unused →
      Step k (.userinit i)
        { k.locked i (fun p seq => makeRunnable (allocFound k.nextpid p) seq) with
        initproc := some i, nextpid := k.nextpid + 1 }
  | kforkAlloc (h : H) (i : Fin nproc) (copied : Bool) : (k.cpu h).isSome →
      (k.proc i).state = .unused →
      Step k (.kforkAlloc h i copied)
        { k.setProc i (if copied then allocFound k.nextpid (k.proc i)
            else freeproc (allocFound k.nextpid (k.proc i))) with nextpid := k.nextpid + 1 }
  | kforkParent (h : H) (i : Fin nproc) : (k.cpu h).isSome → (k.proc i).state = .used →
      Step k (.kforkParent h i) (k.setProc i { k.proc i with parent := k.cpu h })
  | kforkStart (i : Fin nproc) : (k.proc i).state = .used →
      Step k (.kforkStart i) (k.locked i makeRunnable)
  | wakeup (i : Fin nproc) (chan : Nat) : Step k (.wakeup i chan) (k.locked i (wakeupProc chan))
  | kkill (i : Fin nproc) (pid : Int) : Step k (.kkill i pid) (k.locked i (killProc pid))
  | setkilled (i : Fin nproc) : Step k (.setkilled i) (k.setProc i { k.proc i with killed := true })
  | sleepPrepare (h : H) (chan : Nat) (i : Fin nproc) : k.cpu h = some i → chan ≠ 0 →
      Step k (.sleepPrepare h chan) (k.setProc i { k.proc i with chan := chan })
  | sleep (h : H) (i : Fin nproc) : k.cpu h = some i → (k.proc i).chan ≠ 0 →
      Step k (.sleep h) ((k.setProc i { k.proc i with state := .sleeping }).setCpu h none)
  /-- The wakeup came before the sleep. -/
  | sleepWoken (h : H) (i : Fin nproc) : k.cpu h = some i → (k.proc i).chan = 0 →
      Step k (.sleep h) k
  | reparent (h : H) (i p : Fin nproc) : k.cpu h = some p → (k.proc i).parent = some p →
      Step k (.reparent h i) (k.setProc i { k.proc i with parent := k.initproc })
  | reparentOther (h : H) (i p : Fin nproc) : k.cpu h = some p → (k.proc i).parent ≠ some p →
      Step k (.reparent h i) k
  | kexit (h : H) (status : Int) (i : Fin nproc) : k.cpu h = some i → k.initproc ≠ some i →
      Step k (.kexit h status)
        ((k.setProc i { k.proc i with xstate := status, state := .zombie }).setCpu h none)
  | kwait (h : H) (i p : Fin nproc) : k.cpu h = some p → (k.proc i).parent = some p →
      (k.proc i).state = .zombie →
      Step k (.kwait h i) (k.setProc i (freeproc { k.proc i with parent := none }))
  | boost (i : Fin nproc) : Step k (.boost i) (k.locked i boostProc)
  | tick (h : H) (i : Fin nproc) : k.cpu h = some i → Step k (.tick h) (k.locked i tickProc)
  | yield (h : H) (i : Fin nproc) : k.cpu h = some i →
      Step k (.yield h) ((k.setProc i { k.proc i with state := .runnable }).setCpu h none)
  | dispatch (h : H) (best : Fin nproc) : k.cpu h = none → k.scan = some best →
      (k.proc best).state = .runnable →
      Step k (.dispatch h)
        ((k.setProc best { k.proc best with state := .running }).setCpu h (some best))
  | dispatchIdle (h : H) : k.cpu h = none → k.scan = none → Step k (.dispatch h) k
  /-- The candidate fails the second look. -/
  | dispatchLost (h : H) (best : Fin nproc) : k.cpu h = none → k.scan = some best →
      (k.proc best).state ≠ .runnable → Step k (.dispatch h) k

theorem Step.of_step {k k' : Kernel H} {op : Op H} (hstep : k.step op = some k') :
    Step k op k' := by
  cases op with
  | userinit i =>
    simp only [Kernel.step, Option.ite_none_right_eq_some, Option.some.injEq] at hstep
    obtain ⟨hi, rfl⟩ := hstep
    exact .userinit i hi
  | kforkAlloc h i copied =>
    simp only [Kernel.step, Option.ite_none_right_eq_some, Option.some.injEq] at hstep
    obtain ⟨⟨hh, hi⟩, rfl⟩ := hstep
    exact .kforkAlloc h i copied hh hi
  | kforkParent h i =>
    simp only [Kernel.step, Option.ite_none_right_eq_some, Option.some.injEq] at hstep
    obtain ⟨⟨hh, hi⟩, rfl⟩ := hstep
    exact .kforkParent h i hh hi
  | kforkStart i =>
    simp only [Kernel.step, Option.ite_none_right_eq_some, Option.some.injEq] at hstep
    obtain ⟨hi, rfl⟩ := hstep
    exact .kforkStart i hi
  | wakeup i chan =>
    cases hstep
    exact .wakeup i chan
  | kkill i pid =>
    cases hstep
    exact .kkill i pid
  | setkilled i =>
    cases hstep
    exact .setkilled i
  | sleepPrepare h chan =>
    obtain ⟨i, hi, hstep⟩ := Option.bind_eq_some_iff.mp hstep
    simp only [Option.ite_none_right_eq_some, Option.some.injEq] at hstep
    obtain ⟨hchan, rfl⟩ := hstep
    exact .sleepPrepare h chan i hi hchan
  | sleep h =>
    obtain ⟨i, hi, hstep⟩ := Option.bind_eq_some_iff.mp hstep
    split at hstep
    · next hchan =>
      cases hstep
      exact .sleep h i hi hchan
    · next hchan =>
      cases hstep
      exact .sleepWoken h i hi (not_not.mp hchan)
  | reparent h i =>
    obtain ⟨p, hp, hstep⟩ := Option.bind_eq_some_iff.mp hstep
    split at hstep
    · next hparent =>
      cases hstep
      exact .reparent h i p hp hparent
    · next hparent =>
      cases hstep
      exact .reparentOther h i p hp hparent
  | kexit h status =>
    obtain ⟨i, hi, hstep⟩ := Option.bind_eq_some_iff.mp hstep
    simp only [Option.ite_none_right_eq_some, Option.some.injEq] at hstep
    obtain ⟨hinit, rfl⟩ := hstep
    exact .kexit h status i hi hinit
  | kwait h i =>
    obtain ⟨p, hp, hstep⟩ := Option.bind_eq_some_iff.mp hstep
    simp only [Option.ite_none_right_eq_some, Option.some.injEq] at hstep
    obtain ⟨⟨hparent, hi⟩, rfl⟩ := hstep
    exact .kwait h i p hp hparent hi
  | boost i =>
    cases hstep
    exact .boost i
  | tick h =>
    obtain ⟨i, hi, hstep⟩ := Option.bind_eq_some_iff.mp hstep
    cases hstep
    exact .tick h i hi
  | yield h =>
    obtain ⟨i, hi, hstep⟩ := Option.bind_eq_some_iff.mp hstep
    cases hstep
    exact .yield h i hi
  | dispatch h =>
    simp only [Kernel.step, Option.ite_none_right_eq_some] at hstep
    obtain ⟨hh, hstep⟩ := hstep
    split at hstep
    · next hscan =>
      cases hstep
      exact .dispatchIdle h hh hscan
    · next best hscan =>
      split at hstep
      · next hbest =>
        cases hstep
        exact .dispatch h best hh hscan hbest
      · next hbest =>
        cases hstep
        exact .dispatchLost h best hh hscan hbest

end Kernel

end UnixCShell.Xv6
