import UnixCShell.Lib.Locks
import UnixCShell.Xv6.Proc

/-!
# Harts that share the process table

`scheduler` does not hold a lock while it looks for a process: it takes the lock of one process
after the other to read its fields, and what it has chosen may be stale when it takes the lock of
its choice to verify it. Here the steps of a hart are as small as that. A hart has a program
counter, which says where it is in `scheduler`, or in the process that it runs; `yield`, `sleep` and
`kexit` take the lock of the process, change its state, switch to the scheduler, and leave it to the
scheduler to release the lock. All other critical sections are the steps of `Kernel`, for which the
lock has to be free.

What `Kernel.step` does in one step is an uninterrupted pass through these steps (`Xv6.Passes`).
-/

namespace UnixCShell.Xv6

open Lib

/-- Why a process gives up its hart. -/
inductive Leaving where
  | yield
  | sleep
  | kexit (status : Int)
  deriving DecidableEq, Repr

/-- Where a hart is. -/
inductive Pc where
  /-- In the scan of `scheduler`, at the process `i`. -/
  | scan (i : Nat) (best : Option (Fin nproc)) (bestPrio bestQtime : Nat)
  /-- The lock of the chosen process has been acquired. -/
  | verify (best : Fin nproc)
  /-- Behind `best->state = RUNNING`. -/
  | chosen (best : Fin nproc)
  /-- Behind `c->proc = best`; the process is about to release its lock. -/
  | entering (p : Fin nproc)
  /-- A process runs. -/
  | running (p : Fin nproc)
  /-- The process has acquired its own lock. -/
  | leaving (p : Fin nproc) (why : Leaving)
  /-- The process has changed its state and is in `sched`. -/
  | switching (p : Fin nproc)
  /-- Behind `c->proc = 0`; the scheduler is about to release the lock. -/
  | back (p : Fin nproc)
  deriving DecidableEq, Repr

namespace Pc

/-- The beginning of the scan. -/
def start : Pc := .scan 0 none mlfqLevels 0

/-- The process whose lock the hart holds. -/
def holds : Pc → Option (Fin nproc)
  | .scan .. | .running _ => none
  | .verify p | .chosen p | .entering p | .leaving p _ | .switching p | .back p => some p

/-- `c->proc`. -/
def proc : Pc → Option (Fin nproc)
  | .scan .. | .verify _ | .chosen _ | .back _ => none
  | .entering p | .running p | .leaving p _ | .switching p => some p

/-- The process that this hart has made `RUNNING`. -/
def runs : Pc → Option (Fin nproc)
  | .scan .. | .verify _ | .switching _ | .back _ => none
  | .chosen p | .entering p | .running p | .leaving p _ => some p

def isRunning : Pc → Bool
  | .running _ => true
  | _ => false

end Pc

/-- The kernel with its harts and the locks of its processes. -/
structure Machine (H : Type) where
  kernel : Kernel H
  locks  : Locks H (Fin nproc) Pc

namespace Op

variable {H : Type}

/-- The operations that are one critical section. -/
def isSection : Op H → Bool
  | .sleep _ | .kexit .. | .yield _ | .dispatch _ => false
  | _ => true

/-- The process whose lock the critical section takes; `np->parent` is protected by `wait_lock`. -/
def target (k : Kernel H) : Op H → Option (Fin nproc)
  | .userinit i | .kforkAlloc _ i _ | .kforkStart i | .wakeup i _ | .kkill i _ | .setkilled i
  | .kwait _ i | .boost i => some i
  | .sleepPrepare h _ | .tick h => k.cpu h
  | _ => none

/-- The hart whose process takes the step. -/
def actor : Op H → Option H
  | .kforkAlloc h _ _ | .kforkParent h _ | .sleepPrepare h _ | .reparent h _ | .kwait h _
  | .tick h => some h
  | _ => none

end Op

/-- The process of a hart runs, if it gives up the hart in this step. -/
def Kernel.HartsRun {H : Type} (k : Kernel H) (op : Op H) : Prop :=
  op.isSection = false → ∀ h i, k.cpu h = some i → (k.proc i).state = .running

theorem Kernel.HartsRun.of_section {H : Type} {k : Kernel H} {op : Op H}
    (hop : op.isSection = true) :
    k.HartsRun op := by
  intro hnot
  rw [hop] at hnot
  cases hnot

/-- The steps: a critical section, the next step of a hart, or the acquisition of its own lock by a
process that gives up its hart. -/
inductive Move (H : Type) where
  | section (op : Op H)
  | next (h : H)
  | leave (h : H) (why : Leaving)
  deriving DecidableEq, Repr

namespace Machine

variable {H : Type}

/-- All harts are at the beginning of `scheduler`. -/
def init : Machine H where
  kernel := .init
  locks := { pc := fun _ => .start, lock := fun _ => none }

variable [DecidableEq H]

/-- The next step of a hart; `none` where it has to wait for a lock, where it runs a process, and
where the source panics. -/
def next (m : Machine H) (h : H) : Option (Machine H) :=
  let k := m.kernel
  match m.locks.pc h with
  | .scan i best bestPrio bestQtime =>
    if hi : i < nproc then
      if m.locks.lock ⟨i, hi⟩ = none then
        let (best, bestPrio, bestQtime) := k.scanProc (best, bestPrio, bestQtime) ⟨i, hi⟩
        some { m with locks := m.locks.goto h (.scan (i + 1) best bestPrio bestQtime) }
      else none
    else
      match best with
      | none => some { m with locks := m.locks.goto h .start }
      | some best =>
        if m.locks.lock best = none then
          some { m with locks := m.locks.acquire h best (.verify best) }
        else none
  | .verify best =>
    if (k.proc best).state = .runnable then
      some { kernel := k.setProc best { k.proc best with state := .running }
             locks := m.locks.goto h (.chosen best) }
    else some { m with locks := m.locks.release h best .start }
  | .chosen best =>
    some { kernel := k.setCpu h (some best), locks := m.locks.goto h (.entering best) }
  | .entering p => some { m with locks := m.locks.release h p (.running p) }
  | .running _ => none
  | .leaving p .yield =>
    some { kernel := k.setProc p { k.proc p with state := .runnable }
           locks := m.locks.goto h (.switching p) }
  | .leaving p .sleep =>
    if (k.proc p).chan ≠ 0 then
      some { kernel := k.setProc p { k.proc p with state := .sleeping }
             locks := m.locks.goto h (.switching p) }
    else some { m with locks := m.locks.release h p (.running p) }
  | .leaving p (.kexit status) =>
    if k.initproc ≠ some p then
      some { kernel := k.setProc p { k.proc p with xstate := status, state := .zombie }
             locks := m.locks.goto h (.switching p) }
    else none
  | .switching p => some { kernel := k.setCpu h none, locks := m.locks.goto h (.back p) }
  | .back p => some { m with locks := m.locks.release h p .start }

/-- The lock that a critical section needs is free, and its process runs. -/
def Enters (m : Machine H) (op : Op H) : Prop :=
  op.isSection = true ∧ (∀ i ∈ op.target m.kernel, m.locks.lock i = none) ∧
    ∀ h ∈ op.actor, (m.locks.pc h).isRunning = true

instance (m : Machine H) (op : Op H) : Decidable (m.Enters op) :=
  inferInstanceAs (Decidable (_ ∧ _ ∧ _))

/-- What a step does. -/
def step (m : Machine H) : Move H → Option (Machine H)
  | .section op =>
    if m.Enters op then (m.kernel.step op).map fun k => { m with kernel := k } else none
  | .next h => m.next h
  | .leave h why =>
    match m.locks.pc h with
    | .running p =>
      if m.locks.lock p = none then
        some { m with locks := m.locks.acquire h p (.leaving p why) }
      else none
    | _ => none

theorem section_of_step {m m' : Machine H} {op : Op H} (hstep : m.step (.section op) = some m') :
    m.Enters op ∧ ∃ k, m.kernel.step op = some k ∧ { m with kernel := k } = m' := by
  simpa only [Machine.step, Option.ite_none_right_eq_some, Option.map_eq_some_iff] using hstep

/-! ## What a hart does by itself -/

/-- How a process is changed that gives up its hart. -/
inductive Stops (p : Proc) : Proc → Prop where
  | yield : Stops p { p with state := .runnable }
  | sleep : p.chan ≠ 0 → Stops p { p with state := .sleeping }
  | kexit (status : Int) : Stops p { p with xstate := status, state := .zombie }

theorem Stops.not_running {p p' : Proc} (h : Stops p p') : p'.state ≠ .running := by
  cases h <;> simp

/-- A hart moves: it looks on, acquires or releases a lock, starts or stops a process, or sets
`c->proc`. -/
inductive Moves (m : Machine H) (h : H) : Machine H → Prop where
  | goto (old pc : Pc) : m.locks.pc h = old → pc.holds = old.holds → pc.runs = old.runs →
      pc.proc = old.proc → Moves m h { m with locks := m.locks.goto h pc }
  | acquire (old pc : Pc) (p : Fin nproc) : m.locks.pc h = old → m.locks.lock p = none →
      old.holds = none → pc.holds = some p → pc.runs = old.runs → pc.proc = old.proc →
      Moves m h { m with locks := m.locks.acquire h p pc }
  | release (old pc : Pc) (p : Fin nproc) : m.locks.pc h = old → old.holds = some p →
      pc.holds = none → pc.runs = old.runs → pc.proc = old.proc →
      Moves m h { m with locks := m.locks.release h p pc }
  | start (best : Fin nproc) : m.locks.pc h = .verify best →
      (m.kernel.proc best).state = .runnable →
      Moves m h ⟨m.kernel.setProc best { m.kernel.proc best with state := .running },
        m.locks.goto h (.chosen best)⟩
  | stop (p : Fin nproc) (why : Leaving) (p' : Proc) : m.locks.pc h = .leaving p why →
      Stops (m.kernel.proc p) p' →
      Moves m h ⟨m.kernel.setProc p p', m.locks.goto h (.switching p)⟩
  | setCpu (old pc : Pc) : m.locks.pc h = old → pc.holds = old.holds → pc.runs = old.runs →
      Moves m h ⟨m.kernel.setCpu h pc.proc, m.locks.goto h pc⟩

theorem Moves.of_next {m m' : Machine H} {h : H} (hnext : m.next h = some m') : m.Moves h m' := by
  unfold Machine.next at hnext
  generalize hold : m.locks.pc h = old at hnext
  cases old with
  | scan i best bestPrio bestQtime =>
    simp only at hnext
    split at hnext
    · split at hnext
      · cases hnext
        exact .goto _ _ hold rfl rfl rfl
      · cases hnext
    · cases best with
      | none =>
        cases hnext
        exact .goto _ _ hold rfl rfl rfl
      | some best =>
        simp only at hnext
        split at hnext
        · next hfree =>
          cases hnext
          exact .acquire _ _ best hold hfree rfl rfl rfl rfl
        · cases hnext
  | verify best =>
    simp only at hnext
    split at hnext
    · next hstate =>
      cases hnext
      exact .start best hold hstate
    · cases hnext
      exact .release _ _ best hold rfl rfl rfl rfl
  | chosen best =>
    cases hnext
    exact .setCpu _ (.entering best) hold rfl rfl
  | entering p =>
    cases hnext
    exact .release _ _ p hold rfl rfl rfl rfl
  | running p => cases hnext
  | leaving p why =>
    cases why with
    | yield =>
      cases hnext
      exact .stop p .yield _ hold .yield
    | sleep =>
      simp only at hnext
      split at hnext
      · next hchan =>
        cases hnext
        exact .stop p .sleep _ hold (.sleep hchan)
      · cases hnext
        exact .release _ _ p hold rfl rfl rfl rfl
    | kexit status =>
      simp only at hnext
      split at hnext
      · cases hnext
        exact .stop p (.kexit status) _ hold (.kexit status)
      · cases hnext
  | switching p =>
    cases hnext
    exact .setCpu _ (.back p) hold rfl rfl
  | back p =>
    cases hnext
    exact .release _ _ p hold rfl rfl rfl rfl

theorem Moves.of_leave {m m' : Machine H} {h : H} {why : Leaving}
    (hstep : m.step (.leave h why) = some m') : m.Moves h m' := by
  simp only [Machine.step] at hstep
  split at hstep
  · next p hold =>
    rw [Option.ite_none_right_eq_some] at hstep
    obtain ⟨hfree, hstep⟩ := hstep
    cases hstep
    exact .acquire _ _ p hold hfree rfl rfl rfl rfl
  · cases hstep

end Machine

/-! ## What a step does to a process -/

/-- In these states a process has been stamped by `mlfq_enqueue`. -/
def Proc.Stamped (p : Proc) : Prop := p.state = .runnable ∨ p.state = .running ∨ p.state = .sleeping

/-- What a critical section does to the scheduling data of its process and to the counter. -/
inductive Effect (p : Proc) (seq : Nat) (p' : Proc) : Nat → Prop where
  | keep : p'.mlfqPriority = p.mlfqPriority → p'.mlfqTicksUsed = p.mlfqTicksUsed →
      p'.mlfqQtime = p.mlfqQtime → (p'.Stamped → p.Stamped) → Effect p seq p' seq
  /-- A tick that does not use up the slice. -/
  | charge : p'.mlfqPriority = p.mlfqPriority → p'.mlfqTicksUsed = p.mlfqTicksUsed + 1 →
      p.mlfqTicksUsed + 1 < mlfqSlice p.mlfqPriority →
      p'.mlfqQtime = p.mlfqQtime → (p'.Stamped → p.Stamped) → Effect p seq p' seq
  /-- A new process, which has no stamp yet. -/
  | clear : p'.mlfqPriority = 0 → p'.mlfqTicksUsed = 0 → ¬ p'.Stamped → Effect p seq p' seq
  | enqueue : (p.mlfqPriority < mlfqLevels → p'.mlfqPriority < mlfqLevels) → p'.mlfqTicksUsed = 0 →
      p'.mlfqQtime = seq % 2 ^ 64 → Effect p seq p' (seq + 1)

theorem makeRunnable_effect (p : Proc) (seq : Nat) :
    Effect p seq (makeRunnable p seq).1 (makeRunnable p seq).2 := .enqueue id rfl rfl

theorem boostProc_effect (p : Proc) (seq : Nat) :
    Effect p seq (boostProc p seq).1 (boostProc p seq).2 := by
  unfold boostProc
  split
  · exact .enqueue (fun _ => by simp [mlfqEnqueue, mlfqLevels]) rfl rfl
  · exact .keep rfl rfl rfl id

theorem tickProc_effect (p : Proc) (seq : Nat) :
    Effect p seq (tickProc p seq).1 (tickProc p seq).2 := by
  simp only [tickProc]
  split
  · apply Effect.enqueue
    · intro h
      split
      · rename_i hlt
        show p.mlfqPriority + 1 < mlfqLevels
        have : p.mlfqPriority < mlfqLevels - 1 := hlt
        omega
      · exact h
    · rfl
    · rfl
  · rename_i hlt
    exact .charge rfl rfl (by simpa using hlt) rfl id

theorem wakeupProc_effect (chan : Nat) (p : Proc) (seq : Nat) :
    Effect p seq (wakeupProc chan p seq).1 (wakeupProc chan p seq).2 := by
  simp only [wakeupProc]
  split
  · split
    · exact .enqueue id rfl rfl
    · exact .keep rfl rfl rfl id
  · exact .keep rfl rfl rfl id

theorem killProc_effect (pid : Int) (p : Proc) (seq : Nat) :
    Effect p seq (killProc pid p seq).1 (killProc pid p seq).2 := by
  simp only [killProc]
  split
  · split
    · exact .enqueue id rfl rfl
    · exact .keep rfl rfl rfl id
  · exact .keep rfl rfl rfl id

/-! None of these starts or stops a process. -/

theorem boostProc_running (p : Proc) (seq : Nat) :
    (boostProc p seq).1.state = .running ↔ p.state = .running := by
  unfold boostProc
  split <;> rfl

theorem tickProc_running (p : Proc) (seq : Nat) :
    (tickProc p seq).1.state = .running ↔ p.state = .running := by
  simp only [tickProc, mlfqEnqueue]
  split
  · split <;> rfl
  · rfl

theorem wakeupProc_running (chan : Nat) (p : Proc) (seq : Nat) :
    (wakeupProc chan p seq).1.state = .running ↔ p.state = .running := by
  simp only [wakeupProc]
  split
  · split
    · rename_i hsleeping
      simp [makeRunnable, hsleeping]
    · rfl
  · rfl

theorem killProc_running (pid : Int) (p : Proc) (seq : Nat) :
    (killProc pid p seq).1.state = .running ↔ p.state = .running := by
  simp only [killProc]
  split
  · split
    · rename_i hsleeping
      simp [makeRunnable, hsleeping]
    · rfl
  · rfl

/-- A step changes one process, by one of the effects. -/
structure Touches {H : Type} (k k' : Kernel H) (i : Fin nproc) : Prop where
  effect : Effect (k.proc i) k.mlfqSeqCounter (k'.proc i) k'.mlfqSeqCounter
  others : ∀ j, j ≠ i → k'.proc j = k.proc j

/-- A critical section neither starts nor stops a process. -/
structure TouchesOnly {H : Type} (k k' : Kernel H) (i : Fin nproc) :
    Prop extends Touches k k' i where
  running : (k'.proc i).state = .running ↔ (k.proc i).state = .running
  cpu     : k'.cpu = k.cpu

namespace Kernel

variable {H : Type} {k k' : Kernel H} {i : Fin nproc}

theorem touches_setProc {p : Proc} (h : Effect (k.proc i) k.mlfqSeqCounter p k.mlfqSeqCounter) :
    Touches k (k.setProc i p) i where
  effect := by simpa [setProc] using h
  others j hj := by simp [setProc, hj]

theorem touchesOnly_setProc {p : Proc} (h : Effect (k.proc i) k.mlfqSeqCounter p k.mlfqSeqCounter)
    (hrunning : p.state = .running ↔ (k.proc i).state = .running) :
    TouchesOnly k (k.setProc i p) i where
  toTouches := touches_setProc h
  running := by simpa [setProc] using hrunning
  cpu := rfl

theorem touchesOnly_locked {body : Proc → Nat → Proc × Nat}
    (h : Effect (k.proc i) k.mlfqSeqCounter (body (k.proc i) k.mlfqSeqCounter).1
      (body (k.proc i) k.mlfqSeqCounter).2)
    (hrunning : (body (k.proc i) k.mlfqSeqCounter).1.state = .running ↔
      (k.proc i).state = .running) :
    TouchesOnly k (k.locked i body) i where
  effect := by simpa [locked, setProc] using h
  others j hj := by simp [locked, setProc, hj]
  running := by simpa [locked, setProc] using hrunning
  cpu := rfl

theorem touchesOnly_self (k : Kernel H) (i : Fin nproc) : TouchesOnly k k i where
  effect := .keep rfl rfl rfl id
  others _ _ := rfl
  running := Iff.rfl
  cpu := rfl

theorem touches_setCpu [DecidableEq H] (k : Kernel H) (h : H) (c : Option (Fin nproc))
    (i : Fin nproc) :
    Touches k (k.setCpu h c) i where
  effect := .keep rfl rfl rfl id
  others _ _ := rfl

/-- What a critical section can do. -/
theorem step_section [DecidableEq H] {op : Op H} (hop : op.isSection = true)
    (h : k.step op = some k') :
    ∃ i, TouchesOnly k k' i := by
  cases Step.of_step h with
  | userinit i hunused =>
    have hlocked :
        TouchesOnly k (k.locked i fun p seq => makeRunnable (allocFound k.nextpid p) seq) i := by
      apply touchesOnly_locked
      · refine .enqueue (fun _ => ?_) rfl rfl
        simp [makeRunnable, mlfqEnqueue, allocFound, mlfqLevels]
      · simp [makeRunnable, hunused]
    exact ⟨i, { hlocked with }⟩
  | kforkAlloc h' i copied _ hunused =>
    have hset : TouchesOnly k (k.setProc i (if copied then allocFound k.nextpid (k.proc i)
        else freeproc (allocFound k.nextpid (k.proc i)))) i := by
      cases copied with
      | true =>
        apply touchesOnly_setProc
        · exact .clear rfl rfl (by simp [allocFound, Proc.Stamped])
        · simp [allocFound, hunused]
      | false =>
        apply touchesOnly_setProc
        · exact .clear rfl rfl (by simp [freeproc, Proc.Stamped])
        · simp [freeproc, hunused]
    exact ⟨i, { hset with }⟩
  | kforkParent _ i | setkilled i | sleepPrepare _ _ i | reparent _ i =>
    exact ⟨i, touchesOnly_setProc (.keep rfl rfl rfl id) Iff.rfl⟩
  | kforkStart i hused =>
    exact ⟨i, touchesOnly_locked (makeRunnable_effect _ _) (by simp [makeRunnable, hused])⟩
  | wakeup i chan => exact ⟨i, touchesOnly_locked (wakeupProc_effect ..) (wakeupProc_running ..)⟩
  | kkill i pid => exact ⟨i, touchesOnly_locked (killProc_effect ..) (killProc_running ..)⟩
  | reparentOther _ i => exact ⟨i, touchesOnly_self k i⟩
  | kwait _ i _ _ _ hzombie =>
    refine ⟨i, touchesOnly_setProc (.keep rfl rfl rfl ?_) ?_⟩
    · simp [freeproc, Proc.Stamped]
    · simp [freeproc, hzombie]
  | boost i => exact ⟨i, touchesOnly_locked (boostProc_effect ..) (boostProc_running ..)⟩
  | tick _ i => exact ⟨i, touchesOnly_locked (tickProc_effect ..) (tickProc_running ..)⟩
  | sleep | sleepWoken | kexit | yield | dispatch | dispatchIdle | dispatchLost => cases hop

end Kernel

/-! ## No process runs on two harts -/

namespace Machine

variable {H : Type}

/-- The program counters, the locks, `c->proc` and the states agree. -/
structure Inv (m : Machine H) : Prop where
  held    : m.locks.Held Pc.holds
  runs    : Exclusive Pc.runs m.locks.pc
  cpu     : ∀ h, m.kernel.cpu h = (m.locks.pc h).proc
  running : ∀ p, (m.kernel.proc p).state = .running ↔ ∃ h, (m.locks.pc h).runs = some p

theorem inv_init : (init : Machine H).Inv where
  held h p := by simp [init, Pc.start, Pc.holds]
  runs h h' p := by simp [init, Pc.start, Pc.runs]
  cpu h := by simp [init, Kernel.init, Pc.start, Pc.proc]
  running p := by simp [init, Kernel.init, Pc.start, Pc.runs]

/-- A critical section. -/
theorem Inv.touchesOnly {m : Machine H} (hinv : m.Inv) {k : Kernel H} {i : Fin nproc}
    (h : TouchesOnly m.kernel k i) : ({ m with kernel := k } : Machine H).Inv where
  held := hinv.held
  runs := hinv.runs
  cpu h' := by
    show k.cpu h' = _
    rw [h.cpu, hinv.cpu]
  running p := by
    show (k.proc p).state = .running ↔ _
    rw [← hinv.running p]
    by_cases hp : p = i
    · rw [hp]
      exact h.running
    · rw [h.others p hp]

variable [DecidableEq H] {m : Machine H} {h : H} {old pc : Pc}

/-- The hart `h` moves, and no process starts or stops. -/
theorem Inv.moves (hinv : m.Inv) {locks : Locks H (Fin nproc) Pc} (hold : m.locks.pc h = old)
    (hpc : locks.pc = Function.update m.locks.pc h pc) (hheld : locks.Held Pc.holds)
    (hruns : pc.runs = old.runs) : Inv ⟨m.kernel.setCpu h pc.proc, locks⟩ where
  held := hheld
  runs := by
    show Exclusive Pc.runs locks.pc
    rw [hpc]
    exact hinv.runs.update_same (by rw [hruns, hold])
  cpu h' := by
    show Function.update m.kernel.cpu h pc.proc h' = (locks.pc h').proc
    rw [hpc]
    by_cases hh : h' = h
    · rw [hh, Function.update_self, Function.update_self]
    · rw [Function.update_of_ne hh, Function.update_of_ne hh, hinv.cpu]
  running p := by
    show (m.kernel.proc p).state = .running ↔ ∃ h', (locks.pc h').runs = some p
    rw [hinv.running p, hpc, exists_owns_update, hruns, ← hold]
    constructor
    · rintro ⟨h', hh'⟩
      by_cases hh : h' = h
      · exact .inl (hh ▸ hh')
      · exact .inr ⟨h', hh, hh'⟩
    · rintro (hh | ⟨h', -, hh'⟩)
      · exact ⟨h, hh⟩
      · exact ⟨h', hh'⟩

theorem Inv.setCpu_eq (hinv : m.Inv) (hold : m.locks.pc h = old) (hproc : pc.proc = old.proc) :
    m.kernel.setCpu h pc.proc = m.kernel := by
  rw [hproc, ← hold, ← hinv.cpu h, Kernel.setCpu, Function.update_eq_self]

/-! The moves that change nothing in the kernel: -/

theorem Inv.goto (hinv : m.Inv) (hold : m.locks.pc h = old) (hholds : pc.holds = old.holds)
    (hruns : pc.runs = old.runs) (hproc : pc.proc = old.proc) :
    Inv { m with locks := m.locks.goto h pc } := by
  have hmoves := hinv.moves hold rfl (hinv.held.goto (by rw [hholds, hold])) hruns
  rwa [hinv.setCpu_eq hold hproc] at hmoves

theorem Inv.acquire (hinv : m.Inv) (hold : m.locks.pc h = old) {p : Fin nproc}
    (hfree : m.locks.lock p = none) (hnone : old.holds = none) (hholds : pc.holds = some p)
    (hruns : pc.runs = old.runs) (hproc : pc.proc = old.proc) :
    Inv { m with locks := m.locks.acquire h p pc } := by
  have hmoves := hinv.moves hold rfl (hinv.held.acquire hfree (by rw [hold, hnone]) hholds) hruns
  rwa [hinv.setCpu_eq hold hproc] at hmoves

theorem Inv.release (hinv : m.Inv) (hold : m.locks.pc h = old) {p : Fin nproc}
    (hholds : old.holds = some p) (hnone : pc.holds = none)
    (hruns : pc.runs = old.runs) (hproc : pc.proc = old.proc) :
    Inv { m with locks := m.locks.release h p pc } := by
  have hmoves := hinv.moves hold rfl (hinv.held.release (by rw [hold, hholds]) hnone) hruns
  rwa [hinv.setCpu_eq hold hproc] at hmoves

/-- The hart `h` sets `c->proc`. -/
theorem Inv.setCpu (hinv : m.Inv) (hold : m.locks.pc h = old) (pc : Pc)
    (hholds : pc.holds = old.holds) (hruns : pc.runs = old.runs) :
    Inv { kernel := m.kernel.setCpu h pc.proc, locks := m.locks.goto h pc } :=
  hinv.moves hold rfl (hinv.held.goto (by rw [hholds, hold])) hruns

theorem Inv.cpu_goto (hinv : m.Inv) (hold : m.locks.pc h = old)
    (hproc : pc.proc = old.proc) (h' : H) :
    m.kernel.cpu h' = (Function.update m.locks.pc h pc h').proc := by
  rw [hinv.cpu]
  by_cases hh : h' = h
  · rw [hh, Function.update_self, hproc, hold]
  · rw [Function.update_of_ne hh]

/-- The hart `h` starts a process that is `RUNNABLE`. -/
theorem Inv.starts (hinv : m.Inv) {best : Fin nproc} (hverify : m.locks.pc h = .verify best)
    (hstate : (m.kernel.proc best).state = .runnable) :
    Inv ⟨m.kernel.setProc best { m.kernel.proc best with state := .running },
      m.locks.goto h (.chosen best)⟩ where
  held := hinv.held.goto (by rw [hverify]; rfl)
  runs := by
    apply hinv.runs.update
    intro p hp h' _ hruns
    cases hp
    -- nobody else runs it, since it is not running
    have := (hinv.running best).mpr ⟨h', hruns⟩
    rw [hstate] at this
    cases this
  cpu := hinv.cpu_goto hverify rfl
  running p := by
    show (Function.update m.kernel.proc best _ p).state = .running ↔ _
    rw [Locks.pc_goto, exists_owns_update]
    by_cases hp : p = best
    · rw [hp, Function.update_self]
      simp [Pc.runs]
    · rw [Function.update_of_ne hp, hinv.running p]
      constructor
      · rintro ⟨h', hh'⟩
        refine .inr ⟨h', ?_, hh'⟩
        rintro rfl
        rw [hverify] at hh'
        cases hh'
      · rintro (hbest | ⟨h', -, hh'⟩)
        · cases hbest
          exact absurd rfl hp
        · exact ⟨h', hh'⟩

omit [DecidableEq H] in
theorem Inv.running_of_leaving (hinv : m.Inv) {p : Fin nproc} {why : Leaving}
    (hleaving : m.locks.pc h = .leaving p why) : (m.kernel.proc p).state = .running :=
  (hinv.running p).mpr ⟨h, by rw [hleaving]; rfl⟩

/-- The process of the hart `h` changes its state. -/
theorem Inv.stops (hinv : m.Inv) {p : Fin nproc} {why : Leaving}
    (hleaving : m.locks.pc h = .leaving p why) {p' : Proc} (hstate : p'.state ≠ .running) :
    Inv ⟨m.kernel.setProc p p', m.locks.goto h (.switching p)⟩ where
  held := hinv.held.goto (by rw [hleaving]; rfl)
  runs := hinv.runs.update_none rfl
  cpu := hinv.cpu_goto hleaving rfl
  running q := by
    show (Function.update m.kernel.proc p p' q).state = .running ↔ _
    rw [Locks.pc_goto, exists_owns_update]
    have hruns : (m.locks.pc h).runs = some p := by rw [hleaving]; rfl
    by_cases hq : q = p
    · rw [hq, Function.update_self]
      constructor
      · intro hrunning
        exact absurd hrunning hstate
      · rintro (hnone | ⟨h', hne, hh'⟩)
        · cases hnone
        · exact absurd (hinv.runs h' h p hh' hruns) hne
    · rw [Function.update_of_ne hq, hinv.running q]
      constructor
      · rintro ⟨h', hh'⟩
        refine .inr ⟨h', ?_, hh'⟩
        rintro rfl
        rw [hruns] at hh'
        exact hq (Option.some.inj hh').symm
      · rintro (hnone | ⟨h', -, hh'⟩)
        · cases hnone
        · exact ⟨h', hh'⟩

theorem Inv.moved (hinv : m.Inv) {m' : Machine H} (hmoves : m.Moves h m') :
    m'.Inv ∧ ∃ i, Touches m.kernel m'.kernel i := by
  have hsame : ∃ i, Touches m.kernel m.kernel i :=
    ⟨0, (Kernel.touchesOnly_self m.kernel _).toTouches⟩
  cases hmoves with
  | goto old pc hold hholds hruns hproc => exact ⟨hinv.goto hold hholds hruns hproc, hsame⟩
  | acquire old pc p hold hfree hnone hholds hruns hproc =>
    exact ⟨hinv.acquire hold hfree hnone hholds hruns hproc, hsame⟩
  | release old pc p hold hholds hnone hruns hproc =>
    exact ⟨hinv.release hold hholds hnone hruns hproc, hsame⟩
  | start best hverify hstate =>
    refine ⟨hinv.starts hverify hstate, best, ?_⟩
    exact Kernel.touches_setProc (.keep rfl rfl rfl fun _ => .inl hstate)
  | stop p why p' hleaving hstops =>
    -- the process was running, so it had a stamp
    have hstamped : (m.kernel.proc p).Stamped := .inr (.inl (hinv.running_of_leaving hleaving))
    refine ⟨hinv.stops hleaving hstops.not_running, p, ?_⟩
    cases hstops <;> exact Kernel.touches_setProc (.keep rfl rfl rfl fun _ => hstamped)
  | setCpu old pc hold hholds hruns =>
    exact ⟨hinv.setCpu hold pc hholds hruns, 0, Kernel.touches_setCpu ..⟩

/-- What a step can do. -/
theorem Inv.step (hinv : m.Inv) {a : Move H} {m' : Machine H} (hstep : m.step a = some m') :
    m'.Inv ∧ ∃ i, Touches m.kernel m'.kernel i := by
  cases a with
  | «section» op =>
    obtain ⟨⟨hop, -⟩, k, hk, rfl⟩ := section_of_step hstep
    obtain ⟨i, hi⟩ := Kernel.step_section hop hk
    exact ⟨hinv.touchesOnly hi, i, hi.toTouches⟩
  | next h => exact hinv.moved (.of_next hstep)
  | leave h why => exact hinv.moved (.of_leave hstep)

/-- **No process runs on two harts**: while the lock of a process is free, it is `RUNNING` if and
only if it is the process of exactly one hart, and otherwise it is the process of no hart. -/
theorem running_iff_cpu {moves : List (Move H)}
    (hrun : run Machine.step (init : Machine H) moves = some m) (p : Fin nproc)
    (hfree : m.locks.lock p = none) :
    ((m.kernel.proc p).state = .running ↔ ∃! h, m.kernel.cpu h = some p) ∧
      ((m.kernel.proc p).state ≠ .running → ∀ h, m.kernel.cpu h ≠ some p) := by
  have hinv : m.Inv := run_invariant (fun _ _ _ hi hs => (hi.step hs).1) inv_init hrun
  -- a hart that has the process and does not hold its lock runs it
  have hcpu : ∀ h, m.kernel.cpu h = some p ↔ (m.locks.pc h).runs = some p := by
    intro h
    have hheld := hinv.held.ne_of_free (t := h) hfree
    rw [hinv.cpu]
    cases hpc : m.locks.pc h <;> simp_all [Pc.proc, Pc.runs, Pc.holds]
  have hiff : (m.kernel.proc p).state = .running ↔ ∃ h, m.kernel.cpu h = some p := by
    simp only [hcpu, hinv.running p]
  constructor
  · rw [hiff]
    constructor
    · rintro ⟨h, hh⟩
      exact ⟨h, hh, fun h' hh' => hinv.runs h' h p ((hcpu h').mp hh') ((hcpu h).mp hh)⟩
    · exact ExistsUnique.exists
  · intro hstate h hh
    exact hstate (hiff.mpr ⟨h, hh⟩)

def slot0 : Fin nproc := ⟨0, (by decide : 0 < 64)⟩

/-- Two harts choose the first process; one of them finds out when it verifies its choice. -/
def twiceMoves : List (Move Bool) :=
  .section (.userinit slot0) :: List.replicate 64 (.next true) ++ List.replicate 64 (.next false) ++
    List.replicate 4 (.next true) ++ List.replicate 2 (.next false)

def twiceChosen : Machine Bool := (run Machine.step Machine.init twiceMoves).get (by decide +kernel)

theorem running_iff_cpu_twice :
    (twiceChosen.kernel.proc slot0).state = .running ∧
      ∃! h, twiceChosen.kernel.cpu h = some slot0 := by
  have hstate : (twiceChosen.kernel.proc slot0).state = .running := by decide +kernel
  have hrun : run Machine.step Machine.init twiceMoves = some twiceChosen :=
    (Option.some_get _).symm
  exact ⟨hstate, ((running_iff_cpu hrun slot0 (by decide +kernel)).1).mp hstate⟩

end Machine

end UnixCShell.Xv6
