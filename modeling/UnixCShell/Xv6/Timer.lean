import UnixCShell.Xv6.Boost
import UnixCShell.Xv6.Mlfq

/-!
# A timer interrupt

`mlfq_tick` as a hart runs it that nobody disturbs: the boost if it is due, the charge of the
process that runs, the question whether another process has a higher priority, and `yield` with the
pass of `scheduler` behind it. All of it is a run of `Kernel.step` (`run_timerInterrupt`), and the
question whether a boost is due is the one of `Boost` (`run_mlfqMaybeBoost`).

Behind the interrupt no runnable process has a higher priority than the one that runs
(`timerInterrupt_strict`). A boost does not lift everyone, though: the process that runs is charged
its tick behind it, against the slice of one tick of the first queue, and is in the second queue at
once (`mlfqTick_lifted_iff`).
-/

namespace UnixCShell.Xv6

open Lib

variable {H : Type}

namespace Kernel

/-- `mlfq_boost_all`. -/
def mlfqBoostAll (k : Kernel H) : Kernel H :=
  (List.finRange nproc).foldl (fun k i => k.locked i boostProc) k

/-- `mlfq_higher_priority_exists`. -/
def mlfqHigherPriorityExists (k : Kernel H) (prio : Nat) : Bool :=
  (List.finRange nproc).any fun q => (k.proc q).state = .runnable ∧ (k.proc q).mlfqPriority < prio

end Kernel

/-- The kernel with `ticks` and `mlfq_last_boost`. As in `Boost`, `ticks` is kept without its
wrap-around. -/
structure Timer (H : Type) where
  kernel        : Kernel H
  ticks         : Nat
  mlfqLastBoost : Nat

namespace Timer

/-- The value of `ticks` that `mlfq_maybe_boost` reads. -/
def now (s : Timer H) : Nat := s.ticks % 2 ^ 32

/-- `mlfq_maybe_boost` decides to boost. -/
def Due (s : Timer H) : Prop := Boost.usub s.now s.mlfqLastBoost ≥ Boost.boostInterval

instance (s : Timer H) : Decidable s.Due := inferInstanceAs (Decidable (_ ≥ _))

/-- `mlfq_maybe_boost`. -/
def mlfqMaybeBoost (s : Timer H) : Timer H :=
  if s.Due then { s with kernel := s.kernel.mlfqBoostAll, mlfqLastBoost := s.now } else s

/-- The tick uses up the slice of the process. -/
def exhausts (p : Proc) : Bool := p.mlfqTicksUsed + 1 ≥ mlfqSlice p.mlfqPriority

/-- `mlfq_tick` from `need_yield = 0` on, up to its call of `yield`, with `need_yield`. -/
def charge (s : Timer H) (p : Fin nproc) : Timer H × Bool :=
  let k := s.kernel.locked p tickProc
  ({ s with kernel := k },
    exhausts (s.kernel.proc p) || k.mlfqHigherPriorityExists (k.proc p).mlfqPriority)

/-- `mlfq_tick` up to its call of `yield`, with `need_yield`. -/
def mlfqTick (s : Timer H) (p : Fin nproc) : Timer H × Bool := s.mlfqMaybeBoost.charge p

/-- The end of `mlfq_tick`: `yield` if it is needed, with the next pass of `scheduler`. -/
def resched [DecidableEq H] (s : Timer H) (h : H) (needYield : Bool) : Option (Timer H) :=
  if needYield then
    (run Kernel.step s.kernel [.yield h, .dispatch h]).map fun k => { s with kernel := k }
  else some s

/-- A timer interrupt of the hart `h`, in `usertrap` and in `kerneltrap`, up to the moment at which
a process runs again. -/
def timerInterrupt [DecidableEq H] (s : Timer H) (h : H) : Option (Timer H) :=
  (s.kernel.cpu h).bind fun p => (s.mlfqTick p).1.resched h (s.mlfqTick p).2

end Timer

/-! ## The boost -/

namespace Kernel

variable {k : Kernel H} {i j : Fin nproc} {body : Proc → Nat → Proc × Nat}

@[simp] theorem locked_proc_self :
    (k.locked i body).proc i = (body (k.proc i) k.mlfqSeqCounter).1 := Function.update_self ..

@[simp] theorem locked_proc_of_ne (h : j ≠ i) : (k.locked i body).proc j = k.proc j :=
  Function.update_of_ne h ..

@[simp] theorem locked_cpu : (k.locked i body).cpu = k.cpu := rfl

end Kernel

/-- The process is in the first queue, with its whole slice. -/
def Proc.Lifted (p : Proc) : Prop := p.mlfqPriority = 0 ∧ p.mlfqTicksUsed = 0

instance (p : Proc) : Decidable p.Lifted := inferInstanceAs (Decidable (_ ∧ _))

@[simp] theorem boostProc_state (p : Proc) (seq : Nat) : (boostProc p seq).1.state = p.state := by
  unfold boostProc
  split <;> rfl

theorem boostProc_lifted {p : Proc} (hp : p.state ≠ .unused) (seq : Nat) :
    (boostProc p seq).1.Lifted := by
  rw [boostProc, if_pos hp]
  exact ⟨rfl, rfl⟩

@[simp] theorem tickProc_state (p : Proc) (seq : Nat) : (tickProc p seq).1.state = p.state := by
  rw [tickProc_eq]
  split <;> rfl

/-- A process that has just been lifted is in the second queue behind its tick. -/
theorem tickProc_of_lifted {p : Proc} (hp : p.Lifted) (seq : Nat) :
    (tickProc p seq).1.mlfqPriority = 1 ∧ (tickProc p seq).1.mlfqTicksUsed = 0 := by
  rw [tickProc_eq, hp.1, hp.2]
  exact ⟨rfl, rfl⟩

namespace Kernel

variable {k : Kernel H} {i : Fin nproc}

/-- The loop of `mlfq_boost_all` over the processes `xs`. -/
theorem foldl_boost (xs : List (Fin nproc)) (k : Kernel H) :
    let k' := xs.foldl (fun k i => k.locked i boostProc) k
    k'.cpu = k.cpu ∧ ∀ i, (k'.proc i).state = (k.proc i).state ∧
      ((k.proc i).state ≠ .unused → (i ∈ xs ∨ (k.proc i).Lifted) → (k'.proc i).Lifted) := by
  induction xs generalizing k with
  | nil => simp
  | cons x xs ih =>
    obtain ⟨hcpu, hproc⟩ := ih (k.locked x boostProc)
    refine ⟨hcpu, fun i => ?_⟩
    obtain ⟨hstate, hlifted⟩ := hproc i
    by_cases hix : i = x
    · subst hix
      rw [locked_proc_self, boostProc_state] at hstate hlifted
      exact ⟨hstate, fun hused _ => hlifted hused (.inr (boostProc_lifted hused _))⟩
    · rw [locked_proc_of_ne hix] at hstate hlifted
      refine ⟨hstate, fun hused h => hlifted hused ?_⟩
      simpa [hix] using h

theorem mlfqBoostAll_cpu (k : Kernel H) : k.mlfqBoostAll.cpu = k.cpu := by
  rw [mlfqBoostAll]
  exact (foldl_boost _ k).1

theorem mlfqBoostAll_state (k : Kernel H) (i : Fin nproc) :
    (k.mlfqBoostAll.proc i).state = (k.proc i).state := by
  rw [mlfqBoostAll]
  exact ((foldl_boost _ k).2 i).1

theorem mlfqBoostAll_lifted (hi : (k.proc i).state ≠ .unused) : (k.mlfqBoostAll.proc i).Lifted := by
  rw [mlfqBoostAll]
  exact ((foldl_boost _ k).2 i).2 hi (.inl (List.mem_finRange i))

end Kernel

namespace Timer

theorem charge_kernel (s : Timer H) (p : Fin nproc) :
    (s.charge p).1.kernel = s.kernel.locked p tickProc := rfl

theorem mlfqMaybeBoost_kernel (s : Timer H) :
    s.mlfqMaybeBoost.kernel = if s.Due then s.kernel.mlfqBoostAll else s.kernel := by
  by_cases hdue : s.Due
  · simp only [mlfqMaybeBoost, if_pos hdue]
  · simp only [mlfqMaybeBoost, if_neg hdue]

/-- **Whom a boost lifts**: behind a tick of the process `p` in which a boost is due, a process is
in the first queue with its whole slice if and only if it is not `p`. -/
theorem mlfqTick_lifted_iff {s : Timer H} {p : Fin nproc} (hdue : s.Due) {i : Fin nproc}
    (hi : (s.kernel.proc i).state ≠ .unused) :
    ((s.mlfqTick p).1.kernel.proc i).Lifted ↔ i ≠ p := by
  rw [mlfqTick, charge_kernel, mlfqMaybeBoost_kernel, if_pos hdue]
  constructor
  · rintro hlifted rfl
    rw [Kernel.locked_proc_self] at hlifted
    have hsecond := (tickProc_of_lifted (Kernel.mlfqBoostAll_lifted hi)
      s.kernel.mlfqBoostAll.mlfqSeqCounter).1
    rw [hlifted.1] at hsecond
    cases hsecond
  · intro hip
    rw [Kernel.locked_proc_of_ne hip]
    exact Kernel.mlfqBoostAll_lifted hi

/-- A process of the last queue runs, and another one waits. -/
def boostDue : Timer Bool where
  kernel :=
    { proc := fun i =>
        if i.val = 0 then
          { state := .running, mlfqPriority := 3, mlfqTicksUsed := 7, mlfqQtime := 1 }
        else if i.val = 1 then { state := .runnable, mlfqPriority := 3, mlfqQtime := 2 }
        else {}
      cpu := fun h => if h then some 0 else none
      initproc := none
      nextpid := 3
      mlfqSeqCounter := 3 }
  ticks := 48
  mlfqLastBoost := 0

theorem mlfqTick_lifted_boostDue :
    ((boostDue.mlfqTick ⟨0, by decide⟩).1.kernel.proc ⟨1, by decide⟩).Lifted ∧
      ¬ ((boostDue.mlfqTick ⟨0, by decide⟩).1.kernel.proc ⟨0, by decide⟩).Lifted := by
  have hdue : boostDue.Due := by decide
  constructor
  · exact (mlfqTick_lifted_iff hdue (by decide)).mpr (by decide)
  · exact fun h => (mlfqTick_lifted_iff hdue (by decide)).mp h rfl

/-- The process whose tick boosts is in the second queue behind it. -/
theorem mlfqTick_not_lifted : boostDue.Due ∧
    (boostDue.kernel.proc ⟨0, by decide⟩).state = .running ∧
    ((boostDue.mlfqTick ⟨0, by decide⟩).1.kernel.proc ⟨0, by decide⟩).mlfqPriority = 1 := by
  decide +kernel

end Timer

/-! ## Strict priority -/

namespace Kernel

variable {k k' : Kernel H} {h : H} {p : Fin nproc}

/-- No runnable process has a higher priority than `p`. -/
def Strict (k : Kernel H) (p : Fin nproc) : Prop :=
  ∀ i, (k.proc i).state = .runnable → (k.proc p).mlfqPriority ≤ (k.proc i).mlfqPriority

theorem strict_of_not_higher
    (hnone : k.mlfqHigherPriorityExists (k.proc p).mlfqPriority = false) : k.Strict p := by
  intro i hi
  rw [mlfqHigherPriorityExists, List.any_eq_false] at hnone
  have hnot := hnone i (List.mem_finRange i)
  simp only [decide_eq_true_eq, not_and, Nat.not_lt] at hnot
  exact hnot hi

/-- What the scan of `scheduler` finds, if there is something to find. -/
theorem scan_strict (hp : (k.proc p).state = .runnable) :
    ∃ best, k.scan = some best ∧ (k.proc best).state = .runnable ∧ k.Strict best := by
  have hscan := foldl_scanProc (k := k) (none, mlfqLevels, 0) (by simp) (List.finRange nproc)
  rcases minScan_none (fun i => toLex ((k.proc i).mlfqPriority, (k.proc i).mlfqQtime))
    (fun i => (k.proc i).state = .runnable) (List.finRange nproc) with
    ⟨-, hall⟩ | ⟨best, hbest, -, hrunnable, hmin⟩
  · have hnot := hall p (List.mem_finRange p)
    simp [hp] at hnot
  · refine ⟨best, hscan.trans hbest, by simpa using hrunnable, fun i hi => ?_⟩
    have hle := hmin i (List.mem_finRange i) (by simpa using hi)
    rw [Prod.Lex.toLex_le_toLex] at hle
    rcases hle with hlt | ⟨heq, -⟩
    · exact hlt.le
    · exact heq.le

variable [DecidableEq H]

/-- `yield` with the pass of `scheduler` behind it. -/
theorem run_yield_dispatch (hcpu : k.cpu h = some p) :
    ∃ k' best, run step k [.yield h, .dispatch h] = some k' ∧ k'.cpu h = some best ∧
      (k'.proc best).state = .running ∧ k'.Strict best := by
  let k₁ := (k.setProc p { k.proc p with state := .runnable }).setCpu h none
  have hyield : k.step (.yield h) = some k₁ := by
    simp only [step, hcpu, Option.bind_some]
    rfl
  have hidle : k₁.cpu h = none := Function.update_self ..
  have hp : (k₁.proc p).state = .runnable := by simp [k₁, setCpu, setProc]
  obtain ⟨best, hscan, hrunnable, hstrict⟩ := scan_strict hp
  let k₂ := (k₁.setProc best { k₁.proc best with state := .running }).setCpu h (some best)
  have hdispatch : k₁.step (.dispatch h) = some k₂ := by
    simp only [step, hidle, if_true, hscan, hrunnable]
    rfl
  have hbest : k₂.proc best = { k₁.proc best with state := .running } := Function.update_self ..
  refine ⟨k₂, best, ?_, Function.update_self .., by rw [hbest], fun i hi => ?_⟩
  · rw [run_step hyield, run_step hdispatch]
    rfl
  · -- whoever is still runnable was runnable during the scan
    by_cases hib : i = best
    · rw [hib]
    · have hsame : k₂.proc i = k₁.proc i := Function.update_of_ne hib ..
      rw [hsame] at hi ⊢
      rw [hbest]
      exact hstrict i hi

end Kernel

namespace Timer

variable {s : Timer H} {h : H} {p : Fin nproc}

theorem mlfqMaybeBoost_cpu (s : Timer H) : s.mlfqMaybeBoost.kernel.cpu = s.kernel.cpu := by
  rw [mlfqMaybeBoost_kernel]
  split
  · rw [Kernel.mlfqBoostAll_cpu]
  · rfl

theorem mlfqMaybeBoost_state (s : Timer H) (i : Fin nproc) :
    (s.mlfqMaybeBoost.kernel.proc i).state = (s.kernel.proc i).state := by
  rw [mlfqMaybeBoost_kernel]
  split
  · rw [Kernel.mlfqBoostAll_state]
  · rfl

theorem mlfqTick_cpu (s : Timer H) (p : Fin nproc) :
    (s.mlfqTick p).1.kernel.cpu = s.kernel.cpu := by
  rw [mlfqTick, charge_kernel, Kernel.locked_cpu, mlfqMaybeBoost_cpu]

theorem mlfqTick_state (s : Timer H) (p : Fin nproc) :
    ((s.mlfqTick p).1.kernel.proc p).state = (s.kernel.proc p).state := by
  rw [mlfqTick, charge_kernel, Kernel.locked_proc_self, tickProc_state, mlfqMaybeBoost_state]

/-- A process that keeps its hart has been compared with all others. -/
theorem charge_strict (hstay : (s.charge p).2 = false) : (s.charge p).1.kernel.Strict p := by
  have hnone := (Bool.or_eq_false_iff.mp hstay).2
  exact Kernel.strict_of_not_higher hnone

variable [DecidableEq H]

/-- Whoever runs on `h` has the highest priority. -/
def Strict (s : Timer H) (h : H) : Prop :=
  ∃ q, s.kernel.cpu h = some q ∧ (s.kernel.proc q).state = .running ∧ s.kernel.Strict q

theorem resched_strict (hcpu : s.kernel.cpu h = some p) {needYield : Bool}
    (hstay : needYield = false → (s.kernel.proc p).state = .running ∧ s.kernel.Strict p) :
    ∃ s', s.resched h needYield = some s' ∧ s'.Strict h := by
  cases needYield with
  | false => exact ⟨s, rfl, p, hcpu, hstay rfl⟩
  | true =>
    obtain ⟨k, q, hrun, hq⟩ := Kernel.run_yield_dispatch hcpu
    refine ⟨{ s with kernel := k }, ?_, q, hq⟩
    rw [resched, if_pos rfl, hrun, Option.map_some]

/-- **Strict priority**: behind a timer interrupt some process runs on the hart, and no runnable
process has a higher priority. -/
theorem timerInterrupt_strict (hcpu : s.kernel.cpu h = some p)
    (hp : (s.kernel.proc p).state = .running) :
    ∃ s' q, s.timerInterrupt h = some s' ∧ s'.kernel.cpu h = some q ∧
      (s'.kernel.proc q).state = .running ∧
      ∀ i, (s'.kernel.proc i).state = .runnable →
        (s'.kernel.proc q).mlfqPriority ≤ (s'.kernel.proc i).mlfqPriority := by
  have hcpu' : (s.mlfqTick p).1.kernel.cpu h = some p := by rw [mlfqTick_cpu, hcpu]
  have hstay : (s.mlfqTick p).2 = false → ((s.mlfqTick p).1.kernel.proc p).state = .running ∧
      (s.mlfqTick p).1.kernel.Strict p :=
    fun hstay => ⟨(mlfqTick_state s p).trans hp, charge_strict hstay⟩
  obtain ⟨s', hs', q, hq⟩ := resched_strict hcpu' hstay
  refine ⟨s', q, ?_, hq⟩
  rw [timerInterrupt, hcpu, Option.bind_some, hs']

theorem timerInterrupt_strict_boostDue : ∃ s q, boostDue.timerInterrupt true = some s ∧
    s.kernel.cpu true = some q ∧ (s.kernel.proc q).state = .running ∧
    ∀ i, (s.kernel.proc i).state = .runnable →
      (s.kernel.proc q).mlfqPriority ≤ (s.kernel.proc i).mlfqPriority :=
  have hcpu : boostDue.kernel.cpu true = some ⟨0, by decide⟩ := rfl
  timerInterrupt_strict hcpu rfl

/-! ## The interrupt as a run -/

/-- The steps of the interrupt. -/
def interruptOps (s : Timer H) (h : H) (p : Fin nproc) : List (Op H) :=
  (if s.Due then (List.finRange nproc).map .boost else []) ++
    .tick h :: if (s.mlfqTick p).2 then [.yield h, .dispatch h] else []

theorem run_boost (xs : List (Fin nproc)) (k : Kernel H) :
    run Kernel.step k (xs.map .boost) = some (xs.foldl (fun k i => k.locked i boostProc) k) := by
  induction xs generalizing k with
  | nil => rfl
  | cons x xs ih =>
    have hstep : k.step (.boost x) = some (k.locked x boostProc) := rfl
    rw [List.map_cons, run_step hstep, ih, List.foldl_cons]

theorem run_mlfqMaybeBoost (s : Timer H) :
    run Kernel.step s.kernel (if s.Due then (List.finRange nproc).map .boost else []) =
      some s.mlfqMaybeBoost.kernel := by
  rw [mlfqMaybeBoost_kernel]
  by_cases hdue : s.Due
  · rw [if_pos hdue, if_pos hdue, run_boost, Kernel.mlfqBoostAll]
  · rw [if_neg hdue, if_neg hdue, run]

theorem run_resched {s' : Timer H} {needYield : Bool} (hs : s.resched h needYield = some s') :
    run Kernel.step s.kernel (if needYield then [.yield h, .dispatch h] else []) =
      some s'.kernel := by
  cases needYield with
  | false =>
    cases hs
    rfl
  | true =>
    rw [resched, if_pos rfl, Option.map_eq_some_iff] at hs
    obtain ⟨k, hrun, rfl⟩ := hs
    rw [if_pos rfl, hrun]

/-- A timer interrupt is a run of the kernel. -/
theorem run_timerInterrupt {s' : Timer H} (hcpu : s.kernel.cpu h = some p)
    (hs : s.timerInterrupt h = some s') :
    run Kernel.step s.kernel (s.interruptOps h p) = some s'.kernel := by
  have htick : s.mlfqMaybeBoost.kernel.step (.tick h) = some (s.mlfqTick p).1.kernel := by
    rw [mlfqTick, charge_kernel, Kernel.step, mlfqMaybeBoost_cpu, hcpu, Option.bind_some]
  rw [timerInterrupt, hcpu, Option.bind_some] at hs
  rw [interruptOps, run_append, run_mlfqMaybeBoost, Option.bind_some,
    run_step htick, run_resched hs]

/-- The clock of `Boost` in this state, with no hart between its two critical sections. -/
def clock (s : Timer H) (boosts : List Boost.Decision) : Boost.Clock H :=
  ⟨s.ticks, s.mlfqLastBoost, fun _ => none, boosts⟩

/-- `mlfq_maybe_boost` decides as `Boost` does. -/
theorem run_clock (s : Timer H) (h : H) (boosts : List Boost.Decision) :
    run Boost.step (s.clock boosts) [.read h, .decide h] =
      some (s.mlfqMaybeBoost.clock (if s.Due then ⟨s.now, s.ticks⟩ :: boosts else boosts)) := by
  have hnone : Function.update (fun _ : H => (none : Option Nat)) h none = fun _ => none :=
    Function.update_eq_self h _
  have hread : Boost.step (s.clock boosts) (.read h) =
      some { s.clock boosts with now := Function.update (fun _ => none) h (some s.now) } := rfl
  rw [run_step hread]
  simp only [run, Boost.step, Function.update_self, Function.update_idem, hnone]
  by_cases hdue : s.Due
  · have hle : Boost.usub s.now (s.clock boosts).mlfqLastBoost ≥ Boost.boostInterval := hdue
    rw [if_pos hle, if_pos hdue, mlfqMaybeBoost, if_pos hdue]
    rfl
  · have hlt : ¬ Boost.usub s.now (s.clock boosts).mlfqLastBoost ≥ Boost.boostInterval := hdue
    rw [if_neg hlt, if_neg hdue, mlfqMaybeBoost, if_neg hdue]
    rfl

end Timer

end UnixCShell.Xv6
