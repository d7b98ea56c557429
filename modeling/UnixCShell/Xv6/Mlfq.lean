import UnixCShell.Lib.Fifo
import UnixCShell.Xv6.Proc

/-!
# The multi-level feedback queue

The kernel keeps no queues, only a priority and a stamp for every process. What it is meant to be
is a system of four FIFO queues (`Mlfq`), on which the steps of the kernel act by `Mlfq.apply`:
a process that becomes runnable goes to the tail of its queue, one whose slice is exhausted to
the tail of the next, a boosted one to the tail of the first, and a process that sleeps or exits
leaves. Being preempted and being dispatched do nothing to the queues: the running process keeps
its place.

`listing_eq_queue` says that the process table describes these queues, in every run and for every
queue, and that the scan of the scheduler finds the first runnable process of the first queue that
has one. The simulation `Sim` is kept by the rules for stamps in `Lib.Fifo`; `OnCpu` supplies that
whoever takes a tick, sleeps or exits was running.
-/

namespace UnixCShell.Xv6

open Lib

/-! ## The queues -/

/-- Four queues of processes. -/
abbrev Mlfq := Queues (Fin nproc) (Fin mlfqLevels)

/-- The queue of new and of boosted processes. -/
def top : Fin mlfqLevels := ⟨0, by decide⟩

/-- The queue below, or the last one. -/
def below (l : Fin mlfqLevels) : Fin mlfqLevels :=
  ⟨min (l + 1) (mlfqLevels - 1), by unfold mlfqLevels; omega⟩

theorem below_val : ∀ l : Fin mlfqLevels,
    (below l).val = if l.val < mlfqLevels - 1 then l.val + 1 else l.val := by
  decide

/-- What can happen to a process, as far as the queues are concerned. -/
inductive Event where
  | created (i : Fin nproc)
  | madeRunnable (i : Fin nproc)
  | exhausted (i : Fin nproc)
  | boosted (i : Fin nproc)
  | left (i : Fin nproc)
  deriving DecidableEq, Repr

/-- What the queues do. -/
def Mlfq.apply (q : Mlfq) : Event → Mlfq
  | .created i => q.setLevel i top
  | .madeRunnable i => q.join i
  | .exhausted i => q.place i (below (q.level i))
  | .boosted i => q.place i top
  | .left i => q.leave i

namespace Kernel

variable {H : Type}

/-- The events of a step. -/
def events (k : Kernel H) : Op H → List Event
  | .userinit i => [.created i, .madeRunnable i]
  | .kforkAlloc _ i _ => [.created i]
  | .kforkStart i => [.madeRunnable i]
  | .wakeup i chan =>
    if (k.proc i).chan = chan ∧ (k.proc i).state = .sleeping then [.madeRunnable i] else []
  | .kkill i pid =>
    if (k.proc i).pid = pid ∧ (k.proc i).state = .sleeping then [.madeRunnable i] else []
  | .sleep h =>
    match k.cpu h with
    | some i => if (k.proc i).chan ≠ 0 then [.left i] else []
    | none => []
  | .kexit h _ => (k.cpu h).toList.map .left
  | .boost i => if (k.proc i).state ≠ .unused then [.boosted i] else []
  | .tick h =>
    match k.cpu h with
    | some i =>
      if (k.proc i).mlfqTicksUsed + 1 ≥
        mlfqSlice (k.proc i).mlfqPriority then [.exhausted i] else []
    | none => []
  | .kforkParent .. | .setkilled .. | .sleepPrepare .. | .reparent .. | .kwait .. => []
  -- preemption and dispatch leave every process where it is
  | .yield _ | .dispatch _ => []

/-- The queues behind the steps `ops`. -/
def queuesAfter [DecidableEq H] (k : Kernel H) (q : Mlfq) : List (Op H) → Mlfq
  | [] => q
  | op :: ops =>
    match k.step op with
    | some k' => queuesAfter k' ((k.events op).foldl Mlfq.apply q) ops
    | none => q

end Kernel

/-- The processes that a queue holds. -/
def Proc.queued (p : Proc) : Bool := p.state = .runnable ∨ p.state = .running

/-- The processes of priority `l` that are runnable or running, in increasing `mlfq_qtime`. -/
def Kernel.listing {H : Type} (k : Kernel H) (l : Nat) : List (Fin nproc) :=
  ((List.finRange nproc).filter fun i => (k.proc i).queued ∧ (k.proc i).mlfqPriority = l)
    |>.insertionSort fun i j => (k.proc i).mlfqQtime ≤ (k.proc j).mlfqQtime

/-- The first runnable process of the first queue that has one. -/
def Kernel.firstRunnable {H : Type} (k : Kernel H) (q : Mlfq) : Option (Fin nproc) :=
  q.firstEligible (List.finRange mlfqLevels) fun i => (k.proc i).state = .runnable

/-! ## What the critical sections do -/

section Sections

variable (p : Proc) (seq : Nat)

theorem wakeupProc_eq (chan : Nat) : wakeupProc chan p seq =
    if p.chan = chan ∧ p.state = .sleeping then makeRunnable { p with chan := 0 } seq
    else ({ p with chan := if p.chan = chan then 0 else p.chan }, seq) := by
  unfold wakeupProc
  split <;> simp_all

theorem killProc_eq (pid : Int) : killProc pid p seq =
    if p.pid = pid ∧ p.state = .sleeping then makeRunnable { p with killed := true } seq
    else ({ p with killed := p.killed || p.pid = pid }, seq) := by
  unfold killProc
  split <;> simp_all

theorem tickProc_eq : tickProc p seq =
    if p.mlfqTicksUsed + 1 ≥ mlfqSlice p.mlfqPriority then
      ({ p with
          mlfqTicksUsed := 0
          mlfqQtime := seq % 2 ^ 64
          mlfqPriority := if p.mlfqPriority < mlfqLevels - 1 then p.mlfqPriority + 1
            else p.mlfqPriority }, seq + 1)
    else ({ p with mlfqTicksUsed := p.mlfqTicksUsed + 1 }, seq) := by
  unfold tickProc mlfqEnqueue
  by_cases hslice : p.mlfqTicksUsed + 1 ≥ mlfqSlice p.mlfqPriority
  · by_cases hlast : p.mlfqPriority < mlfqLevels - 1 <;> simp [hslice, hlast]
  · simp [hslice]

end Sections

/-! ## Harts -/

/-- The process of a hart is running, and on no other hart. -/
structure OnCpu {H : Type} (k : Kernel H) : Prop where
  running : ∀ h i, k.cpu h = some i → (k.proc i).state = .running
  unique  : ∀ h h' i, k.cpu h = some i → k.cpu h' = some i → h = h'

namespace OnCpu

variable {H : Type} {k : Kernel H} {i : Fin nproc} {p : Proc}

theorem init : OnCpu (Kernel.init : Kernel H) := ⟨by simp [Kernel.init], by simp [Kernel.init]⟩

theorem setProc (hk : OnCpu k) (hp : (k.proc i).state = .running → p.state = .running) :
    OnCpu (k.setProc i p) where
  running h j hj := by
    have := hk.running h j hj
    by_cases hji : j = i
    · subst hji
      simpa [Kernel.setProc] using hp this
    · simpa [Kernel.setProc, hji] using this
  unique := hk.unique

/-- A critical section that takes no process off its hart. -/
theorem locked (hk : OnCpu k) {body : Proc → Nat → Proc × Nat}
    (hbody : (k.proc i).state = .running →
      (body (k.proc i) k.mlfqSeqCounter).1.state = .running) : OnCpu (k.locked i body) :=
  ⟨(hk.setProc hbody).running, hk.unique⟩

variable [DecidableEq H] {h : H}

/-- The process of `h` leaves its hart. -/
theorem release (hk : OnCpu k) (hi : k.cpu h = some i) : OnCpu ((k.setProc i p).setCpu h none) where
  running h' j hj := by
    by_cases hh : h' = h
    · subst hh
      simp [Kernel.setCpu] at hj
    · have hj' : k.cpu h' = some j := by simpa [Kernel.setCpu, Kernel.setProc, hh] using hj
      have hji : j ≠ i := by
        rintro rfl
        exact hh (hk.unique h' h j hj' hi)
      simpa [Kernel.setCpu, Kernel.setProc, hji] using hk.running h' j hj'
  unique h₁ h₂ j hj₁ hj₂ := by
    have hne : ∀ h', ((k.setProc i p).setCpu h none).cpu h' = some j → k.cpu h' = some j := by
      intro h' hj
      by_cases hh : h' = h
      · subst hh
        simp [Kernel.setCpu] at hj
      · simpa [Kernel.setCpu, Kernel.setProc, hh] using hj
    exact hk.unique h₁ h₂ j (hne h₁ hj₁) (hne h₂ hj₂)

/-- `h` takes a runnable process. -/
theorem dispatch (hk : OnCpu k) (hi : (k.proc i).state = .runnable) (hp : p.state = .running) :
    OnCpu ((k.setProc i p).setCpu h (some i)) where
  running h' j hj := by
    by_cases hji : j = i
    · subst hji
      simpa [Kernel.setCpu, Kernel.setProc] using hp
    · have hh : h' ≠ h := by
        rintro rfl
        simp only [Kernel.setCpu, Function.update_self, Option.some.injEq] at hj
        exact hji hj.symm
      have hj' : k.cpu h' = some j := by simpa [Kernel.setCpu, Kernel.setProc, hh] using hj
      simpa [Kernel.setCpu, Kernel.setProc, hji] using hk.running h' j hj'
  unique h₁ h₂ j hj₁ hj₂ := by
    -- no hart had the runnable process
    have hfree : ∀ h', k.cpu h' ≠ some i := by
      intro h' hh'
      have := hk.running h' i hh'
      rw [hi] at this
      cases this
    have hcases : ∀ h', ((k.setProc i p).setCpu h (some i)).cpu h' = some j →
        h' = h ∧ j = i ∨ k.cpu h' = some j ∧ j ≠ i := by
      intro h' hj
      by_cases hh : h' = h
      · subst hh
        simp only [Kernel.setCpu, Function.update_self, Option.some.injEq] at hj
        exact .inl ⟨rfl, hj.symm⟩
      · have hj' : k.cpu h' = some j := by simpa [Kernel.setCpu, Kernel.setProc, hh] using hj
        refine .inr ⟨hj', ?_⟩
        rintro rfl
        exact hfree h' hj'
    rcases hcases h₁ hj₁ with ⟨rfl, rfl⟩ | ⟨h1, hne⟩ <;>
      rcases hcases h₂ hj₂ with ⟨rfl, h2⟩ | ⟨h2, hne'⟩
    · rfl
    · exact absurd rfl hne'
    · exact absurd h2 hne
    · exact hk.unique h₁ h₂ j h1 h2

theorem step {k' : Kernel H} {op : Op H} (hk : OnCpu k) (hstep : k.step op = some k') :
    OnCpu k' := by
  cases Kernel.Step.of_step hstep with
  | userinit i hi =>
    have hlocked : OnCpu (k.locked i fun p seq => makeRunnable (allocFound k.nextpid p) seq) :=
      hk.locked (by simp [hi])
    exact ⟨hlocked.running, hlocked.unique⟩
  | kforkAlloc h i copied hh hi => exact ⟨(hk.setProc (by simp [hi])).running, hk.unique⟩
  | kforkParent | setkilled | sleepPrepare | reparent => exact hk.setProc id
  | kforkStart i hi => exact hk.locked (by simp [hi])
  | wakeup i chan =>
    apply hk.locked
    intro hi
    simp [wakeupProc_eq, hi]
  | kkill i pid =>
    apply hk.locked
    intro hi
    simp [killProc_eq, hi]
  | sleep h i hi => exact hk.release hi
  | kexit h status i hi => exact hk.release hi
  | yield h i hi => exact hk.release hi
  | kwait h i p hp hparent hi => exact hk.setProc (by simp [hi])
  | boost i =>
    apply hk.locked
    intro hi
    simp [boostProc, mlfqEnqueue, hi]
  | tick h i hi =>
    apply hk.locked
    intro hi
    rw [tickProc_eq]
    split <;> exact hi
  | dispatch h best hh hscan hbest => exact hk.dispatch hbest rfl
  | sleepWoken | reparentOther | dispatchIdle | dispatchLost => exact hk

end OnCpu

/-! ## The simulation -/

/-- The process table describes the queues. -/
structure Sim (proc : Fin nproc → Proc) (seq : Nat) (q : Mlfq) : Prop where
  stamped : Stamped (fun i => (proc i).queued = true) (fun i => (proc i).mlfqQtime) seq q
  level   : ∀ i, (q.level i).val = (proc i).mlfqPriority

namespace Sim

variable {proc : Fin nproc → Proc} {seq : Nat} {q : Mlfq} {i : Fin nproc} {p : Proc}

theorem init : Sim (fun _ => {}) 1 (Queues.empty top) where
  stamped := Stamped.empty (by simp [Proc.queued])
  level _ := rfl

/-- A property of every process, behind a change of one. -/
theorem forall_update {P : Fin nproc → Proc → Prop} (hi : P i p)
    (hne : ∀ j, j ≠ i → P j (proc j)) (j : Fin nproc) : P j (Function.update proc i p j) :=
  (Function.forall_update_iff proc P).mpr ⟨hi, hne⟩ j

/-- A change that concerns neither the place nor the level of a process. -/
theorem quiet (h : Sim proc seq q) (hqueued : p.queued = (proc i).queued)
    (hprio : p.mlfqPriority = (proc i).mlfqPriority) (hqtime : p.mlfqQtime = (proc i).mlfqQtime) :
    Sim (Function.update proc i p) seq q where
  stamped := by
    refine h.stamped.congr ?_ (fun j _ => ?_) le_rfl
    · exact forall_update (P := fun j x => x.queued = true ↔ (proc j).queued = true)
        (by rw [hqueued]) (fun _ _ => Iff.rfl)
    · exact forall_update (P := fun j x => x.mlfqQtime = (proc j).mlfqQtime) hqtime
        (fun _ _ => rfl) j
  level := forall_update (P := fun j x => (q.level j).val = x.mlfqPriority)
    (by rw [hprio, h.level]) (fun j _ => h.level j)

/-- A process outside the queues changes its level. -/
theorem created (h : Sim proc seq q) (hout : (proc i).queued = false) (hout' : p.queued = false)
    (hprio : p.mlfqPriority = 0) : Sim (Function.update proc i p) seq (q.setLevel i top) where
  stamped := by
    refine (h.stamped.setLevel (by simp [hout]) top).congr ?_ ?_ le_rfl
    · exact forall_update (P := fun j x => x.queued = true ↔ (proc j).queued = true)
        (by rw [hout, hout']) (fun _ _ => Iff.rfl)
    · intro j hj
      have hji : j ≠ i := by
        rintro rfl
        simp [hout] at hj
      rw [Function.update_of_ne hji]
  level := forall_update (P := fun j x => ((q.setLevel i top).level j).val = x.mlfqPriority)
    (by simp [Queues.setLevel, hprio, top])
    (fun j hj => by simpa [Queues.setLevel, hj] using h.level j)

/-- A process becomes runnable and gets a new stamp. -/
theorem madeRunnable (h : Sim proc seq q) (hout : (proc i).queued = false)
    (hin : p.queued = true) (hprio : p.mlfqPriority = (proc i).mlfqPriority)
    (hqtime : p.mlfqQtime = seq) : Sim (Function.update proc i p) (seq + 1) (q.join i) where
  stamped := by
    refine h.stamped.join (by simp [hout]) ?_ ?_ (by simpa using hqtime)
    · exact forall_update (P := fun j x => x.queued = true ↔ (proc j).queued = true ∨ j = i)
        (by simp [hin]) (fun j hj => by simp [hj])
    · intro j hj
      have hji : j ≠ i := by
        rintro rfl
        simp [hout] at hj
      rw [Function.update_of_ne hji]
  level := forall_update (P := fun j x => (q.level j).val = x.mlfqPriority)
    (by rw [hprio, h.level]) (fun j _ => h.level j)

/-- A process changes its level and gets a new stamp, whether or not it is in a queue. -/
theorem placed (h : Sim proc seq q) (l : Fin mlfqLevels) (hqueued : p.queued = (proc i).queued)
    (hprio : p.mlfqPriority = l) (hqtime : p.mlfqQtime = seq) :
    Sim (Function.update proc i p) (seq + 1) (q.place i l) where
  stamped := by
    refine h.stamped.place l ?_ ?_ (by simpa using hqtime)
    · exact forall_update (P := fun j x => x.queued = true ↔ (proc j).queued = true)
        (by rw [hqueued]) (fun _ _ => Iff.rfl)
    · intro j _ hj
      rw [Function.update_of_ne hj]
  level := by
    rw [Queues.place_level]
    exact forall_update (P := fun j x => (Function.update q.level i l j).val = x.mlfqPriority)
      (by simp [hprio]) (fun j hj => by simpa [hj] using h.level j)

/-- A process leaves its queue and keeps its level. -/
theorem left (h : Sim proc seq q) (hout : p.queued = false)
    (hprio : p.mlfqPriority = (proc i).mlfqPriority) :
    Sim (Function.update proc i p) seq (q.leave i) where
  stamped := by
    refine (h.stamped.leave i).congr ?_ ?_ le_rfl
    · exact forall_update (P := fun j x => x.queued = true ↔ (proc j).queued = true ∧ j ≠ i)
        (by simp [hout]) (fun j hj => by simp [hj])
    · intro j hj
      rw [Function.update_of_ne hj.2]
  level := forall_update (P := fun j x => (q.level j).val = x.mlfqPriority)
    (by rw [hprio, h.level]) (fun j _ => h.level j)

/-- A critical section that only `madeRunnable` describes. -/
theorem makeRunnable_step {p' : Proc} (h : Sim proc seq q) (hout : (proc i).queued = false)
    (hprio : p'.mlfqPriority = (proc i).mlfqPriority) (hseq : seq < 2 ^ 64) :
    Sim (Function.update proc i (makeRunnable p' seq).1) (seq + 1) (q.join i) :=
  h.madeRunnable hout (by simp [makeRunnable, Proc.queued]) hprio (Nat.mod_eq_of_lt hseq)

variable {H : Type} [DecidableEq H] {k k' : Kernel H} {op : Op H}

theorem step (hk : OnCpu k) (hs : Sim k.proc k.mlfqSeqCounter q) (hstep : k.step op = some k')
    (hseq : k'.mlfqSeqCounter ≤ 2 ^ 64) :
    Sim k'.proc k'.mlfqSeqCounter ((k.events op).foldl Mlfq.apply q) := by
  cases Kernel.Step.of_step hstep with
  | userinit i hi =>
    have hcreated : Sim (Function.update k.proc i (allocFound k.nextpid (k.proc i)))
        k.mlfqSeqCounter (q.setLevel i top) :=
      hs.created (by simp [Proc.queued, hi]) rfl rfl
    have hstarted := hcreated.makeRunnable_step (i := i) (by simp [Proc.queued, allocFound])
      (by rw [Function.update_self]) hseq
    rwa [Function.update_idem] at hstarted
  | kforkAlloc h i copied hh hi =>
    apply hs.created
    · simp [Proc.queued, hi]
    · cases copied <;> rfl
    · cases copied <;> rfl
  | kforkParent | setkilled | sleepPrepare | reparent => exact hs.quiet rfl rfl rfl
  | kforkStart i hi => exact hs.makeRunnable_step (by simp [Proc.queued, hi]) rfl hseq
  | wakeup i chan =>
    simp only [Kernel.locked, Kernel.setProc, Kernel.events, wakeupProc_eq] at hseq ⊢
    split
    · next hwake =>
      rw [if_pos hwake] at hseq
      exact hs.makeRunnable_step (by simp [Proc.queued, hwake.2]) rfl hseq
    · exact hs.quiet rfl rfl rfl
  | kkill i pid =>
    simp only [Kernel.locked, Kernel.setProc, Kernel.events, killProc_eq] at hseq ⊢
    split
    · next hwake =>
      rw [if_pos hwake] at hseq
      exact hs.makeRunnable_step (by simp [Proc.queued, hwake.2]) rfl hseq
    · exact hs.quiet rfl rfl rfl
  | sleep h i hi hchan =>
    simp only [Kernel.events, hi]
    rw [if_pos hchan]
    exact hs.left rfl rfl
  | sleepWoken h i hi hchan =>
    simp only [Kernel.events, hi]
    rw [if_neg (not_not_intro hchan)]
    exact hs
  | kexit h status i hi =>
    simp only [Kernel.events, hi]
    exact hs.left rfl rfl
  | kwait h i p hp hparent hi => exact hs.quiet (by simp [Proc.queued, freeproc, hi]) rfl rfl
  | boost i =>
    simp only [Kernel.locked, Kernel.setProc, Kernel.events, boostProc] at hseq ⊢
    split
    · next hused =>
      rw [if_pos hused] at hseq
      exact hs.placed top rfl rfl (Nat.mod_eq_of_lt hseq)
    · exact hs.quiet rfl rfl rfl
  | tick h i hi =>
    simp only [Kernel.locked, Kernel.setProc, Kernel.events, hi, tickProc_eq] at hseq ⊢
    split
    · next hslice =>
      rw [if_pos hslice] at hseq
      refine hs.placed (below (q.level i)) rfl ?_ (Nat.mod_eq_of_lt hseq)
      rw [below_val, hs.level]
    · exact hs.quiet rfl rfl rfl
  | yield h i hi => exact hs.quiet (by simp [Proc.queued, hk.running h i hi]) rfl rfl
  | dispatch h best hh hscan hbest => exact hs.quiet (by simp [Proc.queued, hbest]) rfl rfl
  | reparentOther | dispatchIdle | dispatchLost => exact hs

end Sim

/-! ## Runs -/

namespace Kernel

variable {H : Type} [DecidableEq H] {k k' : Kernel H} {op : Op H}

/-- Stamps are only ever handed out. -/
theorem mlfqSeqCounter_le (hstep : k.step op = some k') : k.mlfqSeqCounter ≤ k'.mlfqSeqCounter := by
  cases op <;>
    grind [Kernel.step, locked, setProc, setCpu, makeRunnable, mlfqEnqueue,
      boostProc, wakeupProc_eq,
      killProc_eq, tickProc_eq, Option.bind_eq_some_iff]

omit [DecidableEq H] in
/-- The scan is a search for the smallest pair of priority and stamp. -/
theorem foldl_scanProc (best : Option (Fin nproc) × Nat × Nat)
    (hbest : ∀ b ∈ best.1, best.2 = ((k.proc b).mlfqPriority, (k.proc b).mlfqQtime))
    (xs : List (Fin nproc)) :
    (xs.foldl k.scanProc best).1 =
      minScan (fun i => toLex ((k.proc i).mlfqPriority, (k.proc i).mlfqQtime))
        (fun i => (k.proc i).state = .runnable) best.1 xs := by
  induction xs generalizing best with
  | nil => rfl
  | cons x xs ih =>
    have hkeep : ∀ b ∈ (k.scanProc best x).1,
        (k.scanProc best x).2 = ((k.proc b).mlfqPriority, (k.proc b).mlfqQtime) := by
      have hcases : k.scanProc best x = (some x, (k.proc x).mlfqPriority, (k.proc x).mlfqQtime) ∨
          k.scanProc best x = best := by
        simp only [scanProc]
        grind
      rcases hcases with h | h
      · rw [h]
        rintro b ⟨⟩
        rfl
      · rw [h]
        exact hbest
    rw [List.foldl_cons, minScan, ih _ hkeep]
    congr 1
    obtain ⟨_ | b, prio, qtime⟩ := best
    · simp only [scanProc, true_or, if_true, Option.not_mem_none, IsEmpty.forall_iff, implies_true,
        and_true, decide_eq_true_eq]
      split <;> rfl
    · obtain ⟨rfl, rfl⟩ : prio = _ ∧ qtime = _ := Prod.mk.inj (hbest b rfl)
      simp only [scanProc, reduceCtorEq, false_or, Option.mem_some_iff, forall_eq',
        Prod.Lex.toLex_lt_toLex, decide_eq_true_eq]
      split <;> split <;> simp_all

omit [DecidableEq H] in
theorem scan_eq_firstRunnable {q : Mlfq} (hs : Sim k.proc k.mlfqSeqCounter q) :
    k.scan = k.firstRunnable q := by
  have hscan := foldl_scanProc (k := k) (none, mlfqLevels, 0) (by simp) (List.finRange nproc)
  rw [Kernel.scan, hscan, firstRunnable]
  have hlevels : (List.finRange mlfqLevels).Pairwise (· < ·) := by decide
  rcases minScan_none (fun i => toLex ((k.proc i).mlfqPriority, (k.proc i).mlfqQtime))
    (fun i => (k.proc i).state = .runnable) (List.finRange nproc) with
    ⟨hnone, hall⟩ | ⟨m, hm, _, hrunnable, hmin⟩
  · rw [hnone]
    exact (hs.stamped.firstEligible_none fun j _ => hall j (List.mem_finRange j)).symm
  · rw [hm]
    have hqueued : (k.proc m).queued = true := by
      rw [decide_eq_true_eq] at hrunnable
      simp [Proc.queued, hrunnable]
    symm
    refine hs.stamped.firstEligible_eq hlevels hqueued hrunnable (List.mem_finRange _) ?_
    intro j _ hj
    have hle := hmin j (List.mem_finRange j) hj
    rw [Prod.Lex.toLex_le_toLex] at hle
    simpa [Fin.lt_def, Fin.ext_iff, hs.level] using hle

theorem dispatch_cpu {q : Mlfq} {h : H} (hs : Sim k.proc k.mlfqSeqCounter q)
    (hstep : k.step (.dispatch h) = some k') : k'.cpu h = k.firstRunnable q := by
  rw [← scan_eq_firstRunnable hs]
  cases Step.of_step hstep with
  | dispatch _ best hidle hbest =>
    rw [hbest]
    simp [setCpu]
  | dispatchIdle _ hidle hnone => rw [hidle, hnone]
  | dispatchLost _ best hidle hbest hlost =>
    -- the scan was not interrupted, so the candidate is still runnable
    rw [scan_eq_firstRunnable hs, firstRunnable, Queues.firstEligible] at hbest
    obtain ⟨l, _, hl⟩ := List.exists_of_findSome?_eq_some hbest
    exact absurd (by simpa using List.find?_some hl) hlost

/-- How many stamps `mlfq_next_seq` has handed out. -/
def stamps (k : Kernel H) : Nat := k.mlfqSeqCounter - 1

theorem run_sim {q : Mlfq} {ops : List (Op H)} (hk : OnCpu k) (hs : Sim k.proc k.mlfqSeqCounter q)
    (hrun : run Kernel.step k ops = some k') (hseq : k'.mlfqSeqCounter ≤ 2 ^ 64) :
    Sim k'.proc k'.mlfqSeqCounter (k.queuesAfter q ops) := by
  induction ops generalizing k q with
  | nil =>
    cases hrun
    exact hs
  | cons op ops ih =>
    obtain ⟨t, ht, hrest⟩ := run_cons hrun
    have hle : t.mlfqSeqCounter ≤ k'.mlfqSeqCounter :=
      run_invariant (I := fun s => t.mlfqSeqCounter ≤ s.mlfqSeqCounter)
        (fun _ _ _ hle hstep => hle.trans (mlfqSeqCounter_le hstep)) le_rfl hrest
    rw [queuesAfter, ht]
    exact ih (hk.step ht) (hs.step hk ht (hle.trans hseq)) hrest

end Kernel

/-- In every run with fewer than `2 ^ 64` stamps, the process table describes the four queues, and
a hart that looks for a process takes the first runnable one of the first queue that has one. -/
theorem listing_eq_queue {H : Type} [DecidableEq H] (ops : List (Op H)) {k : Kernel H}
    (hrun : run Kernel.step Kernel.init ops = some k) (hstamps : k.stamps < 2 ^ 64) :
    let q := Kernel.init.queuesAfter (Queues.empty top) ops
    (∀ l : Fin mlfqLevels, k.listing l = q.queue l) ∧
      ∀ h k', k.step (.dispatch h) = some k' → k'.cpu h = k.firstRunnable q := by
  intro q
  have hs : Sim k.proc k.mlfqSeqCounter q :=
    Kernel.run_sim OnCpu.init Sim.init hrun (by unfold Kernel.stamps at hstamps; omega)
  refine ⟨?_, fun h k' hstep => Kernel.dispatch_cpu hs hstep⟩
  intro l
  apply hs.stamped.listing_eq List.mem_finRange (List.nodup_finRange _)
  intro i
  simp [Fin.ext_iff, hs.level]

/-- The first process forks, exhausts its slice and gives way to its child; it is boosted before
the child exhausts its own slice. -/
def forkRun : List (Op Bool) :=
  [.userinit ⟨0, by decide⟩, .dispatch false, .kforkAlloc false ⟨1, by decide⟩ true,
    .kforkParent false ⟨1, by decide⟩, .kforkStart ⟨1, by decide⟩, .tick false, .yield false,
    .dispatch false, .boost ⟨0, by decide⟩, .tick false]

/-- The state behind it. -/
def forked : Kernel Bool := (run Kernel.step Kernel.init forkRun).get (by decide)

theorem listing_eq_queue_forked :
    forked.listing 0 = [⟨0, by decide⟩] ∧ forked.listing 1 = [⟨1, by decide⟩] := by
  have hrun : run Kernel.step Kernel.init forkRun = some forked := (Option.some_get _).symm
  have h := (listing_eq_queue forkRun hrun (by decide)).1
  exact ⟨(h ⟨0, by decide⟩).trans (by decide), (h ⟨1, by decide⟩).trans (by decide)⟩

end UnixCShell.Xv6
