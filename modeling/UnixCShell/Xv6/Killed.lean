import UnixCShell.Xv6.Harts
import UnixCShell.Xv6.Mlfq

/-!
# Killed processes

`kkill` marks the process with a given pid as killed, and `freeproc` takes the mark away;
`allocproc` relies on that. But a slot that is not in use has the pid 0, so `kill(0)` marks a slot
that is not in use, and the next process in it is killed at birth (`born_killed`). It is the only
way: in the runs in which no `kill(0)` comes to such a slot no process is born killed
(`never_born_killed`).
-/

namespace UnixCShell.Xv6

open Lib

namespace Kernel

variable {H : Type}

/-- The loop of `kkill` over the slots `is`. -/
def kkillLoop (pid : Int) : List (Fin nproc) → Kernel H → Kernel H × Int
  | [], k => (k, -1)
  | i :: is, k =>
    if (k.proc i).pid = pid then (k.locked i (killProc pid), 0) else kkillLoop pid is k

/-- `kkill`, if no other hart comes between. -/
def kkill (k : Kernel H) (pid : Int) : Kernel H × Int := kkillLoop pid (List.finRange nproc) k

/-- `sys_kill`; `argint` takes an `int` from the register `a0`. -/
def sysKill (k : Kernel H) (a0 : BitVec 64) : Kernel H × Int := k.kkill (a0.setWidth 32).toInt

/-! ## The loop -/

variable {k : Kernel H} {pid : Int}

theorem locked_killProc_of_ne {i : Fin nproc} (h : (k.proc i).pid ≠ pid) :
    k.locked i (killProc pid) = k := by
  simp [locked, setProc, killProc, h]

theorem kkillLoop_eq_zero_iff {is : List (Fin nproc)} :
    (kkillLoop pid is k).2 = 0 ↔ ∃ i ∈ is, (k.proc i).pid = pid := by
  induction is with
  | nil => simp [kkillLoop]
  | cons i is ih =>
    rw [kkillLoop]
    split
    · next h => simp [h]
    · next h => simp [h, ih]

theorem kkill_eq_zero_iff : (k.kkill pid).2 = 0 ↔ ∃ i, (k.proc i).pid = pid := by
  unfold kkill
  rw [kkillLoop_eq_zero_iff]
  simp

/-- The call is a sequence of critical sections, up to the first slot with this pid. -/
theorem run_kkillLoop [DecidableEq H] (pid : Int) (is : List (Fin nproc)) (k : Kernel H) :
    ∃ visited, visited <+: is ∧ run step k (visited.map (.kkill · pid)) =
      some (kkillLoop pid is k).1 := by
  induction is with
  | nil => exact ⟨[], List.nil_prefix, rfl⟩
  | cons i is ih =>
    rw [kkillLoop]
    split
    · exact ⟨[i], ⟨is, rfl⟩, rfl⟩
    · next h =>
      obtain ⟨visited, hvisited, hrun⟩ := ih
      refine ⟨i :: visited, (List.prefix_cons_inj i).mpr hvisited, ?_⟩
      have hstep : k.step (.kkill i pid) = some k := congrArg some (locked_killProc_of_ne h)
      rw [List.map_cons, run_step hstep, hrun]

end Kernel

/-! ## What a step does to a slot -/

/-- What the step `op` makes of the slot `i`: whether it is in use, its pid and its mark. There is
no `op` where a hart goes on by itself. -/
inductive Life {H : Type} (k : Kernel H) (op : Option (Op H)) (i : Fin nproc) (p p' : Proc) :
    Prop where
  | keep : (p'.state = .unused ↔ p.state = .unused) → p'.pid = p.pid → p'.killed = p.killed →
      Life k op i p p'
  | alloc : p.state = .unused → p'.state ≠ .unused → p'.pid = k.nextpid → p'.killed = p.killed →
      Life k op i p p'
  | free : p'.state = .unused → p'.pid = 0 → p'.killed = false → Life k op i p p'
  | kill : op = some (.kkill i p.pid) → (p'.state = .unused ↔ p.state = .unused) → p'.pid = p.pid →
      p'.killed = true → Life k op i p p'
  | trap : op = some (.setkilled i) → (p'.state = .unused ↔ p.state = .unused) → p'.pid = p.pid →
      Life k op i p p'

namespace Life

variable {H : Type} {k : Kernel H} {op : Option (Op H)} {i : Fin nproc} {p : Proc}

theorem refl (k : Kernel H) (op : Option (Op H)) (i : Fin nproc) (p : Proc) : Life k op i p p :=
  .keep Iff.rfl rfl rfl

theorem setProc (h : Life k op i (k.proc i) p) (j : Fin nproc) :
    Life k op j (k.proc j) ((k.setProc i p).proc j) := by
  show Life k op j (k.proc j) (Function.update k.proc i p j)
  by_cases hji : j = i
  · subst hji
    rwa [Function.update_self]
  · rw [Function.update_of_ne hji]
    exact .refl ..

theorem locked {body : Proc → Nat → Proc × Nat}
    (h : Life k op i (k.proc i) (body (k.proc i) k.mlfqSeqCounter).1) (j : Fin nproc) :
    Life k op j (k.proc j) ((k.locked i body).proc j) := h.setProc j

/-- A critical section of a process that is in use. -/
theorem inUse {p p' : Proc} (h : p.state ≠ .unused) (h' : p'.state ≠ .unused)
    (hpid : p'.pid = p.pid) (hkilled : p'.killed = p.killed) : Life k op i p p' :=
  .keep (iff_of_false h' h) hpid hkilled

theorem wakeupProc (p : Proc) (seq chan : Nat) : Life k op i p (wakeupProc chan p seq).1 := by
  rw [wakeupProc_eq]
  split
  · next h => exact .inUse (by simp [h.2]) (by simp [makeRunnable]) rfl rfl
  · exact .keep Iff.rfl rfl rfl

theorem killProc (p : Proc) (seq : Nat) (pid : Int) :
    Life k (some (.kkill i pid)) i p (killProc pid p seq).1 := by
  rw [killProc_eq]
  split
  · next h => exact .kill (by rw [h.1]) (by simp [makeRunnable, h.2]) rfl rfl
  · by_cases hpid : p.pid = pid
    · exact .kill (by rw [hpid]) Iff.rfl rfl (by simp [hpid])
    · exact .keep Iff.rfl rfl (by simp [hpid])

theorem boostProc (p : Proc) (seq : Nat) : Life k op i p (boostProc p seq).1 := by
  unfold Xv6.boostProc
  split <;> exact .keep Iff.rfl rfl rfl

theorem tickProc (p : Proc) (seq : Nat) : Life k op i p (tickProc p seq).1 := by
  rw [tickProc_eq]
  split <;> exact .keep Iff.rfl rfl rfl

end Life

variable {H : Type} [DecidableEq H] {k k' : Kernel H} {op : Op H}

theorem step_life (hk : k.HartsRun op) (hstep : k.step op = some k') (j : Fin nproc) :
    Life k (some op) j (k.proc j) (k'.proc j) := by
  cases Kernel.Step.of_step hstep with
  | userinit i hi =>
    have hlife : Life k (some (.userinit i)) i (k.proc i)
        (makeRunnable (allocFound k.nextpid (k.proc i)) k.mlfqSeqCounter).1 :=
      .alloc hi (by simp [makeRunnable]) rfl rfl
    exact hlife.setProc j
  | kforkAlloc h i copied hh hi =>
    cases copied with
    | true =>
      have hlife : Life k (some (.kforkAlloc h i true)) i (k.proc i)
          (allocFound k.nextpid (k.proc i)) := .alloc hi (by simp [allocFound]) rfl rfl
      exact hlife.setProc j
    | false =>
      have hlife : Life k (some (.kforkAlloc h i false)) i (k.proc i)
          (freeproc (allocFound k.nextpid (k.proc i))) := .free rfl rfl rfl
      exact hlife.setProc j
  | kforkParent | sleepPrepare | reparent =>
    apply Life.setProc
    exact .keep Iff.rfl rfl rfl
  | setkilled i =>
    apply Life.setProc
    exact .trap rfl Iff.rfl rfl
  | kforkStart i hi =>
    apply Life.locked
    exact .inUse (by simp [hi]) (by simp [makeRunnable]) rfl rfl
  | wakeup i chan =>
    apply Life.locked
    exact .wakeupProc ..
  | kkill i pid =>
    apply Life.locked
    exact .killProc ..
  | sleep h i hi | kexit h status i hi | yield h i hi =>
    -- a process that gives up its hart is running
    apply Life.setProc
    exact .inUse (by simp [hk rfl h i hi]) (by simp) rfl rfl
  | kwait =>
    apply Life.setProc
    exact .free rfl rfl rfl
  | boost i =>
    apply Life.locked
    exact .boostProc ..
  | tick h i hi =>
    apply Life.locked
    exact .tickProc ..
  | dispatch h best hh hscan hbest =>
    apply Life.setProc
    exact .inUse (by simp [hbest]) (by simp) rfl rfl
  | sleepWoken | reparentOther | dispatchIdle | dispatchLost => exact .refl ..

theorem nextpid_le (hstep : k.step op = some k') : k.nextpid ≤ k'.nextpid := by
  cases Kernel.Step.of_step hstep with
  | userinit | kforkAlloc => exact Int.le_add_of_nonneg_right (by decide)
  | _ => exact le_rfl

/-! ## Pids -/

/-- The slots that are not in use are those with the pid 0. -/
structure Numbered {H : Type} (k : Kernel H) : Prop where
  unused : ∀ i, (k.proc i).state = .unused → (k.proc i).pid = 0
  inUse  : ∀ i, (k.proc i).state ≠ .unused → 0 < (k.proc i).pid
  next   : 0 < k.nextpid

omit [DecidableEq H] in
theorem Numbered.init : Numbered (Kernel.init : Kernel H) where
  unused _ _ := rfl
  inUse _ h := absurd rfl h
  next := Int.one_pos

omit [DecidableEq H] in
theorem Numbered.of_life (hn : Numbered k) {op : Option (Op H)}
    (hlife : ∀ i, Life k op i (k.proc i) (k'.proc i)) (hnext : k.nextpid ≤ k'.nextpid) :
    Numbered k' where
  unused i hi := by
    cases hlife i with
    | keep hstate hpid | kill _ hstate hpid | trap _ hstate hpid =>
      rw [hpid]
      exact hn.unused i (hstate.mp hi)
    | alloc _ hused => exact absurd hi hused
    | free _ hpid => exact hpid
  inUse i hi := by
    cases hlife i with
    | keep hstate hpid | kill _ hstate hpid | trap _ hstate hpid =>
      rw [hpid]
      exact hn.inUse i fun h => hi (hstate.mpr h)
    | alloc _ _ hpid =>
      rw [hpid]
      exact hn.next
    | free hstate => exact absurd hstate hi
  next := lt_of_lt_of_le hn.next hnext

theorem Numbered.step (hn : Numbered k) (hk : k.HartsRun op) (hstep : k.step op = some k') :
    Numbered k' := hn.of_life (step_life hk hstep) (nextpid_le hstep)

/-- What `kkill` returns is right for this pid. -/
def KillAnswers {H : Type} (k : Kernel H) (pid : Int) : Prop :=
  (k.kkill pid).2 = 0 ↔ ∃ i, (k.proc i).state ≠ .unused ∧ (k.proc i).pid = pid

omit [DecidableEq H] in
theorem Numbered.killAnswers_iff (hn : Numbered k) (pid : Int) :
    KillAnswers k pid ↔ (pid = 0 → ∀ i, (k.proc i).state ≠ .unused) := by
  unfold KillAnswers
  rw [Kernel.kkill_eq_zero_iff]
  by_cases hpid : pid = 0
  · subst hpid
    have hnone : ¬ ∃ i, (k.proc i).state ≠ .unused ∧ (k.proc i).pid = 0 := by
      rintro ⟨i, hi, h0⟩
      have := hn.inUse i hi
      omega
    have hslot : ∀ i, (k.proc i).pid = 0 ↔ (k.proc i).state = .unused := by
      intro i
      refine ⟨fun h0 => ?_, hn.unused i⟩
      by_contra hi
      exact hnone ⟨i, hi, h0⟩
    rw [iff_false_right hnone]
    simp [hslot]
  · refine iff_of_true ⟨?_, ?_⟩ fun h => absurd h hpid
    · rintro ⟨i, hi⟩
      refine ⟨i, fun hunused => hpid ?_, hi⟩
      rw [← hi, hn.unused i hunused]
    · rintro ⟨i, -, hi⟩
      exact ⟨i, hi⟩

/-! ## Marks -/

/-- No slot that is not in use is marked, and no process that `allocproc` makes of it is. -/
def BornAlive {H : Type} (k : Kernel H) : Prop :=
  ∀ i, (k.proc i).state = .unused →
    (k.proc i).killed = false ∧ (allocFound k.nextpid (k.proc i)).killed = false

/-- Processes are marked by `setkilled` only by themselves, in `usertrap`. -/
def TrapsSelf {H : Type} (k : Kernel H) : Op H → Prop
  | .setkilled i => ∃ h, k.cpu h = some i
  | _ => True

/-- No `kill(0)` comes to a slot that is not in use. -/
def SparesUnused {H : Type} (k : Kernel H) : Op H → Prop
  | .kkill i pid => pid = 0 → (k.proc i).state ≠ .unused
  | _ => True

instance {H : Type} (k : Kernel H) : ∀ op, Decidable (SparesUnused k op)
  | .kkill i pid => inferInstanceAs (Decidable (pid = 0 → (k.proc i).state ≠ .unused))
  | .userinit _ | .kforkAlloc _ _ _ | .kforkParent _ _ | .kforkStart _ | .wakeup _ _ | .setkilled _
  | .sleepPrepare _ _ | .sleep _ | .reparent _ _ | .kexit _ _ | .kwait _ _ | .boost _ | .tick _
  | .yield _ | .dispatch _ => .isTrue trivial

omit [DecidableEq H] in
theorem TrapsSelf.used (h : TrapsSelf k op) (hk : OnCpu k) (i : Fin nproc)
    (hop : op = .setkilled i) :
    (k.proc i).state ≠ .unused := by
  subst hop
  obtain ⟨h, hh⟩ := h
  rw [hk.running h i hh]
  simp

omit [DecidableEq H] in
theorem BornAlive.of_life (hb : BornAlive k) (hn : Numbered k) {op : Option (Op H)}
    (hlife : ∀ i, Life k op i (k.proc i) (k'.proc i))
    (htraps : ∀ i, op = some (.setkilled i) → (k.proc i).state ≠ .unused)
    (hspares : ∀ i, op = some (.kkill i 0) → (k.proc i).state ≠ .unused) : BornAlive k' := by
  suffices hkilled : ∀ i, (k'.proc i).state = .unused → (k'.proc i).killed = false from
    fun i hi => ⟨hkilled i hi, hkilled i hi⟩
  intro i hi
  cases hlife i with
  | keep hstate _ hkilled =>
    rw [hkilled]
    exact (hb i (hstate.mp hi)).1
  | alloc _ hused => exact absurd hi hused
  | free _ _ hkilled => exact hkilled
  | kill hop hstate =>
    have hunused := hstate.mp hi
    rw [hn.unused i hunused] at hop
    exact absurd hunused (hspares i hop)
  | trap hop hstate => exact absurd (hstate.mp hi) (htraps i hop)

omit [DecidableEq H] in
/-- A `kill(0)` that comes to a slot that is not in use marks it. -/
theorem not_bornAlive_of_kill {i : Fin nproc} (hn : Numbered k) (hi : (k.proc i).state = .unused) :
    ¬ BornAlive (k.locked i (killProc 0)) := by
  intro hb
  have hpid := hn.unused i hi
  have hproc : (k.locked i (killProc 0)).proc i = { k.proc i with killed := true } := by
    simp [Kernel.locked, Kernel.setProc, killProc, hpid, hi]
  have hkilled := (hb i (by rw [hproc]; exact hi)).1
  rw [hproc] at hkilled
  cases hkilled

/-- A step keeps the slots that are not in use unmarked exactly if it is no `kill(0)` that comes to
one of them. -/
theorem BornAlive.step_iff (hb : BornAlive k) (hn : Numbered k) (hk : k.HartsRun op)
    (htraps : ∀ i, op = .setkilled i → (k.proc i).state ≠ .unused) (hstep : k.step op = some k') :
    BornAlive k' ↔ SparesUnused k op := by
  constructor
  · intro hb'
    cases op with
    | kkill i pid =>
      rintro rfl hi
      cases hstep
      exact not_bornAlive_of_kill hn hi hb'
    | _ => trivial
  · intro hspares
    refine hb.of_life hn (step_life hk hstep) (fun i hop => htraps i (Option.some.inj hop)) ?_
    rintro i hop
    cases hop
    exact hspares rfl

/-- **No process is born killed** in exactly those runs in which no `kill(0)` comes to a slot that
is not in use; and `kkill` answers for every pid but 0 whether there is a process, and for 0 if all
slots are in use. -/
theorem never_born_killed {ops : List (Op H)} {k : Kernel H}
    (hrun : run Kernel.step Kernel.init ops = some k)
    (htraps : AllSteps Kernel.step TrapsSelf Kernel.init ops) :
    (AllStates Kernel.step BornAlive Kernel.init ops ↔
      AllSteps Kernel.step SparesUnused Kernel.init ops) ∧
      ∀ pid, KillAnswers k pid ↔ (pid = 0 → ∀ i, (k.proc i).state ≠ .unused) := by
  have hkeep (s : Kernel H) (e : Op H) (s' : Kernel H) (hinv : OnCpu s ∧ Numbered s)
      (hstep : s.step e = some s') : OnCpu s' ∧ Numbered s' :=
    ⟨hinv.1.step hstep, hinv.2.step (fun _ => hinv.1.running) hstep⟩
  have hinv : OnCpu k ∧ Numbered k :=
    run_invariant (I := fun k => OnCpu k ∧ Numbered k) hkeep ⟨.init, .init⟩ hrun
  refine ⟨?_, hinv.2.killAnswers_iff⟩
  refine allStates_iff_allSteps (I := fun k => OnCpu k ∧ Numbered k)
    (fun s e s' h _ => hkeep s e s' h) (fun s e s' h hb htrap hstep => ?_) htraps ⟨.init, .init⟩
    (fun _ _ => ⟨rfl, rfl⟩) hrun
  exact hb.step_iff h.2 (fun _ => h.1.running) (htrap.used h.1) hstep

/-- The first process forks and kills its child. -/
def killRun : List (Op Bool) :=
  [.userinit 0, .dispatch false, .kforkAlloc false 1 true, .kforkParent false 1, .kforkStart 1,
    .kkill 0 2, .kkill 1 2]

/-- The state behind it. -/
def childKilled : Kernel Bool := (run Kernel.step Kernel.init killRun).get (by decide)

theorem never_born_killed_killRun :
    AllStates Kernel.step BornAlive Kernel.init killRun ∧ KillAnswers childKilled 2 := by
  have hrun : run Kernel.step Kernel.init killRun = some childKilled := (Option.some_get _).symm
  have htraps : AllSteps Kernel.step TrapsSelf Kernel.init killRun :=
    allSteps_of_forall_mem (by simp [killRun, TrapsSelf]) _
  obtain ⟨hborn, hanswers⟩ := never_born_killed hrun htraps
  exact ⟨hborn.mpr (by decide), (hanswers 2).mpr fun h => by cases h⟩

/-- The first process calls `kill(0)`, which comes to the slot 1, and then `fork`, which takes
it. -/
def killZeroRun : List (Op Bool) :=
  [.userinit 0, .dispatch false, .kkill 0 0, .kkill 1 0, .kforkAlloc false 1 true]

/-- The states before the call, behind it and behind the run. -/
def beforeKill : Kernel Bool := (run Kernel.step Kernel.init (killZeroRun.take 2)).get (by decide)

def afterKill : Kernel Bool := (run Kernel.step Kernel.init (killZeroRun.take 4)).get (by decide)

def bornKilled : Kernel Bool := (run Kernel.step Kernel.init killZeroRun).get (by decide)

/-- `kill(0)` returns 0 though there is no process 0, and the child is killed at birth. -/
theorem born_killed :
    (beforeKill.sysKill 0).2 = 0 ∧
      (¬ ∃ i, (beforeKill.proc i).state ≠ .unused ∧ (beforeKill.proc i).pid = 0) ∧
      (afterKill.proc 1).state = .unused ∧ (afterKill.proc 1).killed = true ∧
      (bornKilled.proc 1).state = .used ∧ (bornKilled.proc 1).killed = true := by
  refine ⟨?_, ?_, ?_, ?_, ?_, ?_⟩ <;> decide

end UnixCShell.Xv6
