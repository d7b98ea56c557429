import UnixCShell.Xv6.Harts
import UnixCShell.Xv6.Mlfq

/-!
# What a process is charged

Whatever the other processes do, and however often a process has to give way: the level of a process
and the part of its slice that it has used depend only on how many ticks it has received
(`account_of_ticks`). A step charges the process by `advance` if it is a tick of the process, and
does not touch its account otherwise, as long as the process is neither boosted nor sleeping.
-/

namespace UnixCShell.Xv6

open Lib

/-- The account of a process: its level and what it has used of its slice. -/
def Proc.account (p : Proc) : Nat × Nat := (p.mlfqPriority, p.mlfqTicksUsed)

/-- The account behind a tick. -/
def advance : Nat × Nat → Nat × Nat
  | (l, t) => if t + 1 ≥ mlfqSlice
      l then (if l < mlfqLevels - 1 then l + 1 else l, 0) else (l, t + 1)

/-- The account of a process that has received `n` ticks since it was new. -/
def accountAt (n : Nat) : Nat × Nat :=
  if n = 0 then (0, 0)
  else if n < 5 then (1, n - 1)
  else if n < 13 then (2, n - 5)
  else (3, (n - 13) % 16)

theorem advance_accountAt (n : Nat) : advance (accountAt n) = accountAt (n + 1) := by
  unfold accountAt advance
  have hrest : (n - 13) % 16 < 16 := Nat.mod_lt _ (by decide)
  split_ifs <;> simp only [mlfqSlice, mlfqLevels] <;> grind

theorem tickProc_account (p : Proc) (seq : Nat) :
    (tickProc p seq).1.account = advance p.account := by
  rw [tickProc_eq, Proc.account, Proc.account, advance]
  split <;> rfl

/-! ## Steps -/

/-- Nothing is charged to the process, and it is not started again. -/
structure Kept (p p' : Proc) : Prop where
  account : p'.account = p.account
  used    : p'.state = .used → p.state = .used

theorem Kept.refl (p : Proc) : Kept p p := ⟨rfl, id⟩

namespace Kernel

variable {H : Type} {k k' : Kernel H} {i p : Fin nproc}

theorem kept_setProc {q : Proc} (h : p = i → Kept (k.proc i) q) :
    Kept (k.proc p) ((k.setProc i q).proc p) := by
  by_cases hpi : p = i
  · subst hpi
    simpa [setProc] using h rfl
  · simpa [setProc, hpi] using Kept.refl (k.proc p)

theorem kept_locked {body : Proc → Nat → Proc × Nat}
    (h : p = i → Kept (k.proc i) (body (k.proc i) k.mlfqSeqCounter).1) :
    Kept (k.proc p) ((k.locked i body).proc p) := kept_setProc h

theorem kept_makeRunnable {q : Proc} (hstate : q.state = .used)
    (hticks : q.mlfqTicksUsed = 0) (seq : Nat) :
    Kept q (makeRunnable q seq).1 := by
  refine ⟨?_, fun _ => hstate⟩
  simp [makeRunnable, mlfqEnqueue, Proc.account, hticks]

theorem kept_wakeupProc {q : Proc} (hstate : q.state ≠ .sleeping) (chan seq : Nat) :
    Kept q (wakeupProc chan q seq).1 := by
  rw [wakeupProc_eq, if_neg fun h => hstate h.2]
  exact ⟨rfl, id⟩

theorem kept_killProc {q : Proc} (hstate : q.state ≠ .sleeping) (pid : Int) (seq : Nat) :
    Kept q (killProc pid q seq).1 := by
  rw [killProc_eq, if_neg fun h => hstate h.2]
  exact ⟨rfl, id⟩

/-- A critical section that is neither a boost nor a tick of a process that does not sleep. -/
theorem kept_section [DecidableEq H] {op : Op H} (hop : op.isSection = true)
    (h : k.step op = some k') (hboost : op ≠ .boost p)
    (htick : ∀ h', op = .tick h' → k.cpu h' ≠ some p) (hsleeping : (k.proc p).state ≠ .sleeping)
    (hunused : (k.proc p).state ≠ .unused)
    (hticks : (k.proc p).state = .used → (k.proc p).mlfqTicksUsed = 0) :
    Kept (k.proc p) (k'.proc p) := by
  cases Step.of_step h with
  | userinit i hi =>
    have hkept : Kept (k.proc p)
        ((k.locked i fun p seq => makeRunnable (allocFound k.nextpid p) seq).proc p) := by
      apply kept_locked
      rintro rfl
      exact absurd hi hunused
    exact hkept
  | kforkAlloc h' i copied _ hi =>
    show Kept (k.proc p) ((k.setProc i _).proc p)
    apply kept_setProc
    rintro rfl
    exact absurd hi hunused
  | kforkParent | setkilled | sleepPrepare | reparent => exact kept_setProc fun _ => ⟨rfl, id⟩
  | kforkStart i hi =>
    apply kept_locked
    rintro rfl
    exact kept_makeRunnable hi (hticks hi) _
  | wakeup i chan =>
    apply kept_locked
    rintro rfl
    exact kept_wakeupProc hsleeping chan _
  | kkill i pid =>
    apply kept_locked
    rintro rfl
    exact kept_killProc hsleeping pid _
  | reparentOther => exact .refl _
  | kwait => exact kept_setProc fun _ => ⟨rfl, by simp [freeproc]⟩
  | boost i =>
    apply kept_locked
    rintro rfl
    exact absurd rfl hboost
  | tick h' i hi =>
    apply kept_locked
    rintro rfl
    exact absurd hi (htick h' rfl)
  | sleep | sleepWoken | kexit | yield | dispatch | dispatchIdle | dispatchLost => cases hop

end Kernel

namespace Machine

variable {H : Type}

/-- The process that a move charges. -/
def charged (m : Machine H) : Move H → Option (Fin nproc)
  | .section (.tick h) => m.kernel.cpu h
  | _ => none

/-- How many ticks of the run `moves` the process `p` receives. -/
def ticksOf [DecidableEq H] (p : Fin nproc) : Machine H → List (Move H) → Nat
  | _, [] => 0
  | m, a :: moves =>
    (if m.charged a = some p then 1 else 0) + (m.step a).elim 0 fun m' => ticksOf p m' moves

/-- The move does not boost the process `p`, which exists and does not sleep. -/
def Undisturbed (p : Fin nproc) (m : Machine H) (a : Move H) : Prop :=
  a ≠ .section (.boost p) ∧ (m.kernel.proc p).state ≠ .sleeping ∧ (m.kernel.proc p).state ≠ .unused

variable [DecidableEq H] {m m' : Machine H} {h : H} {p : Fin nproc} {a : Move H}

instance (p : Fin nproc) (m : Machine H) (a : Move H) : Decidable (Undisturbed p m a) :=
  inferInstanceAs (Decidable (a ≠ _ ∧ _ ∧ _))

/-- Giving up a hart and being chosen by another one charge nothing. -/
theorem kept_moves (hmoves : m.Moves h m') : Kept (m.kernel.proc p) (m'.kernel.proc p) := by
  cases hmoves with
  | goto | acquire | release | setCpu => exact .refl _
  | start => exact Kernel.kept_setProc fun _ => ⟨rfl, by simp⟩
  | stop q why q' _ hstops =>
    cases hstops <;> exact Kernel.kept_setProc fun _ => ⟨rfl, by simp⟩

/-- A process that receives a tick runs. -/
theorem Inv.running_of_charged (hinv : m.Inv) (hstep : m.step a = some m')
    (ha : m.charged a = some p) :
    (m.kernel.proc p).state = .running ∧ (m'.kernel.proc p).state = .running ∧
      (m'.kernel.proc p).account = advance (m.kernel.proc p).account := by
  obtain ⟨h, rfl⟩ : ∃ h, a = .section (.tick h) := by
    unfold charged at ha
    split at ha
    · exact ⟨_, rfl⟩
    · cases ha
  have hcpu : m.kernel.cpu h = some p := ha
  simp only [Machine.step, Kernel.step, hcpu, Option.bind_some, Option.map_some,
    Option.ite_none_right_eq_some, Option.some.injEq] at hstep
  obtain ⟨⟨-, -, hactor⟩, rfl⟩ := hstep
  have hruns : (m.locks.pc h).runs = some p := by
    have hproc := hinv.cpu h
    have hrunning := hactor h rfl
    rw [hcpu] at hproc
    cases hpc : m.locks.pc h <;> simp_all [Pc.isRunning, Pc.proc, Pc.runs]
  have hstate := (hinv.running p).mpr ⟨h, hruns⟩
  refine ⟨hstate, ?_, ?_⟩
  · simpa [Kernel.locked, Kernel.setProc] using (tickProc_running _ _).mpr hstate
  · simpa [Kernel.locked, Kernel.setProc] using tickProc_account _ _

/-- Every other move keeps the account. -/
theorem kept_step (hstep : m.step a = some m') (ha : m.charged a ≠ some p)
    (hund : Undisturbed p m a) (hticks : (m.kernel.proc p).state = .used →
      (m.kernel.proc p).mlfqTicksUsed = 0) :
    Kept (m.kernel.proc p) (m'.kernel.proc p) := by
  obtain ⟨hboost, hsleeping, hunused⟩ := hund
  cases a with
  | «section» op =>
    obtain ⟨⟨hop, -⟩, k, hk, rfl⟩ := section_of_step hstep
    refine Kernel.kept_section hop hk ?_ ?_ hsleeping hunused hticks
    · rintro rfl
      exact hboost rfl
    · rintro h rfl
      exact ha
  | next h => exact kept_moves (.of_next hstep)
  | leave h why => exact kept_moves (.of_leave hstep)

/-! ## Runs -/

theorem ticksOf_cons (hstep : m.step a = some m') (moves : List (Move H)) :
    ticksOf p m (a :: moves) = (if m.charged a = some p then 1 else 0) + ticksOf p m' moves := by
  rw [ticksOf, hstep]
  rfl

/-- The account of a process that had received `n` ticks before the run. -/
theorem run_account {moves : List (Move H)} {n : Nat} (hinv : m.Inv)
    (hall : AllSteps step (Undisturbed p) m moves) (hrun : run step m moves = some m')
    (hn : (m.kernel.proc p).account = accountAt n)
    (hused : (m.kernel.proc p).state = .used → n = 0) :
    (m'.kernel.proc p).account = accountAt (n + ticksOf p m moves) := by
  induction moves generalizing m n with
  | nil =>
    cases hrun
    exact hn
  | cons a moves ih =>
    obtain ⟨m₁, hstep, hrest⟩ := run_cons hrun
    have hinv₁ := (hinv.step hstep).1
    have hall₁ := hall.2 m₁ hstep
    rw [ticksOf_cons hstep, ← Nat.add_assoc]
    by_cases ha : m.charged a = some p
    · obtain ⟨-, hrunning, haccount⟩ := hinv.running_of_charged hstep ha
      rw [if_pos ha]
      refine ih hinv₁ hall₁ hrest ?_ ?_
      · rw [haccount, hn, advance_accountAt]
      · intro hused₁
        rw [hrunning] at hused₁
        cases hused₁
    · have hticks : (m.kernel.proc p).state = .used → (m.kernel.proc p).mlfqTicksUsed = 0 := by
        intro h
        rw [hused h] at hn
        exact congrArg Prod.snd hn
      have hkept := kept_step hstep ha hall.1 hticks
      rw [if_neg ha]
      exact ih hinv₁ hall₁ hrest (hkept.account.trans hn) fun h => hused (hkept.used h)

/-- **The account is a function of the ticks**: in every fragment of a run in which a process that
begins with level 0 and an unused slice is neither boosted nor asleep, its level and what it has
used of its slice depend only on the number of ticks that it has received. -/
theorem account_of_ticks {before moves : List (Move H)} (hbefore : run step init before = some m)
    (hpriority : (m.kernel.proc p).mlfqPriority = 0) (hticks : (m.kernel.proc p).mlfqTicksUsed = 0)
    (hrun : run step m moves = some m') (hall : AllSteps step (Undisturbed p) m moves) :
    ((m'.kernel.proc p).mlfqPriority, (m'.kernel.proc p).mlfqTicksUsed) =
      accountAt (ticksOf p m moves) := by
  have hinv : m.Inv := run_invariant (fun _ _ _ hi hs => (hi.step hs).1) inv_init hbefore
  have hstart : (m.kernel.proc p).account = accountAt 0 := by
    rw [Proc.account, hpriority, hticks]
    rfl
  have haccount := run_account hinv hall hrun hstart fun _ => rfl
  rwa [Nat.zero_add] at haccount

/-- The first process forks, receives two ticks, gives way to its child, which uses up its first
slice, and receives a third tick. -/
def preemptedMoves : List (Move Bool) :=
  let child : Fin nproc := ⟨1, (by decide : 1 < 64)⟩
  let redispatch : List (Move Bool) := .leave true .yield :: List.replicate 71 (.next true)
  [.section (.tick true), .section (.kforkAlloc true child true), .section (.kforkStart child),
    .section (.tick true)] ++ redispatch ++ [.section (.tick true)] ++ redispatch ++
    [.section (.tick true)]

def preempted : Machine Bool := (run step twiceChosen preemptedMoves).get (by decide +kernel)

theorem account_of_ticks_preempted :
    ((preempted.kernel.proc slot0).mlfqPriority, (preempted.kernel.proc slot0).mlfqTicksUsed) =
      (1, 2) := by
  have hbefore : run step init twiceMoves = some twiceChosen := (Option.some_get _).symm
  have hrun : run step twiceChosen preemptedMoves = some preempted := (Option.some_get _).symm
  have haccount := account_of_ticks (p := slot0) hbefore (by decide +kernel)
    (by decide +kernel) hrun
    (by decide +kernel)
  have hthree : ticksOf slot0 twiceChosen preemptedMoves = 3 := by decide +kernel
  rw [haccount, hthree]
  rfl

end Machine

end UnixCShell.Xv6
