import UnixCShell.Lib.Monitor
import UnixCShell.Xv6.Harts
import UnixCShell.Xv6.Mlfq

/-!
# Sleep and wakeup

The monitors of the kernel (pipes, sleeping locks, the log) wait by `sleep_prepare`, `release`,
`sleep`, `acquire`. Here the process table is seen as the sleepers of a monitor: every step of the
kernel does to the channels, to the sleeping processes and to the marks of the killed ones what the
operations of `Lib.Sleepers` do, or nothing (`step_sleepers`).

So a process that sleeps is registered for a channel, and a wakeup that reaches a process between
its `sleep_prepare` and its `sleep` is not lost (`wakeup_not_lost`).
-/

namespace UnixCShell.Xv6

open Lib

/-- The channel that a process is registered for; `chan` is 0 if there is none. -/
def Proc.registration (p : Proc) : Option Nat := if p.chan = 0 then none else some p.chan

namespace Kernel

variable {H : Type}

/-- The sleepers in the process table. -/
def sleepers (k : Kernel H) : Sleepers (Fin nproc) Nat where
  chan i := (k.proc i).registration
  asleep i := (k.proc i).state = .sleeping
  killed i := (k.proc i).killed

theorem sleepers_setProc (k : Kernel H) (i : Fin nproc) (p : Proc) :
    (k.setProc i p).sleepers = k.sleepers.set i p.registration (p.state = .sleeping) p.killed := by
  simp only [sleepers, setProc, Sleepers.set, Sleepers.mk.injEq]
  refine ⟨?_, ?_, ?_⟩ <;>
  · funext j
    by_cases hj : j = i
    · subst hj
      simp
    · simp [hj]

theorem sleepers_locked (k : Kernel H) (i : Fin nproc) (body : Proc → Nat → Proc × Nat) :
    (k.locked i body).sleepers = (k.setProc i (body (k.proc i) k.mlfqSeqCounter).1).sleepers := rfl

/-- A step that keeps the channel, the mark and whether the process sleeps. -/
theorem sleepers_setProc_of_eq {k : Kernel H} {i : Fin nproc} {p : Proc}
    (hchan : p.chan = (k.proc i).chan) (hstate : p.state = .sleeping ↔ (k.proc i).state = .sleeping)
    (hkilled : p.killed = (k.proc i).killed) :
    (k.setProc i p).sleepers = k.sleepers := by
  rw [sleepers_setProc]
  conv_rhs => rw [← Sleepers.set_self k.sleepers i]
  simp only [Proc.registration, hchan, hstate, hkilled]
  rfl

/-- What a step does to the sleepers. -/
def sleepEvent (k : Kernel H) : Op H → Option (Sleepers.Ev (Fin nproc) Nat)
  | .sleepPrepare h chan => (k.cpu h).map (.prepare · chan)
  | .sleep h => (k.cpu h).map .sleep
  | .wakeup i chan => some (.wake chan i)
  | .kkill i pid => if (k.proc i).pid = pid then some (.kill i) else none
  | .setkilled i => some (.mark i)
  | .kforkAlloc _ i copied => if copied then none else some (.reset i)
  | .kwait _ i => some (.reset i)
  | _ => none

variable {k k' : Kernel H} {op : Op H} {i : Fin nproc}

theorem sleepers_wakeup (hs : k.sleepers.Sound) (i : Fin nproc) (chan : Nat) :
    (k.locked i (wakeupProc chan)).sleepers = k.sleepers.wake chan i := by
  rw [sleepers_locked, Sleepers.wake_eq_set, wakeupProc]
  have hsound : (k.proc i).chan = 0 → (k.proc i).state ≠ .sleeping := by
    intro hzero hsleeping
    have := hs i (decide_eq_true hsleeping)
    simp [sleepers, Proc.registration, hzero] at this
  by_cases hchan : (k.proc i).chan = chan
  · by_cases hzero : chan = 0
    · -- `wakeup(0)` would find those who are not registered; none of them sleeps
      subst hzero
      have hreg : k.sleepers.chan i ≠ some 0 := by simp [sleepers, Proc.registration, hchan]
      simp only [if_pos hchan, if_neg hreg, if_neg (hsound hchan)]
      exact sleepers_setProc_of_eq hchan.symm Iff.rfl rfl
    · have hreg : k.sleepers.chan i = some chan := by
        simp [sleepers, Proc.registration, hchan, hzero]
      simp only [if_pos hchan, if_pos hreg]
      split <;> rw [sleepers_setProc]
      · rfl
      · next hstate => simp [Proc.registration, hstate, sleepers]
  · have hreg : k.sleepers.chan i ≠ some chan := by
      simp only [sleepers, Proc.registration]
      split <;> simp [hchan]
    simp only [if_neg hchan, if_neg hreg]
    exact sleepers_setProc_of_eq rfl Iff.rfl rfl

theorem sleepers_kill (i : Fin nproc) (pid : Int) :
    (k.locked i (killProc pid)).sleepers = if (k.proc i).pid =
      pid then k.sleepers.kill i else k.sleepers := by
  rw [sleepers_locked, killProc]
  split
  · simp only [Sleepers.kill_eq_set]
    split <;> rw [sleepers_setProc]
    · rfl
    · next hstate => simp [Proc.registration, hstate, sleepers]
  · exact sleepers_setProc_of_eq rfl Iff.rfl rfl

variable [DecidableEq H]

/-- Every step of the kernel does to the sleepers what its event says. -/
theorem step_sleepers (hk : k.HartsRun op) (hs : k.sleepers.Sound) (hstep : k.step op = some k') :
    k'.sleepers = (k.sleepEvent op).elim k.sleepers k.sleepers.apply := by
  cases Step.of_step hstep with
  | userinit i hi => exact sleepers_setProc_of_eq rfl (iff_of_false nofun (by simp [hi])) rfl
  | kforkAlloc h i copied hh hi =>
    cases copied with
    | true => exact sleepers_setProc_of_eq rfl (iff_of_false nofun (by simp [hi])) rfl
    | false => exact sleepers_setProc k i _
  | kforkParent h i hh hi => exact sleepers_setProc_of_eq rfl Iff.rfl rfl
  | kforkStart i hi => exact sleepers_setProc_of_eq rfl (iff_of_false nofun (by simp [hi])) rfl
  | wakeup i chan => exact sleepers_wakeup hs i chan
  | kkill i pid =>
    rw [sleepers_kill]
    simp only [sleepEvent]
    split <;> rfl
  | setkilled i =>
    rw [sleepers_setProc]
    exact (Sleepers.mark_eq_set _ _).symm
  | sleepPrepare h chan i hi hchan =>
    simp only [sleepers_setProc, sleepEvent, hi, Option.map_some, Option.elim_some, Sleepers.apply,
      Sleepers.prepare_eq_set]
    simp [Proc.registration, hchan, sleepers]
  | sleep h i hi hchan =>
    have hreg : (k.sleepers.chan i).isSome := by simp [sleepers, Proc.registration, hchan]
    simp only [sleepEvent, hi, Option.map_some, Option.elim_some, Sleepers.apply,
      Sleepers.sleep_eq_set, hreg]
    exact sleepers_setProc k i _
  | sleepWoken h i hi hchan =>
    have hreg : (k.sleepers.chan i).isSome = false := by simp [sleepers, Proc.registration, hchan]
    simp only [sleepEvent, hi, Option.map_some, Option.elim_some, Sleepers.apply,
      Sleepers.sleep_eq_set, hreg,
      Bool.false_or, Sleepers.set_self]
  | reparent h i p hp hparent => exact sleepers_setProc_of_eq rfl Iff.rfl rfl
  | reparentOther | dispatchIdle | dispatchLost => rfl
  | kexit h status i hi hinit => exact sleepers_setProc_of_eq rfl (by simp [hk rfl h i hi]) rfl
  | kwait h i p hp hparent hi => exact sleepers_setProc k i _
  | boost i =>
    rw [sleepers_locked, boostProc]
    split <;> exact sleepers_setProc_of_eq rfl Iff.rfl rfl
  | tick h i hi =>
    rw [sleepers_locked, tickProc_eq]
    split <;> exact sleepers_setProc_of_eq rfl Iff.rfl rfl
  | yield h i hi => exact sleepers_setProc_of_eq rfl (by simp [hk rfl h i hi]) rfl
  | dispatch h best hh hscan hbest => exact sleepers_setProc_of_eq rfl (by simp [hbest]) rfl

omit [DecidableEq H] in
theorem sound_sleepers_init : (init : Kernel H).sleepers.Sound :=
  fun _ h => by simp [sleepers, init] at h

theorem sound_step (hk : k.HartsRun op) (hs : k.sleepers.Sound) (hstep : k.step op = some k') :
    k'.sleepers.Sound := by
  rw [step_sleepers hk hs hstep]
  cases k.sleepEvent op with
  | none => exact hs
  | some e => exact hs.apply e

/-- The events of a run. -/
def sleepEvents (k : Kernel H) : List (Op H) → List (Sleepers.Ev (Fin nproc) Nat)
  | [] => []
  | op :: ops => (k.sleepEvent op).toList ++ ((k.step op).elim [] fun k' => k'.sleepEvents ops)

/-- The process table implements the sleepers: a run of the kernel leaves them as its events leave
them. -/
theorem run_sleepers {ops : List (Op H)} (hk : OnCpu k) (hs : k.sleepers.Sound)
    (hrun : run step k ops = some k') :
    k'.sleepers = (k.sleepEvents ops).foldl Sleepers.apply k.sleepers := by
  induction ops generalizing k with
  | nil =>
    cases hrun
    rfl
  | cons op ops ih =>
    obtain ⟨k₁, hstep, hrest⟩ := run_cons hrun
    rw [ih (hk.step hstep) (sound_step (fun _ => hk.running) hs hstep) hrest,
      step_sleepers (fun _ => hk.running) hs hstep, sleepEvents, hstep, List.foldl_append]
    cases k.sleepEvent op <;> rfl

/-- The process `i` does not register again. -/
def NotPrepared (i : Fin nproc) (k : Kernel H) (op : Op H) : Prop :=
  ∀ h chan, op = .sleepPrepare h chan → k.cpu h ≠ some i

theorem chan_step_eq_none (hk : k.HartsRun op) (hs : k.sleepers.Sound) (hprep : NotPrepared i k op)
    (hstep : k.step op = some k') (hi : k.sleepers.chan i = none) : k'.sleepers.chan i = none := by
  rw [step_sleepers hk hs hstep]
  cases hev : k.sleepEvent op with
  | none => exact hi
  | some e =>
    refine Sleepers.chan_apply_eq_none ?_ hi
    rintro chan rfl
    cases op with
    | sleepPrepare h chan' =>
      obtain ⟨j, hj, heq⟩ := Option.map_eq_some_iff.mp hev
      cases heq
      exact hprep h chan rfl hj
    | sleep h =>
      obtain ⟨j, hj, heq⟩ := Option.map_eq_some_iff.mp hev
      cases heq
    | kkill | kforkAlloc =>
      simp only [sleepEvent] at hev
      split at hev <;> cases hev
    | _ => cases hev

omit [DecidableEq H] in
/-- A wakeup takes the registration away. -/
theorem chan_wakeup (hs : k.sleepers.Sound) {chan : Nat} (hchan : (k.proc i).chan = chan) :
    (k.locked i (wakeupProc chan)).sleepers.chan i = none := by
  rw [sleepers_wakeup hs, Sleepers.chan_wake]
  split
  · rfl
  · next hne => simpa [sleepers, Proc.registration, hchan] using hne

omit [DecidableEq H] in
/-- Who is not registered is not asleep. -/
theorem not_sleeping (hs : k.sleepers.Sound) (hnone : k.sleepers.chan i = none) :
    (k.proc i).state ≠ .sleeping := by
  intro hsleeping
  have := hs i (decide_eq_true hsleeping)
  rw [hnone] at this
  cases this

/-- A wakeup is not lost. Once a process that is registered has been visited by a wakeup of its
channel, it is not asleep, in whatever order the steps of the harts follow, until it registers the
next time: also where the wakeup came before the process called `sleep`. -/
theorem wakeup_not_lost {ops ops' : List (Op H)} {k₁ : Kernel H} {chan : Nat}
    (hreach : run step (init : Kernel H) ops = some k) (hchan : (k.proc i).chan = chan)
    (hwake : k.step (.wakeup i chan) = some k₁) (hprep : AllSteps step (NotPrepared i) k₁ ops')
    (hrun : run step k₁ ops' = some k') : (k'.proc i).state ≠ .sleeping := by
  have hk : OnCpu k ∧ k.sleepers.Sound := run_invariant (I := fun k => OnCpu k ∧ k.sleepers.Sound)
    (fun k op k' h hstep => ⟨h.1.step hstep, sound_step (fun _ => h.1.running) h.2 hstep⟩)
    ⟨OnCpu.init, sound_sleepers_init⟩ hreach
  have hwoken : OnCpu k₁ ∧ k₁.sleepers.Sound ∧ k₁.sleepers.chan i = none := by
    refine ⟨hk.1.step hwake, sound_step (fun _ => hk.1.running) hk.2 hwake, ?_⟩
    cases hwake
    exact chan_wakeup hk.2 hchan
  obtain ⟨-, hsound, hend⟩ := run_invariant_of
    (I := fun k => OnCpu k ∧ k.sleepers.Sound ∧ k.sleepers.chan i = none)
    (fun k op k' h hop hstep => ⟨h.1.step hstep, sound_step (fun _ => h.1.running) h.2.1 hstep,
      chan_step_eq_none (fun _ => h.1.running) h.2.1 hop hstep h.2.2⟩) hprep hwoken hrun
  exact not_sleeping hsound hend

/-- The wakeup comes before the sleep. -/
theorem wakeup_not_lost_before_sleep : ∃ k k₁ k' : Kernel Unit,
    run step init [.userinit 0, .dispatch (), .sleepPrepare () 5] = some k ∧ (k.proc 0).chan = 5 ∧
      k.step (.wakeup 0 5) = some k₁ ∧ run step k₁ [.sleep ()] = some k' ∧
        (k'.proc 0).state ≠ .sleeping := by
  obtain ⟨k, hreach, hchan, hcpu, hstate⟩ : ∃ k : Kernel Unit,
      run step init [.userinit 0, .dispatch (), .sleepPrepare () 5] = some k ∧
        (k.proc 0).chan = 5 ∧ k.cpu () = some 0 ∧ (k.proc 0).state = .running :=
          exists_run_of_any (by decide +kernel)
  have hsleep : run step (k.locked 0 (wakeupProc 5)) [.sleep ()] =
      some (k.locked 0 (wakeupProc 5)) := by
    rw [run, step]
    simp [locked, setProc, wakeupProc, run, hcpu, hchan, hstate]
  exact ⟨k, _, _, hreach, hchan, rfl, hsleep,
    wakeup_not_lost hreach hchan rfl (allSteps_of_forall_mem (by simp [NotPrepared]) _) hsleep⟩

end Kernel

end UnixCShell.Xv6
