import UnixCShell.Xv6.Killed
import UnixCShell.Xv6.Sleep

/-!
# Interleaved scans

`Kernel.step` dispatches a process in one step. Here what was shown of the runs of the kernel is
carried to the machine of `Xv6.Harts`, in which other harts move during a scan of the table, between
the choice of a process and its start, and between its last change of state and the switch to the
scheduler. What a hart does by itself (`Moves`) marks nobody, gives no pids and registers nobody;
the critical sections are steps of the kernel.
-/

namespace UnixCShell.Xv6

open Lib

/-- The critical section of a move. -/
def Move.op {H : Type} : Move H → Option (Op H)
  | .section op => some op
  | .next _ | .leave .. => none

namespace Machine

variable {H : Type}

/-- Processes are marked by `setkilled` only by themselves, while they run. -/
def TrapsSelf (m : Machine H) : Move H → Prop
  | .section (.setkilled i) => ∃ h, m.locks.pc h = .running i
  | _ => True

/-- No `kill(0)` comes to a slot that is not in use. -/
def SparesUnused (m : Machine H) (a : Move H) : Prop := ∀ op ∈ a.op, Xv6.SparesUnused m.kernel op

/-- The process `i` does not register again. -/
def NotPrepared (i : Fin nproc) (m : Machine H) (a : Move H) : Prop :=
  ∀ op ∈ a.op, Kernel.NotPrepared i m.kernel op

variable [DecidableEq H] {m m' : Machine H} {h : H} {a : Move H} {i : Fin nproc}

/-- A move is a critical section, or a hart goes on by itself. -/
theorem step_cases (hstep : m.step a = some m') :
    (∃ op, a.op = some op ∧ op.isSection = true ∧ m.kernel.step op = some m'.kernel) ∨
      a.op = none ∧ ∃ h, m.Moves h m' := by
  cases a with
  | «section» op =>
    obtain ⟨⟨hop, -⟩, k, hk, rfl⟩ := section_of_step hstep
    exact .inl ⟨op, rfl, hop, hk⟩
  | next h => exact .inr ⟨rfl, h, .of_next hstep⟩
  | leave h why => exact .inr ⟨rfl, h, .of_leave hstep⟩

/-! ## Marks -/

/-- A hart that goes on by itself neither allocates nor frees a slot, and marks none. -/
theorem Inv.life_moves (hinv : m.Inv) (hmoves : m.Moves h m') (i : Fin nproc) :
    Life m.kernel none i (m.kernel.proc i) (m'.kernel.proc i) := by
  cases hmoves with
  | goto | acquire | release | setCpu => exact .refl ..
  | start best _ hstate =>
    apply Life.setProc
    exact .inUse (by simp [hstate]) (by simp) rfl rfl
  | stop p why p' hleaving hstops =>
    have hrunning := hinv.running_of_leaving hleaving
    apply Life.setProc
    cases hstops <;> exact .inUse (by simp [hrunning]) (by simp) rfl rfl

theorem Inv.life (hinv : m.Inv) (hstep : m.step a = some m') (i : Fin nproc) :
    Life m.kernel a.op i (m.kernel.proc i) (m'.kernel.proc i) := by
  rcases step_cases hstep with ⟨op, hop, hsection, hk⟩ | ⟨hnone, h, hmoves⟩
  · rw [hop]
    exact step_life (.of_section hsection) hk i
  · rw [hnone]
    exact hinv.life_moves hmoves i

theorem nextpid_step (hstep : m.step a = some m') : m.kernel.nextpid ≤ m'.kernel.nextpid := by
  rcases step_cases hstep with ⟨op, -, -, hk⟩ | ⟨-, h, hmoves⟩
  · exact nextpid_le hk
  · cases hmoves <;> exact le_rfl

omit [DecidableEq H] in
/-- A process that marks itself is in use. -/
theorem Inv.used_of_trapsSelf (hinv : m.Inv) (htraps : m.TrapsSelf a)
    (ha : a.op = some (.setkilled i)) : (m.kernel.proc i).state ≠ .unused := by
  cases a with
  | «section» op =>
    cases ha
    obtain ⟨h, hpc⟩ := htraps
    have hrunning := (hinv.running i).mpr ⟨h, by rw [hpc]; rfl⟩
    rw [hrunning]
    simp
  | next | leave => cases ha

theorem Inv.bornAlive_iff (hinv : m.Inv) (hn : Numbered m.kernel) (hb : BornAlive m.kernel)
    (htraps : m.TrapsSelf a) (hstep : m.step a = some m') :
    BornAlive m'.kernel ↔ m.SparesUnused a := by
  have htraps' (i : Fin nproc) (ha : a.op = some (.setkilled i)) :
    (m.kernel.proc i).state ≠ .unused :=
    hinv.used_of_trapsSelf htraps ha
  have hlife := hinv.life hstep
  unfold SparesUnused
  rcases step_cases hstep with ⟨op, hop, hsection, hk⟩ | ⟨hnone, -⟩
  · rw [hop] at htraps' ⊢
    rw [hb.step_iff hn (.of_section hsection) (fun i hi => htraps' i (by rw [hi])) hk]
    simp
  · -- a hart by itself neither kills nor allocates
    rw [hnone] at hlife ⊢
    exact iff_of_true (hb.of_life hn hlife nofun nofun) nofun

/-- No process is born killed in exactly those runs of the machine in which no `kill(0)` comes to a
slot that is not in use, whatever the harts do during a scan; and `kkill` answers as in the runs of
the kernel. -/
theorem bornAlive_iff_sparesUnused {moves : List (Move H)} (hrun : run step init moves = some m)
    (htraps : AllSteps step TrapsSelf init moves) :
    (AllStates step (fun m => BornAlive m.kernel) init moves ↔
      AllSteps step SparesUnused init moves) ∧
      ∀ pid, KillAnswers m.kernel pid ↔ (pid = 0 → ∀ i, (m.kernel.proc i).state ≠ .unused) := by
  have hkeep (m : Machine H) (a : Move H) (m' : Machine H) (hinv : m.Inv ∧ Numbered m.kernel)
      (hstep : m.step a = some m') : m'.Inv ∧ Numbered m'.kernel :=
    ⟨(hinv.1.step hstep).1, hinv.2.of_life (hinv.1.life hstep) (nextpid_step hstep)⟩
  have hinit : (init : Machine H).Inv ∧ Numbered (init : Machine H).kernel := ⟨inv_init, .init⟩
  have hend : m.Inv ∧ Numbered m.kernel :=
    run_invariant (I := fun m => m.Inv ∧ Numbered m.kernel) hkeep hinit hrun
  refine ⟨?_, hend.2.killAnswers_iff⟩
  refine allStates_iff_allSteps (I := fun m => m.Inv ∧ Numbered m.kernel)
    (fun m a m' h _ => hkeep m a m' h) (fun m a m' h hb htrap hstep => ?_) htraps hinit
    (fun _ _ => ⟨rfl, rfl⟩) hrun
  exact h.1.bornAlive_iff h.2 hb htrap hstep

/-! ## Sleepers -/

/-- A hart that goes on by itself puts its process to sleep, or does nothing to the sleepers. -/
theorem Inv.sleepers_moves (hinv : m.Inv) (hmoves : m.Moves h m') :
    m'.kernel.sleepers = m.kernel.sleepers ∨
      ∃ p, m'.kernel.sleepers = m.kernel.sleepers.apply (.sleep p) := by
  cases hmoves with
  | goto | acquire | release | setCpu => exact .inl rfl
  | start best _ hstate => exact .inl (Kernel.sleepers_setProc_of_eq rfl (by simp [hstate]) rfl)
  | stop p why p' hleaving hstops =>
    have hrunning := hinv.running_of_leaving hleaving
    cases hstops with
    | yield | kexit => exact .inl (Kernel.sleepers_setProc_of_eq rfl (by simp [hrunning]) rfl)
    | sleep hchan =>
      refine .inr ⟨p, ?_⟩
      have hreg : (m.kernel.sleepers.chan p).isSome := by
        simp [Kernel.sleepers, Proc.registration, hchan]
      simp only [Sleepers.apply, Sleepers.sleep_eq_set, hreg]
      exact Kernel.sleepers_setProc m.kernel p _

theorem Inv.sound_step (hinv : m.Inv) (hs : m.kernel.sleepers.Sound) (hstep : m.step a = some m') :
    m'.kernel.sleepers.Sound := by
  rcases step_cases hstep with ⟨op, -, hsection, hk⟩ | ⟨-, h, hmoves⟩
  · exact Kernel.sound_step (.of_section hsection) hs hk
  · rcases hinv.sleepers_moves hmoves with heq | ⟨p, heq⟩
    · rwa [heq]
    · rw [heq]
      exact hs.apply (.sleep p)

theorem Inv.chan_step_eq_none (hinv : m.Inv) (hs : m.kernel.sleepers.Sound)
    (hprep : m.NotPrepared i a) (hstep : m.step a = some m')
    (hi : m.kernel.sleepers.chan i = none) : m'.kernel.sleepers.chan i = none := by
  rcases step_cases hstep with ⟨op, hop, hsection, hk⟩ | ⟨-, h, hmoves⟩
  · exact Kernel.chan_step_eq_none (.of_section hsection) hs (hprep op hop) hk hi
  · rcases hinv.sleepers_moves hmoves with heq | ⟨p, heq⟩
    · rwa [heq]
    · rw [heq, Sleepers.apply, Sleepers.chan_sleep]
      exact hi

/-- A wakeup is not lost when scans and switches are interleaved: a process that was visited by a
wakeup of its channel is not asleep until it registers the next time. -/
theorem not_sleeping_of_woken {moves moves' : List (Move H)} {m₁ : Machine H} {chan : Nat}
    (hreach : run step init moves = some m) (hchan : (m.kernel.proc i).chan = chan)
    (hwake : m.step (.section (.wakeup i chan)) = some m₁)
    (hprep : AllSteps step (NotPrepared i) m₁ moves') (hrun : run step m₁ moves' = some m') :
    (m'.kernel.proc i).state ≠ .sleeping := by
  have hm : m.Inv ∧ m.kernel.sleepers.Sound :=
    run_invariant (I := fun m : Machine H => m.Inv ∧ m.kernel.sleepers.Sound)
      (fun m a m' h hstep => ⟨(h.1.step hstep).1, h.1.sound_step h.2 hstep⟩)
      ⟨inv_init, Kernel.sound_sleepers_init⟩ hreach
  have hwoken : m₁.Inv ∧ m₁.kernel.sleepers.Sound ∧ m₁.kernel.sleepers.chan i = none := by
    refine ⟨(hm.1.step hwake).1, hm.1.sound_step hm.2 hwake, ?_⟩
    obtain ⟨-, k, hk, rfl⟩ := section_of_step hwake
    cases hk
    exact Kernel.chan_wakeup hm.2 hchan
  obtain ⟨-, hsound, hend⟩ := run_invariant_of
    (I := fun m : Machine H => m.Inv ∧ m.kernel.sleepers.Sound ∧ m.kernel.sleepers.chan i = none)
    (fun m a m' h hop hstep => ⟨(h.1.step hstep).1, h.1.sound_step h.2.1 hstep,
      h.1.chan_step_eq_none h.2.1 hop hstep h.2.2⟩) hprep hwoken hrun
  exact Kernel.not_sleeping hsound hend

end Machine

end UnixCShell.Xv6
