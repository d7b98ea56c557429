import UnixCShell.Xv6.Harts

/-!
# Slices and stamps

The scheduling data of the process table, for harts that share it: no process has used up its slice
when its lock is free, so that `mlfq_slice` is never read out of bounds, and no two processes in the
queues have the same stamp, so that the choice of the scheduler is unique. Every step has one of the
effects of `Effect`; each property has to be checked for these four only.
-/

namespace UnixCShell.Xv6

open Lib

/-! ## Slices -/

/-- The level of the process exists, and its slice is not used up. -/
def Proc.InSlice (p : Proc) : Prop :=
  p.mlfqPriority < mlfqLevels ∧ p.mlfqTicksUsed < mlfqSlice p.mlfqPriority

theorem mlfqSlice_pos {l : Nat} (h : l < mlfqLevels) : 0 < mlfqSlice l := by
  match l, h with
  | 0, _ | 1, _ | 2, _ | 3, _ => decide

theorem Effect.inSlice {p p' : Proc} {seq seq' : Nat} (h : Effect p seq p' seq') (hp : p.InSlice) :
    p'.InSlice := by
  cases h with
  | keep hprio hticks _ _ =>
    unfold Proc.InSlice
    rwa [hprio, hticks]
  | charge hprio hticks hlt _ _ =>
    unfold Proc.InSlice
    rw [hprio, hticks]
    exact ⟨hp.1, hlt⟩
  | clear hprio hticks _ =>
    unfold Proc.InSlice
    rw [hprio, hticks]
    decide
  | enqueue hprio hticks _ =>
    unfold Proc.InSlice
    rw [hticks]
    exact ⟨hprio hp.1, mlfqSlice_pos (hprio hp.1)⟩

/-! ## Stamps -/

/-- The stamps that have been given are different. -/
structure StampsOk {H : Type} (k : Kernel H) : Prop where
  counter  : 0 < k.mlfqSeqCounter
  given    : ∀ i, (k.proc i).Stamped →
    0 < (k.proc i).mlfqQtime ∧ (k.proc i).mlfqQtime < k.mlfqSeqCounter
  distinct : ∀ i j, i ≠ j → (k.proc i).Stamped → (k.proc j).Stamped →
    (k.proc i).mlfqQtime ≠ (k.proc j).mlfqQtime

section

variable {H : Type} {k k' : Kernel H} {i : Fin nproc}

/-- The process keeps its stamp, if it has one behind the step. -/
theorem StampsOk.keep (hk : StampsOk k) (hseq : k'.mlfqSeqCounter = k.mlfqSeqCounter)
    (hothers : ∀ j, j ≠ i → k'.proc j = k.proc j)
    (hi : (k'.proc i).Stamped → (k.proc i).Stamped ∧ (k'.proc i).mlfqQtime = (k.proc i).mlfqQtime) :
    StampsOk k' := by
  have hall : ∀ j, (k'.proc j).Stamped →
      (k.proc j).Stamped ∧ (k'.proc j).mlfqQtime = (k.proc j).mlfqQtime := by
    intro j hj
    by_cases hij : j = i
    · subst hij
      exact hi hj
    · rw [hothers j hij] at hj ⊢
      exact ⟨hj, rfl⟩
  refine ⟨by rw [hseq]; exact hk.counter, fun j hj => ?_, fun j j' hne hj hj' => ?_⟩
  · rw [(hall j hj).2, hseq]
    exact hk.given j (hall j hj).1
  · rw [(hall j hj).2, (hall j' hj').2]
    exact hk.distinct j j' hne (hall j hj).1 (hall j' hj').1

/-- The process gets a new stamp. -/
theorem StampsOk.enqueue (hk : StampsOk k) (hseq : k'.mlfqSeqCounter = k.mlfqSeqCounter + 1)
    (hothers : ∀ j, j ≠ i → k'.proc j = k.proc j)
    (hi : (k'.proc i).mlfqQtime = k.mlfqSeqCounter) : StampsOk k' := by
  -- all other stamps are older
  have holder : ∀ j, j ≠ i → (k'.proc j).Stamped →
      0 < (k'.proc j).mlfqQtime ∧ (k'.proc j).mlfqQtime < k.mlfqSeqCounter := by
    intro j hij hj
    rw [hothers j hij] at hj ⊢
    exact hk.given j hj
  have hcounter := hk.counter
  refine ⟨by omega, fun j hj => ?_, fun j j' hne hj hj' => ?_⟩
  · by_cases hij : j = i
    · rw [hij, hi, hseq]
      omega
    · have := holder j hij hj
      omega
  · by_cases hij : j = i
    · have hij' : j' ≠ i := fun h => hne (hij.trans h.symm)
      have := holder j' hij' hj'
      rw [hij, hi]
      omega
    · by_cases hij' : j' = i
      · have := holder j hij hj
        rw [hij', hi]
        omega
      · rw [hothers j hij, hothers j' hij'] at *
        exact hk.distinct j j' hne hj hj'

theorem Touches.seq_le (h : Touches k k' i) : k.mlfqSeqCounter ≤ k'.mlfqSeqCounter := by
  obtain ⟨heffect, -⟩ := h
  generalize k'.mlfqSeqCounter = seq at heffect
  cases heffect <;> omega

/-- A step keeps the stamps different, as long as the counter does not wrap around. -/
theorem Touches.stampsOk (h : Touches k k' i) (hk : StampsOk k)
    (hseq : k'.mlfqSeqCounter ≤ 2 ^ 64) :
    StampsOk k' := by
  obtain ⟨heffect, hothers⟩ := h
  generalize hseq' : k'.mlfqSeqCounter = seq at heffect hseq
  cases heffect with
  | keep _ _ hqtime hstamped => exact hk.keep hseq' hothers fun hi => ⟨hstamped hi, hqtime⟩
  | charge _ _ _ hqtime hstamped => exact hk.keep hseq' hothers fun hi => ⟨hstamped hi, hqtime⟩
  | clear _ _ hstamped => exact hk.keep hseq' hothers fun hi => absurd hi hstamped
  | enqueue _ _ hqtime =>
    rw [Nat.mod_eq_of_lt (by omega)] at hqtime
    exact hk.enqueue hseq' hothers hqtime

end

/-! ## Over all runs -/

variable {H : Type} [DecidableEq H]

/-- What holds of the scheduling data in every reachable state. -/
structure Machine.Scheduled (m : Machine H) : Prop where
  inv    : m.Inv
  slices : ∀ i, (m.kernel.proc i).InSlice
  stamps : m.kernel.mlfqSeqCounter ≤ 2 ^ 64 → StampsOk m.kernel

omit [DecidableEq H] in
theorem Machine.scheduled_init : (Machine.init : Machine H).Scheduled where
  inv := inv_init
  slices _ := ⟨Nat.zero_lt_succ 3, Nat.one_pos⟩
  stamps _ := by
    refine ⟨Nat.one_pos, ?_, ?_⟩
    all_goals simp [Machine.init, Kernel.init, Proc.Stamped]

theorem Machine.Scheduled.step {m m' : Machine H} (hm : m.Scheduled) {a : Move H}
    (hstep : m.step a = some m') : m'.Scheduled := by
  obtain ⟨hinv, i, hi⟩ := hm.inv.step hstep
  refine ⟨hinv, fun j => ?_, fun hseq => ?_⟩
  · by_cases hij : j = i
    · rw [hij]
      exact hi.effect.inSlice (hm.slices i)
    · rw [hi.others j hij]
      exact hm.slices j
  · exact hi.stampsOk (hm.stamps (hi.seq_le.trans hseq)) hseq

/-- **Slices and stamps**: in every reachable state every process is on one of the levels and has
used less than its slice; and if fewer than `2 ^ 64` stamps have been given, those of the processes
that are `RUNNABLE`, `RUNNING` or `SLEEPING` are different, positive and less than the counter. -/
theorem slices_and_stamps {moves : List (Move H)} {m : Machine H}
    (hrun : run Machine.step (Machine.init : Machine H) moves = some m) :
    (∀ i, (m.kernel.proc i).mlfqPriority ≤ 3 ∧
      (m.kernel.proc i).mlfqTicksUsed < mlfqSlice (m.kernel.proc i).mlfqPriority) ∧
    (m.kernel.mlfqSeqCounter - 1 < 2 ^ 64 →
      (∀ i, (m.kernel.proc i).Stamped →
        0 < (m.kernel.proc i).mlfqQtime ∧ (m.kernel.proc i).mlfqQtime < m.kernel.mlfqSeqCounter) ∧
      ∀ i j, i ≠ j → (m.kernel.proc i).Stamped → (m.kernel.proc j).Stamped →
        (m.kernel.proc i).mlfqQtime ≠ (m.kernel.proc j).mlfqQtime) := by
  have hm : m.Scheduled := run_invariant (fun _ _ _ hi hs => hi.step hs) Machine.scheduled_init hrun
  refine ⟨fun i => ⟨Nat.le_of_lt_succ (hm.slices i).1, (hm.slices i).2⟩, fun hseq => ?_⟩
  have hok := hm.stamps (by omega)
  exact ⟨hok.given, hok.distinct⟩

/-- The process of `twiceMoves` uses up its first slice. -/
def chargedMachine : Machine Bool :=
  (run Machine.step Machine.init (Machine.twiceMoves ++ [.section (.tick true)])).get
    (by decide +kernel)

theorem slices_and_stamps_charged :
    (chargedMachine.kernel.proc Machine.slot0).mlfqPriority = 1 ∧
      (chargedMachine.kernel.proc Machine.slot0).mlfqTicksUsed < 4 ∧
      (chargedMachine.kernel.proc Machine.slot0).mlfqQtime <
        chargedMachine.kernel.mlfqSeqCounter := by
  have hrun : run Machine.step Machine.init (Machine.twiceMoves ++ [.section (.tick true)]) =
      some chargedMachine := (Option.some_get _).symm
  have hprio : (chargedMachine.kernel.proc Machine.slot0).mlfqPriority = 1 := by decide +kernel
  obtain ⟨hslices, hstamps⟩ := slices_and_stamps hrun
  have hslice := (hslices Machine.slot0).2
  rw [hprio] at hslice
  exact ⟨hprio, hslice,
    ((hstamps (by decide +kernel)).1 Machine.slot0 (.inr (.inl (by decide +kernel)))).2⟩

end UnixCShell.Xv6
