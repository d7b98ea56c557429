import UnixCShell.Xv6.Harts

/-!
# Uninterrupted passes

`Kernel.step` does in one step what a hart does in many: a scan of the whole table with the dispatch
of its choice, or giving up the hart. Here these are passes of the machine in which no other hart
moves, so that every run of the kernel is a run of the machine (`run_atRest`). What holds when the
other harts do move in between is in `Xv6.Interleaved`.
-/

namespace UnixCShell.Xv6

open Lib

namespace Machine

variable {H : Type}

/-- The machine between two passes: every hart runs its process, or is about to look for one. -/
def atRest (k : Kernel H) : Machine H where
  kernel := k
  locks := { pc := fun h => (k.cpu h).elim .start .running, lock := fun _ => none }

theorem pc_atRest_none {k : Kernel H} {h : H} (hcpu : k.cpu h = none) :
    (atRest k).locks.pc h = .start := by
  show (k.cpu h).elim _ _ = _
  rw [hcpu]
  rfl

theorem pc_atRest_some {k : Kernel H} {h : H} {p : Fin nproc} (hcpu : k.cpu h = some p) :
    (atRest k).locks.pc h = .running p := by
  show (k.cpu h).elim _ _ = _
  rw [hcpu]
  rfl

/-- A machine is at rest if its locks are free and its program counters are those of `c->proc`. -/
theorem eq_atRest {m : Machine H} (hpc : ∀ h, m.locks.pc h = (m.kernel.cpu h).elim .start .running)
    (hlock : ∀ p, m.locks.lock p = none) : m = atRest m.kernel := by
  obtain ⟨k, pc, lock⟩ := m
  obtain rfl : pc = fun h => (k.cpu h).elim .start .running := funext hpc
  obtain rfl : lock = fun _ => none := funext hlock
  rfl

variable [DecidableEq H]

/-! ## Critical sections -/

/-- The process that takes a step is on its hart. -/
theorem isSome_of_step {k k' : Kernel H} {op : Op H} (hop : op.isSection = true)
    (hstep : k.step op = some k') : ∀ h ∈ op.actor, (k.cpu h).isSome := by
  intro h hh
  cases Kernel.Step.of_step hstep with
  | kforkAlloc _ _ _ hsome | kforkParent _ _ hsome =>
    cases hh
    exact hsome
  | sleepPrepare _ _ _ hp | reparent _ _ _ hp | reparentOther _ _ _ hp | kwait _ _ _ hp
  | tick _ _ hp =>
    cases hh
    exact Option.isSome_of_mem hp
  | sleep | sleepWoken | kexit | yield | dispatch | dispatchIdle | dispatchLost => cases hop
  | _ => cases hh

theorem section_atRest {k k' : Kernel H} {op : Op H} (hop : op.isSection = true)
    (hstep : k.step op = some k') : run step (atRest k) [.section op] = some (atRest k') := by
  have henters : (atRest k).Enters op := by
    refine ⟨hop, fun _ _ => rfl, fun h hh => ?_⟩
    obtain ⟨p, hp⟩ := Option.isSome_iff_exists.mp (isSome_of_step hop hstep h hh)
    rw [pc_atRest_some hp]
    rfl
  obtain ⟨i, hi⟩ := Kernel.step_section hop hstep
  have hkernel : (atRest k).kernel.step op = some k' := hstep
  have hrest : ({ atRest k with kernel := k' } : Machine H) = atRest k' := by
    apply eq_atRest
    · intro h
      show (k.cpu h).elim _ _ = (k'.cpu h).elim _ _
      rw [hi.cpu]
    · exact fun _ => rfl
  simp only [run, step, if_pos henters, hkernel, Option.map_some, Option.bind_some, hrest]

/-! ## Passes of one hart -/

/-- The machine during a pass of the hart `h`, which began at rest with the kernel `k₀`. -/
def passing (k₀ : Kernel H) (h : H) (k : Kernel H) (pc : Pc) : Machine H where
  kernel := k
  locks :=
    { pc := Function.update (atRest k₀).locks.pc h pc
      lock := fun p => if pc.holds = some p then some h else none }

section

variable {k₀ k : Kernel H} {h : H} {pc pc' : Pc} {p : Fin nproc}

@[simp] theorem pc_passing : (passing k₀ h k pc).locks.pc h = pc := Function.update_self ..

@[simp] theorem kernel_passing : (passing k₀ h k pc).kernel = k := rfl

theorem lock_passing (hnone : pc.holds = none) : (passing k₀ h k pc).locks.lock p = none := by
  simp [passing, hnone]

/-! The hart moves: -/

theorem passing_goto {k' : Kernel H} (hholds : pc'.holds = pc.holds) :
    ({ kernel := k', locks := (passing k₀ h k pc).locks.goto h pc' } : Machine H) =
      passing k₀ h k' pc' := by
  simp [passing, Locks.goto, hholds]

theorem passing_acquire (hnone : pc.holds = none) (hholds : pc'.holds = some p) :
    ({ kernel := k, locks := (passing k₀ h k pc).locks.acquire h p pc' } : Machine H) =
      passing k₀ h k pc' := by
  simp only [passing, Locks.acquire, Function.update_idem, hnone, hholds]
  congr 2
  funext q
  by_cases hq : q = p
  · simp [hq]
  · have hpq : p ≠ q := fun heq => hq heq.symm
    simp [hq, hpq]

theorem passing_release (hholds : pc.holds = some p) (hnone : pc'.holds = none) :
    ({ kernel := k, locks := (passing k₀ h k pc).locks.release h p pc' } : Machine H) =
      passing k₀ h k pc' := by
  simp only [passing, Locks.release, Function.update_idem, hnone, hholds]
  congr 2
  funext q
  by_cases hq : q = p
  · simp [hq]
  · have hpq : p ≠ q := fun heq => hq heq.symm
    simp [hq, hpq]

/-- A pass begins at rest. -/
theorem atRest_eq_passing (hpc : (atRest k₀).locks.pc h = pc) (hnone : pc.holds = none) :
    atRest k₀ = passing k₀ h k₀ pc := by
  simp only [passing, ← hpc, Function.update_eq_self]
  rw [hpc, hnone]
  rfl

/-- A pass ends at rest. -/
theorem passing_eq_atRest (hpc : pc = (k.cpu h).elim .start .running)
    (hcpu : ∀ h', h' ≠ h → k.cpu h' = k₀.cpu h') : passing k₀ h k pc = atRest k := by
  apply eq_atRest
  · intro h'
    by_cases hh : h' = h
    · subst hh
      rw [pc_passing, hpc]
      rfl
    · show Function.update (atRest k₀).locks.pc h pc h' = (k.cpu h').elim _ _
      rw [Function.update_of_ne hh, hcpu h' hh]
      rfl
  · intro p
    apply lock_passing
    rw [hpc]
    cases k.cpu h <;> rfl

/-! ### Giving up the hart -/

/-- The process of the hart gives it up with the new data `p'`. -/
theorem leave_atRest (hcpu : k₀.cpu h = some p) (why : Leaving) {p' : Proc}
    (hnext : (passing k₀ h k₀ (.leaving p why)).step (.next h) =
      some (passing k₀ h (k₀.setProc p p') (.switching p))) :
    run step (atRest k₀) [.leave h why, .next h, .next h, .next h] =
      some (atRest ((k₀.setProc p p').setCpu h none)) := by
  have hleave : (passing k₀ h k₀ (.running p)).step (.leave h why) =
      some (passing k₀ h k₀ (.leaving p why)) := by
    have hfree : (passing k₀ h k₀ (.running p)).locks.lock p = none := lock_passing rfl
    simp only [step, pc_passing, if_pos hfree]
    exact congrArg some (passing_acquire rfl rfl)
  have hswitch : (passing k₀ h (k₀.setProc p p') (.switching p)).step (.next h) =
      some (passing k₀ h ((k₀.setProc p p').setCpu h none) (.back p)) := by
    simp only [step, next, pc_passing]
    exact congrArg some (passing_goto rfl)
  have hback : (passing k₀ h ((k₀.setProc p p').setCpu h none) (.back p)).step (.next h) =
      some (passing k₀ h ((k₀.setProc p p').setCpu h none) .start) := by
    simp only [step, next, pc_passing]
    exact congrArg some (passing_release rfl rfl)
  have hrest : passing k₀ h ((k₀.setProc p p').setCpu h none) .start =
      atRest ((k₀.setProc p p').setCpu h none) := by
    apply passing_eq_atRest
    · simp [Kernel.setCpu]
    · intro h' hh
      simp [Kernel.setCpu, Kernel.setProc, hh]
  rw [atRest_eq_passing (pc_atRest_some hcpu) rfl, run_step hleave, run_step hnext,
    run_step hswitch,
    run_step hback, hrest]
  rfl

/-! ### Looking for a process -/

/-- One process of a scan. -/
theorem next_scan {i : Nat} (hi : i < nproc) (best : Option (Fin nproc) × Nat × Nat) :
    (passing k₀ h k (.scan i best.1 best.2.1 best.2.2)).step (.next h) =
      some (passing k₀ h k (.scan (i + 1) (k.scanProc best ⟨i, hi⟩).1 (k.scanProc best ⟨i, hi⟩).2.1
        (k.scanProc best ⟨i, hi⟩).2.2)) := by
  have hfree : (passing k₀ h k (.scan i best.1 best.2.1 best.2.2)).locks.lock ⟨i, hi⟩ = none :=
    lock_passing rfl
  simp only [step, next, pc_passing, dif_pos hi, if_pos hfree]
  exact congrArg some (passing_goto rfl)

/-- What a scan has found behind its first `n` processes. -/
def scanned (k : Kernel H) (n : Nat) : Option (Fin nproc) × Nat × Nat :=
  ((List.finRange nproc).take n).foldl k.scanProc (none, mlfqLevels, 0)

theorem run_scan (k₀ k : Kernel H) (h : H) {n : Nat} (hn : n ≤ nproc) :
    run step (passing k₀ h k .start) (List.replicate n (.next h)) =
      some (passing k₀ h k (.scan n (scanned k n).1 (scanned k n).2.1 (scanned k n).2.2)) := by
  induction n with
  | zero => rfl
  | succ n ih =>
    have hlt : n < nproc := hn
    have htake : (List.finRange nproc).take (n + 1) =
        (List.finRange nproc).take n ++ [⟨n, hlt⟩] := by
      rw [List.take_add_one, List.getElem?_eq_getElem (by simpa using hlt)]
      simp
    have hscanned : scanned k (n + 1) = k.scanProc (scanned k n) ⟨n, hlt⟩ := by
      rw [scanned, htake, List.foldl_append]
      rfl
    rw [List.replicate_succ', run_append, ih (by omega), Option.bind_some,
      run_step (next_scan hlt _),
      ← hscanned]
    rfl

omit [DecidableEq H] in
theorem scanned_nproc (k : Kernel H) : (scanned k nproc).1 = k.scan := by
  rw [scanned, List.take_of_length_le (by simp)]
  rfl

/-- A scan that finds nothing. -/
theorem next_scan_none (prio qtime : Nat) :
    (passing k₀ h k (.scan nproc none prio qtime)).step (.next h) =
      some (passing k₀ h k .start) := by
  simp only [step, next, pc_passing, lt_irrefl, dite_false]
  exact congrArg some (passing_goto rfl)

/-- The process that has been found is verified. -/
theorem next_scan_some (best : Fin nproc) (prio qtime : Nat) :
    (passing k₀ h k (.scan nproc (some best) prio qtime)).step (.next h) =
      some (passing k₀ h k (.verify best)) := by
  have hfree : (passing k₀ h k (.scan nproc (some best) prio qtime)).locks.lock best = none :=
    lock_passing rfl
  simp only [step, next, pc_passing, lt_irrefl, dite_false, if_pos hfree]
  exact congrArg some (passing_acquire rfl rfl)

theorem next_verify_failed {best : Fin nproc} (hstate : (k.proc best).state ≠ .runnable) :
    (passing k₀ h k (.verify best)).step (.next h) = some (passing k₀ h k .start) := by
  simp only [step, next, pc_passing, kernel_passing, hstate, if_false]
  exact congrArg some (passing_release rfl rfl)

/-- A process that is `RUNNABLE` is started. -/
theorem run_verify {best : Fin nproc} (hstate : (k.proc best).state = .runnable) :
    run step (passing k₀ h k (.verify best)) [.next h, .next h, .next h] =
      some (passing k₀ h
        ((k.setProc best { k.proc best with state := .running }).setCpu h (some best))
        (.running best)) := by
  have hverify : (passing k₀ h k (.verify best)).step (.next h) =
      some (passing k₀ h (k.setProc best { k.proc best with state := .running })
        (.chosen best)) := by
    simp only [step, next, pc_passing, kernel_passing, hstate, if_true]
    exact congrArg some (passing_goto rfl)
  have hchosen :
      (passing k₀ h (k.setProc best { k.proc best with state := .running }) (.chosen best)).step
        (.next h) = some (passing k₀ h
          ((k.setProc best { k.proc best with state := .running }).setCpu h (some best))
          (.entering best)) := by
    simp only [step, next, pc_passing]
    exact congrArg some (passing_goto rfl)
  rw [run_step hverify, run_step hchosen, run, step, next, pc_passing]
  exact congrArg some (passing_release rfl rfl)

end

/-! ## Runs of the kernel -/

/-- A step of the kernel is a pass of the machine. -/
theorem step_atRest {k k' : Kernel H} {op : Op H} (hstep : k.step op = some k') :
    ∃ moves, run step (atRest k) moves = some (atRest k') := by
  by_cases hop : op.isSection = true
  · exact ⟨_, section_atRest hop hstep⟩
  have hbegin : ∀ h, k.cpu h = none → run step (atRest k) (List.replicate nproc (.next h)) =
      some (passing k h k (.scan nproc k.scan (scanned k nproc).2.1 (scanned k nproc).2.2)) := by
    intro h hcpu
    rw [← scanned_nproc, atRest_eq_passing (pc_atRest_none hcpu) rfl]
    exact run_scan k k h le_rfl
  have hidle : ∀ h, k.cpu h = none → passing k h k .start = atRest k :=
    fun h hcpu => (atRest_eq_passing (pc_atRest_none hcpu) rfl).symm
  cases Kernel.Step.of_step hstep with
  | sleep h p hcpu hchan =>
    refine ⟨_, leave_atRest hcpu .sleep ?_⟩
    simp only [step, next, pc_passing, kernel_passing, hchan, ne_eq, not_false_eq_true, if_true]
    exact congrArg some (passing_goto rfl)
  | sleepWoken => exact ⟨[], rfl⟩
  | kexit h status p hcpu hinit =>
    refine ⟨_, leave_atRest hcpu (.kexit status) ?_⟩
    simp only [step, next, pc_passing, kernel_passing, hinit, ne_eq, not_false_eq_true, if_true]
    exact congrArg some (passing_goto rfl)
  | yield h p hcpu =>
    refine ⟨_, leave_atRest hcpu .yield ?_⟩
    simp only [step, next, pc_passing]
    exact congrArg some (passing_goto rfl)
  | dispatch h best hcpu hscan hstate =>
    refine ⟨List.replicate nproc (.next h) ++ [.next h, .next h, .next h, .next h], ?_⟩
    rw [run_append, hbegin h hcpu, hscan, Option.bind_some, run_step (next_scan_some ..),
      run_verify hstate,
      passing_eq_atRest]
    · simp [Kernel.setCpu]
    · intro h' hh
      simp [Kernel.setCpu, Kernel.setProc, hh]
  | dispatchIdle h hcpu hscan =>
    refine ⟨List.replicate nproc (.next h) ++ [.next h], ?_⟩
    rw [run_append, hbegin h hcpu, hscan, Option.bind_some,
      run_step (next_scan_none ..), hidle h hcpu]
    rfl
  | dispatchLost h best hcpu hscan hstate =>
    refine ⟨List.replicate nproc (.next h) ++ [.next h, .next h], ?_⟩
    rw [run_append, hbegin h hcpu, hscan, Option.bind_some, run_step (next_scan_some ..),
      run_step (next_verify_failed hstate), hidle h hcpu]
    rfl
  | _ => exact absurd rfl hop

/-- Every run of the kernel is a run of the machine. -/
theorem run_atRest {ops : List (Op H)} {k k' : Kernel H} (hrun : run Kernel.step k ops = some k') :
    ∃ moves, run step (atRest k) moves = some (atRest k') := by
  induction ops generalizing k with
  | nil =>
    cases hrun
    exact ⟨[], rfl⟩
  | cons op ops ih =>
    obtain ⟨k₁, hstep, hrest⟩ := run_cons hrun
    obtain ⟨moves, hmoves⟩ := step_atRest hstep
    obtain ⟨moves', hmoves'⟩ := ih hrest
    exact ⟨moves ++ moves', by rw [run_append, hmoves, Option.bind_some, hmoves']⟩

end Machine

end UnixCShell.Xv6
