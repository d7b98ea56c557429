import UnixCShell.Pipeline.Handover
import UnixCShell.Session.Basic

/-!
# The descriptors of the shell

A session opens descriptors: those of the pipes, and those of the temporary input files. It takes
the lowest that are free, and closes only what it has opened. So a descriptor that was open when the
session began leads to the same place in every state (`Session.HasOpen.step`). What the shell prints
arrives at its standard output for that reason.
-/

namespace UnixCShell

open Lib

/-! ## Functions that do not touch the descriptors -/

namespace World

variable (w : World)

@[simp] theorem fds_sigchldHandler (es : List WaitEvent) : (w.sigchldHandler es).fds = w.fds := by
  obtain ⟨_, _, h⟩ := w.sigchldHandler_frame es
  rw [h]

@[simp] theorem fds_outregFinalize (pid : Int) : (w.outregFinalize pid).fds = w.fds := by
  obtain ⟨_, _, h⟩ := w.outregFinalize_frame pid
  rw [h]

@[simp] theorem fds_foldl_outregFinalize (pids : List Int) :
    (pids.foldl outregFinalize w).fds = w.fds := by
  induction pids generalizing w with
  | nil => rfl
  | cons pid pids ih => rw [List.foldl_cons, ih, fds_outregFinalize]

@[simp] theorem fds_handleTrackedEvent (e : WaitEvent) : (w.handleTrackedEvent e).fds = w.fds := by
  obtain ⟨_, _, _, _, h⟩ := w.handleTrackedEvent_frame e
  rw [h]

theorem fds_jobsProcessPending : w.jobsProcessPending.fds = w.fds := by
  have hfold (es : List WaitEvent) (v : World) : (es.foldl handleTrackedEvent v).fds = v.fds := by
    induction es generalizing v with
    | nil => rfl
    | cons e es ih => rw [List.foldl_cons, ih, fds_handleTrackedEvent]
  exact hfold w.pending _

theorem fds_waitEvent (pids : List Int) (l : Waiter) (e : WaitEvent) :
    (w.waitEvent pids l e).1.fds = w.fds := by
  obtain ⟨_, _, _, _, h⟩ := w.waitEvent_frame pids l e
  rw [h]

@[simp] theorem fds_jobsRegister (pgid : Int) (procs : List (Int × Str)) (cmdline : Str)
    (background : Bool) (state : JobState) :
    (w.jobsRegister pgid procs cmdline background state).1.fds = w.fds := by
  unfold jobsRegister
  split <;> rfl

@[simp] theorem fds_jobsRemove (number : Int) : (w.jobsRemove number).fds = w.fds := by
  obtain ⟨_, h⟩ := w.jobsRemove_frame number
  rw [h]

@[simp] theorem fds_markStopped (number : Int) : (w.markStopped number).fds = w.fds := by
  unfold markStopped
  split
  · rfl
  · split <;> rfl

@[simp] theorem fds_termGiveTo (pgid : Int) : (w.termGiveTo pgid).fds = w.fds := by
  unfold termGiveTo
  split <;> rfl

@[simp] theorem fds_jobsFlushNotifications : w.jobsFlushNotifications.fds = w.fds :=
  w.print_fds _

theorem fds_settleForeground (l : Launch) (cmdline : Str) (stopped : Bool) :
    (w.settleForeground l cmdline stopped).fds = w.fds := by
  unfold settleForeground
  split
  · simp [printStopped, termReclaim]
  · simp [termReclaim]

theorem fds_settleResume (j : Job) (l : Waiter) (timedOut : Bool) :
    (w.settleResume j l timedOut).fds = w.fds := by
  unfold settleResume
  split
  · simp [termReclaim, kill]
  · split
    · simp [printStopped, termReclaim]
    · simp [termReclaim]

theorem fds_startResume (number : Int) (isFg : Bool) :
    (w.startResume number isFg).1.fds = w.fds := by
  unfold startResume
  split
  · rfl
  · split
    · rfl
    · cases isFg <;> simp [kill]

/-! ## A stage of a pipeline -/

variable {w} {k : Nat} {d : Desc}

/-- The temporary input file gets a descriptor that was free. -/
theorem setupInput_keeps (hk : w.fds.get k = some d) (inFiles : List Str) (i : Nat) :
    (w.setupInput inFiles i).1.fds.get k = some d ∧
      (w.setupInput inFiles i).2 ≠ .fd k := by
  have hne : k ≠ w.fds.lowest := by
    rintro rfl
    rw [w.fds.get_lowest] at hk
    cases hk
  unfold setupInput
  split
  · exact ⟨hk, by simp⟩
  · split
    · exact ⟨hk, by simp⟩
    · dsimp only [FdTable.alloc]
      split
      · refine ⟨?_, by simpa using hne.symm⟩
        rw [FdTable.get_put, if_neg hne, hk]
      · refine ⟨?_, by simp⟩
        show ((w.fds.put _ _).close _).get k = some d
        rw [FdTable.get_close, if_neg hne, FdTable.get_put, if_neg hne, hk]

theorem dropInput_keeps (hk : w.fds.get k = some d) {input : InputFd}
    (hne : input ≠ .fd k) (i : Nat) :
    (w.dropInput input i).fds.get k = some d := by
  cases input with
  | fd n =>
    have hkn : k ≠ n := fun heq => hne (by rw [heq])
    show (w.fds.close n).get k = some d
    rw [FdTable.get_close, if_neg hkn, hk]
  | none | missing => exact hk

/-- What the body of the loop does before the `fork`. -/
theorem prepareStage_keeps (hk : w.fds.get k = some d) (i : Nat) (stage : Stage) :
    (w.prepareStage i stage).1.fds.get k = some d ∧
      ∀ path, (w.prepareStage i stage).2 ≠ .ready path (.fd k) := by
  obtain ⟨hsetup, hinput⟩ := setupInput_keeps hk stage.inFiles i
  unfold prepareStage
  cases stage.args with
  | nil => exact ⟨hk, by simp⟩
  | cons cmd args =>
    rcases hset : w.setupInput stage.inFiles i with ⟨w₁, input⟩
    rw [hset] at hsetup hinput
    obtain ⟨_, _, hvalid⟩ := w₁.outregValidate_frame stage.outFiles
    rcases hval : w₁.outregValidate stage.outFiles with ⟨w₂, ok⟩
    have hw₂ : w₂.fds.get k = some d := by
      rw [hval] at hvalid
      rw [show w₂ = _ from hvalid]
      exact hsetup
    dsimp only
    split
    · next heq =>
      cases heq
      exact ⟨hsetup, by simp⟩
    · next heq =>
      cases heq
      rw [hval]
      cases ok with
      | false => exact ⟨dropInput_keeps hw₂ hinput i, by simp⟩
      | true =>
        dsimp only
        split
        · refine ⟨hw₂, fun path hready => hinput ?_⟩
          cases hready
          rfl
        · exact ⟨dropInput_keeps (w := w₂.eprint _) hw₂ hinput i, by simp⟩

/-- What the body of the loop does from the `fork` on. -/
theorem spawnStage_keeps (hk : w.fds.get k = some d) {input : InputFd}
    (hne : input ≠ .fd k) (i : Nat) (pipes : List (Nat × Nat)) (stage : Stage)
    (path : Str) (l : Launch) :
    (w.spawnStage i pipes stage path input l).1.fds.get k = some d := by
  obtain ⟨_, _, _, hfork⟩ := w.fork_frame
  have hforked : w.fork.1.fds.get k = some d := by rw [hfork]; exact hk
  have hrest (v : World) (child pgid : Int) (hv : v.fds.get k = some d) :
      (((v.setpgid child pgid).dropInput input i).outregRegister child
        (stage.outFiles.map Prod.fst)).fds.get k = some d := by
    obtain ⟨_, hregister⟩ := ((v.setpgid child pgid).dropInput input i).outregRegister_frame child
      (stage.outFiles.map Prod.fst)
    obtain ⟨_, hgroup⟩ := v.setpgid_frame child pgid
    rw [hregister]
    exact dropInput_keeps (by rw [hgroup]; exact hv) hne i
  unfold spawnStage
  rcases hw : w.fork with ⟨v, child⟩
  rw [hw] at hforked
  cases child with
  | none => exact hrest v _ _ hforked
  | some pid =>
    obtain ⟨_, _, hstart⟩ := v.startChild_frame pid i pipes stage path input l.pgid
    refine hrest _ _ _ ?_
    rw [hstart]
    exact hforked

theorem launchStage_keeps (hk : w.fds.get k = some d) (numCmds : Nat) (pipes : List (Nat × Nat))
    (l : Launch) (e : Stage × Nat) : (launchStage numCmds pipes (w, l) e).1.fds.get k = some d := by
  obtain ⟨hprepared, hready⟩ := prepareStage_keeps hk e.2 e.1
  unfold launchStage
  rcases hw : w.prepareStage e.2 e.1 with ⟨v, prepared⟩
  rw [hw] at hprepared hready
  cases prepared with
  | skipped | notFound => exact hprepared
  | ready path input =>
    exact spawnStage_keeps hprepared (fun heq => hready path (by rw [heq])) ..

end World

/-! ## Sessions -/

namespace Session

/-- The descriptor `k` leads to `d`, and is no end of a pipe that the shell is about to close. -/
structure HasOpen (k : Nat) (d : Desc) (s : Session) : Prop where
  leads : s.world.fds.get k = some d
  apart : ∀ {todo numCmds pipes l cmdline background},
    s.control = .forking todo numCmds pipes l cmdline background → k ∉ FdTable.ends pipes

variable {s s' : Session} {k : Nat} {d : Desc}

theorem fds_settle (s : Session) (on : Awaited) (l : Waiter) (timedOut : Bool) :
    (s.settle on l timedOut).fds = s.world.fds := by
  cases on with
  | launch launch cmdline => exact s.world.fds_settleForeground ..
  | job j => exact s.world.fds_settleResume ..

theorem HasOpen.init {w : World} (h : w.fds.get k = some d) : (Session.init w).HasOpen k d :=
  ⟨h, nofun⟩

/-- A step that does not touch the descriptors and does not lead into a launch. -/
theorem HasOpen.of_fds (h : s.HasOpen k d) (hfds : s'.world.fds = s.world.fds)
    (hcontrol : ∀ {todo numCmds pipes l cmdline background},
      s'.control ≠ .forking todo numCmds pipes l cmdline background) : s'.HasOpen k d :=
  ⟨by rw [hfds]; exact h.leads, fun heq => absurd heq hcontrol⟩

theorem HasOpen.launch (h : s.HasOpen k d) (group : List Token) (background : Bool) :
    (s.launch group background).HasOpen k d := by
  obtain ⟨hholds, -⟩ := s.world.makePipes_holds ((stages group).length - 1)
  have hnot : k ∉ FdTable.ends (s.world.makePipes ((stages group).length - 1)).2 := by
    intro hmem
    have hfree := hholds.free k hmem
    rw [h.leads] at hfree
    cases hfree
  refine ⟨(hholds.other k hnot).trans h.leads, fun heq => ?_⟩
  cases heq
  exact hnot

theorem HasOpen.started {todo : List (Stage × Nat)} {numCmds : Nat} {pipes : List (Nat × Nat)}
    {l : Launch} {cmdline : Str} {background : Bool} (h : s.HasOpen k d)
    (hc : s.control = .forking todo numCmds pipes l cmdline background) :
    (s.started pipes l cmdline background).HasOpen k d := by
  have hclosed : (s.world.fds.closePipes pipes).get k = some d := by
    rw [FdTable.get_closePipes, if_neg (h.apart hc), h.leads]
  unfold Session.started
  dsimp only
  split
  · exact ⟨hclosed, nofun⟩
  · split
    · refine ⟨?_, nofun⟩
      simpa [World.startBackground] using hclosed
    · refine ⟨?_, nofun⟩
      simpa using hclosed

theorem HasOpen.resume (h : s.HasOpen k d) (hidle : s.control = .idle) (args : List Str) :
    (s.resume args).HasOpen k d := by
  unfold Session.resume
  split
  · exact h.of_fds rfl (by simp [hidle])
  · next r _ =>
    have hfds := s.world.fds_startResume r.jobNumber r.isFg
    split
    · next heq =>
      rw [heq] at hfds
      exact h.of_fds hfds (by simp [hidle])
    · next heq =>
      rw [heq] at hfds
      exact h.of_fds hfds (by simp)

/-- An open descriptor stays as it is. -/
theorem HasOpen.step (h : s.HasOpen k d) {a : Act} (hstep : s.step a = some s') :
    s'.HasOpen k d := by
  cases steps_of_step hstep with
  | signals => exact ⟨by rw [World.fds_sigchldHandler]; exact h.leads, h.apart⟩
  | alarm => exact h.of_fds rfl nofun
  | processPending => exact h.of_fds (World.fds_jobsProcessPending _) nofun
  | flush => exact h.of_fds (World.fds_jobsFlushNotifications _) nofun
  | launch => exact h.launch _ _
  | @stage w e todo numCmds pipes l cmdline background consumed pid w' l' _ hlaunch =>
    have hkeeps := World.launchStage_keeps (w := { w with forks := [⟨pid, []⟩] }) h.leads
      numCmds pipes l e
    rw [hlaunch] at hkeeps
    refine ⟨hkeeps, fun heq => ?_⟩
    cases heq
    exact h.apart rfl
  | started => exact h.started rfl
  | @wait w on l alarm timedOut consumed e es w' l' _ _ hevent =>
    have hfds := World.fds_waitEvent { w with pending := es } on.pids l e
    rw [hevent] at hfds
    exact h.of_fds hfds nofun
  | @finish w on l alarm timedOut consumed =>
    refine h.of_fds ?_ nofun
    rw [finish_flushes, World.fds_jobsFlushNotifications, fds_settle]
  | resume => exact h.resume rfl _

end Session

end UnixCShell
