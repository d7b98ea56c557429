import UnixCShell.Hop.Run
import UnixCShell.Redirection.Verified
import UnixCShell.Session.Basic

/-!
# Output and the working directory

The targets of a command are opened twice: by `outreg_validate` when it is launched, and by
`outreg_finalize` when it is gone. The temporary file is created by the child and read by
`outreg_finalize`. The registry keeps the names as they were typed, and the name of the temporary
file is relative, so the second time they are resolved in the directory that the shell is in by
then.

`finalizeNames_eq_launchNames_iff` says for every run in between what the second time depends on.
Here a run has, next to the steps of a session, the command `hop`, and steps that change everything
else.
-/

namespace UnixCShell

open Lib

namespace World

/-! ## The names -/

/-- The files that `outreg_finalize` opens: the temporary file and the targets. -/
def finalizeNames (w : World) (pid : Int) : Option (Str × List Str) :=
  (w.registry.findSlot fun s => s.pid = pid).bind fun i =>
    (w.registry.cell i).map fun s => (w.locate (tmpOutName pid), s.outFiles.map w.locate)

/-- The files that are opened when a stage is launched: the temporary file, by the child, and the
targets, by `outreg_validate`. -/
def launchNames (w : World) (pid : Int) (stage : Stage) : Str × List Str :=
  (w.locate (tmpOutName pid), stage.outFiles.map fun f => w.locate f.1)

/-- The stage is launched as the process `pid`; the shell is in `w` before and in `w'` after. -/
structure Launches (w : World) (stage : Stage) (pid : Nat) (w' : World) : Prop where
  fork  : w.fork.2 = some pid
  stage : ∃ i numCmds pipes l path input forks, (w.prepareStage i stage).2 = .ready path input ∧
    w' = { (launchStage numCmds pipes (w, l) (stage, i)).1 with forks := forks }

/-! ## What they depend on -/

/-- The working directory and the registry. -/
def outlets (w : World) : Str × Slots outregMax OutSpec := (w.cwd, w.registry)

variable (w : World)

@[simp] theorem outlets_print (s : Str) : (w.print s).outlets = w.outlets := by
  unfold print
  split <;> rfl

@[simp] theorem outlets_kill (target : Int) (sig : Nat) : (w.kill target sig).outlets = w.outlets :=
  rfl

@[simp] theorem outlets_termReclaim : w.termReclaim.outlets = w.outlets := rfl

@[simp] theorem outlets_termGiveTo (pgid : Int) : (w.termGiveTo pgid).outlets = w.outlets := by
  unfold termGiveTo
  split <;> rfl

@[simp] theorem outlets_printStopped (number : Int) (cmdline : Str) :
    (w.printStopped number cmdline).outlets = w.outlets := w.outlets_print _

@[simp] theorem outlets_jobsFlushNotifications : w.jobsFlushNotifications.outlets = w.outlets :=
  w.outlets_print _

@[simp] theorem outlets_jobsRegister (pgid : Int) (procs : List (Int × Str)) (cmdline : Str)
    (background : Bool) (state : JobState) :
    (w.jobsRegister pgid procs cmdline background state).1.outlets = w.outlets := by
  unfold jobsRegister
  split <;> rfl

@[simp] theorem outlets_jobsRemove (number : Int) : (w.jobsRemove number).outlets = w.outlets := by
  obtain ⟨_, h⟩ := w.jobsRemove_frame number
  rw [h]
  rfl

@[simp] theorem outlets_markStopped (number : Int) :
    (w.markStopped number).outlets = w.outlets := by
  unfold markStopped
  split
  · rfl
  · split <;> rfl

@[simp] theorem outlets_startBackground (l : Launch) (cmdline : Str) :
    (w.startBackground l cmdline).outlets = w.outlets :=
  (outlets_print ..).trans (w.outlets_jobsRegister ..)

@[simp] theorem outlets_startResume (number : Int) (isFg : Bool) :
    (w.startResume number isFg).1.outlets = w.outlets := by
  unfold startResume
  split
  · rfl
  · split
    · rfl
    · dsimp only
      split
      · rw [outlets_termGiveTo, outlets_print]
        rfl
      · rw [outlets_print]
        rfl

@[simp] theorem outlets_sigchldHandler (es : List WaitEvent) :
    (w.sigchldHandler es).outlets = w.outlets := by
  obtain ⟨_, _, h⟩ := w.sigchldHandler_frame es
  rw [h]
  rfl

@[simp] theorem outlets_trackJob (e : WaitEvent) : (w.trackJob e).outlets = w.outlets := by
  obtain ⟨_, _, h⟩ := w.trackJob_frame e
  rw [h]
  rfl

@[simp] theorem outlets_makePipes (n : Nat) : (w.makePipes n).1.outlets = w.outlets := by
  obtain ⟨_, _, h⟩ := w.makePipes_frame n
  rw [h]
  rfl

@[simp] theorem outlets_prepareStage (i : Nat) (stage : Stage) :
    (w.prepareStage i stage).1.outlets = w.outlets := by
  obtain ⟨_, _, _, h⟩ := w.prepareStage_frame i stage
  rw [h]
  rfl

theorem fork_prepareStage (i : Nat) (stage : Stage) :
    (w.prepareStage i stage).1.fork.2 = w.fork.2 := by
  obtain ⟨_, _, _, h⟩ := w.prepareStage_frame i stage
  rw [fork_snd, fork_snd, h]

/-- From `fork` to the registration of the targets, nothing happens to the registry. -/
theorem spawnStage_eq_outregRegister (i : Nat) (pipes : List (Nat × Nat))
    (stage : Stage) (path : Str) (input : InputFd) (l : Launch) :
    ∃ w₁ : World, w₁.outlets = w.outlets ∧ (w.spawnStage i pipes stage path input l).1 =
      w₁.outregRegister (w.fork.2.elim (-1) fun pid => pid) (stage.outFiles.map Prod.fst) := by
  have hafter : ∀ (w : World) (child pgid : Int),
      ((w.setpgid child pgid).dropInput input i).outlets = w.outlets := by
    intro w child pgid
    obtain ⟨_, _, hdrop⟩ := (w.setpgid child pgid).dropInput_frame input i
    obtain ⟨_, hset⟩ := w.setpgid_frame child pgid
    rw [hdrop, hset]
    rfl
  obtain ⟨_, _, _, hframe⟩ := w.fork_frame
  rcases hfork : w.fork with ⟨w₁, _ | pid⟩
  · rw [hfork] at hframe
    simp only [spawnStage, hfork]
    refine ⟨_, (hafter w₁ _ _).trans ?_, rfl⟩
    rw [show w₁ = _ from hframe]
    rfl
  · rw [hfork] at hframe
    simp only [spawnStage, hfork]
    refine ⟨_, (hafter (w₁.startChild pid i pipes stage path input l.pgid) _ _).trans ?_, rfl⟩
    obtain ⟨_, _, hstart⟩ := w₁.startChild_frame pid i pipes stage path input l.pgid
    rw [hstart, show w₁ = _ from hframe]
    rfl

end World

/-! ## One entry of the registry -/

/-- The entry of the process `pid`. -/
def OutSpec.Of (pid : Int) (s : OutSpec) : Prop := s.pid = pid

section Passes

variable {w w₁ w₂ w₃ : World} {pid : Int} {b b' : Prop}

/-- What happens to the entries of the process `pid` between two states of the shell in one
directory: if `b`, the output has been finalised, and if not, they are as before. -/
structure World.Passes (pid : Int) (b : Prop) (w w' : World) : Prop where
  cwd  : w'.cwd = w.cwd
  kept : ¬ b → w.registry.SameOn (OutSpec.Of pid) w'.registry
  gone : b → w.registry.Sole (OutSpec.Of pid) → w'.registry.Lacks (OutSpec.Of pid)

namespace World

theorem Passes.of_outlets (h : w₁.outlets = w.outlets) : w.Passes pid False w₁ where
  cwd := congrArg Prod.fst h
  kept _ := by
    rw [show w₁.registry = w.registry from congrArg Prod.snd h]
    exact .refl _ _
  gone h := h.elim

theorem Passes.refl (w : World) : w.Passes pid False w := .of_outlets rfl

theorem Passes.congr (h : w.Passes pid b w₁) (hb : b' ↔ b) : w.Passes pid b' w₁ := by
  rwa [propext hb]

theorem Passes.trans (h : w₁.Passes pid b w₂) (h' : w₂.Passes pid b' w₃) :
    w₁.Passes pid (b ∨ b') w₃ where
  cwd := h'.cwd.trans h.cwd
  kept hb := by
    rw [not_or] at hb
    exact (h.kept hb.1).trans (h'.kept hb.2)
  gone hb hsole := by
    -- the first of the two that finalises clears the only entry, and the other one finds nothing
    by_cases h₁ : b
    · have hlacks := h.gone h₁ hsole
      by_cases h₂ : b'
      · exact h'.gone h₂ hlacks.sole
      · exact (h'.kept h₂).lacks hlacks
    · exact h'.gone (hb.resolve_left h₁) ((h.kept h₁).sole hsole)

/-- Behind a step that does not touch the registry. -/
theorem Passes.trans_outlets (h : w₁.Passes pid b w₂) (h' : w₃.outlets = w₂.outlets) :
    w₁.Passes pid b w₃ :=
  (h.trans (.of_outlets h')).congr (by simp)

theorem Passes.outlets_trans (h : w₂.Passes pid b w₃) (h' : w₂.outlets = w₁.outlets) :
    w₁.Passes pid b w₃ :=
  ((Passes.of_outlets h').trans h).congr (by simp)

theorem passes_outregRegister {child : Int} (h : child ≠ pid) (outFiles : List Str) :
    w.Passes pid False (w.outregRegister child outFiles) := by
  unfold outregRegister
  split
  · exact .refl w
  · exact ⟨rfl, fun _ => Slots.sameOn_insert h, fun h => h.elim⟩

theorem passes_outregFinalize (w : World) (p : Int) :
    w.Passes pid (p = pid) (w.outregFinalize p) := by
  unfold outregFinalize
  cases hfind : w.registry.findSlot fun s => s.pid = p with
  | none =>
    refine ⟨rfl, fun _ => .refl _ _, ?_⟩
    rintro rfl -
    intro s hs hpid
    have hno := Slots.findSlot_eq_none.mp hfind s hs
    exact of_decide_eq_false hno hpid
  | some i =>
    obtain ⟨s, hcell, hs⟩ := Slots.findSlot_eq_some hfind
    have hpid : s.pid = p := by simpa using hs
    dsimp only
    rw [hcell]
    exact ⟨rfl, fun hne => Slots.sameOn_set_none hcell fun hs => hne (hpid.symm.trans hs),
      fun heq hsole => hsole.set_none hcell (hpid.trans heq)⟩

theorem passes_handleTrackedEvent (w : World) (e : WaitEvent) :
    w.Passes pid (e.1 = pid) (w.handleTrackedEvent e) :=
  (w.passes_outregFinalize e.1).trans_outlets (outlets_trackJob ..)

/-- A loop over processes or events. -/
theorem passes_foldl {β : Type*} (key : β → Int) {f : World → β → World}
    (hf : ∀ (w : World) x, w.Passes pid (key x = pid) (f w x)) (xs : List β) (w : World) :
    w.Passes pid (∃ x ∈ xs, key x = pid) (xs.foldl f w) := by
  induction xs generalizing w with
  | nil => exact (Passes.refl w).congr (by simp)
  | cons x xs ih => exact ((hf w x).trans (ih (f w x))).congr (by simp)

theorem passes_foldl_outregFinalize (pids : List Int) (w : World) :
    w.Passes pid (pid ∈ pids) (pids.foldl outregFinalize w) :=
  (passes_foldl id passes_outregFinalize pids w).congr (by simp)

theorem passes_jobsProcessPending (w : World) :
    w.Passes pid (∃ e ∈ w.pending, e.1 = pid) w.jobsProcessPending := by
  have hloop : { w with pending := [] }.Passes pid (∃ e ∈ w.pending, e.1 = pid)
    w.jobsProcessPending :=
    passes_foldl Prod.fst passes_handleTrackedEvent w.pending _
  exact hloop.outlets_trans rfl

theorem passes_waitEvent (w : World) (pid : Int) (pids : List Int) (l : Waiter) (e : WaitEvent) :
    w.Passes pid (e.1 = pid ∧ (e.2.final = true ∨ l.index pids e.1 = none))
      (w.waitEvent pids l e).1 := by
  unfold waitEvent
  split
  · next idx hidx =>
    rcases e with ⟨p, _ | _ | _ | _⟩
    · exact (w.passes_outregFinalize p).congr (by simp [WaitStatus.final])
    · exact (w.passes_outregFinalize p).congr (by simp [WaitStatus.final])
    · exact (Passes.refl w).congr (by simp [WaitStatus.final, hidx])
    · exact (Passes.refl w).congr (by simp [WaitStatus.final, hidx])
  · next hidx => exact (w.passes_handleTrackedEvent e).congr (by simp [hidx])

theorem passes_afterForeground (w : World) (l : Launch) (cmdline : Str) (stopped : Bool) :
    w.Passes pid (pid ∈ l.procs.map Prod.fst ∧ stopped = false)
      (w.afterForeground l cmdline stopped) := by
  unfold afterForeground settleForeground
  refine .outlets_trans (.trans_outlets ?_ (outlets_jobsFlushNotifications _)) w.outlets_termReclaim
  cases stopped with
  | true => exact (Passes.of_outlets (by simp)).congr (by simp)
  | false => exact (passes_foldl_outregFinalize ..).congr (by simp)

/-- A job that is killed because its time is up keeps its entries. -/
theorem passes_afterResume (w : World) (j : Job) (l : Waiter) (timedOut : Bool) :
    w.Passes pid (pid ∈ j.procs.map (·.pid) ∧ l.stopped = false ∧
      (timedOut = true → j.procs.length ≤ l.doneCount)) (w.afterResume j l timedOut) := by
  unfold afterResume settleResume
  refine .outlets_trans (.trans_outlets ?_ (outlets_jobsFlushNotifications _)) w.outlets_termReclaim
  split
  · next h =>
    simp only [Bool.and_eq_true, Bool.not_eq_true', decide_eq_true_eq] at h
    refine (Passes.of_outlets (by simp)).congr ?_
    rw [iff_false]
    rintro ⟨-, -, hcount⟩
    have := hcount h.1.1
    omega
  · next h =>
    split
    · next hstopped => exact (Passes.of_outlets (by simp)).congr (by simp [hstopped])
    · next hstopped =>
      refine (Passes.trans_outlets (passes_foldl_outregFinalize ..)
        (outlets_jobsRemove ..)).congr ?_
      simp only [Bool.and_eq_true, Bool.not_eq_true', decide_eq_true_eq] at h hstopped
      rw [and_iff_left_iff_imp]
      intro _
      refine ⟨by simpa using hstopped, fun htimed => ?_⟩
      by_contra hlt
      exact h ⟨⟨htimed, by simpa using hstopped⟩, by omega⟩

/-- A stage that is launched as another process. -/
theorem passes_launchStage {w : World} {pid : Nat} (h : w.fork.2 ≠ some pid) (numCmds : Nat)
    (pipes : List (Nat × Nat)) (l : Launch) (e : Stage × Nat) :
    w.Passes pid False (launchStage numCmds pipes (w, l) e).1 := by
  have hprepare := w.outlets_prepareStage e.2 e.1
  have hforks := w.fork_prepareStage e.2 e.1
  unfold launchStage
  dsimp only
  rcases hstage : w.prepareStage e.2 e.1 with ⟨w₁, _ | _ | ⟨path, input⟩⟩
  · rw [hstage] at hprepare
    exact .of_outlets hprepare
  · rw [hstage] at hprepare
    exact .of_outlets hprepare
  · rw [hstage] at hprepare hforks
    obtain ⟨w₂, hw₂, heq⟩ := w₁.spawnStage_eq_outregRegister e.2 pipes e.1 path input l
    dsimp only
    rw [heq]
    refine (passes_outregRegister ?_ _).outlets_trans (hw₂.trans hprepare)
    rw [show w₁.fork.2 = w.fork.2 from hforks]
    cases hfork : w.fork.2 with
    | none =>
      show (-1 : Int) ≠ pid
      omega
    | some p =>
      show (p : Int) ≠ pid
      intro heq
      rw [hfork] at h
      exact h (congrArg some (by omega))

end World

end Passes

/-! ## Runs -/

/-- The step calls `outreg_finalize` for the process `pid`. `handle_tracked_event` does so for every
event, the waiting loop only where the process is gone. -/
def Session.Finalizes (s : Session) (pid : Int) : Act → Prop
  | .processPending => ∃ e ∈ s.world.pending, e.1 = pid
  | .wait =>
    match s.control, s.world.pending with
    | .waiting on l _ _, e :: _ => e.1 = pid ∧ (e.2.final = true ∨ l.index on.pids e.1 = none)
    | _, _ => False
  | .finish =>
    match s.control with
    | .waiting (.launch launch _) l _ _ => pid ∈ launch.procs.map Prod.fst ∧ l.stopped = false
    | .waiting (.job j) l _ timedOut => pid ∈ j.procs.map (·.pid) ∧ l.stopped = false ∧
        (timedOut = true → j.procs.length ≤ l.doneCount)
    | _ => False
  | _ => False

theorem Session.step_passes {s s' : Session} {a : Act} {pid : Nat} (h : s.step a = some s')
    (hreuse : a ≠ .stage (some pid)) : s.world.Passes pid (s.Finalizes pid a) s'.world := by
  cases Session.steps_of_step h with
  | signals => exact .of_outlets (World.outlets_sigchldHandler ..)
  | alarm => exact .refl _
  | processPending => exact World.passes_jobsProcessPending _
  | flush => exact .of_outlets (World.outlets_jobsFlushNotifications _)
  | launch => exact .of_outlets (World.outlets_makePipes ..)
  | @stage w e todo numCmds pipes l cmdline background consumed p w' l' _ hlaunch =>
    have hfork : { w with forks := [⟨p, []⟩] }.fork.2 ≠ some pid := by
      rintro rfl
      exact hreuse rfl
    have hstage := World.passes_launchStage hfork numCmds pipes l e
    rw [hlaunch] at hstage
    refine (hstage.outlets_trans ?_).trans_outlets ?_
    · rfl
    · rfl
  | @started w numCmds pipes l cmdline background consumed =>
    refine .of_outlets ?_
    rcases started_world ⟨w, .forking [] numCmds pipes l cmdline background, consumed⟩ pipes l
      cmdline background
      with hw | hw | hw <;> rw [hw]
    · rfl
    · exact World.outlets_startBackground ..
    · exact World.outlets_termGiveTo ..
  | @wait w on l alarm timedOut consumed e es w' l' _ hpending hevent =>
    have hpasses := { w with pending := es }.passes_waitEvent pid on.pids l e
    rw [hevent] at hpasses
    have hwait : w.Passes pid _ w' := hpasses.outlets_trans rfl
    refine hwait.congr ?_
    simp only [Finalizes, hpending]
  | @finish w on l alarm timedOut consumed _ =>
    cases on with
    | launch launch cmdline => exact w.passes_afterForeground launch cmdline l.stopped
    | job j => exact w.passes_afterResume j l timedOut
  | @resume w consumed args =>
    refine .of_outlets ?_
    rcases resume_world ⟨w, .idle, consumed⟩ args with hw | ⟨number, isFg, hw⟩ <;> rw [hw]
    · rfl
    · exact w.outlets_startResume number isFg

/-- The shell with the variables of `hop`. -/
structure Shell where
  session : Session
  prevDir : Str
  db      : Option Str

namespace Shell

inductive ShellAct where
  /-- A step of the session. -/
  | act (a : Act)
  /-- The command `hop`. -/
  | hop (clock : Nat → Int64) (args : List Str)
  /-- Another builtin, or a program: neither changes the working directory or the registry. -/
  | other (w : World)

variable (env : HopEnv)

def world (s : Shell) : World := s.session.world

def step (s : Shell) : ShellAct → Option Shell
  | .act a => (s.session.step a).map fun session => { s with session := session }
  | .hop clock args =>
    if s.session.control = .idle then
      let r := runHop env clock ⟨s.world, s.prevDir, s.db⟩ args
      some ⟨{ s.session with world := r.world }, r.prevDir, r.db⟩
    else none
  | .other w =>
    let w := { w with cwd := s.world.cwd, registry := s.world.registry }
    some { s with session := { s.session with world := w } }

def Finalizes (pid : Int) (s : Shell) : ShellAct → Prop
  | .act a => s.session.Finalizes pid a
  | _ => False

variable {env} {s s' : Shell} {a : ShellAct} {acts : List ShellAct} {pid : Nat}

/-- Only `hop` changes the working directory. -/
theorem step_cwd (h : s.step env a = some s') (hop : ∀ clock args, a ≠ .hop clock args) :
    s'.world.cwd = s.world.cwd := by
  cases a with
  | act a =>
    obtain ⟨session, hstep, rfl⟩ := Option.map_eq_some_iff.mp h
    -- the directory does not depend on a process; take one that is not launched here
    have hpid : ∃ pid : Nat, a ≠ .stage (some pid) := by
      by_cases h₀ : a = .stage (some 0)
      · exact ⟨1, by rw [h₀]; simp⟩
      · exact ⟨0, h₀⟩
    obtain ⟨pid, hpid⟩ := hpid
    exact (Session.step_passes hstep hpid).cwd
  | hop clock args => exact absurd rfl (hop clock args)
  | other w =>
    cases h
    rfl

theorem step_entries (h : s.step env a = some s') (hreuse : a ≠ .act (.stage (some pid))) :
    (¬ s.Finalizes pid a → s.world.registry.SameOn (OutSpec.Of pid) s'.world.registry) ∧
      (s.Finalizes pid a → s.world.registry.Sole (OutSpec.Of pid) →
        s'.world.registry.Lacks (OutSpec.Of pid)) := by
  cases a with
  | act a =>
    obtain ⟨session, hstep, rfl⟩ := Option.map_eq_some_iff.mp h
    have hpasses := Session.step_passes hstep (fun heq => hreuse (heq ▸ rfl))
    exact ⟨hpasses.kept, hpasses.gone⟩
  | hop clock args =>
    simp only [step] at h
    split at h
    · cases h
      obtain ⟨cwd, err, hmoved⟩ := @runHop_movedTo env clock ⟨s.world, s.prevDir, s.db⟩ args
      refine ⟨fun _ => ?_, False.elim⟩
      show s.world.registry.SameOn _
        (runHop env clock ⟨s.world, s.prevDir, s.db⟩ args).world.registry
      rw [hmoved]
      exact .refl _ _
    · cases h
  | other w =>
    cases h
    exact ⟨fun _ => .refl _ _, False.elim⟩

/-- What is not there is never there, unless the pid is used again. -/
theorem run_lacks (hrun : run (step env) s acts = some s')
    (hreuse : ∀ a ∈ acts, a ≠ .act (.stage (some pid)))
    (hlacks : s.world.registry.Lacks (OutSpec.Of pid)) :
    s'.world.registry.Lacks (OutSpec.Of pid) := by
  refine run_invariant_of (P := fun _ a => a ≠ .act (.stage (some pid)))
    (I := fun t => t.world.registry.Lacks (OutSpec.Of pid)) ?_
    (allSteps_of_forall_mem (fun a ha _ => hreuse a ha) s) hlacks hrun
  intro t a t' ht hne hstep
  obtain ⟨hkept, hgone⟩ := step_entries hstep hne
  by_cases hfinal : t.Finalizes pid a
  · exact hgone hfinal ht.sole
  · exact (hkept hfinal).lacks ht

/-- As long as the process is not finalised, its entries stay. -/
theorem run_kept (hrun : run (step env) s acts = some s')
    (hreuse : ∀ a ∈ acts, a ≠ .act (.stage (some pid)))
    (hall : AllSteps (step env) (fun s a => ¬ s.Finalizes pid a) s acts) :
    s.world.registry.SameOn (OutSpec.Of pid) s'.world.registry := by
  refine run_invariant_of
    (I := fun t => s.world.registry.SameOn (OutSpec.Of pid) t.world.registry) ?_
    (hall.and (allSteps_of_forall_mem (fun a ha _ => hreuse a ha) s)) (.refl _ _) hrun
  intro t a t' ht hpermitted hstep
  exact ht.trans ((step_entries hstep hpermitted.2).1 hpermitted.1)

/-- With the first finalisation its only entry goes. -/
theorem run_gone (hrun : run (step env) s acts = some s')
    (hreuse : ∀ a ∈ acts, a ≠ .act (.stage (some pid)))
    (hsole : s.world.registry.Sole (OutSpec.Of pid))
    (hfinal : ¬ AllSteps (step env) (fun s a => ¬ s.Finalizes pid a) s acts) :
    s'.world.registry.Lacks (OutSpec.Of pid) := by
  induction acts generalizing s with
  | nil => exact absurd trivial hfinal
  | cons a acts ih =>
    obtain ⟨t, ht, hrest⟩ := run_cons hrun
    obtain ⟨hkept, hgone⟩ := step_entries ht (hreuse a List.mem_cons_self)
    have hreuse' : ∀ b ∈ acts, b ≠ .act (.stage (some pid)) :=
      fun b hb => hreuse b (List.mem_cons_of_mem _ hb)
    by_cases hfirst : s.Finalizes pid a
    · exact run_lacks hrest hreuse' (hgone hfirst hsole)
    · refine ih hrest hreuse' ((hkept hfirst).sole hsole) fun hall =>
        hfinal ⟨hfirst, fun t' ht' => ?_⟩
      obtain rfl := Option.some.inj (ht.symm.trans ht')
      exact hall

/-- A run without `hop` ends in the directory in which it began. -/
theorem run_cwd (hrun : run (step env) s acts = some s')
    (hop : ∀ clock args, .hop clock args ∉ acts) :
    s'.world.cwd = s.world.cwd := by
  refine run_invariant_of (P := fun _ a => a ∈ acts) (I := fun t => t.world.cwd = s.world.cwd) ?_
    (allSteps_of_forall_mem (fun a ha _ => ha) s) rfl hrun
  intro t a t' ht ha hstep
  rw [← ht]
  apply step_cwd hstep
  rintro clock args rfl
  exact hop clock args ha

end Shell

/-! ## The same files -/

namespace World

variable {w w' : World} {stage : Stage} {pid : Nat}

theorem Launches.outlets (h : w.Launches stage pid w') (hout : stage.outFiles ≠ []) :
    w'.cwd = w.cwd ∧
      w'.registry = w.registry.insert ⟨pid, (stage.outFiles.map Prod.fst).take outregFilesMax⟩ := by
  obtain ⟨hfork, i, numCmds, pipes, l, path, input, forks, hready, rfl⟩ := h
  have hprepare := w.outlets_prepareStage i stage
  have hforks := w.fork_prepareStage i stage
  rcases hstage : w.prepareStage i stage with ⟨w₁, outcome⟩
  rw [hstage] at hprepare hforks hready
  obtain rfl : outcome = .ready path input := hready
  obtain ⟨w₂, hw₂, heq⟩ := w₁.spawnStage_eq_outregRegister i pipes stage path input l
  have hlaunch : (launchStage numCmds pipes (w, l) (stage, i)).1 =
      w₂.outregRegister pid (stage.outFiles.map Prod.fst) := by
    simp only [launchStage, hstage]
    rw [heq, show w₁.fork.2 = some pid from hforks.trans hfork]
    rfl
  have houtlets := hw₂.trans hprepare
  rw [hlaunch, outregRegister, if_neg (by simpa using hout)]
  refine ⟨congrArg Prod.fst houtlets, ?_⟩
  show w₂.registry.insert _ = _
  rw [show w₂.registry = w.registry from congrArg Prod.snd houtlets]

theorem finalizeNames_of_lacks (h : w.registry.Lacks (OutSpec.Of pid)) :
    w.finalizeNames pid = none := by
  have hfind : (w.registry.findSlot fun s => s.pid = pid) = none := by
    rw [Slots.findSlot_eq_none]
    intro s hs
    exact decide_eq_false (h s hs)
  rw [finalizeNames, hfind]
  rfl

theorem finalizeNames_of_sole {k : Fin outregMax} {s : OutSpec}
    (h : w.registry.Sole (OutSpec.Of pid)) (hk : w.registry.cell k = some s) (hpid : s.pid = pid) :
    w.finalizeNames pid = some (w.locate (tmpOutName pid), s.outFiles.map w.locate) := by
  have hfind : (w.registry.findSlot fun s => s.pid = pid) = some k := by
    apply Slots.findSlot_of_unique hk (decide_eq_true hpid)
    intro j b hj hb
    have hb' : b.pid = pid := of_decide_eq_true hb
    exact h j k b s hj hk hb' hpid
  rw [finalizeNames, hfind, Option.bind_some, hk]
  rfl

/-- The temporary file gives the directory away. -/
theorem names_eq_iff (files : List Str) (k : Nat) :
    (w'.locate (tmpOutName pid), (files.take k).map w'.locate) =
        (w.locate (tmpOutName pid), files.map w.locate) ↔
      files.length ≤ k ∧ w'.cwd = w.cwd := by
  rw [Prod.mk.injEq]
  constructor
  · rintro ⟨htmp, htargets⟩
    rw [locate_tmpOutName, locate_tmpOutName] at htmp
    have hlength := congrArg List.length htargets
    rw [List.length_map, List.length_map, List.length_take] at hlength
    exact ⟨by omega, List.append_cancel_right htmp⟩
  · rintro ⟨hle, hcwd⟩
    rw [List.take_of_length_le hle, locate_congr hcwd]
    exact ⟨rfl, rfl⟩

end World

namespace Shell

/-- A process is launched, and then something happens until `outreg_finalize` is called for it. The
call opens the files that were opened for the launch if and only if the registry had room for the
command and for its targets, it is the first call, and the shell is in the directory in which it was
at the launch. -/
theorem finalizeNames_eq_launchNames_iff {env : HopEnv} {w : World} {stage : Stage}
    {pid : Nat} {s s' : Shell} {acts : List ShellAct} (hlaunch : w.Launches stage pid s.world)
    (hout : stage.outFiles ≠ []) (hfresh : ∀ e ∈ w.registry, e.pid ≠ pid)
    (hreuse : ∀ a ∈ acts, a ≠ .act (.stage (some pid))) (hrun : run (step env) s acts = some s') :
    s'.world.finalizeNames pid = some (w.launchNames pid stage) ↔
      w.registry.firstFree.isSome ∧ stage.outFiles.length ≤ outregFilesMax ∧
        AllSteps (step env) (fun s a => ¬ s.Finalizes pid a) s acts ∧ s'.world.cwd = w.cwd := by
  obtain ⟨-, hregistry⟩ := hlaunch.outlets hout
  have hlacks : w.registry.Lacks (OutSpec.Of pid) := hfresh
  have hnone (h : s'.world.registry.Lacks (OutSpec.Of pid)) :
      s'.world.finalizeNames pid ≠ some (w.launchNames pid stage) := by
    rw [World.finalizeNames_of_lacks h]
    exact (Option.some_ne_none _).symm
  cases hfree : w.registry.firstFree with
  | none =>
    -- no room: there will never be an entry
    rw [Slots.insert, hfree] at hregistry
    have hend := run_lacks hrun hreuse (hregistry ▸ hlacks)
    simp [hnone hend]
  | some k =>
    rw [Slots.insert, hfree] at hregistry
    have hsole : s.world.registry.Sole (OutSpec.Of pid) := by
      rw [hregistry]
      exact hlacks.set_sole k _
    by_cases hall : AllSteps (step env) (fun s a => ¬ s.Finalizes pid a) s acts
    · have hkept := run_kept hrun hreuse hall
      have hcell : s'.world.registry.cell k =
          some ⟨pid, (stage.outFiles.map Prod.fst).take outregFilesMax⟩ := by
        refine (hkept k _ ?_).mpr ?_
        · show (pid : Int) = pid
          rfl
        · rw [hregistry]
          exact Slots.cell_set_self ..
      have hnames : w.launchNames pid stage =
          (w.locate (tmpOutName pid), (stage.outFiles.map Prod.fst).map w.locate) := by
        rw [World.launchNames, List.map_map]
        rfl
      rw [World.finalizeNames_of_sole (hkept.sole hsole) hcell rfl, hnames, Option.some.injEq,
        World.names_eq_iff,
        List.length_map]
      simp [hall]
    · simp [hnone (run_gone hrun hreuse hsole hall), hall]

/-! ### `date > out &` in `/home` -/

/-- All directories are known by their absolute names. -/
def absolute : HopEnv where
  home := "/home".toList
  chdir _ target := some target
  resolve _ name := some name
  lookup _ _ _ := none

def dateStage : Stage := { args := ["date".toList], outFiles := [("out".toList, false)] }

def dateWorld : World := .inBin ["date"] [⟨some 200, []⟩]

/-- The shell behind the `fork`. -/
def dateShell : Shell :=
  let r := World.launchStage 1 [] (dateWorld, {}) (dateStage, 0)
  ⟨⟨r.1, .forking [] 1 [] r.2 "date > out".toList true, []⟩, [], none⟩

/-- The process writes to its temporary file. -/
def dateWrites : ShellAct :=
  .other { dateShell.world with fs := dateShell.world.fs.append 1 "hi".toList }

def hopTo (dir : String) : ShellAct := .hop (fun _ => 0) [dir.toList]

/-- To another directory and back. -/
theorem finalizeNames_eq_launchNames_dateShell :
    ∃ s', run (step absolute) dateShell
      [.act .started, dateWrites, hopTo "/tmp", hopTo "-"] = some s' ∧
      s'.world.finalizeNames 200 = some (dateWorld.launchNames 200 dateStage) := by
  have hsome :
      (run (step absolute) dateShell [.act .started, dateWrites, hopTo "/tmp", hopTo "-"]).map
        (·.world.cwd) = some dateWorld.cwd := by decide +kernel
  obtain ⟨s', hrun, hcwd⟩ := Option.map_eq_some_iff.mp hsome
  have hlaunch : dateWorld.Launches dateStage 200 dateShell.world :=
    ⟨rfl, 0, 1, [], {}, "/bin/date".toList, .none, _, by decide +kernel, rfl⟩
  refine ⟨s', hrun, (finalizeNames_eq_launchNames_iff hlaunch (by decide) ?_ ?_ hrun).mpr ?_⟩
  · rintro e ⟨k, hk⟩
    cases hk
  · simp [dateWrites, hopTo]
  · refine ⟨by decide +kernel, by decide, ?_, hcwd⟩
    exact ⟨id, fun _ _ => ⟨id, fun _ _ => ⟨id, fun _ _ => ⟨id, fun _ _ => trivial⟩⟩⟩⟩

/-- To another directory: there is no temporary file there, and the output never gets to `out`. -/
theorem finalizeNames_ne_launchNames_dateShell :
    dateWorld.launchNames 200 dateStage =
      ("/home/.cshell_tmp_out_200".toList, ["/home/out".toList]) ∧
      (run (step absolute) dateShell [.act .started, dateWrites, hopTo "/tmp"]).map (fun s' =>
          (s'.world.finalizeNames 200,
            ["/home/.cshell_tmp_out_200", "/home/out", "/tmp/out"].map fun name =>
              (s'.world.outregFinalize 200).fs.contents name.toList)) =
        some (some ("/tmp/.cshell_tmp_out_200".toList, ["/tmp/out".toList]),
          [some "hi".toList, some [], some []]) := by
  refine ⟨by decide +kernel, by decide +kernel⟩

end Shell

end UnixCShell
