import UnixCShell.Execute.Isolation
import UnixCShell.Pipeline.Handover

/-!
# Commands and their input files

`setup_input` returns a descriptor, `-1` or `-2`, and `-1` stands for two things: that there are no
input files, and that the temporary file could not be created. `exec_cmd` asks for the input only if
there are input files, and takes every negative number for a failure. `launch_group` takes only `-2`
for one: where the temporary file cannot be created, the command is run with the standard input that
it would have had without a redirection.
-/

namespace UnixCShell

open Lib FdTable

/-! ## The three outcomes of `setup_input` -/

theorem openWrite_eq_none {fs : Files Str Char} {trunc : Bool} {n : Str} :
    fs.openWrite trunc n = none ↔ fs.writable n ≠ true := by
  unfold Files.openWrite
  split
  · next h =>
    refine iff_of_false ?_ (not_not_intro h)
    split <;> simp
  · next h => exact iff_of_true rfl h

namespace World

/-- The temporary file for the input of command `i` can be created. -/
def CanGather (w : World) (i : Nat) : Prop := w.fs.writable (w.locate (tmpInName i)) = true

instance (w : World) (i : Nat) : Decidable (w.CanGather i) := inferInstanceAs (Decidable (_ = _))

/-- The input of command `i` cannot be set up: the temporary file cannot be created, or one of the
input files cannot be opened. -/
def InputFails (w : World) (inFiles : List Str) (i : Nat) : Prop :=
  match w.fs.openWrite true (w.locate (tmpInName i)) with
  | none => True
  | some (_, fs) => ∃ f ∈ inFiles, fs.openRead (w.locate f) = none

variable {w : World} {inFiles : List Str} {i : Nat}

theorem inputFails_of_not_canGather (h : ¬ w.CanGather i) : w.InputFails inFiles i := by
  rw [InputFails, openWrite_eq_none.mpr h]
  trivial

theorem setupInput_of_not_canGather (hne : inFiles ≠ []) (h : ¬ w.CanGather i) :
    w.setupInput inFiles i = (w.eprint "cshell: tmpfile failed\n".toList, .none) := by
  rw [setupInput, if_neg hne, openWrite_eq_none.mpr h]

theorem setupInput_of_inputFails (hne : inFiles ≠ []) (h : w.CanGather i)
    (hfails : w.InputFails inFiles i) :
    (w.setupInput inFiles i).2 = .missing := by
  cases hopen : w.fs.openWrite true (w.locate (tmpInName i)) with
  | none => exact absurd h (openWrite_eq_none.mp hopen)
  | some r =>
    obtain ⟨ino, fs⟩ := r
    simp only [InputFails, hopen] at hfails
    obtain ⟨f, hf, hnone⟩ := hfails
    have hgather : (gatherInput fs ino (inFiles.map w.locate)).2 = false := by
      rw [← Bool.not_eq_true, gatherInput_snd]
      exact fun hall => hall _ (List.mem_map_of_mem hf) hnone
    simp only [setupInput, if_neg hne, hopen]
    split
    · next hpair =>
      rw [hpair] at hgather
      cases hgather
    · rfl

/-- If the temporary file is the shell's own, the files that are opened are those that were there
before. -/
theorem readable_of_not_inputFails (hown : TmpInOwn w i inFiles) (h : ¬ w.InputFails inFiles i) :
    w.CanGather i ∧ ∀ f ∈ inFiles, (w.fs.openRead (w.locate f)).isSome := by
  have hcan : w.CanGather i := by
    by_contra hcan
    exact h (inputFails_of_not_canGather hcan)
  refine ⟨hcan, fun f hf => ?_⟩
  obtain ⟨ino, fs, hopen, -, -, -, hsame⟩ := Files.openWrite_own hcan hown.own
  rw [← (hsame _ (hown.other f hf)).1, Option.isSome_iff_ne_none]
  intro hnone
  apply h
  simp only [InputFails, hopen]
  exact ⟨f, hf, hnone⟩

end World

/-! ## External commands -/

theorem validateTargets_snd (fs : Files Str Char) (files : List (Str × Bool)) :
    (validateTargets fs files).2 = true ↔ ∀ f ∈ files, fs.writable f.1 = true := by
  induction files generalizing fs with
  | nil => simp [validateTargets]
  | cons f files ih =>
    obtain ⟨file, append⟩ := f
    rw [validateTargets]
    cases hopen : fs.openWrite (!append) file with
    | none => simpa using fun h => absurd h (openWrite_eq_none.mp hopen)
    | some r =>
      obtain ⟨hw, -, hwritable, -⟩ := openWrite_some hopen
      simp [ih, hwritable, hw]

namespace World

/-- Nothing but its input keeps a command from being run: it has words, its targets can be opened,
it is found, and `fork` succeeds. -/
structure Startable (w : World) (stage : Stage) : Prop where
  command : ∃ cmd, stage.args.head? = some cmd ∧ (w.resolveCommandPath cmd).isSome
  targets : ∀ f ∈ stage.outFiles, w.fs.writable (w.locate f.1) = true
  fork    : w.fork.2.isSome

variable {w : World} {stage : Stage} {i : Nat}

theorem outregValidate_snd (w : World) (outFiles : List (Str × Bool)) :
    (w.outregValidate outFiles).2 = true ↔ ∀ f ∈ outFiles, w.fs.writable (w.locate f.1) = true := by
  have hsnd := validateTargets_snd w.fs (outFiles.map fun f => (w.locate f.1, f.2))
  rw [List.forall_mem_map] at hsnd
  rw [← hsnd]
  unfold outregValidate
  split
  · next h => simp [h]
  · next h => simp [h]

theorem fs_setpgid (w : World) (pid pgid : Int) : (w.setpgid pid pgid).fs = w.fs := by
  unfold setpgid
  split <;> rfl

/-- The shell behind `fork` leaves the children and the contents of the files alone. -/
theorem afterFork_same (w : World) (child pgid : Int) (input : InputFd) (i : Nat)
    (outFiles : List Str) :
    (((w.setpgid child pgid).dropInput input i).outregRegister child outFiles).tables = w.tables ∧
      (((w.setpgid child pgid).dropInput input i).outregRegister child outFiles).fs.data =
        w.fs.data := by
  obtain ⟨_, hregister⟩ :=
    ((w.setpgid child pgid).dropInput input i).outregRegister_frame child outFiles
  have hdrop : ∀ v : World, (v.dropInput input i).tables = v.tables ∧
      (v.dropInput input i).fs.data = v.fs.data := by
    intro v
    cases input <;> exact ⟨rfl, rfl⟩
  obtain ⟨htables, hdata⟩ := hdrop (w.setpgid child pgid)
  rw [hregister]
  exact ⟨htables.trans (w.tables_setpgid child pgid), hdata.trans (by rw [fs_setpgid])⟩

/-- A child is started if `fork` succeeds. -/
theorem spawnStage_child (w : World) (i : Nat) (pipes : List (Nat × Nat))
    (stage : Stage) (path : Str) (input : InputFd) (l : Launch) :
    let w' := (w.spawnStage i pipes stage path input l).1
    w.fork.2 = none ∧ w'.tables = w.tables ∨
      ∃ pid : Nat, w.fork.2 = some pid ∧
        w'.tables = w.tables ++ [(w.childFds pid i pipes stage input).2] ∧
        w'.fs.data = (w.childFds pid i pipes stage input).1.data := by
  obtain ⟨-, htables⟩ := w.fork_same
  obtain ⟨forks, children, pending, hframe⟩ := w.fork_frame
  rcases hfork : w.fork with ⟨w₁, _ | pid⟩
  · rw [hfork] at htables
    obtain ⟨hsame, -⟩ := w₁.afterFork_same (-1) (if i = 0 then -1 else l.pgid) input i
      (stage.outFiles.map Prod.fst)
    simp only [spawnStage, hfork]
    exact .inl ⟨trivial, hsame.trans htables⟩
  · rw [hfork] at htables hframe
    -- the child is set up from what `fork` has left alone
    have hchild : w₁.childFds pid i pipes stage input = w.childFds pid i pipes stage input := by
      rw [show w₁ = _ from hframe]
      rfl
    obtain ⟨-, hstart⟩ := w₁.startChild_same pid i pipes stage path input l.pgid
    have hfs : (w₁.startChild pid i pipes stage path input l.pgid).fs =
        (w₁.childFds pid i pipes stage input).1 := fs_setpgid ..
    obtain ⟨hsame, hdata⟩ := (w₁.startChild pid i pipes stage path input l.pgid).afterFork_same pid
      (if i = 0 then pid else l.pgid) input i (stage.outFiles.map Prod.fst)
    simp only [spawnStage, hfork]
    refine .inr ⟨pid, rfl, ?_, ?_⟩
    · rw [hsame, hstart, hchild, show w₁.tables = _ from htables]
    · rw [hdata, hfs, hchild]

/-! ### The preparation -/

theorem prepareStage_eq {cmd : Str} {args : List Str}
    (hargs : stage.args = cmd :: args) {w₁ : World} {input : InputFd}
    (hsetup : w.setupInput stage.inFiles i = (w₁, input)) (hinput : input ≠ .missing) :
    w.prepareStage i stage = w₁.validateStage i stage cmd input := by
  simp only [prepareStage, hargs, hsetup]
  cases input with
  | missing => exact absurd rfl hinput
  | none | fd => rfl

/-- A stage is ready if its targets can be opened and its command is found. -/
theorem validateStage_cases (w : World) (i : Nat) (stage : Stage) (cmd : Str) (input : InputFd) :
    (∃ fs path, validateTargets w.fs
      (stage.outFiles.map fun f => (w.locate f.1, f.2)) = (fs, true) ∧
        w.resolveCommandPath cmd = some path ∧
        w.validateStage i stage cmd input = ({ w with fs := fs }, .ready path input)) ∨
      (¬ ((∀ f ∈ stage.outFiles, w.fs.writable (w.locate f.1) = true) ∧
          (w.resolveCommandPath cmd).isSome)) ∧
        ∀ path input', (w.validateStage i stage cmd input).2 ≠ .ready path input' := by
  have hsnd := w.outregValidate_snd stage.outFiles
  unfold validateStage
  rcases hval : w.outregValidate stage.outFiles with ⟨w₁, _ | _⟩
  · rw [hval] at hsnd
    refine .inr ⟨fun h => ?_, by simp⟩
    cases hsnd.mpr h.1
  · obtain ⟨fs, hfs, rfl⟩ := outregValidate_true hval
    have hresolve : World.resolveCommandPath { w with fs := fs } cmd =
      w.resolveCommandPath cmd := rfl
    dsimp only
    rw [hresolve]
    cases hpath : w.resolveCommandPath cmd with
    | some path => exact .inl ⟨fs, path, hfs, rfl, rfl⟩
    | none => exact .inr ⟨by simp, by simp⟩

section Launch

variable {l : Launch} {numCmds : Nat} {pipes : List (Nat × Nat)}

theorem launchStage_of_not_ready
    (h : ∀ path input, (w.prepareStage i stage).2 ≠ .ready path input) :
    (launchStage numCmds pipes (w, l) (stage, i)).1.tables = w.tables := by
  obtain ⟨fs, fds, err, hframe⟩ := w.prepareStage_frame i stage
  unfold launchStage
  dsimp only
  rcases hprep : w.prepareStage i stage with ⟨w₁, prepared⟩
  rw [hprep] at hframe h
  cases prepared with
  | ready path input => exact absurd rfl (h path input)
  | skipped | notFound =>
    dsimp only
    rw [show w₁ = _ from hframe]
    rfl

theorem launchStage_of_ready {w₁ : World} {path : Str} {input : InputFd}
    (h : w.prepareStage i stage = (w₁, .ready path input)) :
    launchStage numCmds pipes (w, l) (stage, i) = w₁.spawnStage i pipes stage path input l := by
  simp only [launchStage, h]

/-- A stage without words starts nothing. -/
theorem launchStage_of_nil (hargs : stage.args = []) :
    (launchStage numCmds pipes (w, l) (stage, i)).1.tables = w.tables := by
  apply launchStage_of_not_ready
  intro path input
  simp [prepareStage, hargs]

/-- Behind `setup_input` a command is started if it can be. -/
theorem launchStage_of_validate (numCmds : Nat) (pipes : List (Nat × Nat)) (l : Launch)
    {v : World} {cmd : Str} {args : List Str} {input : InputFd} (hargs : stage.args = cmd :: args)
    (hprep : w.prepareStage i stage = v.validateStage i stage cmd input)
    (htables : v.tables = w.tables) :
    let s := launchStage numCmds pipes (w, l) (stage, i)
    ¬ v.Startable stage ∧ s.1.tables = w.tables ∨
      v.Startable stage ∧ ∃ (fs : Files Str Char) (pid : Nat),
        validateTargets v.fs (stage.outFiles.map fun f => (v.locate f.1, f.2)) = (fs, true) ∧
        s.1.tables = w.tables ++ [(World.childFds { v with fs := fs } pid i pipes stage input).2] ∧
        s.1.fs.data = (World.childFds { v with fs := fs } pid i pipes stage input).1.data := by
  intro s
  have hcommand : (∃ c, stage.args.head? = some c ∧ (v.resolveCommandPath c).isSome) ↔
      (v.resolveCommandPath cmd).isSome := by
    simp [hargs]
  rcases validateStage_cases v i stage cmd input with ⟨fs, path, htargets, hpath, hready⟩ |
    ⟨hnot, hnotReady⟩
  · have hlaunch : s = _ := launchStage_of_ready (hprep.trans hready)
    have hwritable := (validateTargets_snd v.fs _).mp (congrArg Prod.snd htargets)
    rw [List.forall_mem_map] at hwritable
    have hfork : (World.fork { v with fs := fs }).2 = v.fork.2 := by rw [fork_snd, fork_snd]
    rw [hlaunch]
    rcases spawnStage_child { v with fs := fs } i pipes stage path input l with
      ⟨hnone, hsame⟩ | ⟨pid, hsome, hchild, hdata⟩
    · refine .inl ⟨fun hstart => ?_, hsame.trans htables⟩
      have := hstart.fork
      rw [← hfork, hnone] at this
      cases this
    · refine .inr ⟨⟨hcommand.mpr ?_, hwritable, ?_⟩, fs, pid, htargets, ?_, hdata⟩
      · rw [hpath]
        rfl
      · rw [← hfork, hsome]
        rfl
      · rw [hchild, ← htables]
        rfl
  · refine .inl ⟨fun hstart => hnot ⟨hstart.targets, hcommand.mp hstart.command⟩, ?_⟩
    apply launchStage_of_not_ready
    rw [hprep]
    exact hnotReady

theorem startable_eprint (msg : Str) : (w.eprint msg).Startable stage ↔ w.Startable stage := by
  have hfork : (w.eprint msg).fork.2 = w.fork.2 := by
    rw [fork_snd, fork_snd]
    rfl
  constructor
  · intro h
    exact ⟨h.command, h.targets, hfork ▸ h.fork⟩
  · intro h
    exact ⟨h.command, h.targets, hfork.symm ▸ h.fork⟩

/-- Where the temporary file cannot be created, a command that can be started is started, without
it. -/
theorem launchStage_of_not_canGather (hne : stage.inFiles ≠ []) (h : ¬ w.CanGather i) :
    let s := launchStage numCmds pipes (w, l) (stage, i)
    ¬ w.Startable stage ∧ s.1.tables = w.tables ∨
      w.Startable stage ∧ ∃ (w₁ : World) (pid : Nat), w₁.fds = w.fds ∧
        s.1.tables = w.tables ++ [(w₁.childFds pid i pipes stage .none).2] := by
  intro s
  cases hargs : stage.args with
  | nil =>
    refine .inl ⟨fun hstart => ?_, launchStage_of_nil hargs⟩
    obtain ⟨cmd, hcmd, -⟩ := hstart.command
    rw [hargs] at hcmd
    cases hcmd
  | cons cmd args =>
    have hprep := prepareStage_eq hargs (setupInput_of_not_canGather hne h) (by simp)
    rw [← startable_eprint "cshell: tmpfile failed\n".toList]
    rcases launchStage_of_validate numCmds pipes l hargs hprep rfl with
      hnot | ⟨hstart, fs, pid, -, hchild, -⟩
    · exact .inl hnot
    · refine .inr ⟨hstart, _, pid, ?_, hchild⟩
      rfl

/-- Where an input file cannot be opened, nothing is started. -/
theorem launchStage_of_inputFails (hne : stage.inFiles ≠ []) (h : w.CanGather i)
    (hfails : w.InputFails stage.inFiles i) :
    (launchStage numCmds pipes (w, l) (stage, i)).1.tables = w.tables := by
  have hmissing := setupInput_of_inputFails hne h hfails
  apply launchStage_of_not_ready
  intro path input
  rcases hsetup : w.setupInput stage.inFiles i with ⟨w₁, result⟩
  rw [hsetup] at hmissing
  simp only [prepareStage, hsetup, show result = .missing from hmissing]
  split <;> simp

/-! ### The standard input of the child -/

/-- The standard input of the shell is open, no pipe has its number, and what the stage would read
from without a redirection is not a file. -/
structure PlainInput (w : World) (pipes : List (Nat × Nat)) (i : Nat) : Prop where
  opened : w.fds.get 0 ≠ none
  ends   : 0 ∉ ends pipes
  plain  : ∀ ino, (childInput w.fds i pipes .none).get 0 ≠ some (.file ino)

/-- Setting up the standard output leaves the standard input alone. -/
theorem childOutput_get_zero {fds : FdTable} (hopen : fds.get 0 ≠ none) (pid : Int) :
    (w.childOutput fds pid i pipes stage).get 0 = fds.get 0 := by
  rcases w.childOutput_cases fds pid i pipes stage with ⟨p, -, -, hchild⟩ |
    ⟨ino, -, hchild⟩ | ⟨-, hchild⟩
  · rw [hchild, get_dup2_of_ne (by decide)]
  · have hne : 0 ≠ fds.lowest := (fds.lowest_ne hopen).symm
    rw [hchild, get_close, if_neg hne, get_dup2_of_ne (by decide), get_put, if_neg hne]
  · rw [hchild]

theorem childFds_get_zero {input : InputFd} (hends : 0 ∉ ends pipes) (hinput : input ≠ .fd 0)
    (hopen : (childInput w.fds i pipes input).get 0 ≠ none) (pid : Int) :
    (w.childFds pid i pipes stage input).2.get 0 = (childInput w.fds i pipes input).get 0 := by
  rw [childFds_get, if_neg (not_or_intro hinput hends), childOutput_get_zero hopen]

theorem childInput_none_open {fds : FdTable} (hopen : fds.get 0 ≠ none) :
    (childInput fds i pipes .none).get 0 ≠ none := by
  rcases childInput_cases fds i pipes .none with ⟨n, hn, -⟩ |
    ⟨-, ⟨j, p, -, -, hchild⟩ | ⟨-, hchild⟩⟩
  · cases hn
  · rw [hchild]
    unfold FdTable.dup2
    split
    · rw [get_put, if_pos rfl]
      simp
    · exact hopen
  · rw [hchild]
    exact hopen

/-- The files that a child opens for its output are not its input file. -/
theorem childFds_data {names : Set Str} {ino : Nat} (h : w.fs.NamedIn names ino) {pid : Int}
    (hout : w.cwd ++ '/' :: tmpOutName pid ∉ names) (input : InputFd) :
    (w.childFds pid i pipes stage input).1.data ino = w.fs.data ino := by
  rw [← locate_tmpOutName] at hout
  have hopen : ∀ {k fs}, w.fs.openWrite true (w.locate (tmpOutName pid)) = some (k, fs) →
      fs.data ino = w.fs.data ino := fun hfs => (h.openWrite hout hfs).2.2
  unfold childFds
  by_cases hfiles : stage.outFiles = []
  · cases input <;> simp [hfiles]
  · simp only [hfiles, if_false]
    rcases hfs : w.fs.openWrite true (w.locate (tmpOutName pid)) with _ | ⟨k, fs⟩
    · cases input <;> rfl
    · cases input <;> exact hopen hfs

/-- If the temporary file is the shell's own, a command whose input files can be opened reads them,
one after the other. -/
theorem launchStage_of_gathered (hne : stage.inFiles ≠ []) (hplain : w.PlainInput pipes i)
    (hown : TmpInOwn w i stage.inFiles)
    (hout : ∀ f ∈ stage.outFiles, w.locate f.1 ≠ w.locate (tmpInName i))
    (h : ¬ w.InputFails stage.inFiles i) :
    let s := launchStage numCmds pipes (w, l) (stage, i)
    s.1.tables = w.tables ∨ ∃ t ino, s.1.tables = w.tables ++ [t] ∧ t.get 0 = some (.file ino) ∧
      s.1.fs.data ino = concatenation w.fs (stage.inFiles.map w.locate) := by
  intro s
  cases hargs : stage.args with
  | nil => exact .inl (launchStage_of_nil hargs)
  | cons cmd args =>
    obtain ⟨hcan, hreadable⟩ := readable_of_not_inputFails hown h
    obtain ⟨fs₀, ino, hsetup, hnamed, hdata⟩ := hown.setupInput_eq hne hcan hreadable
    have hprep := prepareStage_eq hargs hsetup (by simp)
    rcases launchStage_of_validate numCmds pipes l hargs hprep rfl with
      ⟨-, hsame⟩ | ⟨-, fs, pid, htargets, hchild, hfs⟩
    · exact .inl hsame
    refine .inr ⟨_, ino, hchild, ?_, ?_⟩
    · -- descriptor 0 is copied from that of the temporary file, which is not descriptor 0 itself
      have hget :
          (childInput (w.fds.put w.fds.lowest (.file ino)) i pipes (.fd w.fds.lowest)).get 0 =
            some (.file ino) := by
        have hchildInput :
            childInput (w.fds.put w.fds.lowest (.file ino)) i pipes (.fd w.fds.lowest) =
              (w.fds.put w.fds.lowest (.file ino)).dup2 w.fds.lowest 0 := by
          cases i <;> rfl
        rw [hchildInput, get_dup2 _ (get_put_self _ _), if_pos rfl]
      have hlowest : InputFd.fd w.fds.lowest ≠ .fd 0 := by
        simpa using w.fds.lowest_ne hplain.opened
      refine (childFds_get_zero hplain.ends hlowest ?_ pid).trans hget
      exact ne_of_eq_of_ne hget (by simp)
    · have hnames : ∀ f ∈ stage.outFiles.map fun f => (w.locate f.1, f.2),
          f.1 ∉ ({w.locate (tmpInName i)} : Set Str) := by
        intro f hf
        obtain ⟨g, hg, rfl⟩ := List.mem_map.mp hf
        exact hout g hg
      obtain ⟨hnamed₁, hdata₁⟩ := validateTargets_namedIn hnamed hnames
      replace htargets : validateTargets fs₀
        (stage.outFiles.map fun f => (w.locate f.1, f.2)) = (fs, true) :=
        htargets
      rw [htargets] at hnamed₁ hdata₁
      have hother : w.cwd ++ '/' :: tmpOutName pid ∉ ({w.locate (tmpInName i)} : Set Str) := by
        rw [← locate_tmpOutName]
        exact w.locate_tmpOutName_ne pid i
      refine (congrFun hfs ino).trans ((childFds_data hnamed₁ ?_ _).trans (hdata₁.trans hdata))
      exact hother

end Launch

/-! ## Builtins -/

/-- The builtin is not run: what becomes of the line does not depend on what the builtin does. -/
def BuiltinRefused (w : World) (tokens : List Token) : Prop :=
  ∃ w', ∀ run, execCmd run tokens w = .ok (w', false)

/-- The builtin is run, with a standard input that holds `contents`. -/
def BuiltinGiven (w : World) (tokens : List Token) (contents : Str) : Prop :=
  ∃ args restore ino,
    (∀ run, execCmd run tokens w = (run args (w.builtinStart tokens)).map restore) ∧
    (w.builtinStart tokens).fds.get 0 = some (.file ino) ∧
      (w.builtinStart tokens).fs.data ino = contents

variable {tokens args : List Token} {inFiles : List Str} {outFiles : List (Str × Bool)}

theorem execCmd_of_startsBuiltin (h : startsBuiltin tokens = true)
    (run : List Token → World → Except World World) (w : World) :
    execCmd run tokens w = (execBuiltin run tokens w).map (·, false) := by
  rw [execCmd, execCmdWith, if_pos h]

/-- `exec_cmd` takes both failures of `setup_input` for what they are. -/
theorem builtinRefused_of_inputFails (hbuiltin : startsBuiltin tokens = true)
    (hstrip : stripRedirections tokens = (args, inFiles, outFiles)) (hne : inFiles ≠ [])
    (h : w.InputFails inFiles 9001) : w.BuiltinRefused tokens := by
  have hstdin : ∃ w', w.swapStdin inFiles = (w', none) := by
    rcases hsetup : w.setupInput inFiles 9001 with ⟨w₁, result⟩
    have hresult : ∀ n, result ≠ .fd n := by
      by_cases hcan : w.CanGather 9001
      · have hmissing := setupInput_of_inputFails hne hcan h
        rw [hsetup] at hmissing
        rw [show result = .missing from hmissing]
        simp
      · rw [setupInput_of_not_canGather hne hcan] at hsetup
        cases hsetup
        simp
    refine ⟨w₁, ?_⟩
    simp only [swapStdin, if_neg hne, hsetup]
  obtain ⟨w', hw'⟩ := hstdin
  refine ⟨w', fun run => ?_⟩
  rw [execCmd_of_startsBuiltin hbuiltin, execBuiltin, hstrip]
  dsimp only
  rw [hw']
  rfl

/-- A builtin is given its input files, or it is not run. -/
theorem builtin_given_or_refused (hbuiltin : startsBuiltin tokens = true)
    (hstrip : stripRedirections tokens = (args, inFiles, outFiles)) (hne : inFiles ≠ [])
    (hinput : w.fds.get 0 = some .input) (houtput : w.fds.get 1 = some .output)
    (hown : TmpInOwn w 9001 inFiles) :
    w.BuiltinRefused tokens ∨
      w.BuiltinGiven tokens (concatenation w.fs (inFiles.map w.locate)) := by
  by_cases hfails : w.InputFails inFiles 9001
  · exact .inl (builtinRefused_of_inputFails hbuiltin hstrip hne hfails)
  obtain ⟨hcan, hreadable⟩ := readable_of_not_inputFails hown hfails
  have hready : InputReady w inFiles :=
    ⟨hinput, houtput, hne, hreadable, hown.other, hcan, hown.own⟩
  obtain ⟨fs₁, fds₁, ino, saved, hin, hred, hnameless⟩ := hready.swapStdin_eq
  replace hnameless : ({ w with fs := fs₁, fds := fds₁ } : World).fs.Nameless ino := hnameless
  generalize ({ w with fs := fs₁, fds := fds₁ } : World) = w₁ at hin hred hnameless
  cases hvalid : (w₁.outregValidate outFiles).2 with
  | true =>
    right
    obtain ⟨fs₂, fds₂, tmpOutFd, savedOut, hout, hred₂, -⟩ := hred.swapStdout_eq hnameless hvalid
    generalize ({ w₁ with fs := fs₂, fds := fds₂ } : World) = w₂ at hout hred₂
    obtain ⟨restore, hrun⟩ : ∃ restore, ∀ run,
        execBuiltin run tokens w = (run args (w.builtinStart tokens)).map restore :=
      ⟨_, fun run => (execBuiltin_eq run hstrip hin hout).2⟩
    have hstart : w.builtinStart tokens = w₂ := (execBuiltin_eq (fun _ => .ok) hstrip hin hout).1
    refine ⟨args, fun v => (restore v, false), ino, fun run => ?_, hstart ▸ hred₂.input,
      hstart ▸ hred₂.data⟩
    rw [execCmd_of_startsBuiltin hbuiltin, hrun run]
    cases run args (w.builtinStart tokens) <;> rfl
  | false =>
    left
    have hfiles : outFiles ≠ [] := by
      rintro rfl
      cases hvalid
    rcases hvalidate : w₁.outregValidate outFiles with ⟨w₂, valid⟩
    rw [hvalidate] at hvalid
    have hout : w₁.swapStdout outFiles = (w₂, none) := by
      rw [swapStdout, if_neg hfiles, hvalidate, show valid = false from hvalid]
    refine ⟨{ w₂ with fds := w₂.fds.restore (some saved) 0 }, fun run => ?_⟩
    rw [execCmd_of_startsBuiltin hbuiltin, execBuiltin, hstrip]
    dsimp only
    rw [hin]
    dsimp only
    rw [hout]
    rfl

/-! ## Both kinds of commands -/

/-- A command with input files. An external command whose input cannot be set up is not run if and
only if the temporary file can be created, or the command cannot be started anyhow. Under the same
condition it reads its input files, one after the other, whenever it is run; that asks for a
temporary file that is the shell's own. A builtin whose input cannot be set up is never run, and if
it is run, it reads its input files. -/
theorem input_given_iff (w : World) {stage : Stage} {i : Nat}
    (hne : stage.inFiles ≠ []) (numCmds : Nat) (pipes : List (Nat × Nat)) (l : Launch) :
    let s := launchStage numCmds pipes (w, l) (stage, i)
    ((w.InputFails stage.inFiles i → s.1.tables = w.tables) ↔ w.CanGather i ∨ ¬ w.Startable stage) ∧
      (w.PlainInput pipes i → TmpInOwn w i stage.inFiles →
        (∀ f ∈ stage.outFiles, w.locate f.1 ≠ w.locate (tmpInName i)) →
        ((∀ t, s.1.tables = w.tables ++ [t] → ∃ ino, t.get 0 = some (.file ino) ∧
            s.1.fs.data ino = concatenation w.fs (stage.inFiles.map w.locate)) ↔
          w.CanGather i ∨ ¬ w.Startable stage)) ∧
      ∀ tokens args inFiles outFiles, startsBuiltin tokens = true →
        stripRedirections tokens = (args, inFiles, outFiles) → inFiles ≠ [] →
        (w.InputFails inFiles 9001 → w.BuiltinRefused tokens) ∧
          (w.fds.get 0 = some .input → w.fds.get 1 = some .output → TmpInOwn w 9001 inFiles →
            w.BuiltinRefused tokens ∨
                w.BuiltinGiven tokens (concatenation w.fs (inFiles.map w.locate))) := by
  intro s
  -- where no child is started, none is added to the others
  have hnone : s.1.tables = w.tables → ∀ t, s.1.tables ≠ w.tables ++ [t] := by
    intro hsame t ht
    rw [hsame] at ht
    simp at ht
  have hrefused : w.CanGather i ∨ ¬ w.Startable stage → w.InputFails stage.inFiles i →
      s.1.tables = w.tables := by
    intro hcond hfails
    by_cases hcan : w.CanGather i
    · exact launchStage_of_inputFails hne hcan hfails
    · rcases launchStage_of_not_canGather (l := l) hne hcan with ⟨-, hsame⟩ | ⟨hstart, -⟩
      · exact hsame
      · exact absurd hstart (hcond.resolve_left hcan)
  refine ⟨⟨fun hall => ?_, hrefused⟩,
    fun hplain hown hout => ⟨fun hgiven => ?_, fun hcond t ht => ?_⟩, ?_⟩
  · by_contra hnot
    obtain ⟨hcan, hstart⟩ := not_or.mp hnot
    rcases launchStage_of_not_canGather (l := l) hne hcan with ⟨hno, -⟩ | ⟨-, w₁, pid, -, hchild⟩
    · exact hstart hno
    · exact hnone (hall (inputFails_of_not_canGather hcan)) _ hchild
  · by_contra hnot
    obtain ⟨hcan, hstart⟩ := not_or.mp hnot
    rcases launchStage_of_not_canGather (l := l) hne hcan with ⟨hno, -⟩ | ⟨-, w₁, pid, hfds, hchild⟩
    · exact hstart hno
    · obtain ⟨ino, hino, -⟩ := hgiven _ hchild
      have hopen : (childInput w₁.fds i pipes .none).get 0 ≠ none := by
        rw [hfds]
        exact childInput_none_open hplain.opened
      rw [childFds_get_zero hplain.ends (by simp) hopen, hfds] at hino
      exact hplain.plain ino hino
  · by_cases hfails : w.InputFails stage.inFiles i
    · exact absurd ht (hnone (hrefused hcond hfails) t)
    · rcases launchStage_of_gathered (l := l) hne hplain hown hout hfails with hsame |
        ⟨t', ino, ht', hget, hdata⟩
      · exact absurd ht (hnone hsame t)
      · obtain rfl : t = t' := by simpa using ht.symm.trans ht'
        exact ⟨ino, hget, hdata⟩
  · intro tokens args inFiles outFiles hbuiltin hstrip hin
    exact ⟨builtinRefused_of_inputFails hbuiltin hstrip hin,
      fun hinput houtput hown => builtin_given_or_refused hbuiltin hstrip hin hinput houtput hown⟩

/-- `cat < f`. -/
def catStage : Stage := { args := ["cat".toList], inFiles := ["f".toList] }

/-- A directory with the file `f`, in which new files can be created or not. -/
def catF (canCreate : Bool) : World :=
  { withF (.ahead []) [] with
    fs := { (withF (.ahead []) []).fs with writable := fun _ => canCreate }
    forks := [⟨some 200, []⟩] }

theorem input_given_catF :
    ∃ t ino, (launchStage 1 [] (catF true, {}) (catStage, 0)).1.tables = [t] ∧
      t.get 0 = some (.file ino) ∧
      (launchStage 1 [] (catF true, {}) (catStage, 0)).1.fs.data ino = "x\n".toList := by
  have hplain : (catF true).PlainInput [] 0 := ⟨by decide, by decide, by intro ino h; cases h⟩
  have hown : TmpInOwn (catF true) 0 catStage.inFiles := ⟨by (intro m k h; cases h), by decide⟩
  have htables : ∃ t, (launchStage 1 [] (catF true, {}) (catStage, 0)).1.tables = [t] :=
    List.length_eq_one_iff.mp (by decide +kernel)
  obtain ⟨t, ht⟩ := htables
  have hiff := (input_given_iff (catF true) (i := 0) (by decide) 1 [] {}).2.1 hplain
    hown (by decide)
  obtain ⟨ino, hget, hdata⟩ := hiff.mpr (.inl rfl) t ht
  exact ⟨t, ino, ht, hget, hdata⟩

/-- In a directory in which no file can be created, `cat < f` reads from the terminal. -/
theorem input_not_given_catF :
    (catF false).InputFails catStage.inFiles 0 ∧
      (launchStage 1 [] (catF false, {}) (catStage, 0)).1.tables.map (·.get 0) = [some .input] ∧
      (catF false).fds.get 0 = some .input := by
  refine ⟨inputFails_of_not_canGather (by decide), by decide +kernel, rfl⟩

end World

end UnixCShell
