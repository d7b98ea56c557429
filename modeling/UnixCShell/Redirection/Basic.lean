import UnixCShell.Shell.World

/-!
# Redirection

`redirection.c`. Input files are gathered into a temporary file before a command starts. Output goes
to a temporary file named after the process, and when the process has finished it is copied to
every target; the registry remembers the targets of every process until then.
-/

namespace UnixCShell

open Lib

/-- The size of the buffers in which files are copied. -/
def copyChunk : Nat := 4096

/-- `.cshell_tmp_in_<i>`. -/
def tmpInName (cmdIndex : Nat) : Str := ".cshell_tmp_in_".toList ++ (toString cmdIndex).toList

/-- `.cshell_tmp_out_<pid>`. -/
def tmpOutName (pid : Int) : Str := ".cshell_tmp_out_".toList ++ (toString pid).toList

/-- `unlink`. -/
def World.unlink (w : World) (name : Str) : World := { w with fs := w.fs.unlink (w.locate name) }

/-! ## Input -/

/-- The result of `setup_input`: a descriptor, `-1` (there is nothing to set up, or no temporary
file), or `-2` (an input file is missing). -/
inductive InputFd where
  | fd (n : Nat)
  | none
  | missing
  deriving DecidableEq, Repr

/-- The loop over `in_files`, which copies them to the file `ino`; it fails at the first one that
cannot be opened. -/
def gatherInput (fs : Files Str Char) (ino : Nat) : List Str → Files Str Char × Bool
  | [] => (fs, true)
  | file :: files =>
    match fs.openRead file with
    | none => (fs, false)
    | some src => gatherInput (fs.copyAll copyChunk src [ino]) ino files

/-- `setup_input`. (`perror` also prints the reason.) -/
def World.setupInput (w : World) (inFiles : List Str) (cmdIndex : Nat) : World × InputFd :=
  if inFiles = [] then (w, .none)
  else
    match w.fs.openWrite true (w.locate (tmpInName cmdIndex)) with
    | none => (w.eprint "cshell: tmpfile failed\n".toList, .none)
    | some (ino, fs) =>
      let (tmpFd, fds) := w.fds.alloc (.file ino)
      match gatherInput fs ino (inFiles.map w.locate) with
      | (fs, true) => ({ w with fs := fs, fds := fds }, .fd tmpFd)
      | (fs, false) =>
        let w := { w with fs := fs, fds := fds.close tmpFd }
        ((w.eprint "cshell: no such file or directory\n".toList).unlink
          (tmpInName cmdIndex), .missing)

/-! ## Output -/

/-- The loop of `outreg_validate`: open every target once, for appending or for truncating it. -/
def validateTargets (fs : Files Str Char) : List (Str × Bool) → Files Str Char × Bool
  | [] => (fs, true)
  | (file, append) :: files =>
    match fs.openWrite (!append) file with
    | none => (fs, false)
    | some (_, fs) => validateTargets fs files

/-- `outreg_validate`. The modes say which targets are appended to. -/
def World.outregValidate (w : World) (outFiles : List (Str × Bool)) : World × Bool :=
  match validateTargets w.fs (outFiles.map fun f => (w.locate f.1, f.2)) with
  | (fs, true) => ({ w with fs := fs }, true)
  | (fs, false) =>
    ({ w with fs := fs }.eprint "cshell: unable to create file for writing\n".toList, false)

/-- `outreg_register`. -/
def World.outregRegister (w : World) (pid : Int) (outFiles : List Str) : World :=
  if outFiles = [] then w
  else { w with registry := w.registry.insert ⟨pid, outFiles.take outregFilesMax⟩ }

/-- The loop that opens the targets again; `none` is one that could not be opened. -/
def openTargets (fs : Files Str Char) : List Str → Files Str Char × List (Option Nat)
  | [] => (fs, [])
  | file :: files =>
    match fs.openWrite false file with
    | none =>
      let (fs, inos) := openTargets fs files
      (fs, none :: inos)
    | some (ino, fs) =>
      let (fs, inos) := openTargets fs files
      (fs, some ino :: inos)

/-- Copy the file `tmpname` to every target that can be opened, and remove it. -/
def deliver (fs : Files Str Char) (tmpname : Str) (targets : List Str) : Files Str Char :=
  let (fs, inos) := openTargets fs targets
  let fs := match fs.openRead tmpname with
    | some src => fs.copyAll copyChunk src (inos.filterMap id)
    | none => fs
  fs.unlink tmpname

/-- `outreg_finalize`. -/
def World.outregFinalize (w : World) (pid : Int) : World :=
  match w.registry.findSlot (fun s => s.pid = pid) with
  | none => w
  | some i =>
    match w.registry.cell i with
    | none => w
    | some s =>
      { w with
        fs := deliver w.fs (w.locate (tmpOutName pid)) (s.outFiles.map w.locate)
        registry := w.registry.set i none }

/-! ### What the functions leave alone -/

namespace World

theorem setupInput_frame (w : World) (inFiles : List Str) (cmdIndex : Nat) :
    ∃ fs fds err, (w.setupInput inFiles cmdIndex).1 =
      { w with fs := fs, fds := fds, err := err } := by
  unfold setupInput
  split
  · exact ⟨_, _, _, rfl⟩
  · split
    · exact ⟨_, _, _, rfl⟩
    · dsimp only
      split <;> exact ⟨_, _, _, rfl⟩

theorem outregValidate_frame (w : World) (outFiles : List (Str × Bool)) :
    ∃ fs err, (w.outregValidate outFiles).1 = { w with fs := fs, err := err } := by
  unfold outregValidate
  split <;> exact ⟨_, _, rfl⟩

theorem outregRegister_frame (w : World) (pid : Int) (outFiles : List Str) :
    ∃ registry, w.outregRegister pid outFiles = { w with registry := registry } := by
  unfold outregRegister
  split <;> exact ⟨_, rfl⟩

theorem outregFinalize_frame (w : World) (pid : Int) :
    ∃ fs registry, w.outregFinalize pid = { w with fs := fs, registry := registry } := by
  unfold outregFinalize
  split
  · exact ⟨_, _, rfl⟩
  · split <;> exact ⟨_, _, rfl⟩

end World

end UnixCShell
