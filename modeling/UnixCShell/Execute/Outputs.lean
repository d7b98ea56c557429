import UnixCShell.Execute.Isolation
import UnixCShell.Redirection.FanOut

/-!
# The output of builtins and of other commands

Output is redirected in two places. For an external command `outreg_validate` opens the targets, the
child opens its temporary file, `outreg_register` remembers the targets, and `outreg_finalize`
copies the file when the process is gone. For a builtin `exec_cmd` does all of it, with a loop of
its own.

On the level of files both are `FansOut`, with different names for the temporary file; for an
external command there must be a free slot in the registry besides (`output_iff`).
-/

namespace UnixCShell

open Lib

namespace World

/-- The located targets of a command. -/
def targets (w : World) (outFiles : List (Str × Bool)) : List (Str × Bool) :=
  outFiles.map fun f => (w.locate f.1, f.2)

/-- The temporary files of an external command and of a builtin. -/
def tmpOut (w : World) (pid : Int) : Str := w.locate (tmpOutName pid)
def tmpBuiltin (w : World) : Str := w.locate w.tmpBuiltinName

theorem tmpBuiltin_congr {v w : World} (hcwd : v.cwd = w.cwd) (hpid : v.shellPid = w.shellPid) :
    v.tmpBuiltin = w.tmpBuiltin := by
  have hname : v.tmpBuiltinName = w.tmpBuiltinName := by
    unfold tmpBuiltinName
    rw [hpid]
  unfold tmpBuiltin
  rw [locate_congr hcwd, hname]

/-- The files behind `outreg_finalize`, whatever the sizes of its reads. -/
def FinalizesTo (w : World) (pid : Int) (fs' : Files Str Char) : Prop :=
  match w.registry.findSlot (fun s => s.pid = pid) with
  | none => fs' = w.fs
  | some i =>
    match w.registry.cell i with
    | none => fs' = w.fs
    | some s => DeliversTo w.fs (w.tmpOut pid) (s.outFiles.map w.locate) fs'

/-- The files behind an external command that writes `bytes`: its targets are validated, its child
sets up its descriptors and writes, the shell registers the targets, and delivers when the process
is gone. -/
def ExternalFiles (w : World) (pid : Int) (stage : Stage) (bytes : Str) (fs' : Files Str Char) :
    Prop :=
  ∃ w₁, w.outregValidate stage.outFiles = (w₁, true) ∧
    let child := w₁.childFds pid 0 [] stage .none
    let ran := { w₁ with fs := child.1, fds := child.2 }.print bytes
    FinalizesTo ({ w₁ with fs := ran.fs }.outregRegister pid (stage.outFiles.map Prod.fst)) pid fs'

/-- The files behind a builtin that prints `bytes` and leaves the shell in the directory `cwd'`. -/
def BuiltinFiles (w : World) (outFiles : List (Str × Bool)) (cwd' bytes : Str)
    (fs' : Files Str Char) : Prop :=
  ∃ w₁ tmpOutFd saved, w.swapStdout outFiles = (w₁, some (tmpOutFd, saved)) ∧
    let ran := { w₁.print bytes with cwd := cwd' }
    match saved with
    | none => fs' = ran.fs
    | some _ => DeliversTo ran.fs ran.tmpBuiltin ((outFiles.map Prod.fst).map ran.locate) fs'

/-- What the child writes goes to its temporary file, if it could be opened. -/
theorem child_print {w : World} (hout : w.fds.get 1 = some .output) (pid : Int) {stage : Stage}
    (hne : stage.outFiles ≠ []) (bytes : Str) :
    ({ w with fs := (w.childFds pid 0 [] stage .none).1
              fds := (w.childFds pid 0 [] stage .none).2 }.print bytes).fs =
      writeTmp w.fs (w.tmpOut pid) bytes := by
  cases hopen : w.fs.openWrite true (w.locate (tmpOutName pid)) with
  | none =>
    have hchild : w.childFds pid 0 [] stage .none = (w.fs, w.fds) := by
      simp only [childFds, if_neg hne, hopen]
      rfl
    rw [hchild, writeTmp, tmpOut, hopen]
    simp [print, hout]
  | some p =>
    obtain ⟨ino, fs⟩ := p
    have hchild : w.childFds pid 0 [] stage .none =
        (fs, ((w.fds.put w.fds.lowest (.file ino)).dup2 w.fds.lowest 1).close w.fds.lowest) := by
      simp only [childFds, if_neg hne, hopen]
      rfl
    have hne1 : 1 ≠ w.fds.lowest := (w.fds.lowest_ne (by simp [hout])).symm
    have htmp : (w.fds.put w.fds.lowest (.file ino)).get w.fds.lowest = some (.file ino) :=
      FdTable.get_put_self _ _
    have hget :
        (((w.fds.put w.fds.lowest (.file ino)).dup2 w.fds.lowest 1).close w.fds.lowest).get 1 =
          some (.file ino) := by
      rw [FdTable.get_close, if_neg hne1, FdTable.get_dup2 _ htmp, if_pos rfl]
    rw [hchild, writeTmp, tmpOut, hopen]
    simp [print, hget]

/-- What a builtin prints goes to its temporary file, if it could be opened. -/
theorem swapStdout_print {w : World} (hout : w.fds.get 1 = some .output)
    {outFiles : List (Str × Bool)} (hne : outFiles ≠ []) {fs₁ : Files Str Char}
    (hvalid : w.outregValidate outFiles = ({ w with fs := fs₁ }, true)) :
    ∃ fs fds tmpOutFd saved,
      w.swapStdout outFiles = ({ w with fs := fs, fds := fds }, some (tmpOutFd, some saved)) ∧
      ∀ bytes, ({ w with fs := fs, fds := fds }.print bytes).fs =
        writeTmp fs₁ w.tmpBuiltin bytes := by
  have hname : World.locate { w with fs := fs₁ } (World.tmpBuiltinName { w with fs := fs₁ }) =
      w.tmpBuiltin := rfl
  rw [swapStdout, if_neg hne, hvalid]
  dsimp only
  rw [hname]
  cases hopen : fs₁.openWrite true w.tmpBuiltin with
  | none =>
    dsimp only
    rw [FdTable.dup_eq hout]
    refine ⟨fs₁, _, _, _, rfl, fun bytes => ?_⟩
    rw [writeTmp, hopen]
    simp [print, FdTable.get_put_lowest _ hout]
  | some p =>
    obtain ⟨ino, fs⟩ := p
    have hout' : (w.fds.put w.fds.lowest (.file ino)).get 1 = some .output :=
      FdTable.get_put_lowest _ hout
    have hself : (w.fds.put w.fds.lowest (.file ino)).get w.fds.lowest = some (.file ino) :=
      FdTable.get_put_self _ _
    have htmp := FdTable.get_put_lowest .output hself
    dsimp only [FdTable.alloc]
    rw [FdTable.dup_eq hout']
    refine ⟨fs, _, _, _, rfl, fun bytes => ?_⟩
    rw [writeTmp, hopen]
    simp [print, FdTable.get_dup2 _ htmp]

theorem map_fst_targets (w : World) (outFiles : List (Str × Bool)) :
    (w.targets outFiles).map Prod.fst = (outFiles.map Prod.fst).map w.locate := by
  simp [targets]

theorem outregValidate_eq {w : World} {outFiles : List (Str × Bool)} {fs₁ : Files Str Char}
    (h : validateTargets w.fs (w.targets outFiles) = (fs₁, true)) :
    w.outregValidate outFiles = ({ w with fs := fs₁ }, true) := by
  rw [outregValidate]
  rw [targets] at h
  rw [h]

section Paths

variable {w : World} {fs₁ : Files Str Char} {bytes : Str}

/-- A builtin opens its files in one directory and looks for them in another one, if it has
moved. -/
theorem builtinFiles_iff (hout : w.fds.get 1 = some .output) {outFiles : List (Str × Bool)}
    (hne : outFiles ≠ []) (hvalid : validateTargets w.fs (w.targets outFiles) = (fs₁, true))
    {cwd' : Str} {fs' : Files Str Char} :
    w.BuiltinFiles outFiles cwd' bytes fs' ↔
      DeliversTo (writeTmp fs₁ w.tmpBuiltin bytes) { w with cwd := cwd' }.tmpBuiltin
        (({ w with cwd := cwd' }.targets outFiles).map Prod.fst) fs' := by
  obtain ⟨fs, fds, tmpOutFd, saved, hswap, hprint⟩ :=
    swapStdout_print hout hne (outregValidate_eq hvalid)
  have hpid : ({ w with fs := fs, fds := fds }.print bytes).shellPid = w.shellPid := by
    unfold print
    split <;> rfl
  have htmp : World.tmpBuiltin { { w with fs := fs, fds := fds }.print bytes with cwd := cwd' } =
      World.tmpBuiltin { w with cwd := cwd' } := tmpBuiltin_congr rfl hpid
  have hlocate : World.locate { { w with fs := fs, fds := fds }.print bytes with cwd := cwd' } =
      World.locate { w with cwd := cwd' } := locate_congr rfl
  rw [map_fst_targets, ← hprint bytes, ← htmp, ← hlocate]
  constructor
  · rintro ⟨w₁, tmpOutFd', saved', hswap', hdel⟩
    obtain ⟨rfl, heq⟩ := Prod.mk.inj (hswap.symm.trans hswap')
    obtain ⟨rfl, rfl⟩ := Prod.mk.inj (Option.some.inj heq)
    exact hdel
  · intro hdel
    exact ⟨_, _, _, hswap, hdel⟩

/-- An external command leaves its output in the temporary file, and delivers it from there if it
has been registered. -/
theorem externalFiles_iff (hout : w.fds.get 1 = some .output) (pid : Int) {stage : Stage}
    (hne : stage.outFiles ≠ [])
    (hvalid : validateTargets w.fs (w.targets stage.outFiles) = (fs₁, true))
    {fs' : Files Str Char} :
    w.ExternalFiles pid stage bytes fs' ↔
      FinalizesTo ({ w with fs := writeTmp fs₁ (w.tmpOut pid) bytes }.outregRegister pid
        (stage.outFiles.map Prod.fst)) pid fs' := by
  have hprint := child_print (w := { w with fs := fs₁ }) hout pid hne bytes
  constructor
  · rintro ⟨w₁, hw₁, hfinal⟩
    obtain rfl : { w with fs := fs₁ } = w₁ :=
      congrArg Prod.fst ((outregValidate_eq hvalid).symm.trans hw₁)
    dsimp only at hfinal
    rw [hprint] at hfinal
    exact hfinal
  · intro hfinal
    refine ⟨_, outregValidate_eq hvalid, ?_⟩
    dsimp only
    rw [hprint]
    exact hfinal

/-- With a free slot in the registry, an external command fans its output out. -/
theorem finalizesTo_of_free {pid : Int} {outFiles : List (Str × Bool)} (hne : outFiles ≠ [])
    (hmax : outFiles.length ≤ outregFilesMax) (hfree : ∃ i, w.registry.cell i = none)
    (hnew : ∀ s ∈ w.registry, s.pid ≠ pid) {fs fs' : Files Str Char} :
    FinalizesTo ({ w with fs := fs }.outregRegister pid (outFiles.map Prod.fst)) pid fs' ↔
      DeliversTo fs (w.tmpOut pid) ((w.targets outFiles).map Prod.fst) fs' := by
  obtain ⟨j, hj⟩ := hfree
  obtain ⟨i, hi⟩ := Slots.firstFree_isSome hj
  rw [outregRegister_free { w with fs := fs } pid (outFiles.map Prod.fst) (by simpa using hne)
    (by simpa using hmax) hi, map_fst_targets]
  have hfind : (w.registry.set i (some ⟨pid, outFiles.map Prod.fst⟩)).findSlot
      (fun s => s.pid = pid) = some i := by
    refine Slots.findSlot_of_unique (Slots.cell_set_self _ _ _) (by simp) fun k s hk hs => ?_
    by_contra hne
    rw [Slots.cell_set_of_ne _ _ hne] at hk
    exact hnew s ⟨k, hk⟩ (by simpa using hs)
  simp only [FinalizesTo, hfind, Slots.cell_set_self]
  rfl

/-- With a full registry, the output stays where it is. -/
theorem finalizesTo_of_full {pid : Int} {outFiles : List (Str × Bool)}
    (hfull : ¬ ∃ i, w.registry.cell i = none) (hnew : ∀ s ∈ w.registry, s.pid ≠ pid)
    {fs fs' : Files Str Char} :
    FinalizesTo ({ w with fs := fs }.outregRegister pid (outFiles.map Prod.fst)) pid fs' ↔
      fs' = fs := by
  have hregister : { w with fs := fs }.outregRegister pid (outFiles.map Prod.fst) =
      { w with fs := fs } := by
    have hnone : w.registry.firstFree = none := by
      cases hfree : w.registry.firstFree with
      | none => rfl
      | some i => exact absurd ⟨i, Slots.firstFree_eq_some hfree⟩ hfull
    rw [outregRegister, Slots.insert]
    simp [hnone]
  have hfind : w.registry.findSlot (fun s => s.pid = pid) = none := by
    rw [Slots.findSlot_eq_none]
    intro s hs
    simpa using hnew s hs
  rw [hregister]
  simp only [FinalizesTo, hfind]

end Paths

/-! ## Both paths -/

/-- Output is redirected to at most 16 files, which can be opened and are different from each
other. -/
structure Redirects (w : World) (outFiles : List (Str × Bool)) : Prop where
  output   : w.fds.get 1 = some .output
  nonempty : outFiles ≠ []
  max      : outFiles.length ≤ outregFilesMax
  writable : ∀ f ∈ w.targets outFiles, w.fs.writable f.1 = true
  distinct : DistinctFiles w.fs (w.targets outFiles)

/-- In another directory the temporary file of a builtin is another file. -/
theorem tmpBuiltin_ne {w : World} {cwd' : Str} (h : cwd' ≠ w.cwd) :
    w.tmpBuiltin ≠ { w with cwd := cwd' }.tmpBuiltin := by
  have hhead : w.tmpBuiltinName.head? ≠ some '/' := by
    show some '.' ≠ some '/'
    decide
  have hmoved : World.tmpBuiltin { w with cwd := cwd' } = cwd' ++ '/' :: w.tmpBuiltinName :=
    locate_of_relative hhead _
  rw [hmoved, tmpBuiltin, locate_of_relative hhead]
  intro heq
  exact h (List.append_cancel_right heq).symm

end World

/-- **Output on both paths.** Whatever an external command writes reaches its targets, and nothing
else changes but that the temporary file is gone, if and only if the temporary file is the shell's
own and the registry has a free slot; for a builtin, if and only if the temporary file is the
shell's own and the builtin does not change the working directory. Where both are right, they leave
the same files. (A new process is not in the registry yet, and what can be opened with `O_RDWR` can
be opened for reading again.) -/
theorem output_iff {w : World} {stage : Stage} (h : w.Redirects stage.outFiles) {pid : Int}
    (hnew : ∀ s ∈ w.registry, s.pid ≠ pid)
    (hout : w.fs.writable (w.tmpOut pid) = true → w.fs.readable (w.tmpOut pid) = true)
    (hbuiltin : w.fs.writable w.tmpBuiltin = true → w.fs.readable w.tmpBuiltin = true) :
    let spec := fun tmpname => FannedOut w.fs tmpname (w.targets stage.outFiles)
    ((∀ bytes, Meets (w.ExternalFiles pid stage bytes) (spec (w.tmpOut pid) bytes)) ↔
      TmpOwn w.fs (w.tmpOut pid) (w.targets stage.outFiles) ∧ ∃ i, w.registry.cell i = none) ∧
    (∀ cwd', (∀ bytes, Meets (w.BuiltinFiles stage.outFiles cwd' bytes) (spec w.tmpBuiltin bytes)) ↔
      TmpOwn w.fs w.tmpBuiltin (w.targets stage.outFiles) ∧ cwd' = w.cwd) ∧
    ∀ bytes fs₁ fs₂, spec (w.tmpOut pid) bytes fs₁ → spec w.tmpBuiltin bytes fs₂ →
      ∀ n, n ≠ w.tmpOut pid → n ≠ w.tmpBuiltin → fs₁.contents n = fs₂.contents n := by
  intro spec
  have hne : w.targets stage.outFiles ≠ [] := by simpa [World.targets] using h.nonempty
  obtain ⟨fs₁, hvalid, -⟩ := validateTargets_validated h.writable h.distinct
  refine ⟨?_, ?_, fun bytes fs₁ fs₂ h₁ h₂ n hn₁ hn₂ => h₁.contents_eq h₂ hn₁ hn₂⟩
  · by_cases hfree : ∃ i, w.registry.cell i = none
    · rw [and_iff_left hfree, ← fansOut_iff hne h.writable h.distinct hout]
      have hruns : ∀ bytes fs', w.ExternalFiles pid stage bytes fs' ↔
          FansOut w.fs (w.tmpOut pid) (w.targets stage.outFiles) bytes fs' := by
        intro bytes fs'
        rw [World.externalFiles_iff h.output pid h.nonempty hvalid,
          World.finalizesTo_of_free h.nonempty h.max hfree hnew, fansOut_of_validate hvalid]
      simp only [Meets, hruns, spec]
    · refine iff_of_false ?_ fun hc => hfree hc.2
      have hruns : ∀ bytes fs', w.ExternalFiles pid stage bytes fs' ↔
          fs' = writeTmp fs₁ (w.tmpOut pid) bytes := by
        intro bytes fs'
        rw [World.externalFiles_iff h.output pid h.nonempty hvalid,
          World.finalizesTo_of_full hfree hnew]
      simp only [Meets, hruns, spec]
      refine not_meets_of_kept hne (fun fs₂ fs' => fs' = fs₂) ?_
      rintro fs₂ fs' rfl
      exact id
  · intro cwd'
    by_cases hcwd : cwd' = w.cwd
    · subst hcwd
      rw [and_iff_left rfl, ← fansOut_iff hne h.writable h.distinct hbuiltin]
      simp only [Meets, World.builtinFiles_iff h.output h.nonempty hvalid, spec,
        fansOut_of_validate hvalid]
    · refine iff_of_false ?_ fun hc => hcwd hc.2
      simp only [Meets, World.builtinFiles_iff h.output h.nonempty hvalid, spec]
      refine not_meets_of_kept hne (fun fs₂ fs' => DeliversTo fs₂ _ _ fs') ?_
      intro fs₂ fs' hdel
      exact hdel.dir (World.tmpBuiltin_ne hcwd)

/-! ### The functions of the shell -/

/-- `outreg_finalize` with the largest reads is one of the ways to deliver. -/
theorem World.outregFinalize_finalizesTo {w : World} {pid : Int}
    (h : ∀ s ∈ w.registry, s.pid = pid →
      ∃ src, Deliverable w.fs (w.tmpOut pid) (s.outFiles.map w.locate) src) :
    w.FinalizesTo pid (w.outregFinalize pid).fs := by
  unfold FinalizesTo outregFinalize
  cases hfind : w.registry.findSlot (fun s => s.pid = pid) with
  | none => rfl
  | some i =>
    obtain ⟨s, hs, hpid⟩ := Slots.findSlot_eq_some hfind
    obtain ⟨src, hdeliverable⟩ := h s ⟨i, hs⟩ (by simpa using hpid)
    simp only [hs]
    exact hdeliverable.deliversTo

/-- So is `exec_cmd`, for a builtin that prints `bytes`. -/
theorem World.execBuiltin_builtinFiles {w : World} {tokens args : List Token}
    {outFiles : List (Str × Bool)} (hstrip : stripRedirections tokens = (args, [], outFiles))
    (h : w.Redirects outFiles) (hown : TmpOwn w.fs w.tmpBuiltin (w.targets outFiles))
    (hreadable : w.fs.readable w.tmpBuiltin = true) (bytes : Str) :
    ∃ w', execBuiltin (fun _ w => .ok (w.print bytes)) tokens w = .ok w' ∧
      w.BuiltinFiles outFiles w.cwd bytes w'.fs := by
  obtain ⟨fs₁, hvalid, hvalidated⟩ := validateTargets_validated h.writable h.distinct
  obtain ⟨fs, fds, tmpOutFd, saved, hswap, hprint⟩ :=
    swapStdout_print h.output h.nonempty (outregValidate_eq hvalid)
  have htmp₁ : fs₁.writable w.tmpBuiltin = true := by rw [hvalidated.writable, hown.writable]
  obtain ⟨ino, hwrote⟩ := exists_wrote htmp₁ bytes
  have hstaged : Staged w.fs w.tmpBuiltin (w.targets outFiles) bytes ino fs₁ _ :=
    ⟨hvalidated, hwrote, hown.other, h.writable, hreadable, h.distinct⟩
  have hdel := (hstaged.deliverable hown.own).deliversTo
  rw [map_fst_targets, ← hprint bytes] at hdel
  have hin : w.swapStdin [] = (w, some none) := rfl
  obtain ⟨hstart, hexec⟩ :=
    execBuiltin_eq (fun _ w => .ok (w.print bytes)) hstrip hin hswap
  refine ⟨_, hexec.trans (by rw [hstart]; rfl), _, _, _, hswap, ?_⟩
  have hcwd : ({ w with fs := fs, fds := fds }.print bytes).cwd = w.cwd := by
    unfold print
    split <;> rfl
  have hpid : ({ w with fs := fs, fds := fds }.print bytes).shellPid = w.shellPid := by
    unfold print
    split <;> rfl
  generalize hran : { w with fs := fs, fds := fds }.print bytes = ran at hdel hcwd hpid ⊢
  have htmp : ran.tmpBuiltin = w.tmpBuiltin := tmpBuiltin_congr hcwd hpid
  have hfs : (ran.restoreStdout tmpOutFd (some saved) (outFiles.map Prod.fst)).fs =
      deliver ran.fs w.tmpBuiltin ((outFiles.map Prod.fst).map w.locate) := by
    rw [← htmp, ← locate_congr hcwd]
    rfl
  have hmoved : { ran with cwd := w.cwd } = ran := by rw [← hcwd]
  dsimp only
  rw [hmoved, htmp, locate_congr hcwd, hfs]
  exact hdel

/-- If the temporary file of an external command cannot be created, the targets get nothing. -/
theorem World.externalFiles_of_missing {w : World} {stage : Stage} (h : w.Redirects stage.outFiles)
    {pid : Int} (hnew : ∀ s ∈ w.registry, s.pid ≠ pid) (hfree : ∃ i, w.registry.cell i = none)
    (htmp : w.fs.writable (w.tmpOut pid) = false)
    (hdir : w.fs.dir (w.tmpOut pid) = none) {bytes : Str} {fs' : Files Str Char}
    (hrun : w.ExternalFiles pid stage bytes fs') :
    ∀ f ∈ w.targets stage.outFiles, fs'.contents f.1 = some (keptBy w.fs f) := by
  obtain ⟨fs₁, hvalid, hvalidated⟩ := validateTargets_validated h.writable h.distinct
  have hne : ∀ f ∈ w.targets stage.outFiles, f.1 ≠ w.tmpOut pid := by
    intro f hf heq
    have hwritable := h.writable f hf
    rw [heq, htmp] at hwritable
    cases hwritable
  have hnone : fs₁.dir (w.tmpOut pid) = none := by
    rw [hvalidated.dir_of_not_mem, hdir]
    intro hmem
    obtain ⟨f, hf, heq⟩ := List.mem_map.mp hmem
    exact hne f hf heq
  have hwrite : writeTmp fs₁ (w.tmpOut pid) bytes = fs₁ := by
    rw [writeTmp, Files.openWrite, hvalidated.writable, htmp]
    rfl
  rw [externalFiles_iff h.output pid h.nonempty hvalid,
    finalizesTo_of_free h.nonempty h.max hfree hnew,
    hwrite, deliversTo_of_missing ?_ ?_ hnone] at hrun
  · intro f hf
    rw [hrun, ← hvalidated.target f hf]
    exact congrArg (Option.map fs₁.data) (Function.update_of_ne (hne f hf) _ _)
  · intro t ht
    obtain ⟨f, hf, rfl⟩ := List.mem_map.mp ht
    rw [hvalidated.writable, h.writable f hf]
  · intro t ht
    obtain ⟨f, hf, rfl⟩ := List.mem_map.mp ht
    obtain ⟨i, hi, -⟩ := Option.map_eq_some_iff.mp (hvalidated.target f hf)
    rw [hi]
    rfl

/-- `cmd > a >> b`. -/
def twoTargets : Stage := ⟨["cmd".toList], [], [("a".toList, false), ("b".toList, true)]⟩

/-- In an empty directory in which the shell may create files, both paths are right. -/
theorem output_iff_init :
    (∀ bytes, Meets (World.init.ExternalFiles 7 twoTargets bytes)
      (FannedOut World.init.fs (World.init.tmpOut 7)
        (World.init.targets twoTargets.outFiles) bytes)) ∧
    (∀ bytes, Meets (World.init.BuiltinFiles twoTargets.outFiles World.init.cwd bytes)
      (FannedOut World.init.fs World.init.tmpBuiltin
        (World.init.targets twoTargets.outFiles) bytes)) := by
  have hredirects : World.init.Redirects twoTargets.outFiles := by
    refine ⟨rfl, by decide, by decide, fun _ _ => rfl, ?_⟩
    refine List.pairwise_pair.mpr ?_
    rintro (heq | ⟨i, hi, -⟩)
    · exact absurd heq (by decide)
    · cases hi
  have hown : ∀ n i, World.init.fs.dir n = some i → ∀ m, World.init.fs.dir m = some i → m = n := by
    intro n i hi
    cases hi
  obtain ⟨hexternal, hbuiltin, -⟩ :=
    output_iff hredirects (fun s hs => absurd hs Slots.not_mem_empty) (fun _ => rfl) fun _ => rfl
  refine ⟨hexternal.mpr ⟨⟨rfl, by decide +kernel, fun n i hi hn => hown _ i hi n hn⟩,
    ⟨0, by decide⟩, rfl⟩,
    (hbuiltin _).mpr ⟨⟨rfl, by decide +kernel, fun n i hi hn => hown _ i hi n hn⟩, rfl⟩⟩

/-- A shell whose working directory is not its own: it may only write to `/tmp/out`. -/
def World.readOnlyCwd : World :=
  { init with
    fs := ⟨fun _ => none, fun _ => [], 0, fun _ => true, fun n => n = "/tmp/out".toList,
      init.fs.lt_next⟩ }

/-- `peek > /tmp/out` prints to the terminal, and leaves the target empty. So does an external
command. -/
theorem output_lost :
    World.readOnlyCwd.Redirects [("/tmp/out".toList, false)] ∧
    (World.execCmd (fun _ w => .ok (w.print "x".toList))
        [word "peek", ⟨.opGt, ['>']⟩, word "/tmp/out"] .readOnlyCwd).toOption.map
      (fun r => (r.1.fs.contents "/tmp/out".toList, r.1.out)) = some (some [], "x".toList) ∧
    ∀ fs', World.readOnlyCwd.ExternalFiles 7 ⟨["ls".toList], [], [("/tmp/out".toList, false)]⟩
      "x".toList fs' → fs'.contents "/tmp/out".toList = some [] := by
  have hredirects : World.readOnlyCwd.Redirects [("/tmp/out".toList, false)] :=
    ⟨rfl, by decide, by decide, by decide, List.pairwise_singleton _ _⟩
  have hother : World.readOnlyCwd.tmpOut 7 ≠ "/tmp/out".toList := by decide +kernel
  refine ⟨hredirects, by decide +kernel, fun fs' hrun => ?_⟩
  have htarget := World.externalFiles_of_missing hredirects
    (fun s hs => absurd hs Slots.not_mem_empty) ⟨⟨0, by decide⟩, rfl⟩
      (decide_eq_false hother) rfl hrun
  exact htarget ("/tmp/out".toList, false) List.mem_cons_self

end UnixCShell
