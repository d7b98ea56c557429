import UnixCShell.Execute.Basic
import UnixCShell.Peek.Run
import UnixCShell.Redirection.Verified

/-!
# Redirected builtins and the input of the shell

A builtin with `<` reads from `stdin` like the shell itself, with descriptor 0 led to a temporary
file for the time being. The descriptor is restored afterwards, but the stream is shared: the
builtin is given what the shell has read ahead before it is given the files, and the end-of-file
indicator that it leaves stays set. So the shell and the builtin are kept apart only if there is
nothing more to read for the shell (`stdin_isolated_iff`).
-/

namespace UnixCShell

open Lib

/-! ## Descriptors that are saved and restored -/

namespace FdTable

variable {fds : FdTable}

theorem dup_eq {fd : Nat} {d : Desc} (h : fds.get fd = some d) :
    fds.dup fd = (some fds.lowest, fds.put fds.lowest d) := by
  simp only [dup, h, alloc]

/-- A new descriptor does not disturb those that are open. -/
theorem get_put_lowest {k : Nat} {d : Desc} (d' : Desc) (h : fds.get k = some d) :
    (fds.put fds.lowest d').get k = some d := by
  have hne : k ≠ fds.lowest := (fds.lowest_ne (by simp [h])).symm
  rw [get_put, if_neg hne, h]

theorem get_put_self (fd : Nat) (d : Desc) : (fds.put fd d).get fd = some d := by
  rw [get_put, if_pos rfl]

theorem get_dup2_of_ne {old new k : Nat} (h : k ≠ new) : (fds.dup2 old new).get k = fds.get k := by
  unfold dup2
  split
  · rw [get_put, if_neg h]
  · rfl

theorem get_restore_of_ne {saved fd k : Nat} (hfd : k ≠ fd) (hsaved : k ≠ saved) :
    (fds.restore (some saved) fd).get k = fds.get k := by
  rw [restore, get_close, if_neg hsaved, get_dup2_of_ne hfd]

theorem get_restore_self {saved fd : Nat} {d : Desc} (h : fds.get saved = some d)
    (hne : fd ≠ saved) :
    (fds.restore (some saved) fd).get fd = some d := by
  rw [restore, get_close, if_neg hne, get_dup2 _ h, if_pos rfl]

end FdTable

/-! ## The swap of `stdin` -/

/-- The temporary file for the input of a builtin. -/
def World.tmpIn (w : World) : Str := w.locate (tmpInName 9001)

/-- The input files of a builtin can be gathered: the shell has the descriptors it was started with,
all files can be read, and the temporary file is the shell's own: it is none of them, may be
written, and if it is left from before, it has no second name. -/
structure InputReady (w : World) (inFiles : List Str) : Prop where
  input    : w.fds.get 0 = some .input
  output   : w.fds.get 1 = some .output
  nonempty : inFiles ≠ []
  readable : ∀ f ∈ inFiles, (w.fs.openRead (w.locate f)).isSome
  other    : ∀ f ∈ inFiles, w.locate f ≠ w.tmpIn
  writable : w.fs.writable w.tmpIn = true
  own      : ∀ m i, w.fs.dir w.tmpIn = some i → w.fs.dir m = some i → m = w.tmpIn

/-- Descriptor 0 leads to the file `ino`, which holds `contents` and is not where descriptor 1
leads. Where descriptor 0 led before can still be found at `saved`. -/
structure Redirected (w : World) (ino saved : Nat) (contents : Str) : Prop where
  input  : w.fds.get 0 = some (.file ino)
  output : ∃ d, w.fds.get 1 = some d ∧ d ≠ .file ino
  kept   : w.fds.get saved = some .input
  aside  : saved ≠ 0 ∧ saved ≠ 1
  data   : w.fs.data ino = contents

namespace Redirected

variable {w : World} {ino saved : Nat} {contents : Str}

/-- A new descriptor is different from those that are open. -/
theorem lowest_ne (h : Redirected w ino saved contents) : w.fds.lowest ≠ 0 ∧ w.fds.lowest ≠ saved :=
  ⟨w.fds.lowest_ne (by simp [h.input]), w.fds.lowest_ne (by simp [h.kept])⟩

theorem setFs (h : Redirected w ino saved contents) {fs : Files Str Char}
    (hdata : fs.data ino = w.fs.data ino) : Redirected { w with fs := fs } ino saved contents :=
  ⟨h.input, h.output, h.kept, h.aside, hdata.trans h.data⟩

theorem put_lowest (h : Redirected w ino saved contents) (d : Desc) :
    Redirected { w with fds := w.fds.put w.fds.lowest d } ino saved contents := by
  obtain ⟨d₁, hout, hne⟩ := h.output
  exact ⟨FdTable.get_put_lowest d h.input, ⟨d₁, FdTable.get_put_lowest d hout, hne⟩,
    FdTable.get_put_lowest d h.kept, h.aside, h.data⟩

/-- Descriptor 1 may be led to another file. -/
theorem dup2_output (h : Redirected w ino saved contents) {fd ino' : Nat}
    (hfd : w.fds.get fd = some (.file ino')) (hne : ino' ≠ ino) :
    Redirected { w with fds := w.fds.dup2 fd 1 } ino saved contents := by
  refine ⟨?_, ⟨.file ino', ?_, by simpa using hne⟩, ?_, h.aside, h.data⟩
  · exact (FdTable.get_dup2_of_ne (by decide)).trans h.input
  · exact (FdTable.get_dup2 _ hfd 1 1).trans (if_pos rfl)
  · exact (FdTable.get_dup2_of_ne h.aside.2).trans h.kept

theorem inputApart (h : Redirected w ino saved contents) : w.InputApart := by
  obtain ⟨d, hout, hne⟩ := h.output
  intro ino' hino' hout'
  rw [h.input] at hino'
  cases hino'
  rw [hout] at hout'
  exact hne (Option.some.inj hout')

/-- What the builtin finds on `stdin`: the read-ahead of the shell and then the input files, or
nothing at all if the shell has seen the end of its input. -/
theorem stdinLeft_eq (h : Redirected w ino saved contents) :
    w.stdinLeft = if w.stdin.eof then [] else w.stdin.buf ++ contents := by
  have hreads : w.reads = blocks bufferSize contents := by
    rw [World.reads, h.input]
    dsimp only
    rw [h.data]
  have hsize : 0 < bufferSize := by decide
  rw [World.stdinLeft, hreads, Stream.pending, upToEof_of_not_mem (not_mem_blocks hsize _),
    flatten_blocks hsize]

end Redirected

namespace InputReady

variable {w : World} {inFiles : List Str}

/-- Behind the swap descriptor 0 leads to the contents of the input files, in a file that has lost
its name. -/
theorem swapStdin_eq (h : InputReady w inFiles) :
    ∃ fs fds ino saved, w.swapStdin inFiles = ({ w with fs := fs, fds := fds }, some (some saved)) ∧
      Redirected { w with fs := fs, fds := fds } ino saved
        (concatenation w.fs (inFiles.map w.locate)) ∧
      fs.Nameless ino := by
  have hown : TmpInOwn w 9001 inFiles := ⟨h.own, h.other⟩
  obtain ⟨fs, ino, hsetup, hnamed, hdata⟩ := hown.setupInput_eq h.nonempty h.writable h.readable
  -- the tables with the temporary file, with the saved descriptor, and with descriptor 0 replaced
  let t := w.fds.lowest
  let fds₁ := w.fds.put t (.file ino)
  let s := fds₁.lowest
  let fds₂ := fds₁.put s .input
  have hin₁ : fds₁.get 0 = some .input := FdTable.get_put_lowest _ h.input
  have hout₁ : fds₁.get 1 = some .output := FdTable.get_put_lowest _ h.output
  have htmp₁ : fds₁.get t = some (.file ino) := FdTable.get_put_self _ _
  have htmp₂ : fds₂.get t = some (.file ino) := FdTable.get_put_lowest _ htmp₁
  have hout₂ : fds₂.get 1 = some .output := FdTable.get_put_lowest _ hout₁
  have hsaved₂ : fds₂.get s = some .input := FdTable.get_put_self _ _
  have ht0 : 0 ≠ t := (w.fds.lowest_ne (by simp [h.input])).symm
  have ht1 : 1 ≠ t := (w.fds.lowest_ne (by simp [h.output])).symm
  have hst : s ≠ t := fds₁.lowest_ne (by simp [htmp₁])
  have hs0 : s ≠ 0 := fds₁.lowest_ne (by simp [hin₁])
  have hs1 : s ≠ 1 := fds₁.lowest_ne (by simp [hout₁])
  have hget (k : Nat) (hk : k ≠ t) : ((fds₂.dup2 t 0).close t).get k =
      if k = 0 then some (.file ino) else fds₂.get k := by
    rw [FdTable.get_close, if_neg hk, FdTable.get_dup2 _ htmp₂]
  refine ⟨fs.unlink w.tmpIn, (fds₂.dup2 t 0).close t, ino, s, ?_,
    ⟨?_, ⟨.output, ?_, by simp⟩, ?_, ⟨hs0, hs1⟩,
    hdata⟩, Files.unlink_nameless hnamed.lt hnamed.mem⟩
  · rw [World.swapStdin, if_neg h.nonempty, hsetup]
    dsimp only
    rw [FdTable.dup_eq hin₁]
    rfl
  · exact hget 0 ht0
  · exact (hget 1 ht1).trans ((if_neg (by decide)).trans hout₂)
  · exact (hget s hst).trans ((if_neg hs0).trans hsaved₂)

end InputReady

/-! ## The swap of `stdout` -/

/-- A file without a name is not among the targets. -/
theorem validateTargets_nameless {fs : Files Str Char} {i : Nat} (files : List (Str × Bool))
    (h : fs.Nameless i) :
    (validateTargets fs files).1.Nameless i ∧ (validateTargets fs files).1.data i = fs.data i := by
  rw [Files.nameless_iff] at h ⊢
  exact validateTargets_namedIn h fun _ _ hname => hname

/-- The swap of descriptor 1 leaves the redirected input alone. The descriptors that it opens are
neither descriptor 0 nor the saved one. -/
theorem Redirected.swapStdout_eq {w : World} {ino saved : Nat} {contents : Str}
    {outFiles : List (Str × Bool)} (h : Redirected w ino saved contents)
    (hnameless : w.fs.Nameless ino) (hvalid : (w.outregValidate outFiles).2 = true) :
    ∃ fs fds tmpOutFd savedOut,
      w.swapStdout outFiles = ({ w with fs := fs, fds := fds }, some (tmpOutFd, savedOut)) ∧
      Redirected { w with fs := fs, fds := fds } ino saved contents ∧
      ∀ k, tmpOutFd = some k ∨ savedOut = some k → k ≠ 0 ∧ k ≠ saved := by
  by_cases hnil : outFiles = []
  · refine ⟨w.fs, w.fds, none, none, ?_, h, by simp⟩
    rw [World.swapStdout, if_pos hnil]
  obtain ⟨fs, hfs, hw⟩ := outregValidate_true (w := w) (Prod.ext rfl hvalid)
  have hvalidate : w.outregValidate outFiles = ({ w with fs := fs }, true) := Prod.ext hw hvalid
  obtain ⟨hnameless₁, hdata₁⟩ :=
    validateTargets_nameless (outFiles.map fun f => (w.locate f.1, f.2)) hnameless
  rw [hfs] at hnameless₁ hdata₁
  have hname : World.locate { w with fs := fs } (World.tmpBuiltinName { w with fs := fs }) =
      w.locate w.tmpBuiltinName := rfl
  rw [World.swapStdout, if_neg hnil, hvalidate]
  dsimp only
  rw [hname]
  cases hopen : fs.openWrite true (w.locate w.tmpBuiltinName) with
  | none =>
    obtain ⟨d, hout, -⟩ := h.output
    refine ⟨fs, w.fds.put w.fds.lowest d, none, some w.fds.lowest, ?_,
      (h.setFs hdata₁).put_lowest d, ?_⟩
    · dsimp only
      rw [FdTable.dup_eq hout]
    · rintro k (hk | hk)
      · cases hk
      · cases hk
        exact h.lowest_ne
  | some p =>
    obtain ⟨ino', fs'⟩ := p
    obtain ⟨-, hino, hdata₂⟩ := hnameless₁.openWrite hopen
    -- the temporary file is opened, descriptor 1 is saved, and then led to the temporary file
    have h₁ := (h.setFs (hdata₂.trans hdata₁)).put_lowest (.file ino')
    obtain ⟨d, hout, -⟩ := h₁.output
    have htmp : ((w.fds.put w.fds.lowest (.file ino')).put
        (w.fds.put w.fds.lowest (.file ino')).lowest d).get w.fds.lowest = some (.file ino') :=
      FdTable.get_put_lowest _ (FdTable.get_put_self _ _)
    refine ⟨fs', _, some w.fds.lowest, some (w.fds.put w.fds.lowest (.file ino')).lowest, ?_,
      (h₁.put_lowest d).dup2_output htmp hino, ?_⟩
    · dsimp only [FdTable.alloc]
      rw [FdTable.dup_eq hout]
    · rintro k (hk | hk)
      · cases hk
        exact h.lowest_ne
      · cases hk
        exact h₁.lowest_ne

/-! ## The run -/

/-- `run_builtin`, with what it does for the other names as a parameter. -/
def runBuiltin (others : List Token → World → Except World World)
    (tokens : List Token) (w : World) :
    Except World World :=
  if tokens.head?.any fun t => t.value = "peek".toList then .ok (Peek.runPeek tokens w)
  else others tokens w

namespace World

/-- The state in which `exec_cmd` calls `run_builtin`. -/
def builtinStart (w : World) (tokens : List Token) : World :=
  let (_, inFiles, outFiles) := stripRedirections tokens
  ((w.swapStdin inFiles).1.swapStdout outFiles).1

/-- A builtin whose redirections succeed is run between the swaps and their reversal. -/
theorem execBuiltin_eq (run : List Token → World → Except World World) {tokens args : List Token}
    {inFiles : List Str} {outFiles : List (Str × Bool)} {w w₁ w₂ : World}
    {saved tmpOutFd savedOut : Option Nat}
    (hstrip : stripRedirections tokens = (args, inFiles, outFiles))
    (hin : w.swapStdin inFiles = (w₁, some saved))
    (hout : w₁.swapStdout outFiles = (w₂, some (tmpOutFd, savedOut))) :
    w.builtinStart tokens = w₂ ∧
      execBuiltin run tokens w = (run args (w.builtinStart tokens)).map fun w =>
        let w := w.restoreStdout tmpOutFd savedOut (outFiles.map Prod.fst)
        { w with fds := w.fds.restore saved 0 } := by
  have hstart : w.builtinStart tokens = w₂ := by
    rw [builtinStart, hstrip]
    dsimp only
    rw [hin, hout]
  refine ⟨hstart, ?_⟩
  rw [execBuiltin, hstart, hstrip]
  dsimp only
  rw [hin]
  dsimp only
  rw [hout]
  cases run args w₂ <;> rfl

@[simp] theorem restoreStdout_stdin (w : World) (tmpOutFd savedOut : Option Nat)
    (outFiles : List Str) :
    (w.restoreStdout tmpOutFd savedOut outFiles).stdin = w.stdin := by
  unfold restoreStdout
  split <;> rfl

theorem restoreStdout_get {w : World} {tmpOutFd savedOut : Option Nat} {k : Nat}
    (outFiles : List Str) (hk : k ≠ 1)
    (hother : ∀ j, tmpOutFd = some j ∨ savedOut = some j → j ≠ k) :
    (w.restoreStdout tmpOutFd savedOut outFiles).fds.get k = w.fds.get k := by
  cases savedOut with
  | none => rfl
  | some s =>
    have hs : k ≠ s := (hother s (.inr rfl)).symm
    have hrestored : (w.fds.restore (some s) 1).get k = w.fds.get k :=
      FdTable.get_restore_of_ne hk hs
    cases tmpOutFd with
    | none => exact hrestored
    | some t =>
      have ht : k ≠ t := (hother t (.inl rfl)).symm
      show ((w.fds.restore (some s) 1).close t).get k = _
      rw [FdTable.get_close, if_neg ht, hrestored]

end World

/-- What the shell itself finds on `stdin`. -/
theorem InputReady.stdinLeft_eq {w : World} {inFiles : List Str} (h : InputReady w inFiles) :
    w.stdinLeft = if w.stdin.eof then [] else w.stdin.buf ++ upToEof w.input := by
  rw [World.stdinLeft, World.reads, h.input]
  rfl

/-- A redirected `peek` that reads `stdin` returns, and descriptor 0 is restored. It has been given
the input files and nothing else, and the next `getline` of the shell returns what it would have
returned before, if and only if the shell had seen the end of its input and the files are empty, or
had not seen it yet but there was nothing before it. -/
theorem stdin_isolated_iff (others : List Token → World → Except World World) {t : Token}
    {ts args : List Token} {inFiles : List Str} {outFiles : List (Str × Bool)}
    {a : Peek.Args} {w : World} (hpeek : t.value = "peek".toList)
    (hstrip : stripRedirections (t :: ts) = (args, inFiles, outFiles))
    (hargs : Peek.parseArgs args = some a) (hdash : ['-'] ∈ a.files) (hready : InputReady w inFiles)
    (hvalid : ((w.swapStdin inFiles).1.outregValidate outFiles).2 = true) :
    ∃ w', World.execCmd (runBuiltin others) (t :: ts) w = .ok (w', false) ∧
      w'.fds.get 0 = some .input ∧
      ((Peek.peekFiles a (w.builtinStart (t :: ts))).taken =
        concatenation w.fs (inFiles.map w.locate) ∧
          w'.getline.1 = w.getline.1 ↔
        (w.stdin.eof = true ∧ concatenation w.fs (inFiles.map w.locate) = []) ∨
          (w.stdin.eof = false ∧ w.stdin.buf = [] ∧ upToEof w.input = [])) := by
  obtain ⟨fs₁, fds₁, ino, saved, hin, hred₁, hnameless⟩ := hready.swapStdin_eq
  rw [hin] at hvalid
  obtain ⟨fs₂, fds₂, tmpOutFd, savedOut, hout, hred₂, hnew⟩ :=
    hred₁.swapStdout_eq hnameless hvalid
  obtain ⟨hstart, hexec⟩ := World.execBuiltin_eq (runBuiltin others) hstrip hin hout
  obtain ⟨hfds, htaken, hstdin⟩ := Peek.peekFiles_stdin hdash hred₂.inputApart
  rw [hstart] at hexec ⊢
  generalize hv : Peek.peekFiles a { w with fs := fs₂, fds := fds₂ } = v at hfds htaken hstdin ⊢
  have hrun : runBuiltin others args { w with fs := fs₂, fds := fds₂ } = .ok v.world := by
    obtain ⟨rfl, -⟩ := Prod.mk.inj hstrip
    rw [runBuiltin, if_pos (by simp [hpeek]), Peek.runPeek, hargs]
    dsimp only
    rw [hv]
  have hbuiltin : startsBuiltin (t :: ts) = true := by
    show isBuiltinName t.value = true
    rw [hpeek]
    rfl
  rw [World.execCmd, execCmdWith, if_pos hbuiltin, hexec, hrun]
  refine ⟨_, rfl, ?_, ?_⟩
  · -- peek and the reversal of the swaps leave the saved descriptor alone
    refine FdTable.get_restore_self ?_ hred₂.aside.1.symm
    rw [World.restoreStdout_get _ hred₂.aside.2 fun j hj => (hnew j hj).2, hfds]
    exact hred₂.kept
  · have hend (v' : World) (hv' : v'.stdin = .atEof) : v'.getline.1 = w.getline.1 ↔
      w.stdinLeft = [] := by
      rw [World.getline_eq_none.mpr (World.stdinLeft_of_atEof hv'), eq_comm, World.getline_eq_none]
    refine (and_congr_right' (hend _ ?_)).trans ?_
    · exact (World.restoreStdout_stdin _ _ _ _).trans hstdin
    · rw [htaken, hred₂.stdinLeft_eq, hready.stdinLeft_eq]
      cases w.stdin.eof with
      | true => simp
      | false => simp

/-- A shell with one file, `f`, that holds a line `x`. -/
def World.withF (stdin : Stream Char) (input : List String) : World :=
  { init with
    fs := ⟨fun n => if n = "/home/f".toList then some 0 else none, fun _ => "x\n".toList, 1,
      fun _ => true, fun _ => true, by intro n i; split <;> simp +contextual⟩
    stdin := stdin
    input := input.map String.toList }

/-- `peek < f`. -/
def peekF : List Token := [word "peek", ⟨.opLt, ['<']⟩, word "f"]

theorem stdin_isolated_lastLine :
    ∃ w', World.execCmd (runBuiltin fun _ => .ok) peekF (.withF (.ahead []) []) = .ok (w', false) ∧
      (Peek.peekFiles ⟨false, false, [['-']]⟩
        ((World.withF (.ahead []) []).builtinStart peekF)).taken =
        "x\n".toList ∧
      w'.getline.1 = (World.withF (.ahead []) []).getline.1 := by
  have hready : InputReady (.withF (.ahead []) []) ["f".toList] :=
    ⟨rfl, rfl, by decide, by decide, by decide, rfl, by intro m i h; cases h⟩
  have hstrip : stripRedirections peekF = ([word "peek"], ["f".toList], []) := rfl
  have hargs : Peek.parseArgs [word "peek"] = some ⟨false, false, [['-']]⟩ := rfl
  obtain ⟨w', hexec, -, hiff⟩ :=
    stdin_isolated_iff (fun _ => .ok) rfl hstrip hargs (by decide) hready rfl
  obtain ⟨htaken, hline⟩ := hiff.mpr (.inr ⟨rfl, rfl, rfl⟩)
  exact ⟨w', hexec, htaken, hline⟩

/-- In a script, `peek < f` prints the commands behind it before it prints `f`. And whether or not
they have been read ahead, they are not run: the shell takes the end of `f` for the end of the
script. -/
theorem not_stdin_isolated_script :
    (Peek.peekFiles ⟨false, false, [['-']]⟩
        ((World.withF (.ahead "echo hi\n".toList) []).builtinStart peekF)).taken =
          "echo hi\nx\n".toList ∧
      (World.withF (.ahead "echo hi\n".toList) []).getline.1 = some "echo hi\n".toList ∧
      (World.execCmd (runBuiltin fun _ => .ok) peekF
        (.withF (.ahead "echo hi\n".toList) [])).toOption.map
        (·.1.getline.1) = some none ∧
      (World.withF (.ahead []) ["echo hi\n"]).getline.1 = some "echo hi\n".toList ∧
      (World.execCmd (runBuiltin fun _ => .ok) peekF
        (.withF (.ahead []) ["echo hi\n"])).toOption.map
        (·.1.getline.1) = some none := by
  decide +kernel

end UnixCShell
