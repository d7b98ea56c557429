import UnixCShell.Pipeline.Basic
import UnixCShell.Redirection.Verified
import UnixCShell.Shell.Descriptors

/-!
# What a child is handed

`launch_group` makes all pipes before the first `fork`, so that every child starts with both ends of
all of them, and with the temporary input file of its stage. This module follows the descriptor
tables through the body of the loop: a child keeps the pipe in front of its stage as its standard
input, and the pipe behind it as its standard output, unless these are redirected, and nothing else;
the shell closes what it has opened for the stage.
-/

namespace UnixCShell

open Lib

namespace FdTable

/-- The descriptors of both ends of every pipe. -/
def ends (pipes : List (Nat × Nat)) : List Nat := pipes.flatMap fun p => [p.1, p.2]

theorem mem_ends {pipes : List (Nat × Nat)} {k : Nat} {p : Nat × Nat} (h : pipes[k]? = some p) :
    p.1 ∈ ends pipes ∧ p.2 ∈ ends pipes := by
  have hmem := List.mem_of_getElem? h
  exact ⟨List.mem_flatMap.mpr ⟨p, hmem, by simp⟩, List.mem_flatMap.mpr ⟨p, hmem, by simp⟩⟩

theorem get_closePipes (fds : FdTable) (pipes : List (Nat × Nat)) (k : Nat) :
    (fds.closePipes pipes).get k = if k ∈ ends pipes then none else fds.get k := by
  induction pipes generalizing fds with
  | nil => rfl
  | cons p pipes ih =>
    have hmem : k ∈ ends (p :: pipes) ↔ k = p.1 ∨ k = p.2 ∨ k ∈ ends pipes := by
      simp [ends]
    rw [closePipes, List.foldl_cons]
    change (closePipes _ pipes).get k = _
    rw [ih, get_close, get_close]
    grind

/-- Open `d` at a new descriptor, copy it to an open one, and close the new one again. -/
theorem get_reopen (fds : FdTable) (d : Desc) {at' : Nat} (hopen : fds.get at' ≠ none) (k : Nat) :
    (((fds.put fds.lowest d).dup2 fds.lowest at').close fds.lowest).get k =
      if k = at' then some d else fds.get k := by
  have hne : fds.lowest ≠ at' := fds.lowest_ne hopen
  have hput : (fds.put fds.lowest d).get fds.lowest = some d := by rw [get_put, if_pos rfl]
  rw [get_close, get_dup2 _ hput, get_put]
  by_cases hk : k = fds.lowest
  · subst hk
    rw [if_pos rfl, if_neg hne, get_lowest]
  · rw [if_neg hk, if_neg hk]

/-- The table `fds` is the table `shell` with open pipes, the first of which has the number
`base`. -/
structure Holds (shell fds : FdTable) (base : Nat) (pipes : List (Nat × Nat)) : Prop where
  free  : ∀ k ∈ ends pipes, shell.get k = none
  other : ∀ k, k ∉ ends pipes → fds.get k = shell.get k
  read  : ∀ {k p}, pipes[k]? = some p → fds.get p.1 = some (.pipeRead (base + k))
  write : ∀ {k p}, pipes[k]? = some p → fds.get p.2 = some (.pipeWrite (base + k))

/-- One more pipe, made before the others. -/
theorem Holds.cons {shell fds : FdTable} {base : Nat} {pipes : List (Nat × Nat)}
    (h : Holds ((shell.put shell.lowest (.pipeRead base)).put
      (shell.put shell.lowest (.pipeRead base)).lowest (.pipeWrite base)) fds (base + 1) pipes) :
    Holds shell fds base
      ((shell.lowest, (shell.put shell.lowest (.pipeRead base)).lowest) :: pipes) := by
  set one := shell.put shell.lowest (.pipeRead base) with hone
  set two := one.put one.lowest (.pipeWrite base) with htwo
  have hget : ∀ k, two.get k = if k = one.lowest then some (.pipeWrite base)
      else if k = shell.lowest then some (.pipeRead base) else shell.get k := by
    intro k
    rw [htwo, get_put, hone, get_put]
  have hne : one.lowest ≠ shell.lowest := by
    apply one.lowest_ne
    rw [hone, get_put, if_pos rfl]
    simp
  have hread : two.get shell.lowest = some (.pipeRead base) := by
    rw [hget, if_neg (Ne.symm hne), if_pos rfl]
  have hwrite : two.get one.lowest = some (.pipeWrite base) := by rw [hget, if_pos rfl]
  -- what is open now is not taken for another pipe
  have hnew : ∀ k, two.get k ≠ none → k ∉ ends pipes := fun k hk hmem => hk (h.free k hmem)
  have hmem : ∀ k, k ∈ ends ((shell.lowest, one.lowest) :: pipes) ↔
      k = shell.lowest ∨ k = one.lowest ∨ k ∈ ends pipes := by simp [ends]
  refine ⟨?_, ?_, ?_, ?_⟩
  · intro k hk
    rcases (hmem k).mp hk with rfl | rfl | hk
    · exact shell.get_lowest
    · have := one.get_lowest
      rwa [hone, get_put, ← hone, if_neg hne] at this
    · have := h.free k hk
      rw [hget] at this
      split at this
      · cases this
      · split at this
        · cases this
        · exact this
  · intro k hk
    obtain ⟨h₁, h₂, h₃⟩ : k ≠ shell.lowest ∧ k ≠ one.lowest ∧ k ∉ ends pipes := by
      simpa [hmem] using hk
    rw [h.other k h₃, hget, if_neg h₂, if_neg h₁]
  · intro k p hp
    cases k with
    | zero =>
      cases hp
      rw [h.other _ (hnew _ (by simp [hread])), hread]
      rfl
    | succ k =>
      rw [h.read (k := k) hp, Nat.add_right_comm]
      rfl
  · intro k p hp
    cases k with
    | zero =>
      cases hp
      rw [h.other _ (hnew _ (by simp [hwrite])), hwrite]
      rfl
    | succ k =>
      rw [h.write (k := k) hp, Nat.add_right_comm]
      rfl

/-- Both ends of a pipe are open. -/
theorem Holds.open_of_mem {shell fds : FdTable} {base : Nat} {pipes : List (Nat × Nat)}
    (h : Holds shell fds base pipes) {k : Nat} (hk : k ∈ ends pipes) : fds.get k ≠ none := by
  obtain ⟨p, hp, hmem⟩ := List.mem_flatMap.mp hk
  obtain ⟨i, hi⟩ := List.mem_iff_getElem?.mp hp
  rcases List.mem_pair.mp hmem with rfl | rfl
  · simp [h.read hi]
  · simp [h.write hi]

/-- The table holds no end of a pipe. -/
def Clean (fds : FdTable) : Prop :=
  ∀ k q, fds.get k ≠ some (.pipeRead q) ∧ fds.get k ≠ some (.pipeWrite q)

end FdTable

namespace World

open FdTable

theorem makePipes_holds (w : World) (n : Nat) :
    Holds w.fds (w.makePipes n).1.fds w.nextPipe (w.makePipes n).2 ∧
      (w.makePipes n).2.length = n := by
  induction n generalizing w with
  | zero =>
    refine ⟨⟨?_, fun _ _ => rfl, ?_, ?_⟩, rfl⟩ <;> simp [makePipes, ends]
  | succ n ih =>
    obtain ⟨hholds, hlength⟩ := ih { w with
      fds := ((w.fds.alloc (.pipeRead w.nextPipe)).2.alloc (.pipeWrite w.nextPipe)).2
      nextPipe := w.nextPipe + 1 }
    exact ⟨hholds.cons, congrArg Nat.succ hlength⟩

/-- What `fork` copies: the table of the shell with the pipes and, if there is one, the temporary
input file. -/
def Handed (table fds : FdTable) : InputFd → Prop
  | .fd n => table.get n = none ∧
      ∃ ino, ∀ k, fds.get k = if k = n then some (.file ino) else table.get k
  | _ => ∀ k, fds.get k = table.get k

/-- What the table of a child says about pipes: its standard input is the pipe in front of its stage
unless there is an input file, its standard output is the pipe behind its stage unless there is a
target, and nothing else is the end of a pipe. -/
structure ChildWired (base : Nat) (pipes : List (Nat × Nat)) (i : Nat) (input : InputFd)
    (outFiles : List (Str × Bool)) (fds : FdTable) : Prop where
  read  : ∀ k q, fds.get k = some (.pipeRead q) ↔
    k = 0 ∧ (∀ n, input ≠ .fd n) ∧ 0 < i ∧ i ≤ pipes.length ∧ q + 1 = base + i
  write : ∀ k q, fds.get k = some (.pipeWrite q) ↔
    k = 1 ∧ outFiles = [] ∧ i < pipes.length ∧ q = base + i

section Child

variable {shell table : FdTable} {base : Nat} {pipes : List (Nat × Nat)} {w : World}
    {input : InputFd}

/-- The descriptor of the input file is not one of the others. -/
theorem Handed.temp (hholds : Holds shell table base pipes) {fds : FdTable} {n : Nat}
    (h : Handed table fds (.fd n)) : n ∉ ends pipes ∧ shell.get n = none := by
  obtain ⟨hfree, -⟩ := h
  have hn : n ∉ ends pipes := fun hmem => hholds.open_of_mem hmem hfree
  exact ⟨hn, (hholds.other n hn).symm.trans hfree⟩

/-- The ends of the pipes are where they were. -/
theorem Handed.get_end (hholds : Holds shell table base pipes) {fds : FdTable}
    (h : Handed table fds input) {k : Nat} (hk : k ∈ ends pipes) : fds.get k = table.get k := by
  cases input with
  | none | missing => exact h k
  | fd n =>
    have hn := (Handed.temp hholds h).1
    obtain ⟨-, ino, hget⟩ := h
    rw [hget, if_neg]
    rintro rfl
    exact hn hk

/-- What was open in the shell stays what it was. -/
theorem Handed.get_shell (hholds : Holds shell table base pipes) {fds : FdTable}
    (h : Handed table fds input) {k : Nat} (hk : shell.get k ≠ none) : fds.get k = shell.get k := by
  have hend : k ∉ ends pipes := fun hmem => hk (hholds.free k hmem)
  cases input with
  | none | missing => rw [h k, hholds.other k hend]
  | fd n =>
    have hn := (Handed.temp hholds h).2
    obtain ⟨-, ino, hget⟩ := h
    rw [hget, if_neg, hholds.other k hend]
    rintro rfl
    exact hk hn

theorem get_eq_ite (fds : FdTable) (n k : Nat) :
    fds.get k = if k = n then fds.get n else fds.get k := by
  split
  · next hk => rw [hk]
  · rfl

/-- A child reads from its temporary file, from the pipe in front of it, or from where the shell
reads. -/
theorem childInput_cases (fds : FdTable) (i : Nat) (pipes : List (Nat × Nat)) (input : InputFd) :
    (∃ n, input = .fd n ∧ childInput fds i pipes input = fds.dup2 n 0) ∨
    (∀ n, input ≠ .fd n) ∧
      ((∃ j p, i = j + 1 ∧ pipes[j]? = some p ∧ childInput fds i pipes input = fds.dup2 p.1 0) ∨
        ¬ (0 < i ∧ i ≤ pipes.length) ∧ childInput fds i pipes input = fds) := by
  cases input with
  | fd n => exact .inl ⟨n, rfl, by cases i <;> rfl⟩
  | none | missing =>
    refine .inr ⟨by simp, ?_⟩
    cases i with
    | zero => exact .inr ⟨by simp, rfl⟩
    | succ j =>
      cases hp : pipes[j]? with
      | none =>
        have := List.getElem?_eq_none_iff.mp hp
        exact .inr ⟨by omega, by simp [childInput, hp]⟩
      | some p => exact .inl ⟨j, p, rfl, hp, by simp [childInput, hp]⟩

/-- The standard input of a child. -/
theorem childInput_get (hholds : Holds shell table base pipes) (hclean : shell.Clean)
    (hopen : shell.get 0 ≠ none) {fds : FdTable} (h : Handed table fds input) (i : Nat) :
    ∃ d, (∀ k, (childInput fds i pipes input).get k = if k = 0 then d else fds.get k) ∧
      (∀ q, d = some (.pipeRead q) ↔ (∀ n, input ≠ .fd n) ∧ 0 < i ∧ i ≤ pipes.length ∧
        q + 1 = base + i) ∧
      ∀ q, d ≠ some (.pipeWrite q) := by
  rcases childInput_cases fds i pipes input with
    ⟨n, rfl, hchild⟩ | ⟨hnot, ⟨j, p, rfl, hp, hchild⟩ | ⟨hi, hchild⟩⟩
  · obtain ⟨-, ino, hget⟩ := h
    have hn : fds.get n = some (.file ino) := by rw [hget, if_pos rfl]
    refine ⟨some (.file ino), fun k => ?_, fun q => ?_, fun q => by simp⟩
    · rw [hchild, get_dup2 fds hn]
    · simp
  · have hread : fds.get p.1 = some (.pipeRead (base + j)) := by
      rw [h.get_end hholds (mem_ends hp).1, hholds.read hp]
    have hlt : j < pipes.length := (List.getElem?_eq_some_iff.mp hp).1
    refine ⟨some (.pipeRead (base + j)), fun k => ?_, fun q => ?_, fun q => by simp⟩
    · rw [hchild, get_dup2 fds hread]
    · rw [Option.some.injEq, Desc.pipeRead.injEq]
      constructor
      · rintro rfl
        exact ⟨hnot, by omega, by omega, by omega⟩
      · rintro ⟨-, -, -, hq⟩
        omega
  · -- it is that of the shell, which is not a pipe
    have hzero := h.get_shell hholds hopen
    refine ⟨fds.get 0, fun k => ?_, fun q => ?_, fun q => ?_⟩
    · rw [hchild]
      exact get_eq_ite fds 0 k
    · rw [hzero]
      exact iff_of_false (hclean 0 q).1 fun hq => hi ⟨hq.2.1, hq.2.2.1⟩
    · rw [hzero]
      exact (hclean 0 q).2

/-- The table of a child whose standard input is set, with its standard output set as well. -/
def childOutput (w : World) (fds : FdTable) (pid : Int) (i : Nat) (pipes : List (Nat × Nat))
    (stage : Stage) :
    FdTable :=
  if stage.outFiles = [] then (pipes[i]?).elim fds fun p => fds.dup2 p.2 1
  else
    match w.fs.openWrite true (w.locate (tmpOutName pid)) with
    | none => fds
    | some (ino, _) => ((fds.put fds.lowest (.file ino)).dup2 fds.lowest 1).close fds.lowest

theorem childFds_get (w : World) (pid : Int) (i : Nat) (pipes : List (Nat × Nat)) (stage : Stage)
    (input : InputFd) (k : Nat) :
    (w.childFds pid i pipes stage input).2.get k =
      if input = .fd k ∨ k ∈ ends pipes then none
      else (w.childOutput (childInput w.fds i pipes input) pid i pipes stage).get k := by
  have htable : (w.childFds pid i pipes stage input).2 =
      match input with
      | .fd n =>
        ((w.childOutput (childInput w.fds i pipes input) pid i pipes
          stage).closePipes pipes).close n
      | _ =>
        (w.childOutput (childInput w.fds i pipes input) pid i pipes stage).closePipes pipes := by
    unfold childFds childOutput
    by_cases hout : stage.outFiles = []
    · cases input <;> simp [hout]
    · simp only [hout, if_false]
      cases hopen : w.fs.openWrite true (w.locate (tmpOutName pid)) with
      | none => cases input <;> rfl
      | some r => cases input <;> rfl
  rw [htable]
  cases input with
  | none | missing => simp [get_closePipes]
  | fd n =>
    rw [get_close, get_closePipes]
    by_cases hk : k = n
    · simp [hk]
    · simp [hk, Ne.symm hk]

/-- A child writes to the pipe behind it, to its temporary file, or to where the shell writes. -/
theorem childOutput_cases (w : World) (fds : FdTable) (pid : Int) (i : Nat)
    (pipes : List (Nat × Nat)) (stage : Stage) :
    (∃ p, stage.outFiles = [] ∧ pipes[i]? = some p ∧
      w.childOutput fds pid i pipes stage = fds.dup2 p.2 1) ∨
    (∃ ino, stage.outFiles ≠ [] ∧ w.childOutput fds pid i pipes stage =
      ((fds.put fds.lowest (.file ino)).dup2 fds.lowest 1).close fds.lowest) ∨
    ¬ (stage.outFiles = [] ∧ i < pipes.length) ∧ w.childOutput fds pid i pipes stage = fds := by
  unfold childOutput
  by_cases hfiles : stage.outFiles = []
  · rw [if_pos hfiles]
    cases hp : pipes[i]? with
    | none =>
      have := List.getElem?_eq_none_iff.mp hp
      exact .inr (.inr ⟨by omega, rfl⟩)
    | some p => exact .inl ⟨p, hfiles, rfl, rfl⟩
  · rw [if_neg hfiles]
    cases w.fs.openWrite true (w.locate (tmpOutName pid)) with
    | none => exact .inr (.inr ⟨fun h => hfiles h.1, rfl⟩)
    | some r => exact .inr (.inl ⟨r.1, hfiles, rfl⟩)

/-- The standard output of a child. -/
theorem childOutput_get (hholds : Holds shell table base pipes) (hclean : shell.Clean)
    (hin : shell.get 0 ≠ none) (hout : shell.get 1 ≠ none) {fds₀ fds : FdTable}
    (h : Handed table fds₀ input) {d : Option Desc}
    (hfds : ∀ k, fds.get k = if k = 0 then d else fds₀.get k) (pid : Int) (i : Nat)
    (stage : Stage) :
    ∃ d', (∀ k, (w.childOutput fds pid i pipes stage).get k = if k = 1 then d' else fds.get k) ∧
      (∀ q, d' = some (.pipeWrite q) ↔ stage.outFiles = [] ∧ i < pipes.length ∧ q = base + i) ∧
      ∀ q, d' ≠ some (.pipeRead q) := by
  have hone : fds.get 1 = shell.get 1 := by
    rw [hfds, if_neg (by decide), h.get_shell hholds hout]
  rcases w.childOutput_cases fds pid i pipes stage with
    ⟨p, hfiles, hp, hchild⟩ | ⟨ino, hfiles, hchild⟩ | ⟨hi, hchild⟩
  · have hend := (mem_ends hp).2
    -- the write end is not the standard input, which is open in the shell
    have hne : p.2 ≠ 0 := by
      intro hzero
      exact hin (hzero ▸ hholds.free p.2 hend)
    have hwrite : fds.get p.2 = some (.pipeWrite (base + i)) := by
      rw [hfds, if_neg hne, h.get_end hholds hend, hholds.write hp]
    have hlt : i < pipes.length := (List.getElem?_eq_some_iff.mp hp).1
    refine ⟨some (.pipeWrite (base + i)), fun k => ?_, fun q => ?_, fun q => by simp⟩
    · rw [hchild, get_dup2 fds hwrite]
    · rw [Option.some.injEq, Desc.pipeWrite.injEq]
      exact ⟨fun hq => ⟨hfiles, hlt, hq.symm⟩, fun hq => hq.2.2.symm⟩
  · refine ⟨some (.file ino), fun k => ?_, fun q => ?_, fun q => by simp⟩
    · rw [hchild]
      exact get_reopen fds (.file ino) (by rw [hone]; exact hout) k
    · simp [hfiles]
  · refine ⟨fds.get 1, fun k => ?_, fun q => ?_, fun q => ?_⟩
    · rw [hchild]
      exact get_eq_ite fds 1 k
    · rw [hone]
      exact iff_of_false (hclean 1 q).2 fun hq => hi ⟨hq.1, hq.2.1⟩
    · rw [hone]
      exact (hclean 1 q).1

/-- The table of a child. -/
theorem childFds_wired (hholds : Holds shell table base pipes) (hclean : shell.Clean)
    (hin : shell.get 0 ≠ none) (hout : shell.get 1 ≠ none) (h : Handed table w.fds input)
    (pid : Int) (i : Nat) (stage : Stage) :
    ChildWired base pipes i input stage.outFiles (w.childFds pid i pipes stage input).2 := by
  obtain ⟨d, hd, hread, hnowrite⟩ := childInput_get hholds hclean hin h i
  obtain ⟨d', hd', hwrite, hnoread⟩ :=
    childOutput_get (w := w) hholds hclean hin hout h hd pid i stage
  have hkeep : ∀ {k}, shell.get k ≠ none → ¬ (input = .fd k ∨ k ∈ ends pipes) := by
    rintro k hk (rfl | hmem)
    · exact hk (Handed.temp hholds h).2
    · exact hk (hholds.free k hmem)
  have hzero : (w.childFds pid i pipes stage input).2.get 0 = d := by
    rw [childFds_get, if_neg (hkeep hin), hd', if_neg (by decide), hd, if_pos rfl]
  have hone : (w.childFds pid i pipes stage input).2.get 1 = d' := by
    rw [childFds_get, if_neg (hkeep hout), hd', if_pos rfl]
  -- all others are closed, or those of the shell
  have hother : ∀ k, k ≠ 0 → k ≠ 1 →
    ∀ q, (w.childFds pid i pipes stage input).2.get k ≠ some (.pipeRead q) ∧
      (w.childFds pid i pipes stage input).2.get k ≠ some (.pipeWrite q) := by
    intro k h₀ h₁ q
    rw [childFds_get]
    split
    · simp
    · next hk =>
      obtain ⟨hfd, hend⟩ := not_or.mp hk
      have hshell : w.fds.get k = shell.get k := by
        cases input with
        | none | missing => rw [h k, hholds.other k hend]
        | fd n =>
          obtain ⟨-, ino, hget⟩ := h
          rw [hget, if_neg (fun hkn => hfd (by rw [hkn])), hholds.other k hend]
      rw [hd', if_neg h₁, hd, if_neg h₀, hshell]
      exact hclean k q
  constructor
  · intro k q
    by_cases h₀ : k = 0
    · subst h₀
      rw [hzero, hread]
      simp
    · by_cases h₁ : k = 1
      · subst h₁
        rw [hone]
        exact iff_of_false (hnoread q) fun hk => h₀ hk.1
      · exact iff_of_false (hother k h₀ h₁ q).1 fun hk => h₀ hk.1
  · intro k q
    by_cases h₁ : k = 1
    · subst h₁
      rw [hone, hwrite]
      simp
    · by_cases h₀ : k = 0
      · subst h₀
        rw [hzero]
        exact iff_of_false (hnowrite q) fun hk => h₁ hk.1
      · exact iff_of_false (hother k h₀ h₁ q).2 fun hk => h₁ hk.1

end Child

/-! ## A stage -/

theorem gatherInput_writable (fs : Files Str Char) (ino : Nat) (files : List Str) :
    (gatherInput fs ino files).1.writable = fs.writable := by
  induction files generalizing fs with
  | nil => rfl
  | cons file files ih =>
    rw [gatherInput]
    split
    · rfl
    · rw [ih]
      exact (Files.pump_sameNames ..).writable

theorem validateTargets_writable (fs : Files Str Char) (files : List (Str × Bool)) :
    (validateTargets fs files).1.writable = fs.writable := by
  induction files generalizing fs with
  | nil => rfl
  | cons f files ih =>
    obtain ⟨file, append⟩ := f
    rw [validateTargets]
    split
    · rfl
    · next hopen =>
      rw [ih]
      exact (openWrite_some hopen).2.2.1

/-- `setup_input` hands over a temporary file if there is an input file, given that it can be
created. -/
theorem setupInput_handed {w : World} {table : FdTable}
    (h : ∀ k, w.fds.get k = table.get k) {i : Nat}
    (hwritable : w.fs.writable (w.locate (tmpInName i)) = true) (inFiles : List Str) :
    Handed table (w.setupInput inFiles i).1.fds (w.setupInput inFiles i).2 ∧
      ((w.setupInput inFiles i).2 ≠ .missing →
        ((∀ n, (w.setupInput inFiles i).2 ≠ .fd n) ↔ inFiles = [])) ∧
      (w.setupInput inFiles i).1.fs.writable = w.fs.writable := by
  unfold setupInput
  by_cases hnil : inFiles = []
  · rw [if_pos hnil]
    exact ⟨h, fun _ => iff_of_true (fun n hn => by cases hn) hnil, rfl⟩
  rw [if_neg hnil]
  cases hopen : w.fs.openWrite true (w.locate (tmpInName i)) with
  | none =>
    rw [Files.openWrite, if_pos hwritable] at hopen
    split at hopen <;> cases hopen
  | some r =>
    obtain ⟨ino, fs⟩ := r
    have hfs : (gatherInput fs ino (inFiles.map w.locate)).1.writable = w.fs.writable := by
      rw [gatherInput_writable]
      exact (openWrite_some hopen).2.2.1
    have hlowest : table.get w.fds.lowest = none := by rw [← h, get_lowest]
    rcases hgather : gatherInput fs ino (inFiles.map w.locate) with ⟨fs', _ | _⟩
    · rw [hgather] at hfs
      simp only [hgather]
      refine ⟨fun k => ?_, fun hne => absurd rfl hne, hfs⟩
      change ((w.fds.put w.fds.lowest (.file ino)).close w.fds.lowest).get k = table.get k
      rw [get_close, get_put]
      by_cases hk : k = w.fds.lowest
      · rw [if_pos hk, hk, hlowest]
      · rw [if_neg hk, if_neg hk, h]
    · rw [hgather] at hfs
      simp only [hgather]
      refine ⟨⟨hlowest, ino, fun k => ?_⟩, fun _ => iff_of_false (fun hn => hn _ rfl) hnil, hfs⟩
      change (w.fds.put w.fds.lowest (.file ino)).get k = if k = w.fds.lowest then _ else _
      rw [get_put, h]

/-- The temporary file is closed again. -/
theorem dropInput_get {w : World} {table : FdTable} {input : InputFd}
    (h : Handed table w.fds input) (i k : Nat) :
    (w.dropInput input i).fds.get k = table.get k := by
  cases input with
  | none | missing => exact h k
  | fd n =>
    obtain ⟨hfree, ino, hget⟩ := h
    change (w.fds.close n).get k = _
    rw [get_close, hget]
    by_cases hk : k = n
    · rw [if_pos hk, hk, hfree]
    · rw [if_neg hk, if_neg hk]

theorem dropInput_writable (w : World) (input : InputFd) (i : Nat) :
    (w.dropInput input i).fs.writable = w.fs.writable := by
  cases input <;> rfl

/-- What the preparation of a stage leaves in the table of the shell. -/
def PreparedFds (table fds : FdTable) (stage : Stage) : Prepared → Prop
  | .ready _ input => Handed table fds input ∧ ((∀ n, input ≠ .fd n) ↔ stage.inFiles = [])
  | _ => ∀ k, fds.get k = table.get k

/-- The preparation behind `setup_input`. -/
def validateStage (w : World) (i : Nat) (stage : Stage) (cmd : Str) (input : InputFd) :
    World × Prepared :=
  match w.outregValidate stage.outFiles with
  | (w, false) => (w.dropInput input i, .skipped)
  | (w, true) =>
    match w.resolveCommandPath cmd with
    | some path => (w, .ready path input)
    | none =>
      let displayName := if cmd.head? = some '%' then cmd.tail else cmd
      let w := w.eprint ("cshell: command not found (".toList ++ displayName ++ ")\n".toList)
      (w.dropInput input i, .notFound)

theorem outregValidate_writable (w : World) (outFiles : List (Str × Bool)) :
    (w.outregValidate outFiles).1.fs.writable = w.fs.writable := by
  have hfs := validateTargets_writable w.fs (outFiles.map fun f => (w.locate f.1, f.2))
  unfold outregValidate
  split
  · next hval =>
    rw [hval] at hfs
    exact hfs
  · next hval =>
    rw [hval] at hfs
    exact hfs

theorem validateStage_fds {w : World} {table : FdTable} {input : InputFd} {stage : Stage}
    (h : Handed table w.fds input) (hinput : (∀ n, input ≠ .fd n) ↔ stage.inFiles = [])
    (i : Nat) (cmd : Str) :
    PreparedFds table (w.validateStage i stage cmd input).1.fds stage
      (w.validateStage i stage cmd input).2 ∧
      (w.validateStage i stage cmd input).1.fs.writable = w.fs.writable := by
  have hfs := w.outregValidate_writable stage.outFiles
  obtain ⟨fs, err, hframe⟩ := w.outregValidate_frame stage.outFiles
  unfold validateStage
  rcases hval : w.outregValidate stage.outFiles with ⟨w₁, _ | _⟩
  · rw [hval] at hfs hframe
    have hfds : Handed table w₁.fds input := by rw [show w₁ = _ from hframe]; exact h
    exact ⟨fun k => dropInput_get hfds i k, (dropInput_writable ..).trans hfs⟩
  · rw [hval] at hfs hframe
    have hfds : Handed table w₁.fds input := by rw [show w₁ = _ from hframe]; exact h
    dsimp only
    cases w₁.resolveCommandPath cmd with
    | some path => exact ⟨⟨hfds, hinput⟩, hfs⟩
    | none =>
      exact ⟨fun k => dropInput_get (w := w₁.eprint _) hfds i k, (dropInput_writable ..).trans hfs⟩

theorem prepareStage_fds {w : World} {table : FdTable}
    (h : ∀ k, w.fds.get k = table.get k) {i : Nat}
    (hwritable : w.fs.writable (w.locate (tmpInName i)) = true) (stage : Stage) :
    PreparedFds table (w.prepareStage i stage).1.fds stage (w.prepareStage i stage).2 ∧
      (w.prepareStage i stage).1.fs.writable = w.fs.writable := by
  obtain ⟨hhanded, hinput, hfs⟩ := setupInput_handed h hwritable stage.inFiles
  unfold prepareStage
  cases stage.args with
  | nil => exact ⟨h, rfl⟩
  | cons cmd args =>
    rcases hsetup : w.setupInput stage.inFiles i with ⟨w₁, input⟩
    rw [hsetup] at hhanded hinput hfs
    cases input with
    | missing => exact ⟨hhanded, hfs⟩
    | none =>
      obtain ⟨hprepared, hvalid⟩ := validateStage_fds hhanded (hinput (by simp)) i cmd
      exact ⟨hprepared, hvalid.trans hfs⟩
    | fd n =>
      obtain ⟨hprepared, hvalid⟩ := validateStage_fds hhanded (hinput (by simp)) i cmd
      exact ⟨hprepared, hvalid.trans hfs⟩

/-! ### The children -/

/-- The descriptor tables of the children. -/
def tables (w : World) : List FdTable := w.children.map (·.fds)

@[simp] theorem tables_setpgid (w : World) (pid pgid : Int) :
    (w.setpgid pid pgid).tables = w.tables := by
  unfold setpgid tables
  split
  · rw [List.map_map]
    apply List.map_congr_left
    intro c _
    simp only [Function.comp]
    split <;> rfl
  · rfl

theorem tables_collect (w : World) (e : WaitEvent) : (w.collect e).tables = w.tables := by
  unfold collect tables
  split
  · rw [List.map_map]
    apply List.map_congr_left
    intro c _
    simp only [Function.comp]
    split <;> rfl
  · rfl

@[simp] theorem tables_sigchldHandler (w : World) (es : List WaitEvent) :
    (w.sigchldHandler es).tables = w.tables := by
  induction es generalizing w with
  | nil => rfl
  | cons e es ih =>
    have henqueue : ((w.collect e).enqueue e).tables = (w.collect e).tables := by
      unfold enqueue
      split <;> rfl
    rw [sigchldHandler, ih, henqueue, tables_collect]

/-- The shell itself is the same: its table, what decides whether a temporary file can be created,
and the number of the next pipe. -/
structure SameShell (w w' : World) : Prop where
  fds      : w'.fds = w.fds
  writable : w'.fs.writable = w.fs.writable
  cwd      : w'.cwd = w.cwd
  nextPipe : w'.nextPipe = w.nextPipe

theorem SameShell.refl (w : World) : SameShell w w := ⟨rfl, rfl, rfl, rfl⟩

theorem SameShell.setpgid (w : World) (pid pgid : Int) : SameShell w (w.setpgid pid pgid) := by
  unfold World.setpgid
  split <;> exact ⟨rfl, rfl, rfl, rfl⟩

theorem SameShell.trans {w₁ w₂ w₃ : World} (h : SameShell w₁ w₂) (h' : SameShell w₂ w₃) :
    SameShell w₁ w₃ :=
  ⟨h'.fds.trans h.fds, h'.writable.trans h.writable, h'.cwd.trans h.cwd,
    h'.nextPipe.trans h.nextPipe⟩

/-- The shell has the same descriptors as `table`, and is `start` otherwise. -/
structure InLoop (start : World) (table : FdTable) (w : World) : Prop where
  fds      : ∀ k, w.fds.get k = table.get k
  writable : w.fs.writable = start.fs.writable
  cwd      : w.cwd = start.cwd
  nextPipe : w.nextPipe = start.nextPipe

theorem fork_same (w : World) : SameShell w w.fork.1 ∧ w.fork.1.tables = w.tables := by
  unfold fork
  split
  · exact ⟨.refl w, rfl⟩
  · next f forks _ =>
    obtain ⟨_, _, h⟩ := sigchldHandler_frame { w with forks := forks } f.events
    have htables := tables_sigchldHandler { w with forks := forks } f.events
    refine ⟨?_, htables⟩
    rw [h]
    exact ⟨rfl, rfl, rfl, rfl⟩

theorem childFds_writable (w : World) (pid : Int) (i : Nat)
    (pipes : List (Nat × Nat)) (stage : Stage) (input : InputFd) :
    (w.childFds pid i pipes stage input).1.writable = w.fs.writable := by
  have hopen : ∀ {ino fs}, w.fs.openWrite true (w.locate (tmpOutName pid)) = some (ino, fs) →
      fs.writable = w.fs.writable := fun h => (openWrite_some h).2.2.1
  unfold childFds
  by_cases hout : stage.outFiles = []
  · cases input <;> simp [hout]
  · simp only [hout, if_false]
    rcases hfs : w.fs.openWrite true (w.locate (tmpOutName pid)) with _ | ⟨ino, fs⟩
    · cases input <;> rfl
    · cases input <;> exact hopen hfs

theorem startChild_same (w : World) (pid : Int) (i : Nat) (pipes : List (Nat × Nat)) (stage : Stage)
    (path : Str) (input : InputFd) (pgid : Int) :
    SameShell w (w.startChild pid i pipes stage path input pgid) ∧
      (w.startChild pid i pipes stage path input pgid).tables =
        w.tables ++ [(w.childFds pid i pipes stage input).2] := by
  unfold startChild
  refine ⟨SameShell.trans ?_ (.setpgid ..), ?_⟩
  · exact ⟨rfl, w.childFds_writable .., rfl, rfl⟩
  · rw [tables_setpgid]
    simp [tables]

/-- A child is started, unless `fork` fails, and the shell closes its temporary input file. -/
theorem spawnStage_wired {w : World} {table : FdTable} {input : InputFd}
    (h : Handed table w.fds input) (i : Nat) (pipes : List (Nat × Nat)) (stage : Stage)
    (path : Str) (l : Launch) :
    let w' := (w.spawnStage i pipes stage path input l).1
    InLoop w table w' ∧
      (w'.tables = w.tables ∨ ∃ w₁ : World, ∃ pid : Int, Handed table w₁.fds input ∧
        w'.tables = w.tables ++ [(w₁.childFds pid i pipes stage input).2]) := by
  have hend : ∀ (w₁ : World) (child pgid : Int), SameShell w w₁ →
      let w' := ((w₁.setpgid child pgid).dropInput input i).outregRegister child
        (stage.outFiles.map Prod.fst)
      InLoop w table w' ∧ w'.tables = w₁.tables := by
    intro w₁ child pgid hsame
    have hset := hsame.trans (.setpgid w₁ child pgid)
    have hhanded : Handed table (w₁.setpgid child pgid).fds input := by rw [hset.fds]; exact h
    have hfds := dropInput_get hhanded i
    have hwritable := (w₁.setpgid child pgid).dropInput_writable input i
    obtain ⟨_, h₁⟩ := ((w₁.setpgid child pgid).dropInput input i).outregRegister_frame child
      (stage.outFiles.map Prod.fst)
    obtain ⟨_, _, h₂⟩ := (w₁.setpgid child pgid).dropInput_frame input i
    rw [h₁]
    refine ⟨⟨hfds, hwritable.trans hset.writable, ?_, ?_⟩, ?_⟩
    · rw [h₂]
      exact hset.cwd
    · rw [h₂]
      exact hset.nextPipe
    · rw [h₂]
      exact w₁.tables_setpgid child pgid
  obtain ⟨hfork, htables⟩ := w.fork_same
  rcases hw : w.fork with ⟨w₁, _ | pid⟩
  · rw [hw] at hfork htables
    simp only [spawnStage, hw]
    obtain ⟨hloop, htab⟩ := hend w₁ (-1) (if i = 0 then -1 else l.pgid) hfork
    exact ⟨hloop, .inl (htab.trans htables)⟩
  · rw [hw] at hfork htables
    obtain ⟨hstart, hchild⟩ := w₁.startChild_same pid i pipes stage path input l.pgid
    simp only [spawnStage, hw]
    obtain ⟨hloop, htab⟩ :=
      hend (w₁.startChild pid i pipes stage path input l.pgid) pid (if i = 0 then pid else l.pgid)
        (hfork.trans hstart)
    refine ⟨hloop, .inr ⟨w₁, pid, by rw [show w₁.fds = _ from hfork.fds]; exact h, ?_⟩⟩
    rw [htab, hchild, show w₁.tables = _ from htables]

end World

end UnixCShell
