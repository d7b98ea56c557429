import UnixCShell.Pipeline.Handover

/-!
# The wiring of a pipeline

After the loop of `launch_group` each end of a pipe is held by one stage at most, at descriptor 0 or
1, and the table of the shell is what it was before.
-/

namespace UnixCShell

open Lib

namespace World

open FdTable

/-- For every stage of the loop, the place of its child among the children of the shell. -/
def childPlaces (numCmds : Nat) (pipes : List (Nat × Nat)) :
    World × Launch → List (Stage × Nat) → List (Option Nat)
  | _, [] => []
  | s, e :: es =>
    let s' := launchStage numCmds pipes s e
    (if s.1.children.length < s'.1.children.length then some s.1.children.length else none) ::
      childPlaces numCmds pipes s' es

/-- The place of the child of a stage, if the stage was launched. -/
def stagePlace (w : World) (group : List Token) (k : Nat) : Option Nat :=
  let todo := stages group
  let (w, pipes) := w.makePipes (todo.length - 1)
  ((childPlaces todo.length pipes (w, {}) todo.zipIdx)[k]?).join

/-- The wiring of the stages so far: `places` says which of them have a child, and where. -/
structure Wired (base : Nat) (pipes : List (Nat × Nat)) (todo : List Stage)
    (places : List (Option Nat)) (tabs : List FdTable) : Prop where
  bound : ∀ {k q : Nat}, places[k]? = some (some q) → q < tabs.length
  read  : ∀ {q : Nat} {t : FdTable}, tabs[q]? = some t →
    ∀ fd k, t.get fd = some (.pipeRead (base + k)) ↔
    fd = 0 ∧ places[k + 1]? = some (some q) ∧ k < pipes.length ∧
      todo[k + 1]?.map (·.inFiles) = some []
  write : ∀ {q : Nat} {t : FdTable}, tabs[q]? = some t →
    ∀ fd k, t.get fd = some (.pipeWrite (base + k)) ↔
    fd = 1 ∧ places[k]? = some (some q) ∧ k < pipes.length ∧ todo[k]?.map (·.outFiles) = some []

section Loop

variable {base : Nat} {pipes : List (Nat × Nat)} {todo : List Stage} {places : List (Option Nat)}
  {tabs : List FdTable}

theorem getElem?_concat {α : Type*} {l : List α} {a b : α} {k : Nat} :
    (l ++ [a])[k]? = some b ↔ l[k]? = some b ∨ k = l.length ∧ a = b := by
  rcases Nat.lt_trichotomy k l.length with hk | rfl | hk
  · rw [List.getElem?_append_left hk]
    exact (or_iff_left fun h => Nat.ne_of_lt hk h.1).symm
  · simp
  · rw [List.getElem?_eq_none (by simp; omega), List.getElem?_eq_none (by omega)]
    simp [Nat.ne_of_gt hk]

/-- A stage that was not launched. -/
theorem Wired.skip (h : Wired base pipes todo places tabs) :
    Wired base pipes todo (places ++ [none]) tabs := by
  constructor
  · intro k q hq
    exact h.bound (by simpa [getElem?_concat] using hq)
  · intro q t ht fd k
    rw [h.read ht fd k]
    simp [getElem?_concat]
  · intro q t ht fd k
    rw [h.write ht fd k]
    simp [getElem?_concat]

/-- A stage that was launched. -/
theorem Wired.child (h : Wired base pipes todo places tabs) {stage : Stage}
    (hstage : todo[places.length]? = some stage) {input : InputFd} {t : FdTable}
    (hinput : (∀ n, input ≠ .fd n) ↔ stage.inFiles = [])
    (hchild : ChildWired base pipes places.length input stage.outFiles t) :
    Wired base pipes todo (places ++ [some tabs.length]) (tabs ++ [t]) := by
  -- the last child is that of the last stage, and no other stage has it
  have hlast : ∀ {k : Nat}, (places ++ [some tabs.length])[k]? = some (some tabs.length) ↔
      k = places.length := by
    intro k
    rw [getElem?_concat]
    constructor
    · rintro (hold | ⟨hk, -⟩)
      · exact absurd (h.bound hold) (Nat.lt_irrefl _)
      · exact hk
    · exact fun hk => .inr ⟨hk, rfl⟩
  have hold : ∀ {k q : Nat}, q < tabs.length →
      ((places ++ [some tabs.length])[k]? = some (some q) ↔
        places[k]? = some (some q)) := by
    intro k q hq
    rw [getElem?_concat]
    exact or_iff_left fun hk => Nat.ne_of_gt hq (Option.some.inj hk.2)
  refine ⟨?_, ?_, ?_⟩
  · intro k q hq
    rw [List.length_append, List.length_singleton]
    rcases getElem?_concat.mp hq with hq | ⟨-, hlast⟩
    · exact Nat.lt_succ_of_lt (h.bound hq)
    · cases hlast
      exact Nat.lt_succ_self _
  · intro q t' ht' fd k
    rcases getElem?_concat.mp ht' with ht' | ⟨rfl, rfl⟩
    · rw [h.read ht' fd k, hold (List.getElem?_eq_some_iff.mp ht').1]
    · rw [hchild.read, hlast, hinput]
      constructor
      · rintro ⟨hfd, hfiles, -, hle, hk⟩
        have hk' : k + 1 = places.length := by omega
        exact ⟨hfd, hk', by omega, by rw [hk', hstage, Option.map_some, hfiles]⟩
      · rintro ⟨hfd, hk, hlt, hmap⟩
        rw [hk, hstage, Option.map_some, Option.some.injEq] at hmap
        exact ⟨hfd, hmap, by omega, by omega, by omega⟩
  · intro q t' ht' fd k
    rcases getElem?_concat.mp ht' with ht' | ⟨rfl, rfl⟩
    · rw [h.write ht' fd k, hold (List.getElem?_eq_some_iff.mp ht').1]
    · rw [hchild.write, hlast]
      constructor
      · rintro ⟨hfd, hfiles, hlt, hk⟩
        have hk' : k = places.length := by omega
        exact ⟨hfd, hk', by omega, by rw [hk', hstage, Option.map_some, hfiles]⟩
      · rintro ⟨hfd, hk, hlt, hmap⟩
        rw [hk, hstage, Option.map_some, Option.some.injEq] at hmap
        exact ⟨hfd, hmap, by omega, by omega⟩

/-- What is assumed of the state before `launch_group`: the standard descriptors are open, the shell
holds no pipe, the children hold only pipes made before, and temporary input files can be
created. -/
structure Ready (w : World) : Prop where
  stdin  : w.fds.get 0 ≠ none
  stdout : w.fds.get 1 ≠ none
  stderr : w.fds.get 2 ≠ none
  clean  : w.fds.Clean
  older  : ∀ t ∈ w.tables, ∀ fd q, t.get fd = some (.pipeRead q) ∨ t.get fd = some (.pipeWrite q) →
    q < w.nextPipe
  tmp    : ∀ i, w.fs.writable (w.locate (tmpInName i)) = true

variable {w start : World} {table : FdTable}

/-- The body of the loop. -/
theorem launchStage_wired (hready : w.Ready) (hholds : Holds w.fds table base pipes)
    {s : World × Launch} (hloop : InLoop start table s.1)
    (hwritable : start.fs.writable = w.fs.writable) (hcwd : start.cwd = w.cwd) (numCmds : Nat)
    (stage : Stage) (i : Nat) :
    let s' := launchStage numCmds pipes s (stage, i)
    InLoop start table s'.1 ∧ (s'.1.tables = s.1.tables ∨
      ∃ t input, s'.1.tables = s.1.tables ++ [t] ∧ ChildWired base pipes i input stage.outFiles t ∧
        ((∀ n, input ≠ .fd n) ↔ stage.inFiles = [])) := by
  intro s'
  have htmp : s.1.fs.writable (s.1.locate (tmpInName i)) = true := by
    rw [locate_congr (hloop.cwd.trans hcwd), hloop.writable, hwritable]
    exact hready.tmp i
  obtain ⟨hprepared, hfs⟩ := prepareStage_fds hloop.fds htmp stage
  obtain ⟨fs, fds, err, hframe⟩ := s.1.prepareStage_frame i stage
  rcases hprep : s.1.prepareStage i stage with ⟨w₁, prepared⟩
  rw [hprep] at hprepared hfs hframe
  have hsame : w₁.cwd = s.1.cwd ∧ w₁.nextPipe = s.1.nextPipe ∧ w₁.tables = s.1.tables := by
    rw [show w₁ = _ from hframe]
    exact ⟨rfl, rfl, rfl⟩
  obtain ⟨hcwd₁, hnext₁, htables₁⟩ := hsame
  cases prepared with
  | skipped | notFound =>
    have hs' : s'.1 = w₁ := by simp only [s', launchStage, hprep]
    rw [hs']
    exact ⟨⟨hprepared, hfs.trans hloop.writable, hcwd₁.trans hloop.cwd,
      hnext₁.trans hloop.nextPipe⟩,
      .inl htables₁⟩
  | ready path input =>
    obtain ⟨hhanded, hinput⟩ := hprepared
    have hs' : s' = w₁.spawnStage i pipes stage path input s.2 := by
      simp only [s', launchStage, hprep]
    obtain ⟨hin, hcases⟩ := spawnStage_wired hhanded i pipes stage path s.2
    rw [hs']
    refine ⟨⟨hin.fds, hin.writable.trans (hfs.trans hloop.writable),
      hin.cwd.trans (hcwd₁.trans hloop.cwd),
      hin.nextPipe.trans (hnext₁.trans hloop.nextPipe)⟩, ?_⟩
    rcases hcases with hnone | ⟨w₂, pid, hhanded₂, hchild⟩
    · exact .inl (hnone.trans htables₁)
    · refine .inr ⟨_, input, hchild.trans (by rw [htables₁]), ?_, hinput⟩
      exact childFds_wired hholds hready.clean hready.stdin hready.stdout hhanded₂ pid i stage

/-- The whole loop, from the stage behind `places` on. -/
theorem forkLoop_wired (hready : w.Ready) (hholds : Holds w.fds table base pipes)
    (hwritable : start.fs.writable = w.fs.writable) (hcwd : start.cwd = w.cwd) (numCmds : Nat)
    {rest : List Stage} {s : World × Launch} (hrest : rest = todo.drop places.length)
    (hloop : InLoop start table s.1) (hwired : Wired base pipes todo places s.1.tables) :
    let s' := (rest.zipIdx places.length).foldl (launchStage numCmds pipes) s
    InLoop start table s'.1 ∧
      Wired base pipes todo (places ++ childPlaces numCmds pipes s (rest.zipIdx places.length))
          s'.1.tables := by
  induction rest generalizing s places with
  | nil => simpa [childPlaces] using ⟨hloop, hwired⟩
  | cons stage rest ih =>
    have hstage : todo[places.length]? = some stage := by
      rw [← List.head?_drop, ← hrest]
      rfl
    have hnext : rest = todo.drop (places.length + 1) := by
      rw [← List.tail_drop, ← hrest]
      rfl
    obtain ⟨hloop', hcases⟩ :=
      launchStage_wired hready hholds hloop hwritable hcwd numCmds stage places.length
    have hlength : ∀ w : World, w.children.length = w.tables.length :=
      fun w => (List.length_map ..).symm
    rw [List.zipIdx_cons, List.foldl_cons, childPlaces, List.append_cons]
    simp only [hlength]
    rcases hcases with hsame | ⟨t, input, hchild, hwire, hinput⟩
    · rw [hsame, if_neg (Nat.lt_irrefl _)]
      have hrest' : rest = todo.drop (places ++ [none]).length := by simpa using hnext
      have hwired' := hwired.skip
      rw [← hsame] at hwired'
      simpa using ih hrest' hloop' hwired'
    · rw [hchild, if_pos (by simp)]
      have hrest' : rest = todo.drop (places ++ [some s.1.tables.length]).length := by
        simpa using hnext
      have hwired' := hwired.child hstage hinput hwire
      rw [← hchild] at hwired'
      simpa using ih hrest' hloop' hwired'

theorem makePipes_nextPipe (w : World) (n : Nat) : (w.makePipes n).1.nextPipe = w.nextPipe + n := by
  induction n generalizing w with
  | zero => rfl
  | succ n ih =>
    have := ih { w with
      fds := ((w.fds.alloc (.pipeRead w.nextPipe)).2.alloc (.pipeWrite w.nextPipe)).2
      nextPipe := w.nextPipe + 1 }
    exact this.trans (by simp only [Nat.add_assoc, Nat.add_comm 1])

/-- Before the first stage. -/
theorem Wired.nil (h : w.Ready) (pipes : List (Nat × Nat)) (todo : List Stage) :
    Wired w.nextPipe pipes todo [] w.tables := by
  have holder : ∀ {q : Nat} {t : FdTable}, w.tables[q]? = some t → ∀ fd k,
      ¬ (t.get fd = some (.pipeRead (w.nextPipe + k)) ∨
          t.get fd = some (.pipeWrite (w.nextPipe + k))) := by
    intro q t ht fd k hpipe
    have := h.older t (List.mem_of_getElem? ht) fd _ hpipe
    omega
  refine ⟨by simp, fun ht fd k => ?_, fun ht fd k => ?_⟩
  · exact iff_of_false (fun hread => holder ht fd k (.inl hread)) (by simp)
  · exact iff_of_false (fun hwrite => holder ht fd k (.inr hwrite)) (by simp)

/-- `launch_group` up to the closing of the pipes. -/
theorem forkLoop_spec (h : w.Ready) (group : List Token) :
    let pipes := (w.makePipes ((stages group).length - 1)).2
    let places :=
      childPlaces (stages group).length pipes ((w.makePipes ((stages group).length - 1)).1, {})
        (stages group).zipIdx
    let w' := (w.forkLoop group).1
    (∀ k, w'.fds.get k = w.fds.get k) ∧
      (w'.fs.writable = w.fs.writable ∧ w'.cwd = w.cwd ∧ w'.nextPipe = w.nextPipe + pipes.length) ∧
      Wired w.nextPipe pipes (stages group) places w'.tables := by
  intro pipes places w'
  obtain ⟨hholds, hlength⟩ := w.makePipes_holds ((stages group).length - 1)
  have hnext := w.makePipes_nextPipe ((stages group).length - 1)
  obtain ⟨fds, nextPipe, hframe⟩ := w.makePipes_frame ((stages group).length - 1)
  set start := (w.makePipes ((stages group).length - 1)).1 with hstart
  have hsame : start.fs.writable = w.fs.writable ∧ start.cwd = w.cwd ∧ start.tables = w.tables := by
    rw [hframe]
    exact ⟨rfl, rfl, rfl⟩
  obtain ⟨hwritable, hcwd, htables⟩ := hsame
  have hwired : Wired w.nextPipe pipes (stages group) [] start.tables := by
    rw [htables]
    exact .nil h pipes (stages group)
  obtain ⟨hloop, hfinal⟩ := forkLoop_wired (s := (start, {})) h hholds hwritable hcwd
    (stages group).length
    (List.drop_zero (l := stages group)).symm ⟨fun _ => rfl, rfl, rfl, rfl⟩ hwired
  refine ⟨fun k => ?_, ⟨hloop.writable.trans hwritable, hloop.cwd.trans hcwd, ?_⟩, hfinal⟩
  · change (FdTable.closePipes _ pipes).get k = _
    rw [get_closePipes]
    split
    · next hk => exact (hholds.free k hk).symm
    · next hk =>
      rw [← hholds.other k hk]
      exact hloop.fds k
  · rw [show pipes.length = _ from hlength, ← hnext]
    exact hloop.nextPipe

/-- After `launch_group` has launched its stages, the assumptions hold again. -/
theorem forkLoop_ready (h : w.Ready) (group : List Token) : (w.forkLoop group).1.Ready := by
  obtain ⟨hfds, ⟨hwritable, hcwd, hnext⟩, hwired⟩ := forkLoop_spec h group
  refine ⟨by rw [hfds]; exact h.stdin, by rw [hfds]; exact h.stdout,
    by rw [hfds]; exact h.stderr, ?_, ?_, ?_⟩
  · intro k q
    rw [hfds]
    exact h.clean k q
  · intro t ht fd q hpipe
    rw [hnext]
    by_contra hlarge
    obtain ⟨i, hi⟩ := List.mem_iff_getElem?.mp ht
    obtain ⟨k, rfl⟩ : ∃ k, q = w.nextPipe + k := ⟨q - w.nextPipe, by omega⟩
    rcases hpipe with hread | hwrite
    · have := ((hwired.read hi fd k).mp hread).2.2.1
      omega
    · have := ((hwired.write hi fd k).mp hwrite).2.2.1
      omega
  · intro i
    have hlocate : (w.forkLoop group).1.locate (tmpInName i) = w.locate (tmpInName i) := by
      rw [locate, locate, hcwd]
    rw [hlocate, hwritable]
    exact h.tmp i

/-- The only descriptor that refers to the write end of a pipe is the standard output of the stage
in front of it, if that was launched and has no output target; the only one that refers to the read
end is the standard input of the stage behind it, if that was launched and has no input file. The
shell has the descriptors it had before. -/
theorem pipes_wired (h : w.Ready) (group : List Token) :
    let w' := (w.forkLoop group).1
    (∀ k, k + 1 < (stages group).length → ∀ q c fd, w'.children[q]? = some c →
      (c.fds.get fd = some (.pipeWrite (w.nextPipe + k)) ↔
        fd = 1 ∧ w.stagePlace group k = some q ∧ (stages group)[k]?.map (·.outFiles) = some []) ∧
      (c.fds.get fd = some (.pipeRead (w.nextPipe + k)) ↔
        fd = 0 ∧ w.stagePlace group (k + 1) = some q ∧
          (stages group)[k + 1]?.map (·.inFiles) = some [])) ∧
    (∀ k q, w.stagePlace group k = some q → q < w'.children.length) ∧
    w'.fds.Clean ∧ ∀ fd, w'.fds.get fd = w.fds.get fd := by
  intro w'
  obtain ⟨hfds, -, hwired⟩ := forkLoop_spec h group
  have hlength := (w.makePipes_holds ((stages group).length - 1)).2
  have hplace : ∀ k q, w.stagePlace group k = some q ↔
      (childPlaces (stages group).length (w.makePipes ((stages group).length - 1)).2
        ((w.makePipes ((stages group).length - 1)).1, {}) (stages group).zipIdx)[k]? =
          some (some q) :=
    fun k q => Option.join_eq_some_iff
  refine ⟨fun k hk q c fd hc => ?_, fun k q hq => ?_, (forkLoop_ready h group).clean, hfds⟩
  · have ht : w'.tables[q]? = some c.fds := by rw [tables, List.getElem?_map, hc, Option.map_some]
    have hlt : k < (w.makePipes ((stages group).length - 1)).2.length := by omega
    rw [hplace, hplace, hwired.write ht, hwired.read ht]
    exact ⟨by simp only [hlt, true_and], by simp only [hlt, true_and]⟩
  · have := hwired.bound ((hplace k q).mp hq)
    rwa [tables, List.length_map] at this

end Loop

/-- `a | b < f`, where `f` does not exist: the second stage is not launched. -/
def halfGroup : List Token := [word "a", pipe, word "b", ⟨.opLt, ['<']⟩, word "f"]

theorem inBin_ready (programs : List String) (forks : List Fork) :
    (World.inBin programs forks).Ready := by
  have hfds : (World.inBin programs forks).fds = [some .input, some .output, some .error] := rfl
  refine ⟨?_, ?_, ?_, ?_, ?_, fun i => rfl⟩
  · simp [hfds, FdTable.get]
  · simp [hfds, FdTable.get]
  · simp [hfds, FdTable.get]
  · intro k q
    rw [hfds]
    match k with
    | 0 | 1 | 2 | _ + 3 => simp [FdTable.get]
  · intro t ht
    cases ht

/-- Nobody reads what the first stage writes. -/
theorem pipes_wired_halfGroup :
    let w := World.inBin ["a", "b"] [⟨some 7, []⟩, ⟨some 8, []⟩]
    w.Ready ∧ w.stagePlace halfGroup 0 = some 0 ∧ w.stagePlace halfGroup 1 = none ∧
      (∃ c, (w.forkLoop halfGroup).1.children[0]? = some c ∧ c.fds.get 1 = some (.pipeWrite 0)) ∧
      ∀ (q : Nat) c fd, (w.forkLoop halfGroup).1.children[q]? = some c →
          c.fds.get fd ≠ some (.pipeRead 0) := by
  intro w
  have hready : w.Ready := inBin_ready ..
  obtain ⟨hpipes, hbound, -, -⟩ := pipes_wired hready halfGroup
  have hfirst : w.stagePlace halfGroup 0 = some 0 := by decide +kernel
  have hsecond : w.stagePlace halfGroup 1 = none := by decide +kernel
  have hstages : 0 + 1 < (stages halfGroup).length := by decide +kernel
  refine ⟨hready, hfirst, hsecond, ?_, ?_⟩
  · have hc := List.getElem?_eq_getElem (hbound 0 0 hfirst)
    have hfiles : (stages halfGroup)[0]?.map (·.outFiles) = some [] := by decide +kernel
    exact ⟨_, hc, (hpipes 0 hstages 0 _ 1 hc).1.mpr ⟨rfl, hfirst, hfiles⟩⟩
  · intro q c fd hc hread
    have := ((hpipes 0 hstages q c fd hc).2.mp hread).2.1
    rw [Nat.zero_add, hsecond] at this
    cases this

end World

end UnixCShell
