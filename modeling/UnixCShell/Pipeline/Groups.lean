import UnixCShell.Lib.Runs
import UnixCShell.Pipeline.Basic

/-!
# Process groups of pipelines

`launch_group` puts the children of a pipeline into one process group, so that the terminal can be
given to all of them and a signal reaches all of them. The group is named by `pgid`, which is the
pid of the stage `0` if that stage has been started, and `0` or `-1` otherwise. A later stage joins
the group if it exists at the moment it is forked.

`groupLaw_iff` says when the group is what it should be: exactly when every stage that is started is
the stage `0`, or finds the group of the stage `0` still in existence.
-/

namespace UnixCShell

open Lib

namespace World

/-- The pids of the children, each with its process group. -/
def groups (w : World) : List (Int × Int) := w.children.map fun p => (p.pid, p.pgrp)

/-- The pids that `fork` will return. -/
def forkPids (w : World) : List Int := w.forks.filterMap fun f => f.pid.map fun n => (n : Int)

/-- What the operating system grants about pids: new ones are neither in use nor the number of a
process group in use, and `1` is taken. -/
structure FreshForks (w : World) : Prop where
  positive : ∀ g ∈ w.groups, 0 < g.1
  distinct : w.forkPids.Nodup
  large    : ∀ pid ∈ w.forkPids, 1 < pid
  notShell : w.shellPid ∉ w.forkPids
  unused   : ∀ g ∈ w.groups, g.1 ∉ w.forkPids ∧ g.2 ∉ w.forkPids

end World

/-- The pids of the stages for which `fork` has not failed. -/
def Launch.launched (l : Launch) : List Int := (l.procs.map Prod.fst).filter (0 < ·)

/-- The law of process groups: if there is a child at all, `pgid` is the pid of the first one, and
every child is in this group. -/
def GroupLaw (w : World) (l : Launch) : Prop :=
  l.launched ≠ [] →
    l.launched.head? = some l.pgid ∧ ∀ g ∈ w.groups, g.1 ∈ l.launched → g.2 = l.pgid

/-- A program is ready to run. -/
def Prepared.isReady : Prepared → Bool
  | .ready _ _ => true
  | _ => false

/-- If the stage is started, it is the stage `0`, or the group of the stage `0` exists. -/
def StageJoins (s : World × Launch) (e : Stage × Nat) : Prop :=
  let (w, prepared) := s.1.prepareStage e.2 e.1
  prepared.isReady → w.fork.2.isSome →
    e.2 = 0 ∨ 0 < s.2.pgid ∧ w.fork.1.groupExists s.2.pgid

instance (s : World × Launch) (e : Stage × Nat) : Decidable (StageJoins s e) :=
  inferInstanceAs (Decidable (_ → _ → _ ∨ _))

/-! ## One child -/

namespace World

theorem collect_groups (w : World) (e : WaitEvent) : (w.collect e).groups = w.groups := by
  unfold collect groups
  split
  · rw [List.map_map]
    apply List.map_congr_left
    intro p _
    simp only [Function.comp]
    split <;> rfl
  · rfl

theorem sigchldHandler_groups (w : World) (es : List WaitEvent) :
    (w.sigchldHandler es).groups = w.groups := by
  induction es generalizing w with
  | nil => rfl
  | cons e es ih =>
    rw [sigchldHandler, ih, ← w.collect_groups e]
    unfold enqueue
    split <;> rfl

theorem sigchldHandler_forks (w : World) (es : List WaitEvent) :
    (w.sigchldHandler es).forks = w.forks ∧ (w.sigchldHandler es).shellPid = w.shellPid := by
  obtain ⟨_, _, h⟩ := w.sigchldHandler_frame es
  rw [h]
  exact ⟨rfl, rfl⟩

/-- `fork` takes the first pid, if there is one, and leaves the groups alone. -/
theorem fork_spec (w : World) :
    w.fork.1.groups = w.groups ∧ w.fork.1.shellPid = w.shellPid ∧
      w.forkPids = (w.fork.2.map fun n => (n : Int)).toList ++ w.fork.1.forkPids := by
  unfold fork
  split
  · rename_i hforks
    simp [forkPids, hforks]
  · rename_i f forks hforks
    obtain ⟨hf, hs⟩ := sigchldHandler_forks { w with forks := forks } f.events
    refine ⟨sigchldHandler_groups _ _, hs, ?_⟩
    simp only [forkPids, hforks, hf]
    cases hpid : f.pid <;> simp [hpid]

/-- The group in which a new child is behind `setpgid(pid, pgid)`; it starts in that of the
shell. -/
def groupOf (w : World) (pid pgid : Int) : Int :=
  if 0 ≤ pgid ∧ (groupNumber pid pgid = pid ∨ w.groupExists (groupNumber pid pgid)) then
    groupNumber pid pgid
  else w.shellPid

/-- The second `setpgid`, by the parent, changes nothing. -/
theorem setpgid_setpgid (w : World) (pid pgid : Int) :
    (w.setpgid pid pgid).setpgid pid pgid = w.setpgid pid pgid := by
  by_cases h : 0 ≤ pgid ∧
      (groupNumber pid pgid = pid ∨ w.groupExists (groupNumber pid pgid))
  · have hw : w.setpgid pid pgid = { w with children := w.children.map fun p =>
        if p.pid = pid ∧ p.reaped = false then { p with pgrp := groupNumber pid pgid } else p } :=
      if_pos h
    -- the members of the group are still in it
    have hexists : w.groupExists (groupNumber pid pgid) →
        (w.setpgid pid pgid).groupExists (groupNumber pid pgid) := by
      rw [hw]
      simp only [groupExists, Bool.or_eq_true, List.any_eq_true, List.mem_map]
      rintro (hshell | ⟨p, hp, hg⟩)
      · exact .inl hshell
      · refine .inr ⟨_, ⟨p, hp, rfl⟩, ?_⟩
        split
        · simp_all
        · exact hg
    have h' : 0 ≤ pgid ∧ (groupNumber pid pgid = pid ∨
        (w.setpgid pid pgid).groupExists (groupNumber pid pgid)) :=
      ⟨h.1, h.2.imp_right hexists⟩
    refine (if_pos h').trans ?_
    rw [hw]
    simp only [List.map_map]
    congr 2
    funext p
    simp only [Function.comp]
    split <;> simp_all
  · have hw : w.setpgid pid pgid = w := if_neg h
    rw [hw, hw]

theorem startChild_groups {w : World} {pid : Int} (hnew : ∀ g ∈ w.groups, g.1 ≠ pid) (i : Nat)
    (pipes : List (Nat × Nat)) (stage : Stage) (path : Str) (input : InputFd) (pgid : Int) :
    (w.startChild pid i pipes stage path input pgid).groups =
      w.groups ++ [(pid, w.groupOf pid (if i = 0 then pid else pgid))] := by
  have hother : ∀ p ∈ w.children, p.pid ≠ pid := fun p hp =>
    hnew _ (List.mem_map_of_mem hp)
  -- the new child is not yet in any group but that of the shell
  have hexists (g : Int) (child : Process) (hchild : child.pgrp = w.shellPid)
    (fs : Files Str Char) :
    { w with fs := fs, children := w.children ++ [child] }.groupExists g = w.groupExists g := by
    simp only [groupExists, List.any_append, List.any_cons, List.any_nil, hchild]
    grind
  simp only [startChild, setpgid, groupOf]
  rw [hexists _ _ rfl]
  generalize (if i = 0 then pid else pgid) = target
  split
  · simp only [groups, List.map_append, List.map_map, List.map_cons, List.map_nil,
      and_self, if_true]
    congr 1
    apply List.map_congr_left
    intro p hp
    simp [hother p hp]
  · simp [groups]

end World

/-! ## One stage -/

/-- What one pass of the loop can do to the groups: nothing, though a `fork` that fails for the
stage `0` makes `pgid` negative; or it adds one child. The world `w` is the one in which the child
is forked. -/
inductive StageStep (s : World × Launch) (e : Stage × Nat) (s' : World × Launch) : Prop where
  | idle (groups : s'.1.groups = s.1.groups) (shellPid : s'.1.shellPid = s.1.shellPid)
      (forkPids : s'.1.forkPids = s.1.forkPids) (launched : s'.2.launched = s.2.launched)
      (pgid : s'.2.pgid = s.2.pgid ∨ e.2 = 0 ∧ s'.2.pgid = -1) (joins : StageJoins s e)
  | child (w : World) (pid : Int) (hw : w.shellPid = s.1.shellPid)
      (groups : s'.1.groups =
        s.1.groups ++ [(pid, w.groupOf pid (if e.2 = 0 then pid else s.2.pgid))])
      (shellPid : s'.1.shellPid = s.1.shellPid) (forkPids : s.1.forkPids = pid :: s'.1.forkPids)
      (launched : s'.2.launched = s.2.launched ++ [pid])
      (pgid : s'.2.pgid = if e.2 = 0 then pid else s.2.pgid)
      (joins : StageJoins s e ↔ e.2 = 0 ∨ 0 < s.2.pgid ∧ w.groupExists s.2.pgid)

namespace World

/-- There is no child `-1`. -/
theorem setpgid_failed {w : World} (h : ∀ g ∈ w.groups, g.1 ≠ -1) (pgid : Int) :
    (w.setpgid (-1) pgid).groups = w.groups := by
  unfold setpgid
  split
  · simp only [groups, List.map_map]
    apply List.map_congr_left
    intro p hp
    have hpid : p.pid ≠ -1 := h _ (List.mem_map_of_mem hp)
    simp [hpid]
  · rfl

/-- The end of the loop body touches neither the groups nor the pids to come. -/
theorem spawnStage_end (w : World) (input : InputFd) (i : Nat) (child : Int) (outFiles : List Str) :
    ((w.dropInput input i).outregRegister child outFiles).groups = w.groups ∧
      ((w.dropInput input i).outregRegister child outFiles).forkPids = w.forkPids ∧
      ((w.dropInput input i).outregRegister child outFiles).shellPid = w.shellPid := by
  obtain ⟨_, h₁⟩ := (w.dropInput input i).outregRegister_frame child outFiles
  obtain ⟨_, _, h₂⟩ := w.dropInput_frame input i
  rw [h₁, h₂]
  exact ⟨rfl, rfl, rfl⟩

end World

theorem Launch.launched_push (l : Launch) (pgid child : Int) (name : Str) :
    { l with pgid := pgid, procs := l.procs ++ [(child, name)] }.launched =
      l.launched ++ if 0 < child then [child] else [] := by
  by_cases h : 0 < child <;> simp [Launch.launched, h]

/-- A stage that is ready, in a world that differs from `s.1` in files and messages only. -/
theorem World.spawnStage_step {s : World × Launch} {w : World} (hfresh : s.1.FreshForks)
    (hgroups : w.groups = s.1.groups) (hforks : w.forkPids = s.1.forkPids)
    (hshell : w.shellPid = s.1.shellPid) {e : Stage × Nat}
    (hjoins : StageJoins s e ↔
      (w.fork.2.isSome → e.2 = 0 ∨ 0 < s.2.pgid ∧ w.fork.1.groupExists s.2.pgid))
    (pipes : List (Nat × Nat)) (path : Str) (input : InputFd) :
    StageStep s e (w.spawnStage e.2 pipes e.1 path input s.2) := by
  obtain ⟨hg, hs, hf⟩ := w.fork_spec
  rcases hfork : w.fork with ⟨w₁, _ | pid⟩
  · rw [hfork] at hg hs hf
    have hno : ∀ g ∈ w₁.groups, g.1 ≠ -1 := by
      intro g hmem
      rw [hg, hgroups] at hmem
      have := hfresh.positive g hmem
      omega
    obtain ⟨h₁, h₂, h₃⟩ :=
      spawnStage_end (w₁.setpgid (-1) (if e.2 = 0 then -1 else s.2.pgid)) input e.2
      (-1) (e.1.outFiles.map Prod.fst)
    obtain ⟨children, hset⟩ := w₁.setpgid_frame (-1) (if e.2 = 0 then -1 else s.2.pgid)
    simp only [spawnStage, hfork]
    refine .idle ?_ ?_ ?_ ?_ ?_ ?_
    · rw [h₁, setpgid_failed hno, hg, hgroups]
    · rw [h₃, hset]
      exact hs.trans hshell
    · rw [h₂, hset]
      exact hf.symm.trans hforks
    · rw [Launch.launched_push]
      simp
    · by_cases hi : e.2 = 0
      · exact .inr ⟨hi, if_pos hi⟩
      · exact .inl (if_neg hi)
    · rw [hjoins, hfork]
      simp
  · rw [hfork] at hg hs hf
    rw [hforks] at hf
    have hmem : (pid : Int) ∈ s.1.forkPids := by rw [hf]; exact List.mem_cons_self
    have hnew : ∀ g ∈ w₁.groups, g.1 ≠ pid := by
      intro g hmemg heq
      rw [hg, hgroups] at hmemg
      exact (hfresh.unused g hmemg).1 (heq ▸ hmem)
    have hpos := hfresh.large pid hmem
    obtain ⟨h₁, h₂, h₃⟩ := spawnStage_end
      ((w₁.startChild pid e.2 pipes e.1 path input s.2.pgid).setpgid pid
        (if e.2 = 0 then (pid : Int) else s.2.pgid)) input e.2 pid (e.1.outFiles.map Prod.fst)
    -- the parent repeats the call of the child
    have htwice : (w₁.startChild pid e.2 pipes e.1 path input s.2.pgid).setpgid pid
        (if e.2 = 0 then (pid : Int) else s.2.pgid) =
        w₁.startChild pid e.2 pipes e.1 path input s.2.pgid := setpgid_setpgid ..
    obtain ⟨fs, children, hstart⟩ := w₁.startChild_frame pid e.2 pipes e.1 path input s.2.pgid
    rw [htwice] at h₁ h₂ h₃
    simp only [spawnStage, hfork]
    rw [htwice]
    refine .child w₁ pid (hs.trans hshell) ?_ ?_ ?_ ?_ rfl ?_
    · rw [h₁, startChild_groups hnew, hg, hgroups]
    · rw [h₃, hstart]
      exact hs.trans hshell
    · rw [h₂, hstart]
      exact hf
    · rw [Launch.launched_push, if_pos (by omega)]
    · rw [hjoins, hfork]
      simp

theorem World.launchStage_step {s : World × Launch} (hfresh : s.1.FreshForks) (e : Stage × Nat)
    (numCmds : Nat) (pipes : List (Nat × Nat)) :
    StageStep s e (launchStage numCmds pipes s e) := by
  obtain ⟨fs, fds, err, hw⟩ := s.1.prepareStage_frame e.2 e.1
  rcases hprep : s.1.prepareStage e.2 e.1 with ⟨w, prepared⟩
  rw [hprep] at hw
  subst hw
  have hjoins : StageJoins s e ↔ (prepared.isReady →
      { s.1 with fs := fs, fds := fds, err := err }.fork.2.isSome → e.2 = 0 ∨ 0 < s.2.pgid ∧
        { s.1 with fs := fs, fds := fds, err := err }.fork.1.groupExists s.2.pgid) := by
    rw [StageJoins, hprep]
  simp only [launchStage, hprep]
  cases prepared with
  | skipped => exact .idle rfl rfl rfl rfl (.inl rfl) (hjoins.mpr fun h => absurd h (by decide))
  | notFound => exact .idle rfl rfl rfl rfl (.inl rfl) (hjoins.mpr fun h => absurd h (by decide))
  | ready path input =>
    refine spawnStage_step (w := { s.1 with fs := fs, fds := fds, err := err })
      hfresh rfl rfl rfl ?_
      pipes path input
    rw [hjoins]
    simp only [Prepared.isReady, forall_const]

/-! ## The loop -/

/-- The group of a new child: that of the shell, its own, or the one it asks for. -/
theorem World.groupOf_cases (w : World) (pid pgid : Int) :
    w.groupOf pid pgid = w.shellPid ∨ w.groupOf pid pgid = pid ∨
      0 < pgid ∧ w.groupOf pid pgid = pgid := by
  unfold groupOf groupNumber
  grind

theorem World.groupOf_self (w : World) {pid : Int} (h : 0 < pid) : w.groupOf pid pid = pid := by
  unfold groupOf groupNumber
  grind

/-- Another group can be joined if it exists. -/
theorem World.groupOf_other (w : World) {pid pgid : Int} (hpos : 0 < pgid) (hne : pgid ≠ pid) :
    w.groupOf pid pgid = if w.groupExists pgid then pgid else w.shellPid := by
  unfold groupOf groupNumber
  grind

namespace World.FreshForks

variable {w w' : World} {pid : Int}

/-- Only the children, the shell and the forks to come matter. -/
theorem congr (h : w.FreshForks) (hgroups : w'.groups = w.groups)
    (hshell : w'.shellPid = w.shellPid) (hforks : w'.forkPids = w.forkPids) : w'.FreshForks := by
  constructor
  · rw [hgroups]
    exact h.positive
  · rw [hforks]
    exact h.distinct
  · rw [hforks]
    exact h.large
  · rw [hshell, hforks]
    exact h.notShell
  · rw [hgroups, hforks]
    exact h.unused

theorem head_not_mem (h : w.FreshForks) (hforks : w.forkPids = pid :: w'.forkPids) :
    pid ∉ w'.forkPids := by
  have hdistinct := h.distinct
  rw [hforks, List.nodup_cons] at hdistinct
  exact hdistinct.1

/-- The pid of a new child was new, and its group must not be the pid of a later one. -/
theorem child {group : Int} (h : w.FreshForks) (hforks : w.forkPids = pid :: w'.forkPids)
    (hgroups : w'.groups = w.groups ++ [(pid, group)]) (hshell : w'.shellPid = w.shellPid)
    (hgroup : group ∉ w'.forkPids) : w'.FreshForks := by
  have hsub : ∀ p, p ∈ w'.forkPids → p ∈ w.forkPids := by
    intro p hp
    rw [hforks]
    exact List.mem_cons_of_mem _ hp
  have hlarge : 1 < pid := h.large pid (by rw [hforks]; exact List.mem_cons_self)
  constructor
  · rw [hgroups]
    intro g hg
    rcases List.mem_append.mp hg with hg | hg
    · exact h.positive g hg
    · rw [List.mem_singleton.mp hg]
      omega
  · have hdistinct := h.distinct
    rw [hforks, List.nodup_cons] at hdistinct
    exact hdistinct.2
  · exact fun p hp => h.large p (hsub p hp)
  · rw [hshell]
    exact fun hp => h.notShell (hsub _ hp)
  · rw [hgroups]
    intro g hg
    rcases List.mem_append.mp hg with hg | hg
    · have hunused := h.unused g hg
      exact ⟨fun hp => hunused.1 (hsub _ hp), fun hp => hunused.2 (hsub _ hp)⟩
    · rw [List.mem_singleton.mp hg]
      exact ⟨h.head_not_mem hforks, hgroup⟩

end World.FreshForks

/-- What holds before and behind every stage. -/
structure Launching (s : World × Launch) : Prop where
  fresh    : s.1.FreshForks
  launched : ∀ pid ∈ s.2.launched, 1 < pid ∧ pid ≠ s.1.shellPid ∧ pid ∉ s.1.forkPids
  first    : 0 < s.2.pgid → s.2.launched.head? = some s.2.pgid
  closed   : ∀ g ∈ s.1.groups, g.2 ∈ s.2.launched → g.1 ∈ s.2.launched

namespace Launching

variable {s s' : World × Launch} {e : Stage × Nat}

/-- A positive `pgid` is the pid of a stage. -/
theorem pgid_mem (h : Launching s) (hpos : 0 < s.2.pgid) : s.2.pgid ∈ s.2.launched :=
  List.mem_of_head? (h.first hpos)

/-- The group of a new child is not the pid of a later one. -/
theorem groupOf_not_mem (h : Launching s) {w : World} {pid : Int} (hw : w.shellPid = s.1.shellPid)
    (hforks : s.1.forkPids = pid :: s'.1.forkPids) :
    w.groupOf pid (if e.2 = 0 then pid else s.2.pgid) ∉ s'.1.forkPids := by
  have hsub : ∀ p, p ∈ s'.1.forkPids → p ∈ s.1.forkPids := by
    intro p hp
    rw [hforks]
    exact List.mem_cons_of_mem _ hp
  have hpid := h.fresh.head_not_mem hforks
  rcases w.groupOf_cases pid (if e.2 = 0 then pid else s.2.pgid) with hg | hg | ⟨hpos, hg⟩
  · rw [hg, hw]
    exact fun hp => h.fresh.notShell (hsub _ hp)
  · rw [hg]
    exact hpid
  · rw [hg]
    split at hpos
    · rename_i hi
      rw [if_pos hi]
      exact hpid
    · rename_i hi
      rw [if_neg hi]
      exact fun hp => (h.launched _ (h.pgid_mem hpos)).2.2 (hsub _ hp)

theorem step (h : Launching s) (hstep : StageStep s e s') (hfirst : e.2 = 0 → s.2.launched = []) :
    Launching s' := by
  cases hstep with
  | idle groups shellPid forkPids launched pgid joins =>
    constructor
    · exact h.fresh.congr groups shellPid forkPids
    · rw [launched, shellPid, forkPids]
      exact h.launched
    · intro hpos
      rcases pgid with hp | ⟨-, hp⟩
      · rw [launched, hp]
        exact h.first (hp ▸ hpos)
      · omega
    · rw [groups, launched]
      exact h.closed
  | child w pid hw groups shellPid forkPids launched pgid joins =>
    have hmem : pid ∈ s.1.forkPids := by rw [forkPids]; exact List.mem_cons_self
    constructor
    · exact h.fresh.child forkPids groups shellPid (h.groupOf_not_mem hw forkPids)
    · rw [launched, shellPid]
      intro p hp
      rcases List.mem_append.mp hp with hp | hp
      · obtain ⟨hlarge, hne, hnot⟩ := h.launched p hp
        refine ⟨hlarge, hne, fun hf => hnot ?_⟩
        rw [forkPids]
        exact List.mem_cons_of_mem _ hf
      · rw [List.mem_singleton.mp hp]
        have hshell : pid ≠ s.1.shellPid := fun heq => h.fresh.notShell (heq ▸ hmem)
        exact ⟨h.fresh.large pid hmem, hshell, h.fresh.head_not_mem forkPids⟩
    · rw [launched, pgid]
      intro hpos
      split at hpos
      · rename_i hi
        rw [if_pos hi, hfirst hi]
        rfl
      · rename_i hi
        rw [if_neg hi, List.head?_append, h.first hpos]
        rfl
    · rw [groups, launched]
      intro g hg hin
      rcases List.mem_append.mp hg with hg | hg
      · rcases List.mem_append.mp hin with hin | hin
        · exact List.mem_append_left _ (h.closed g hg hin)
        · rw [List.mem_singleton] at hin
          exact absurd (hin ▸ hmem) (h.fresh.unused g hg).2
      · rw [List.mem_singleton.mp hg]
        exact List.mem_append_right _ List.mem_cons_self

/-- The stage `0` obeys the law. -/
theorem law_first (h : Launching s) (hstep : StageStep s e s') (hi : e.2 = 0)
    (hnone : s.2.launched = []) : GroupLaw s'.1 s'.2 := by
  cases hstep with
  | idle groups shellPid forkPids launched pgid joins =>
    intro hne
    rw [launched] at hne
    exact absurd hnone hne
  | child w pid hw groups shellPid forkPids launched pgid joins =>
    have hmem : pid ∈ s.1.forkPids := by rw [forkPids]; exact List.mem_cons_self
    rw [if_pos hi] at pgid groups
    rw [hnone] at launched
    intro _
    rw [launched, pgid, groups]
    refine ⟨rfl, fun g hg hin => ?_⟩
    rcases List.mem_append.mp hg with hg | hg
    · rw [List.nil_append, List.mem_singleton] at hin
      exact absurd (hin ▸ hmem) (h.fresh.unused g hg).1
    · rw [List.mem_singleton.mp hg]
      have := h.fresh.large pid hmem
      exact w.groupOf_self (by omega)

/-- A later stage keeps the law if and only if it joins the group. -/
theorem law_step (h : Launching s) (hstep : StageStep s e s') (hi : e.2 ≠ 0) :
    GroupLaw s'.1 s'.2 ↔ GroupLaw s.1 s.2 ∧ StageJoins s e := by
  cases hstep with
  | idle groups shellPid forkPids launched pgid joins =>
    have hpgid : s'.2.pgid = s.2.pgid := pgid.resolve_right fun hp => hi hp.1
    unfold GroupLaw
    rw [groups, launched, hpgid]
    exact ⟨fun hlaw => ⟨hlaw, joins⟩, And.left⟩
  | child w pid hw groups shellPid forkPids launched pgid joins =>
    have hmem : pid ∈ s.1.forkPids := by rw [forkPids]; exact List.mem_cons_self
    have hold : pid ∉ s.2.launched := fun hin => (h.launched pid hin).2.2 hmem
    rw [if_neg hi] at pgid groups
    rw [joins, or_iff_right hi]
    unfold GroupLaw
    rw [groups, launched, pgid]
    constructor
    · intro hlaw
      obtain ⟨hhead, hgroups⟩ := hlaw (List.append_ne_nil_of_right_ne_nil _ (List.cons_ne_nil _ _))
      -- the first pid is positive, so `pgid` was the pid of an earlier stage
      have hpos : 0 < s.2.pgid := by
        rcases List.mem_append.mp (List.mem_of_head? hhead) with hin | hin
        · have := (h.launched _ hin).1
          omega
        · rw [List.mem_singleton.mp hin]
          have := h.fresh.large pid hmem
          omega
      have hin := h.pgid_mem hpos
      have hne : s.2.pgid ≠ pid := fun heq => hold (heq ▸ hin)
      refine ⟨fun _ => ⟨h.first hpos, fun g hg hl => ?_⟩, hpos, ?_⟩
      · exact hgroups g (List.mem_append_left _ hg) (List.mem_append_left _ hl)
      · have hlast := hgroups (pid, w.groupOf pid s.2.pgid)
          (List.mem_append_right _ List.mem_cons_self) (List.mem_append_right _ List.mem_cons_self)
        rw [w.groupOf_other hpos hne, hw] at hlast
        by_contra hex
        rw [if_neg hex] at hlast
        exact (h.launched _ hin).2.1 hlast.symm
    · rintro ⟨hlaw, hpos, hex⟩ -
      have hin := h.pgid_mem hpos
      obtain ⟨hhead, hgroups⟩ := hlaw (List.ne_nil_of_mem hin)
      refine ⟨by rw [List.head?_append, hhead]; rfl, fun g hg hl => ?_⟩
      rcases List.mem_append.mp hg with hg | hg
      · rcases List.mem_append.mp hl with hl | hl
        · exact hgroups g hg hl
        · rw [List.mem_singleton] at hl
          exact absurd (hl ▸ hmem) (h.fresh.unused g hg).1
      · rw [List.mem_singleton.mp hg]
        have hne : s.2.pgid ≠ pid := fun heq => hold (heq ▸ hin)
        change w.groupOf pid s.2.pgid = s.2.pgid
        rw [w.groupOf_other hpos hne, if_pos hex]

/-- The stages behind the stage `0`. -/
theorem law_rest (numCmds : Nat) (pipes : List (Nat × Nat)) {es : List (Stage × Nat)}
    (hes : ∀ e ∈ es, e.2 ≠ 0) (h : Launching s) :
    Launching (es.foldl (World.launchStage numCmds pipes) s) ∧
      (GroupLaw (es.foldl (World.launchStage numCmds pipes) s).1
          (es.foldl (World.launchStage numCmds pipes) s).2 ↔
        GroupLaw s.1 s.2 ∧
          AllSteps (fun s e => some (World.launchStage numCmds pipes s e)) StageJoins s es) := by
  induction es generalizing s with
  | nil => exact ⟨h, (and_iff_left trivial).symm⟩
  | cons e es ih =>
    have hstep := World.launchStage_step h.fresh e numCmds pipes
    have hi := hes e List.mem_cons_self
    obtain ⟨hend, hlaw⟩ := ih (fun e he => hes e (List.mem_cons_of_mem _ he))
      (h.step hstep fun h0 => absurd h0 hi)
    refine ⟨hend, ?_⟩
    rw [List.foldl_cons, hlaw, h.law_step hstep hi, and_assoc]
    simp [AllSteps]

end Launching

/-- Every stage of the group that is started is the stage `0`, or finds the group of the stage `0`
in existence. -/
def World.StagesJoin (w : World) (group : List Token) : Prop :=
  let todo := stages group
  let (w, pipes) := w.makePipes (todo.length - 1)
  AllSteps (fun s e => some (launchStage todo.length pipes s e)) StageJoins (w, {}) todo.zipIdx

instance (w : World) (group : List Token) : Decidable (w.StagesJoin group) :=
  inferInstanceAs (Decidable (AllSteps _ _ _ _))

theorem World.forkLoop_law {w : World} (hfresh : w.FreshForks) (group : List Token) :
    Launching (w.forkLoop group) ∧
      (GroupLaw (w.forkLoop group).1 (w.forkLoop group).2 ↔ w.StagesJoin group) := by
  obtain ⟨first, rest, hstages⟩ : ∃ first rest, stages group = first :: rest := ⟨_, _, rfl⟩
  obtain ⟨fds, nextPipe, hpipes⟩ := w.makePipes_frame ((stages group).length - 1)
  have hstart : Launching ((w.makePipes ((stages group).length - 1)).1, {}) := by
    rw [hpipes]
    exact ⟨⟨hfresh.positive, hfresh.distinct, hfresh.large, hfresh.notShell, hfresh.unused⟩,
      fun _ h => absurd h List.not_mem_nil, fun h => absurd h (Int.lt_irrefl 0),
      fun _ _ h => absurd h List.not_mem_nil⟩
  have hstep := launchStage_step hstart.fresh (first, 0) (stages group).length
    (w.makePipes ((stages group).length - 1)).2
  -- only the stage `0` has the index `0`
  have hes : ∀ e ∈ rest.zipIdx 1, e.2 ≠ 0 := by
    intro e he
    have := List.le_snd_of_mem_zipIdx he
    omega
  obtain ⟨hend, hlaw⟩ := Launching.law_rest (stages group).length
    (w.makePipes ((stages group).length - 1)).2 hes (hstart.step hstep fun _ => rfl)
  have hfirst := hstart.law_first hstep rfl rfl
  have hjoins : StageJoins ((w.makePipes ((stages group).length - 1)).1, {}) (first, 0) :=
    fun _ _ => .inl rfl
  have hzip : (stages group).zipIdx = (first, 0) :: rest.zipIdx 1 := by
    rw [hstages, List.zipIdx_cons]
  simp only [forkLoop, StagesJoin]
  rw [hzip, List.foldl_cons]
  refine ⟨⟨⟨hend.fresh.positive, hend.fresh.distinct, hend.fresh.large, hend.fresh.notShell,
    hend.fresh.unused⟩, hend.launched, hend.first, hend.closed⟩, hlaw.trans ?_⟩
  rw [and_iff_right hfirst]
  simp [AllSteps, hjoins]

/-- Signals for the group reach no process but its own. -/
theorem Launching.killTargets {s : World × Launch} (h : Launching s) (hlaw : GroupLaw s.1 s.2)
    (hne : s.2.launched ≠ []) : ∀ pid ∈ s.1.killTargets (-s.2.pgid), pid ∈ s.2.launched := by
  have hin : s.2.pgid ∈ s.2.launched := List.mem_of_head? (hlaw hne).1
  obtain ⟨hlarge, hshell, -⟩ := h.launched _ hin
  intro pid hpid
  unfold World.killTargets at hpid
  dsimp only at hpid
  rw [if_neg (by omega), if_neg (by omega), if_neg (by omega), if_neg (by rwa [Int.neg_neg]),
    Int.neg_neg] at hpid
  obtain ⟨p, hp, rfl⟩ := List.mem_map.mp hpid
  obtain ⟨hmem, hgroup⟩ := List.mem_filter.mp hp
  have hpgrp : p.pgrp = s.2.pgid := by simp_all
  exact h.closed (p.pid, p.pgrp) (List.mem_map_of_mem hmem) (hpgrp ▸ hin)

/-- The law of process groups holds if and only if every stage that is started is the stage `0`, or
finds the group of the stage `0` in existence; and then signals for the group of the job reach the
processes of the job only, not the shell. -/
theorem groupLaw_iff {w : World} (hfresh : w.FreshForks) (group : List Token) :
    (GroupLaw (w.forkLoop group).1 (w.forkLoop group).2 ↔ w.StagesJoin group) ∧
      (w.StagesJoin group → (w.forkLoop group).2.launched ≠ [] →
        ∀ pid ∈ (w.forkLoop group).1.killTargets (-(w.forkLoop group).2.pgid),
          pid ∈ (w.forkLoop group).2.launched ∧ pid ≠ (w.forkLoop group).1.shellPid) := by
  obtain ⟨hend, hlaw⟩ := World.forkLoop_law hfresh group
  refine ⟨hlaw, fun hjoin hne pid hpid => ?_⟩
  have hin := hend.killTargets (hlaw.mpr hjoin) hne pid hpid
  exact ⟨hin, (hend.launched pid hin).2.1⟩

/-- `ls | wc`, with `ls` still there when `wc` is started: one group, with the number of `ls`. -/
theorem groupLaw_ls_wc :
    GroupLaw ((World.inBin ["ls", "wc"] [⟨some 200, []⟩, ⟨some 201, []⟩]).forkLoop
        [word "ls", pipe, word "wc"]).1
      ((World.inBin ["ls", "wc"] [⟨some 200, []⟩, ⟨some 201, []⟩]).forkLoop
        [word "ls", pipe, word "wc"]).2 := by
  refine (groupLaw_iff ?_ _).1.mpr (by decide +kernel)
  exact ⟨by decide, by decide, by decide, by decide, by decide⟩

/-- `nosuch | sleep`: the stage `0` is not started, `pgid` stays `0`, and a signal for the group of
the job is a signal for the shell. -/
theorem not_groupLaw_nosuch_sleep :
    ¬ GroupLaw ((World.inBin ["sleep"] [⟨some 200, []⟩]).forkLoop
          [word "nosuch", pipe, word "sleep"]).1
        ((World.inBin ["sleep"] [⟨some 200, []⟩]).forkLoop
          [word "nosuch", pipe, word "sleep"]).2 ∧
      ((World.inBin ["sleep"] [⟨some 200, []⟩]).forkLoop
        [word "nosuch", pipe, word "sleep"]).2.pgid = 0 ∧
      ((World.inBin ["sleep"] [⟨some 200, []⟩]).forkLoop
        [word "nosuch", pipe, word "sleep"]).1.killTargets (-0) = [100] := by
  refine ⟨fun h => ?_, by decide +kernel, by decide +kernel⟩
  exact absurd (h (by decide +kernel)).1 (by decide +kernel)

/-- `true | sleep`, with `true` gone and reaped before `sleep` is started: `sleep` stays in the
group of the shell. -/
example :
    ¬ (World.inBin ["true", "sleep"] [⟨some 200, []⟩, ⟨some 201, [(200, .exited 0)]⟩]).StagesJoin
      [word "true", pipe, word "sleep"] := by
  decide +kernel

end UnixCShell
