import Mathlib.Logic.Function.Iterate
import UnixCShell.Jobs.Basic
import UnixCShell.Redirection.Verified

/-!
# Delivery of redirected output

The life of a process whose output is redirected: it writes to its temporary file, it is stopped and
continued, and in the end it exits; the shell learns of all but the writing through wait events,
which are consumed by `handle_tracked_event` or by the loop of `jobs_wait_foreground`.

The waiting loop delivers the output when the process is gone. `handle_tracked_event` delivers it at
every event, and with the first delivery the temporary file loses its name and the registry its
entry: what the process writes from then on is lost. `delivered_iff` says that this is the only way
to lose output.
-/

namespace UnixCShell

open Lib

/-! ## Lives -/

/-- A step in the life of a process: it writes, or an event is consumed. -/
inductive LifeStep where
  | write (bytes : Str)
  | tracked (status : WaitStatus)
  | waited (pids : List Int) (l : Waiter) (status : WaitStatus)

namespace LifeStep

/-- A step of a process `pid` that stays alive. -/
def Alive (pid : Int) : LifeStep → Prop
  | .write _ => True
  | .tracked status => status.final = false
  | .waited pids l status => status.final = false ∧ (l.index pids pid).isSome

/-- The step with which the shell learns that `pid` is gone. -/
def Ends (pid : Int) : LifeStep → Prop
  | .write _ => False
  | .tracked status => status.final = true
  | .waited pids l status => status.final = true ∧ (l.index pids pid).isSome

/-- Everything that is written. -/
def written : List LifeStep → Str
  | [] => []
  | .write bytes :: steps => bytes ++ written steps
  | _ :: steps => written steps

/-- What is written before the first event for `handle_tracked_event`. -/
def early : List LifeStep → Str
  | [] => []
  | .write bytes :: steps => bytes ++ early steps
  | .waited .. :: steps => early steps
  | .tracked _ :: _ => []

/-- What is written behind it. -/
def late : List LifeStep → Str
  | [] => []
  | .write _ :: steps => late steps
  | .waited .. :: steps => late steps
  | .tracked _ :: steps => written steps

theorem early_append_late (steps : List LifeStep) : early steps ++ late steps = written steps := by
  induction steps with
  | nil => rfl
  | cons step steps ih =>
    cases step with
    | write bytes => rw [early, late, written, List.append_assoc, ih]
    | tracked status => rfl
    | waited pids l status => exact ih

end LifeStep

namespace World

/-- A step in the life of the process `pid`, whose standard output is the file `ino`. -/
def lifeStep (pid : Int) (ino : Nat) (w : World) : LifeStep → World
  | .write bytes => { w with fs := w.fs.append ino bytes }
  | .tracked status => w.handleTrackedEvent (pid, status)
  | .waited pids l status => (w.waitEvent pids l (pid, status)).1

/-- The start of a process with redirected output, as far as its files are concerned: the targets
are validated, the child opens its temporary file, and the shell registers the targets. -/
def launchRedirected (w : World) (pid : Int) (outFiles : List (Str × Bool)) :
    Option (World × Nat) :=
  match w.outregValidate outFiles with
  | (_, false) => none
  | (w, true) =>
    match w.fs.openWrite true (w.locate (tmpOutName pid)) with
    | none => none
    | some (ino, fs) =>
      some ({ w with fs := fs }.outregRegister pid (outFiles.map Prod.fst), ino)

end World

/-! ## Before and after the delivery -/

section Phases

variable {w₀ w : World} {pid : Int} {ino : Nat} {targets : List Str} {bytes : Str}

/-- The inodes of the targets. -/
def World.inodes (w : World) (targets : List Str) : List Nat :=
  (targets.map w.locate).filterMap w.fs.dir

/-- Nothing has been delivered since `w₀`, and `bytes` have been written. -/
structure Armed (w₀ : World) (pid : Int) (ino : Nat) (targets : List Str)
    (bytes : Str) (w : World) :
    Prop where
  cwd      : w.cwd = w₀.cwd
  slot     : ∃ i, w.registry.cell i = some ⟨pid, targets⟩ ∧
    ∀ j s, w.registry.cell j = some s → s.pid = pid → j = i
  files    : Deliverable w.fs (w.locate (tmpOutName pid)) (targets.map w.locate) ino
  dir      : w.fs.dir = w₀.fs.dir
  tmp      : w.fs.data ino = bytes
  data     : ∀ k ∈ w₀.inodes targets, w.fs.data k = w₀.fs.data k

/-- `bytes` have been delivered since `w₀`, and nothing more will be. -/
structure Settled (w₀ : World) (pid : Int) (targets : List Str) (bytes : Str) (w : World) :
    Prop where
  cwd  : w.cwd = w₀.cwd
  slot : ∀ s ∈ w.registry, s.pid ≠ pid
  dir  : ∀ t ∈ targets, w.fs.dir (w₀.locate t) = w₀.fs.dir (w₀.locate t)
  data : ∀ k ∈ w₀.inodes targets, w.fs.data k = w₀.fs.data k ++ bytes

/-- The delivery. -/
theorem Armed.finalize (h : Armed w₀ pid ino targets bytes w) :
    Settled w₀ pid targets bytes (w.outregFinalize pid) := by
  obtain ⟨i, hi, huniq⟩ := h.slot
  have hfind : w.registry.findSlot (fun s => s.pid = pid) = some i :=
    Slots.findSlot_of_unique hi (by simp) (fun j s hj hs => huniq j s hj (by simpa using hs))
  have hlocate : w.locate = w₀.locate := World.locate_congr h.cwd
  have hfinal : w.outregFinalize pid =
      { w with
        fs := deliver w.fs (w.locate (tmpOutName pid)) (targets.map w.locate)
        registry := w.registry.set i none } := by
    simp only [World.outregFinalize, hfind, hi]
  rw [hfinal]
  constructor
  · exact h.cwd
  · intro s hs hpid
    obtain ⟨j, hji, hj⟩ := Slots.mem_set_none.mp hs
    exact hji (huniq j s hj hpid)
  · intro t ht
    have hne := h.files.ne_tmpname (List.mem_map_of_mem ht)
    rw [h.files.deliver_dir, ← hlocate, Function.update_of_ne hne, h.dir]
  · intro k hk
    have hk' : k ∈ (targets.map w.locate).filterMap w.fs.dir := by
      rw [hlocate, h.dir]
      exact hk
    rw [h.files.deliver_data, if_pos hk', h.tmp, h.data k hk]

theorem Settled.finalize (h : Settled w₀ pid targets bytes w) : w.outregFinalize pid = w := by
  have : w.registry.findSlot (fun s => s.pid = pid) = none := by
    rw [Slots.findSlot_eq_none]
    intro s hs
    simpa using h.slot s hs
  rw [World.outregFinalize, this]

theorem Settled.trackJob (h : Settled w₀ pid targets bytes w) (e : WaitEvent) :
    Settled w₀ pid targets bytes (w.trackJob e) := by
  obtain ⟨jobs, notifs, hframe⟩ := w.trackJob_frame e
  rw [hframe]
  exact ⟨h.cwd, h.slot, h.dir, h.data⟩

/-- The process writes. -/
theorem Armed.write (h : Armed w₀ pid ino targets bytes w) (bs : Str) :
    Armed w₀ pid ino targets (bytes ++ bs) { w with fs := w.fs.append ino bs } where
  cwd := h.cwd
  slot := h.slot
  files := h.files.append ino bs
  dir := h.dir
  tmp := by rw [Files.append_data_self, h.tmp]
  data k hk := by
    have hne : k ≠ ino := by
      rintro rfl
      apply h.files.other
      rwa [World.locate_congr h.cwd, h.dir]
    rw [Files.append_data_of_ne _ _ hne, h.data k hk]

/-- The process writes to a file that has no name any more. -/
theorem Settled.write (h : Settled w₀ pid targets bytes w) (hino : ino ∉ w₀.inodes targets)
    (bs : Str) : Settled w₀ pid targets bytes { w with fs := w.fs.append ino bs } where
  cwd := h.cwd
  slot := h.slot
  dir := h.dir
  data k hk := by
    have hne : k ≠ ino := by
      rintro rfl
      exact hino hk
    rw [Files.append_data_of_ne _ _ hne, h.data k hk]

theorem Armed.tracked (h : Armed w₀ pid ino targets bytes w) (status : WaitStatus) :
    Settled w₀ pid targets bytes (w.handleTrackedEvent (pid, status)) :=
  h.finalize.trackJob _

theorem Settled.tracked (h : Settled w₀ pid targets bytes w) (status : WaitStatus) :
    Settled w₀ pid targets bytes (w.handleTrackedEvent (pid, status)) := by
  rw [World.handleTrackedEvent, h.finalize]
  exact h.trackJob _

/-- The waiting loop does nothing about a process that is stopped or continued. -/
theorem waitEvent_alive {pids : List Int} {l : Waiter} {status : WaitStatus}
    (hfinal : status.final = false) (hindex : (l.index pids pid).isSome) :
    (w.waitEvent pids l (pid, status)).1 = w := by
  obtain ⟨idx, hidx⟩ := Option.isSome_iff_exists.mp hindex
  cases status with
  | exited code => cases hfinal
  | signaled sig => cases hfinal
  | stopped sig => simp [World.waitEvent, hidx]
  | continued => simp [World.waitEvent, hidx]

/-- The waiting loop delivers the output of a process that is gone. -/
theorem waitEvent_ends {pids : List Int} {l : Waiter} {status : WaitStatus}
    (hfinal : status.final = true) (hindex : (l.index pids pid).isSome) :
    (w.waitEvent pids l (pid, status)).1 = w.outregFinalize pid := by
  obtain ⟨idx, hidx⟩ := Option.isSome_iff_exists.mp hindex
  cases status with
  | exited code => simp [World.waitEvent, hidx]
  | signaled sig => simp [World.waitEvent, hidx]
  | stopped sig => cases hfinal
  | continued => cases hfinal

/-! ## Lives and deliveries -/

theorem Settled.lifeStep (h : Settled w₀ pid targets bytes w) (hino : ino ∉ w₀.inodes targets)
    {step : LifeStep} (halive : step.Alive pid) :
    Settled w₀ pid targets bytes (w.lifeStep pid ino step) := by
  cases step with
  | write bs => exact h.write hino bs
  | tracked status => exact h.tracked status
  | waited pids l status =>
    show Settled _ _ _ _ (w.waitEvent pids l (pid, status)).1
    rwa [waitEvent_alive halive.1 halive.2]

theorem Settled.life (h : Settled w₀ pid targets bytes w) (hino : ino ∉ w₀.inodes targets)
    {steps : List LifeStep} (halive : ∀ step ∈ steps, step.Alive pid) :
    Settled w₀ pid targets bytes (steps.foldl (World.lifeStep pid ino) w) := by
  induction steps generalizing w with
  | nil => exact h
  | cons step steps ih =>
    rw [List.forall_mem_cons] at halive
    exact ih (h.lifeStep hino halive.1) halive.2

/-- At the end of a life, everything that was written before the first event for
`handle_tracked_event` has been delivered, or waits to be. -/
theorem Armed.life (h : Armed w₀ pid ino targets bytes w) (hino : ino ∉ w₀.inodes targets)
    {steps : List LifeStep} (halive : ∀ step ∈ steps, step.Alive pid) :
    Armed w₀ pid ino targets (bytes ++ LifeStep.early steps)
      (steps.foldl (World.lifeStep pid ino) w) ∨
      Settled w₀ pid targets (bytes ++ LifeStep.early steps)
        (steps.foldl (World.lifeStep pid ino) w) := by
  induction steps generalizing w bytes with
  | nil =>
    left
    simpa [LifeStep.early] using h
  | cons step steps ih =>
    rw [List.forall_mem_cons] at halive
    cases step with
    | write bs =>
      have := ih (h.write bs) halive.2
      rwa [List.append_assoc] at this
    | tracked status =>
      right
      rw [LifeStep.early, List.append_nil]
      exact (h.tracked status).life hino halive.2
    | waited pids l status =>
      have hstep : w.lifeStep pid ino (.waited pids l status) = w :=
        waitEvent_alive halive.1.1 halive.1.2
      rw [List.foldl_cons, hstep]
      exact ih h halive.2

/-- With the last event, whatever waits to be delivered is. -/
theorem Armed.ends (h : Armed w₀ pid ino targets bytes w) {last : LifeStep}
    (hlast : last.Ends pid) :
    Settled w₀ pid targets bytes (w.lifeStep pid ino last) := by
  cases last with
  | write bs => cases hlast
  | tracked status => exact h.tracked status
  | waited pids l status =>
    show Settled _ _ _ _ (w.waitEvent pids l (pid, status)).1
    rw [waitEvent_ends hlast.1 hlast.2]
    exact h.finalize

theorem Settled.ends (h : Settled w₀ pid targets bytes w) {last : LifeStep}
    (hlast : last.Ends pid) :
    Settled w₀ pid targets bytes (w.lifeStep pid ino last) := by
  cases last with
  | write bs => cases hlast
  | tracked status => exact h.tracked status
  | waited pids l status =>
    show Settled _ _ _ _ (w.waitEvent pids l (pid, status)).1
    rwa [waitEvent_ends hlast.1 hlast.2, h.finalize]

/-- A process that has just been started has everything in place. -/
theorem launchRedirected_armed {outFiles : List (Str × Bool)}
    (hlaunch : w.launchRedirected pid outFiles = some (w₀, ino)) (hne : outFiles ≠ [])
    (hmax : outFiles.length ≤ outregFilesMax) (hfree : ∃ i, w.registry.cell i = none)
    (hnew : ∀ s ∈ w.registry, s.pid ≠ pid)
    (hreadable : w.fs.readable (w.locate (tmpOutName pid)) = true)
    (hdistinct : (w₀.inodes (outFiles.map Prod.fst)).Nodup)
    (hother : ino ∉ w₀.inodes (outFiles.map Prod.fst)) :
    Armed w₀ pid ino (outFiles.map Prod.fst) [] w₀ := by
  unfold World.launchRedirected at hlaunch
  split at hlaunch
  · cases hlaunch
  · next w₁ hvalidate =>
    split at hlaunch
    · cases hlaunch
    · next fs hopen =>
      obtain ⟨fs₁, hfs₁, rfl⟩ := outregValidate_true hvalidate
      obtain ⟨hwritable₁, hreadable₁, hdir₁, hall⟩ := validateTargets_true hfs₁
      obtain ⟨_, htmp, hwritable₂, hreadable₂, hdir₂⟩ := openWrite_some hopen
      obtain ⟨j, hj⟩ := hfree
      obtain ⟨i, hi⟩ := Slots.firstFree_isSome hj
      have hregister := outregRegister_free { w with fs := fs } pid (outFiles.map Prod.fst)
        (by simpa using hne) (by simpa using hmax) hi
      dsimp only at hlaunch
      rw [hregister] at hlaunch
      obtain ⟨rfl, rfl⟩ := Prod.mk.inj (Option.some.inj hlaunch)
      refine ⟨rfl, ⟨i, by simp, ?_⟩, ⟨?_, ?_, ?_, htmp, hother, hdistinct⟩, rfl,
        openWrite_true_data hopen, fun _ _ => rfl⟩
      · -- no other slot belongs to the process
        intro k s hk hs
        by_contra hne
        rw [Slots.cell_set_of_ne _ _ hne] at hk
        exact hnew s ⟨k, hk⟩ hs
      · intro t ht
        rw [List.map_map] at ht
        obtain ⟨f, hf, rfl⟩ := List.mem_map.mp ht
        have := (hall (w.locate f.1, f.2) (List.mem_map_of_mem hf)).1
        show fs.writable _ = true
        rwa [hwritable₂, hwritable₁]
      · intro t ht
        rw [List.map_map] at ht
        obtain ⟨f, hf, rfl⟩ := List.mem_map.mp ht
        obtain ⟨k, hk⟩ := Option.isSome_iff_exists.mp
          (hall (w.locate f.1, f.2) (List.mem_map_of_mem hf)).2
        exact Option.isSome_iff_exists.mpr ⟨k, hdir₂ _ _ hk⟩
      · show fs.readable _ = true
        rw [hreadable₂, hreadable₁]
        exact hreadable

end Phases

/-- The world behind a whole life: the steps, the last event, and some of the calls of
`outreg_finalize` with which `launch_group` and `run_resume` clean up. -/
def World.afterLife (w : World) (pid : Int) (ino : Nat) (steps : List LifeStep) (last : LifeStep)
    (cleanup : Nat) : World :=
  (fun w => w.outregFinalize pid)^[cleanup]
    ((steps.foldl (World.lifeStep pid ino) w).lifeStep pid ino last)

/-- A process whose output goes to different files, none of them its temporary file: every target
grows by exactly what the process writes if and only if nothing is written behind the first event
that `handle_tracked_event` sees. -/
theorem delivered_iff {w w₀ : World} {pid : Int} {ino : Nat} {outFiles : List (Str × Bool)}
    (hlaunch : w.launchRedirected pid outFiles = some (w₀, ino)) (hne : outFiles ≠ [])
    (hmax : outFiles.length ≤ outregFilesMax) (hfree : ∃ i, w.registry.cell i = none)
    (hnew : ∀ s ∈ w.registry, s.pid ≠ pid)
    (hreadable : w.fs.readable (w.locate (tmpOutName pid)) = true)
    (hdistinct : (w₀.inodes (outFiles.map Prod.fst)).Nodup)
    (hother : ino ∉ w₀.inodes (outFiles.map Prod.fst))
    (steps : List LifeStep) (halive : ∀ step ∈ steps, step.Alive pid) (last : LifeStep)
    (hlast : last.Ends pid) (cleanup : Nat) :
    (∀ f ∈ outFiles, (w₀.afterLife pid ino steps last cleanup).fs.contents (w₀.locate f.1) =
      (w₀.fs.contents (w₀.locate f.1)).map (· ++ LifeStep.written steps)) ↔
      LifeStep.late steps = [] := by
  have harmed := launchRedirected_armed hlaunch hne hmax hfree hnew hreadable hdistinct hother
  have hends : Settled w₀ pid (outFiles.map Prod.fst) (LifeStep.early steps)
      ((steps.foldl (World.lifeStep pid ino) w₀).lifeStep pid ino last) := by
    rcases harmed.life hother halive with h | h
    · exact h.ends hlast
    · exact h.ends hlast
  have hsettled : Settled w₀ pid (outFiles.map Prod.fst) (LifeStep.early steps)
      (w₀.afterLife pid ino steps last cleanup) := by
    unfold World.afterLife
    rwa [Function.iterate_fixed hends.finalize]
  -- every target has grown by the early bytes
  have hcontents : ∀ f ∈ outFiles, ∃ old, w₀.fs.contents (w₀.locate f.1) = some old ∧
      (w₀.afterLife pid ino steps last cleanup).fs.contents (w₀.locate f.1) =
        some (old ++ LifeStep.early steps) := by
    intro f hf
    have hmem : f.1 ∈ outFiles.map Prod.fst := List.mem_map_of_mem hf
    obtain ⟨k, hk⟩ := Option.isSome_iff_exists.mp (harmed.files.exist _ (List.mem_map_of_mem hmem))
    have hk' : k ∈ w₀.inodes (outFiles.map Prod.fst) :=
      List.mem_filterMap.mpr ⟨_, List.mem_map_of_mem hmem, hk⟩
    refine ⟨w₀.fs.data k, by rw [Files.contents, hk]; rfl, ?_⟩
    rw [Files.contents, hsettled.dir f.1 hmem, hk, Option.map_some, hsettled.data k hk']
  constructor
  · intro h
    obtain ⟨f, hf⟩ := List.exists_mem_of_ne_nil outFiles hne
    obtain ⟨old, hold, hnew⟩ := hcontents f hf
    have := h f hf
    rw [hold, hnew, Option.map_some, Option.some.injEq, ← LifeStep.early_append_late,
      ← List.append_assoc] at this
    exact List.self_eq_append_right.mp this
  · intro h f hf
    obtain ⟨old, hold, hnew⟩ := hcontents f hf
    rw [hold, hnew, ← LifeStep.early_append_late, h, List.append_nil]
    rfl

/-- Process 7, started as `cmd > a >> b`: the world, and the file it writes to. -/
def launched : World × Nat :=
  (World.init.launchRedirected 7 [("a".toList, false), ("b".toList, true)]).get (by decide)

/-- It is stopped in the foreground between two writes, and the waiting loop sees it exit. -/
theorem delivered_launched :
    (launched.1.afterLife 7 launched.2
      [.write "x".toList, .waited [7] (.start [7]) (.stopped 20), .write "y".toList]
      (.waited [7] (.start [7]) (.exited 0)) 1).fs.contents "/home/a".toList =
        some "xy".toList := by
  have hlaunch : World.init.launchRedirected 7 [("a".toList, false), ("b".toList, true)] =
      some launched := (Option.some_get _).symm
  refine ((delivered_iff hlaunch (by decide) (by decide) ⟨⟨0, by decide⟩, rfl⟩
    (fun s hs => absurd hs Slots.not_mem_empty) rfl (by decide) (by decide) _ ?_ _ ?_ 1).mpr rfl
    ("a".toList, false) List.mem_cons_self).trans (by decide)
  · intro step hstep
    simp only [List.mem_cons, List.not_mem_nil, or_false] at hstep
    rcases hstep with rfl | rfl | rfl
    · trivial
    · exact ⟨rfl, by decide⟩
    · trivial
  · exact ⟨rfl, by decide⟩

/-- `cmd > a &`, stopped and continued between two writes: the second write is lost. -/
theorem not_delivered_launched :
    (launched.1.afterLife 7 launched.2
      [.write "x".toList, .tracked (.stopped 20), .tracked .continued, .write "y".toList]
      (.tracked (.exited 0)) 0).fs.contents "/home/a".toList = some "x".toList := by
  decide

end UnixCShell
