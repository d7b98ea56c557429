import Mathlib.Order.Nat
import UnixCShell.Lib.ExchangeSort
import UnixCShell.Session.Capacity
import UnixCShell.Session.MainLoop

/-!
# The command `activities`

`jobs_print_activities` sorts the numbers of the jobs in the table and looks up each of them again.
The table itself is not sorted: a job gets the first free slot, so that the slots say nothing about
the order in which the jobs were started. The numbers do, since `jobs_register` never gives one
twice (`activities_in_order`).
-/

namespace UnixCShell

open Lib

/-! ## What is printed -/

namespace Job

/-- The header of a job. -/
def header (j : Job) : Str :=
  "[".toList ++ (toString j.jobNumber).toList ++ "] pgid ".toList ++
    (toString j.pgid).toList ++ "\n".toList

/-- The line of a process. -/
def procLine (j : Job) (p : JobProc) : Str :=
  let state := if j.state = .stopped then "Stopped" else "Running"
  "  ".toList ++ (toString p.pid).toList ++ " ".toList ++ p.name ++ " ".toList ++
    state.toList ++ "\n".toList

/-- The header, and the processes that are not done in their order. -/
def activity (j : Job) : List Str := j.header :: (j.procs.filter fun p => !p.done).map j.procLine

end Job

namespace World

/-- The array `numbers` before it is sorted. -/
def numbers (w : World) : List Nat :=
  (List.finRange jobsMax).filterMap fun i => (w.jobs.cell i).map (·.jobNumber)

/-- The body of the last loop of `jobs_print_activities`, for the job that was found. -/
def printJob (w : World) (j : Job) : World :=
  j.procs.foldl (fun w p => if p.done then w else w.print (j.procLine p)) (w.print j.header)

/-- The body of the last loop of `jobs_print_activities`. -/
def printNumber (w : World) (number : Nat) : World :=
  match w.jobsFindByNumber number with
  | none => w
  | some slot => (w.jobs.cell slot).elim w w.printJob

/-- `jobs_print_activities`. -/
def jobsPrintActivities (w : World) : World := (exchangeSort w.numbers).foldl printNumber w

theorem printJob_eq (w : World) (j : Job) : w.printJob j = j.activity.foldl print w := by
  rw [printJob, Job.activity, List.foldl_cons, List.foldl_map, List.foldl_filter]
  congr 1
  funext w p
  cases p.done <;> rfl

theorem foldl_print_jobs (texts : List Str) (w : World) : (texts.foldl print w).jobs = w.jobs := by
  induction texts generalizing w with
  | nil => rfl
  | cons s texts ih =>
    have hprint : (w.print s).jobs = w.jobs := congrArg Ledger.jobs (w.ledger_print s)
    rw [List.foldl_cons, ih, hprint]

/-- The job with this number. -/
def jobOf (w : World) (number : Nat) : Option Job := (w.jobsFindByNumber number).bind w.jobs.cell

theorem printNumber_eq (w : World) (number : Nat) :
    w.printNumber number = ((w.jobOf number).toList.flatMap Job.activity).foldl print w := by
  unfold printNumber jobOf
  cases w.jobsFindByNumber number with
  | none => rfl
  | some slot =>
    simp only [Option.bind_some]
    cases w.jobs.cell slot with
    | none => rfl
    | some j => simpa using w.printJob_eq j

/-- Printing does not change what the next number stands for. -/
theorem foldl_printNumber (ns : List Nat) (w : World) :
    ns.foldl printNumber w = ((ns.filterMap w.jobOf).flatMap Job.activity).foldl print w := by
  induction ns generalizing w with
  | nil => rfl
  | cons n ns ih =>
    have hjobs : (w.printNumber n).jobs = w.jobs := by rw [printNumber_eq, foldl_print_jobs]
    have hof : (w.printNumber n).jobOf = w.jobOf := by
      funext number
      rw [jobOf, jobOf, jobsFindByNumber, jobsFindByNumber, hjobs]
    rw [List.foldl_cons, ih, hof, printNumber_eq, ← List.foldl_append, ← List.flatMap_append]
    cases hn : w.jobOf n with
    | none => rw [List.filterMap_cons_none hn]; rfl
    | some j => rw [List.filterMap_cons_some hn]; rfl

/-! ## Numbers -/

variable {w : World}

theorem jobOf_eq_some (h : w.ledger.Numbered) {number : Nat} {j : Job} :
    w.jobOf number = some j ↔ j ∈ w.jobs ∧ j.jobNumber = number := by
  constructor
  · intro hj
    obtain ⟨slot, hfind, hcell⟩ := Option.bind_eq_some_iff.mp hj
    obtain ⟨j', hj', hnumber⟩ := Slots.findSlot_eq_some hfind
    obtain rfl : j' = j := Option.some.inj (hj'.symm.trans hcell)
    exact ⟨⟨slot, hcell⟩, Int.ofNat.inj (of_decide_eq_true hnumber)⟩
  · rintro ⟨⟨slot, hcell⟩, rfl⟩
    rw [jobOf, jobsFindByNumber_eq h hcell, Option.bind_some, hcell]

theorem mem_numbers {n : Nat} : n ∈ w.numbers ↔ ∃ j ∈ w.jobs, j.jobNumber = n := by
  simp only [numbers, List.mem_filterMap, List.mem_finRange, true_and,
    Option.map_eq_some_iff, Slots.mem_iff]
  constructor
  · rintro ⟨i, j, hj, hn⟩
    exact ⟨j, ⟨i, hj⟩, hn⟩
  · rintro ⟨j, ⟨i, hj⟩, hn⟩
    exact ⟨i, j, hj, hn⟩

/-- No number occurs twice. -/
theorem numbers_nodup (h : w.ledger.Numbered) : w.numbers.Nodup := by
  refine List.Nodup.filterMap ?_ (List.nodup_finRange jobsMax)
  intro i k n hi hk
  obtain ⟨j, hj, hn⟩ := Option.map_eq_some_iff.mp hi
  obtain ⟨j', hj', hn'⟩ := Option.map_eq_some_iff.mp hk
  exact h.inj hj hj' (hn.trans hn'.symm)

/-- The sorted array is strictly increasing. -/
theorem exchangeSort_numbers (h : w.ledger.Numbered) :
    (exchangeSort w.numbers).Pairwise (· < ·) := by
  have hnodup : (exchangeSort w.numbers).Nodup :=
    (exchangeSort_perm _).nodup_iff.mpr (numbers_nodup h)
  exact ((exchangeSort_sorted w.numbers).and hnodup).imp fun hle => lt_of_le_of_ne hle.1 hle.2

/-- The jobs in the order in which they are printed. -/
def activities (w : World) : List Job := (exchangeSort w.numbers).filterMap w.jobOf

theorem jobsPrintActivities_eq (w : World) :
    w.jobsPrintActivities = (w.activities.flatMap Job.activity).foldl print w :=
  foldl_printNumber ..

/-- Every number of the array is found again. -/
theorem activities_map (h : w.ledger.Numbered) :
    w.activities.map (·.jobNumber) = exchangeSort w.numbers := by
  rw [activities, List.map_filterMap]
  have hsome : ∀ n ∈ exchangeSort w.numbers, (w.jobOf n).map (·.jobNumber) = some n := by
    intro n hn
    obtain ⟨j, hj⟩ := mem_numbers.mp ((exchangeSort_perm _).mem_iff.mp hn)
    rw [(jobOf_eq_some h).mpr hj, Option.map_some, hj.2]
  rw [List.filterMap_congr hsome, List.filterMap_some]

theorem mem_activities (h : w.ledger.Numbered) {j : Job} : j ∈ w.activities ↔ j ∈ w.jobs := by
  rw [activities, List.mem_filterMap]
  constructor
  · rintro ⟨n, -, hj⟩
    exact ((jobOf_eq_some h).mp hj).1
  · intro hj
    exact ⟨j.jobNumber, (exchangeSort_perm _).mem_iff.mpr (mem_numbers.mpr ⟨j, hj, rfl⟩),
      (jobOf_eq_some h).mpr ⟨hj, rfl⟩⟩

/-! ## Over all runs -/

/-- The number that `jobs_register` returns, if it finds a slot. -/
def issue (w : World) : TableAct → List Int
  | .register pgid procs cmdline background state =>
    let number := (w.jobsRegister pgid procs cmdline background state).2
    if number = -1 then [] else [number]
  | .event _ | .remove _ => []

/-- The numbers that `jobs_register` returns, in the order of the calls. -/
def issued (w : World) : List TableAct → List Int
  | [] => []
  | a :: acts => w.issue a ++ (w.tableAct a).issued acts

/-- The numbers given so far are increasing and smaller than the next one, and those of the jobs in
the table are among them. -/
structure Issued (b : Ledger) (given : List Int) : Prop where
  numbered   : b.Numbered
  increasing : given.Pairwise (· < ·)
  lt         : ∀ n ∈ given, n < b.next
  known      : ∀ j ∈ b.jobs, (j.jobNumber : Int) ∈ given

theorem Issued.updates {b b' : Ledger} {given : List Int} (h : Issued b given) (hu : b.Updates b') :
    Issued b' given := by
  refine ⟨hu.numbered h.numbered, h.increasing, by rw [hu.next]; exact h.lt, ?_⟩
  rintro j' ⟨k, hk⟩
  obtain ⟨j, hj, hnumber, -⟩ := hu.jobs hk
  rw [hnumber]
  exact h.known j ⟨k, hj⟩

theorem Issued.addJob {b : Ledger} {given : List Int} (h : Issued b given)
    (slot : Fin jobsMax) {j : Job} (hnumber : j.jobNumber = b.next) :
    Issued (b.addJob slot j) (given ++ [(b.next : Int)]) := by
  refine ⟨h.numbered.addJob slot hnumber, ?_, ?_, ?_⟩
  · rw [List.pairwise_append]
    refine ⟨h.increasing, List.pairwise_singleton _ _, fun n hn m hm => ?_⟩
    rw [List.mem_singleton.mp hm]
    exact h.lt n hn
  · intro n hn
    have hnext : (b.addJob slot j).next = b.next + 1 := rfl
    rw [hnext]
    rcases List.mem_append.mp hn with hn | hn
    · have := h.lt n hn
      omega
    · rw [List.mem_singleton.mp hn]
      omega
  · rintro i ⟨k, hk⟩
    rcases Ledger.cell_addJob hk with ⟨-, rfl⟩ | ⟨-, hi⟩
    · rw [hnumber]
      exact List.mem_append_right _ (List.mem_singleton_self _)
    · exact List.mem_append_left _ (h.known i ⟨k, hi⟩)

theorem Issued.step {given : List Int} (h : Issued w.ledger given) (a : TableAct) :
    Issued (w.tableAct a).ledger (given ++ w.issue a) := by
  cases a with
  | event e =>
    rw [issue, List.append_nil]
    rcases handleTrackedEvent_cases h.numbered e with ⟨hledger, -⟩ | ⟨slot, j, hj, hledger, -⟩
    · exact h.updates (hledger ▸ .refl _)
    · exact h.updates (hledger ▸ .setJob hj fun i hi => Job.track_same hi)
  | remove number =>
    rw [issue, List.append_nil, tableAct, jobsRemove]
    cases hfind : w.jobsFindByNumber number with
    | none => exact h
    | some slot =>
      obtain ⟨j, hj, -⟩ := Slots.findSlot_eq_some hfind
      have hu : w.ledger.Updates (w.ledger.setJob slot none) := .setJob hj fun i hi => by cases hi
      exact h.updates hu
  | register pgid procs cmdline background state =>
    rw [tableAct, issue, jobsRegister]
    cases hfree : w.jobs.firstFree with
    | none =>
      simp only [if_true, List.append_nil]
      exact h
    | some slot =>
      have hne : (w.nextJobNumber : Int) ≠ -1 := by omega
      simp only [if_neg hne]
      exact h.addJob slot rfl

theorem Issued.run {given : List Int} (h : Issued w.ledger given) (acts : List TableAct) :
    Issued (acts.foldl tableAct w).ledger (given ++ w.issued acts) := by
  induction acts generalizing w given with
  | nil => rwa [issued, List.append_nil]
  | cons a acts ih =>
    rw [List.foldl_cons, issued, ← List.append_assoc]
    exact ih (h.step a)

theorem Issued.init (w : World) : Issued w.jobsInit.ledger [] := by
  have hnone : ∀ j, j ∉ w.jobsInit.ledger.jobs := fun _ => Slots.not_mem_empty
  exact ⟨.empty rfl, .nil, by simp, fun j hj => absurd hj (hnone j)⟩

/-- What is printed has the numbers that were given and are still in the table. -/
theorem Issued.activities {given : List Int} (h : Issued w.ledger given) :
    w.activities.map (fun j => (j.jobNumber : Int)) =
      given.filter fun n => (w.jobsFindByNumber n).isSome := by
  have hmap : w.activities.map (fun j => (j.jobNumber : Int)) =
      (exchangeSort w.numbers).map fun n : Nat => (n : Int) := by
    rw [← activities_map h.numbered, List.map_map]
    rfl
  have hincreasing : (w.activities.map fun j => (j.jobNumber : Int)).Pairwise (· < ·) := by
    rw [hmap, List.pairwise_map]
    exact (exchangeSort_numbers h.numbered).imp Int.ofNat_lt.mpr
  have hgiven := h.increasing.filter fun n => (w.jobsFindByNumber n).isSome
  -- both lists are increasing and have the same members
  have hmem : ∀ n : Int, n ∈ w.activities.map (fun j => (j.jobNumber : Int)) ↔
      n ∈ given.filter fun n => (w.jobsFindByNumber n).isSome := by
    intro n
    rw [List.mem_filter, List.mem_map]
    constructor
    · rintro ⟨j, hj, rfl⟩
      have hj' := (mem_activities h.numbered).mp hj
      obtain ⟨slot, hcell⟩ := hj'
      rw [jobsFindByNumber_eq h.numbered hcell]
      exact ⟨h.known j ⟨slot, hcell⟩, rfl⟩
    · rintro ⟨-, hsome⟩
      obtain ⟨slot, hfind⟩ := Option.isSome_iff_exists.mp hsome
      obtain ⟨j, hj, hn⟩ := Slots.findSlot_eq_some hfind
      exact ⟨j, (mem_activities h.numbered).mpr ⟨slot, hj⟩, of_decide_eq_true hn⟩
  have hperm := (List.perm_ext_iff_of_nodup (hincreasing.imp fun hlt => hlt.ne)
    (hgiven.imp fun hlt => hlt.ne)).mpr hmem
  exact hperm.eq_of_pairwise (fun a b _ _ hab hba => absurd hba hab.not_gt) hincreasing hgiven

end World

/-- **Numbers and activities**: whatever is registered, removed and taken from the queue, the jobs
in the table have different numbers smaller than the next one; no number is given twice; and
`activities` prints the jobs of the table, each once, in the order in which they were registered,
and for each its processes that are not done. (The counter is an `int`, which does not overflow in
fewer than `2 ^ 31` registrations.) -/
theorem activities_in_order (w₀ : World) (acts : List TableAct) :
    let w := acts.foldl World.tableAct w₀.jobsInit
    let given := w₀.jobsInit.issued acts
    (∀ i k j j', w.jobs.cell i = some j → w.jobs.cell k = some j' →
      j.jobNumber = j'.jobNumber → i = k) ∧
      (∀ j ∈ w.jobs, j.jobNumber < w.nextJobNumber) ∧
      given.Pairwise (· < ·) ∧
      ∃ js : List Job, (∀ j, j ∈ js ↔ j ∈ w.jobs) ∧
        js.Pairwise (fun j j' => j.jobNumber < j'.jobNumber) ∧
        js.map (fun j => (j.jobNumber : Int)) =
          given.filter (fun n => (w.jobsFindByNumber n).isSome) ∧
        w.jobsPrintActivities =
          (js.flatMap fun j => j.header :: (j.procs.filter fun p => !p.done).map j.procLine).foldl
            World.print w := by
  intro w given
  have h : World.Issued w.ledger given := by
    have hrun := (World.Issued.init w₀).run acts
    rwa [List.nil_append] at hrun
  refine ⟨fun i k j j' hj hj' heq => h.numbered.inj hj hj' heq, h.numbered.lt,
    h.increasing, w.activities,
    fun j => World.mem_activities h.numbered, ?_, h.activities, w.jobsPrintActivities_eq⟩
  have hsorted := World.exchangeSort_numbers h.numbered
  rwa [← World.activities_map h.numbered, List.pairwise_map] at hsorted

end UnixCShell
