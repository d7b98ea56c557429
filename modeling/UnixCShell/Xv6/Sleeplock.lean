import Mathlib.Data.List.FinRange
import UnixCShell.Lib.Monitor
import UnixCShell.Xv6.Proc

/-!
# Sleeping locks

`sleeplock.c`: a lock that is held for long, behind a spinning lock that is held for a moment.
Whoever finds it taken waits on its address. The kernel releases such a lock only where it has just
acquired it, or where `holdingsleep` has said that the caller has it (`brelse`, `iunlock`); so a
process may call `releasesleep` here if and only if it knows that.

At most one process has the lock, and `holdingsleep` is right about who (`sleeplock_exclusive`); a
process waits for the lock only as long as somebody has it (`sleeplock_wakeups`).
-/

namespace UnixCShell.Xv6

open Lib

/-- `struct sleeplock`, without the lock in it. -/
structure Sleeplock where
  locked : Bool
  pid    : Int
  deriving DecidableEq, Repr

namespace Sleeplock

/-- `initsleeplock`. -/
def init : Sleeplock := ⟨false, 0⟩

/-- Where a process is. `own` says that it has come back from `acquiresleep` and has not called
`releasesleep` since; no instruction looks at it. -/
inductive Pc where
  /-- In no call. The process knows that it has the lock (`knows`), from `acquiresleep` or from
  `holdingsleep`. -/
  | out (own knows : Bool)
  /-- `while (lk->locked)`. -/
  | acquire (own : Bool)
  | acquired
  | release
  | releaseWake
  | released
  | holding (own : Bool)
  | held (own r : Bool)
  deriving DecidableEq, Repr

variable (pid : Fin nproc → Int)

/-- What the process `t` does next, with the lock of the lock. -/
def inside (t : Fin nproc) (k : Pc) (s : Sleeplock) : Instr Sleeplock Pc Unit :=
  match k with
  | .out own knows => .release (.out own knows)
  | .acquire own => if s.locked then .wait () (.acquire own) else .update ⟨true, pid t⟩ .acquired
  | .acquired => .release (.out true true)
  | .release => .update ⟨false, 0⟩ .releaseWake
  | .releaseWake => .wakeup () .released
  | .released => .release (.out false false)
  | .holding own => .update s (.held own (s.locked && s.pid = pid t))
  | .held own r => .release (.out own r)

/-- `inside` as a relation, with one rule for each way through it. -/
inductive Inside (t : Fin nproc) (s : Sleeplock) : Pc → Instr Sleeplock Pc Unit → Prop where
  | out (own knows : Bool) : Inside t s (.out own knows) (.release (.out own knows))
  | wait (own : Bool) : s.locked = true → Inside t s (.acquire own) (.wait () (.acquire own))
  | acquire (own : Bool) : s.locked = false →
      Inside t s (.acquire own) (.update ⟨true, pid t⟩ .acquired)
  | acquired : Inside t s .acquired (.release (.out true true))
  | release : Inside t s .release (.update ⟨false, 0⟩ .releaseWake)
  | wakeup : Inside t s .releaseWake (.wakeup () .released)
  | released : Inside t s .released (.release (.out false false))
  | holding (own : Bool) : Inside t s (.holding own)
      (.update s (.held own (s.locked && s.pid = pid t)))
  | held (own r : Bool) : Inside t s (.held own r) (.release (.out own r))

variable {pid} in
theorem Inside.of_eq {t : Fin nproc} {k : Pc} {s : Sleeplock} {i : Instr Sleeplock Pc Unit}
    (h : inside pid t k s = i) : Inside pid t s k i := by
  subst h
  cases k with
  | acquire own =>
    simp only [inside]
    split
    · next hlocked => exact .wait own hlocked
    · next hfree => exact .acquire own (Bool.eq_false_iff.mpr hfree)
  | _ => constructor

/-- The calls. -/
inductive Call where
  | acquiresleep
  | releasesleep
  | holdingsleep
  deriving DecidableEq, Repr

def outside (_ : Fin nproc) (k : Pc) (_ : Sleeplock) (c : Call) : Option (Outer Sleeplock Pc) :=
  match k, c with
  | .out own _, .acquiresleep => some (.enter (.acquire own))
  | .out _ true, .releasesleep => some (.enter .release)
  | .out own _, .holdingsleep => some (.enter (.holding own))
  | _, _ => none

def program : Program (Fin nproc) Sleeplock Pc Unit Call := ⟨inside pid, outside⟩

/-- The processes and the lock. -/
abbrev System := Monitor (Fin nproc) Sleeplock Pc Unit

def System.init : System := Monitor.init Sleeplock.init fun _ => .out false false

def System.step : System → Monitor.Act (Fin nproc) Call → Option System :=
  Monitor.step (program pid) (List.finRange nproc)

/-! ## Who has the lock -/

/-- Does the process have the lock? -/
def Pc.owns : Pc → Bool
  | .out own _ | .acquire own | .holding own | .held own _ => own
  | .acquired | .release => true
  | .releaseWake | .released => false

/-- Does the process know it? -/
def Pc.knows : Pc → Bool
  | .out _ knows => knows
  | .held _ r => r
  | .acquired | .release => true
  | .acquire _ | .holding _ | .releaseWake | .released => false

/-- The lock says who has it. -/
structure Ok (s : Sleeplock) (ks : Fin nproc → Pc) : Prop where
  owner : ∀ t, (ks t).owns = true ↔ s.locked = true ∧ s.pid = pid t
  taken : s.locked = true → ∃ t, (ks t).owns = true
  knows : ∀ t, (ks t).knows = true → (ks t).owns = true

variable {pid} {t u : Fin nproc} {s s' : Sleeplock} {ks : Fin nproc → Pc} {k' : Pc}

/-- Nobody gets the lock, and nobody loses it. -/
theorem Ok.move (h : Ok pid s ks) (howns : k'.owns = (ks t).owns)
    (hknows : k'.knows = true → k'.owns = true) :
    Ok pid s (Function.update ks t k') where
  owner := by
    rw [Function.forall_update_iff ks fun u k => k.owns = true ↔
      s.locked = true ∧ s.pid = pid u, howns]
    exact ⟨h.owner t, fun u _ => h.owner u⟩
  taken hlocked := by
    obtain ⟨u, hu⟩ := h.taken hlocked
    refine ⟨u, ?_⟩
    by_cases hut : u = t
    · subst hut
      rw [Function.update_self, howns, hu]
    · rw [Function.update_of_ne hut, hu]
  knows := by
    rw [Function.forall_update_iff ks fun _ k => k.knows = true → k.owns = true]
    exact ⟨hknows, fun u _ => h.knows u⟩

/-- The lock is free, and `t` gets it. -/
theorem Ok.acquire (hpid : Function.Injective pid) (h : Ok pid s ks) (hfree : s.locked = false) :
    Ok pid ⟨true, pid t⟩ (Function.update ks t .acquired) where
  owner := by
    rw [Function.forall_update_iff ks fun u k => k.owns = true ↔ true = true ∧ pid t = pid u]
    refine ⟨by simp [Pc.owns], fun u hu => ?_⟩
    simp [h.owner u, hfree, hpid.ne hu.symm]
  taken _ := ⟨t, by rw [Function.update_self]; rfl⟩
  knows := by
    rw [Function.forall_update_iff ks fun _ k => k.knows = true → k.owns = true]
    exact ⟨fun _ => rfl, fun u _ => h.knows u⟩

/-- `t` has the lock, and gives it back. -/
theorem Ok.release (hpid : Function.Injective pid) (h : Ok pid s ks) (ht : (ks t).owns = true) :
    Ok pid ⟨false, 0⟩ (Function.update ks t .releaseWake) where
  owner := by
    rw [Function.forall_update_iff ks fun u k => k.owns = true ↔ false = true ∧ 0 = pid u]
    refine ⟨by simp [Pc.owns], fun u hu => ?_⟩
    simp [h.owner u, ((h.owner t).mp ht).2, hpid.ne hu.symm]
  taken hlocked := nomatch hlocked
  knows := by
    rw [Function.forall_update_iff ks fun _ k => k.knows = true → k.owns = true]
    exact ⟨nofun, fun u _ => h.knows u⟩

/-- `holdingsleep` is right. -/
theorem Ok.holding (h : Ok pid s ks) {own : Bool} (ht : ks t = .holding own) :
    (s.locked && decide (s.pid = pid t)) = own := by
  have := h.owner t
  rw [ht, Pc.owns] at this
  rw [Bool.eq_iff_iff, this]
  simp

theorem keeps_ok (hpid : Function.Injective pid) :
    Monitor.Keeps (program pid) (fun _ _ _ => True) (Ok pid) where
  update {t s ks s' k'} hs h := by
    generalize hk : ks t = k at h
    cases Inside.of_eq h with
    | acquire own hfree => exact hs.acquire hpid hfree
    | release => exact hs.release hpid (by rw [hk]; rfl)
    | holding own => exact hs.move (by rw [hk]; rfl) fun hr => (hs.holding hk).symm.trans hr
  ifKilled {t s ks yes no} _ h := by
    generalize ks t = k at h
    cases Inside.of_eq h
  wakeup {t s ks c k'} hs h := by
    generalize hk : ks t = k at h
    cases Inside.of_eq h with
    | wakeup => exact hs.move (by rw [hk]; rfl) nofun
  wait {t s ks c k'} hs h := by
    generalize hk : ks t = k at h
    cases Inside.of_eq h with
    | wait own hlocked => exact hs.move (by rw [hk]) nofun
  release {t s ks k'} hs h := by
    have hknows := hs.knows t
    generalize hk : ks t = k at h hknows
    cases Inside.of_eq h with
    | out own knows => exact hs.move (by rw [hk]) hknows
    | acquired => exact hs.move (by rw [hk]; rfl) fun _ => rfl
    | released => exact hs.move (by rw [hk]; rfl) nofun
    | held own r => exact hs.move (by rw [hk]; rfl) hknows
  enter {t s ks a k'} hs _ h := by
    have hknows := hs.knows t
    generalize hk : ks t = k at h hknows
    simp only [program, outside] at h
    split at h <;> cases h
    · exact hs.move (by rw [hk]; rfl) nofun
    · exact hs.move (by rw [hk]; exact (hknows rfl).symm) fun _ => rfl
    · exact hs.move (by rw [hk]; rfl) nofun
  change {t s ks a s' k'} _ _ h := by
    simp only [program, outside] at h
    split at h <;> cases h

theorem System.run_ok (hpid : Function.Injective pid)
    {acts : List (Monitor.Act (Fin nproc) Call)} {m : System}
    (hrun : run (System.step pid) System.init acts = some m) : Ok pid m.shared m.ks := by
  have hinit : Ok pid System.init.shared System.init.ks :=
    ⟨fun _ => iff_of_false nofun nofun, nofun, fun _ => nofun⟩
  exact Monitor.run_keeps (keeps_ok hpid)
    (Monitor.allSteps_chooses (fun _ _ _ => trivial) _) hinit hrun

/-- At most one process is between `acquiresleep` and `releasesleep`, and the lock holds its pid. A
process knows that it has the lock only if that is so: `holdingsleep` says yes to this process, and
to no other. -/
theorem sleeplock_exclusive (hpid : Function.Injective pid)
    {acts : List (Monitor.Act (Fin nproc) Call)} {m : System}
    (hrun : run (System.step pid) System.init acts = some m) {own knows : Bool}
    (ht : m.locks.pc t = .outside (.out own knows)) :
    (own = true ↔ m.shared.locked = true ∧ m.shared.pid = pid t) ∧ (knows = true → own = true) ∧
      (own = true → ∀ u own' knows', m.locks.pc u = .outside (.out own' knows') →
        own' = true → u = t) := by
  have hok := System.run_ok hpid hrun
  have owner {u : Fin nproc} {own knows : Bool} (hu : m.locks.pc u = .outside (.out own knows)) :
      own = true ↔ m.shared.locked = true ∧ m.shared.pid = pid u := by
    have := hok.owner u
    rwa [Monitor.ks, hu] at this
  refine ⟨owner ht, ?_, fun hown u own' knows' hu hown' => hpid ?_⟩
  · have := hok.knows t
    rwa [Monitor.ks, ht] at this
  · rw [← ((owner ht).mp hown).2, ((owner hu).mp hown').2]

theorem natCast_val_injective : Function.Injective fun t : Fin nproc => (t.val : Int) :=
  fun _ _ h => Fin.ext (Int.natCast_inj.mp h)

/-- One process takes the lock, and another one asks. -/
theorem sleeplock_exclusive_taken : ∃ m, run (System.step fun t => t.val) System.init
      [.outside 1 .acquiresleep, .next 1, .next 1, .next 1, .outside 2 .holdingsleep, .next 2,
        .next 2, .next 2] = some m ∧
    m.locks.pc 1 = .outside (.out true true) ∧ m.shared.pid = 1 ∧
      m.locks.pc 2 = .outside (.out false false) := by
  obtain ⟨m, hrun, h₁, h₂⟩ : ∃ m, run (System.step fun t => t.val) System.init
      [.outside 1 .acquiresleep, .next 1, .next 1, .next 1, .outside 2 .holdingsleep, .next 2,
        .next 2, .next 2] = some m ∧
      m.locks.pc 1 = .outside (.out true true) ∧ m.locks.pc 2 = .outside (.out false false) :=
    exists_run_of_any (by decide +kernel)
  exact ⟨m, hrun, h₁, ((sleeplock_exclusive natCast_val_injective hrun h₁).1.mp rfl).2, h₂⟩

/-! ## Wakeups -/

/-- A process waits for a lock that is taken. -/
def reason (_ : Unit) (_ : Fin nproc) (_ : Pc) (s : Sleeplock) : Prop := s.locked = true

/-- Whoever has freed the lock has to wake the others. -/
def owes (k : Pc) (_ : Unit) : Prop := k = .releaseWake

theorem fair : Monitor.Fair (program pid) (fun _ => True) reason owes where
  update {m t k s' k'} _ _ h := by
    cases Inside.of_eq h with
    | acquire own hfree => exact ⟨nofun, fun _ _ _ => .inl rfl⟩
    | release => exact ⟨nofun, fun _ _ _ => .inr rfl⟩
    | holding own => exact ⟨nofun, fun _ _ hr => .inl hr⟩
  ifKilled _ _ h := nomatch Inside.of_eq h
  wakeup _ _ _ _ _ := .inl rfl
  wait {m t k c k'} _ _ h := by
    cases Inside.of_eq h with
    | wait own hlocked => exact ⟨hlocked, nofun⟩
  release {m t k k'} _ _ h c u ho _ := by
    cases Inside.of_eq h <;> cases ho
  change {m t k a s' k'} _ _ h := by
    simp only [program, outside] at h
    split at h <;> cases h

/-- Whenever the lock of the lock is free, a process sleeps only while somebody else is between
`acquiresleep` and the end of `releasesleep`, or has locked itself out. -/
theorem sleeplock_wakeups (hpid : Function.Injective pid)
    {acts : List (Monitor.Act (Fin nproc) Call)} {m : System}
    (hrun : run (System.step pid) System.init acts = some m) (hfree : m.locks.lock () = none)
    (hasleep : m.sleepers.asleep t = true) : ∃ u, (m.ks u).owns = true ∧ m.shared.pid = pid u := by
  have hok := System.run_ok hpid hrun
  have hwaits :=
    (Monitor.run_waits (P := fun _ _ => True) List.mem_finRange fair (fun _ _ _ _ => trivial)
    (allSteps_of_forall_mem (fun _ _ _ => trivial) _) (Monitor.held_init _ _) trivial
      (Monitor.waits_init _ _) hrun).2
  obtain ⟨_, _, hlocked⟩ :=
    hwaits.asleep (Monitor.run_rests (Monitor.rests_init _ _) hrun) hfree hasleep
  obtain ⟨u, hu⟩ := hok.taken hlocked
  exact ⟨u, hu, ((hok.owner u).mp hu).2⟩

/-- One process has the lock, and another one waits for it. -/
theorem sleeplock_wakeups_taken : ∃ m, run (System.step fun t => t.val) System.init
      [.outside 1 .acquiresleep, .next 1, .next 1, .next 1, .outside 2 .acquiresleep, .next 2,
        .next 2, .next 2, .next 2]
      = some m ∧ m.sleepers.asleep 2 = true ∧ ∃ u, (m.ks u).owns = true ∧ m.shared.pid = u.val := by
  obtain ⟨m, hrun, hasleep, hfree⟩ : ∃ m, run (System.step fun t => t.val) System.init
      [.outside 1 .acquiresleep, .next 1, .next 1, .next 1, .outside 2 .acquiresleep, .next 2,
        .next 2, .next 2, .next 2]
      = some m ∧ m.sleepers.asleep 2 = true ∧ m.locks.lock () = none :=
        exists_run_of_any (by decide +kernel)
  exact ⟨m, hrun, hasleep, sleeplock_wakeups natCast_val_injective hrun hfree hasleep⟩

end Sleeplock

end UnixCShell.Xv6
