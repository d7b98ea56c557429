import Mathlib.Logic.Function.Basic
import Mathlib.Tactic.Common

/-!
# Sleepers

Threads that wait on channels. A thread registers for a channel first and goes to sleep later; a
wakeup that comes in between takes the registration away, and then there is no sleep. A thread may
be killed at any time, which ends its sleep, but not its registration.
-/

namespace Lib

variable {T C : Type*}

/-- Who is registered for which channel, who is asleep, and who has been killed. -/
structure Sleepers (T C : Type*) where
  chan   : T → Option C
  asleep : T → Bool
  killed : T → Bool

namespace Sleepers

/-- Nobody is registered. -/
def init : Sleepers T C := ⟨fun _ => none, fun _ => false, fun _ => false⟩

variable [DecidableEq T]

/-- The thread `t` registers for the channel `c`. -/
def prepare (s : Sleepers T C) (t : T) (c : C) : Sleepers T C :=
  { s with chan := Function.update s.chan t (some c) }

/-- The thread `t` goes to sleep, unless its registration has been taken away. -/
def sleep (s : Sleepers T C) (t : T) : Sleepers T C :=
  if (s.chan t).isSome then { s with asleep := Function.update s.asleep t true } else s

/-- A wakeup of the channel `c` visits the thread `t`. -/
def wake [DecidableEq C] (s : Sleepers T C) (c : C) (t : T) : Sleepers T C :=
  if s.chan t = some c then
    { s with chan := Function.update s.chan t none, asleep := Function.update s.asleep t false }
  else s

/-- The thread `t` is killed; this ends its sleep. -/
def kill (s : Sleepers T C) (t : T) : Sleepers T C :=
  { s with asleep := Function.update s.asleep t false, killed := Function.update s.killed t true }

@[simp] theorem chan_sleep (s : Sleepers T C) (t : T) : (s.sleep t).chan = s.chan := by
  unfold sleep
  split <;> rfl

@[simp] theorem killed_sleep (s : Sleepers T C) (t : T) : (s.sleep t).killed = s.killed := by
  unfold sleep
  split <;> rfl

theorem chan_prepare_of_ne (s : Sleepers T C) {t u : T} (c : C) (h : u ≠ t) :
    (s.prepare t c).chan u = s.chan u := Function.update_of_ne h _ _

@[simp] theorem chan_prepare_self (s : Sleepers T C) (t : T) (c : C) :
    (s.prepare t c).chan t = some c :=
  Function.update_self _ _ _

variable [DecidableEq C]

@[simp] theorem killed_wake (s : Sleepers T C) (c : C) (t : T) :
    (s.wake c t).killed = s.killed := by
  unfold wake
  split <;> rfl

theorem chan_wake (s : Sleepers T C) (c : C) (t u : T) :
    (s.wake c t).chan u = if u = t ∧ s.chan t = some c then none else s.chan u := by
  unfold wake
  split
  · next h =>
    by_cases hu : u = t
    · simp [hu, h]
    · simp [hu]
  · next h => simp [h]

/-- Who is still registered was so before, and was not visited on his own channel. -/
theorem chan_eq_some_of_wake {s : Sleepers T C} {c c' : C} {t u : T}
    (h : (s.wake c t).chan u = some c') :
    s.chan u = some c' ∧ ¬ (u = t ∧ c = c') := by
  rw [chan_wake] at h
  split at h
  · cases h
  · next hne =>
    refine ⟨h, ?_⟩
    rintro ⟨rfl, rfl⟩
    exact hne ⟨rfl, h⟩

/-- Who is still asleep has not been touched. -/
theorem asleep_of_wake {s : Sleepers T C} {c : C} {t u : T} (h : (s.wake c t).asleep u = true) :
    s.asleep u = true ∧ (s.wake c t).chan u = s.chan u := by
  by_cases hc : s.chan t = some c
  · rw [wake, if_pos hc] at h ⊢
    have hne : u ≠ t := by
      rintro rfl
      simp at h
    simpa [hne] using h
  · rw [wake, if_neg hc] at h ⊢
    exact ⟨h, rfl⟩

/-- The thread `t` is marked as killed, but not woken. -/
def mark (s : Sleepers T C) (t : T) : Sleepers T C :=
  { s with killed := Function.update s.killed t true }

/-- The thread `t` is gone, and its name is free. -/
def reset (s : Sleepers T C) (t : T) : Sleepers T C where
  chan := Function.update s.chan t none
  asleep := Function.update s.asleep t false
  killed := Function.update s.killed t false

/-- What may happen to sleepers. -/
inductive Ev (T C : Type*) where
  | prepare (t : T) (c : C)
  | sleep (t : T)
  | wake (c : C) (t : T)
  | kill (t : T)
  | mark (t : T)
  | reset (t : T)

def apply (s : Sleepers T C) : Ev T C → Sleepers T C
  | .prepare t c => s.prepare t c
  | .sleep t => s.sleep t
  | .wake c t => s.wake c t
  | .kill t => s.kill t
  | .mark t => s.mark t
  | .reset t => s.reset t

/-- Who is asleep is registered. -/
def Sound (s : Sleepers T C) : Prop := ∀ t, s.asleep t = true → (s.chan t).isSome

theorem Sound.apply {s : Sleepers T C} (h : s.Sound) (e : Ev T C) : (s.apply e).Sound := by
  intro u hu
  cases e with
  | prepare t c =>
    by_cases hut : u = t
    · subst hut
      simp [Sleepers.apply]
    · simpa [Sleepers.apply, chan_prepare_of_ne _ _ hut] using h u hu
  | sleep t =>
    rw [Sleepers.apply, chan_sleep]
    simp only [Sleepers.apply, sleep] at hu
    split at hu
    · next ht =>
      by_cases hut : u = t
      · exact hut ▸ ht
      · exact h u (by simpa [hut] using hu)
    · exact h u hu
  | wake c t =>
    obtain ⟨hasleep, hchan⟩ := asleep_of_wake hu
    exact hchan ▸ h u hasleep
  | kill t =>
    by_cases hut : u = t
    · simp [Sleepers.apply, kill, hut] at hu
    · exact h u (by simpa [Sleepers.apply, kill, hut] using hu)
  | mark t => exact h u hu
  | reset t =>
    by_cases hut : u = t
    · simp [Sleepers.apply, reset, hut] at hu
    · simpa [Sleepers.apply, reset, hut] using h u (by simpa [Sleepers.apply, reset, hut] using hu)

/-- Who is not registered stays so until he registers. -/
theorem chan_apply_eq_none {s : Sleepers T C} {t : T} {e : Ev T C} (hprep : ∀ c, e ≠ .prepare t c)
    (h : s.chan t = none) : (s.apply e).chan t = none := by
  cases e with
  | prepare u c =>
    have hne : t ≠ u := by
      rintro rfl
      exact hprep c rfl
    exact (chan_prepare_of_ne s c hne).trans h
  | sleep u => rwa [apply, chan_sleep]
  | wake c u =>
    rw [apply, chan_wake]
    split
    · rfl
    · exact h
  | kill u | mark u => exact h
  | reset u =>
    by_cases htu : t = u
    · simp [apply, reset, htu]
    · simpa [apply, reset, htu] using h

/-! What happens to one thread, as an update of its entries. -/

/-- Set the entries of `t`. -/
def set (s : Sleepers T C) (t : T) (chan : Option C) (asleep killed : Bool) : Sleepers T C where
  chan := Function.update s.chan t chan
  asleep := Function.update s.asleep t asleep
  killed := Function.update s.killed t killed

omit [DecidableEq C] in
theorem set_self (s : Sleepers T C) (t : T) : s.set t (s.chan t) (s.asleep t) (s.killed t) = s := by
  simp [set]

omit [DecidableEq C] in
theorem prepare_eq_set (s : Sleepers T C) (t : T) (c : C) :
    s.prepare t c = s.set t (some c) (s.asleep t) (s.killed t) := by
  simp [prepare, set]

omit [DecidableEq C] in
theorem sleep_eq_set (s : Sleepers T C) (t : T) :
    s.sleep t = s.set t (s.chan t) ((s.chan t).isSome || s.asleep t) (s.killed t) := by
  unfold sleep
  split
  · next h => simp [set, h]
  · next h => simp [set, h]

theorem wake_eq_set (s : Sleepers T C) (c : C) (t : T) :
    s.wake c t = if s.chan t = some c then s.set t none false (s.killed t) else s := by
  simp [wake, set]

omit [DecidableEq C] in
theorem kill_eq_set (s : Sleepers T C) (t : T) : s.kill t = s.set t (s.chan t) false true := by
  simp [kill, set]

omit [DecidableEq C] in
theorem mark_eq_set (s : Sleepers T C) (t : T) :
    s.mark t = s.set t (s.chan t) (s.asleep t) true := by
  simp [mark, set]

end Sleepers

end Lib
