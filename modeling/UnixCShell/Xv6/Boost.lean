import Mathlib.Algebra.GroupWithZero.Nat
import Mathlib.Logic.Function.Basic
import Mathlib.Order.Nat
import UnixCShell.Lib.Runs

/-!
# When to boost

`mlfq_maybe_boost` takes two locks, one after the other: under `tickslock` it reads the clock,
under `mlfq_boost_lock` it compares what it has read with `mlfq_last_boost`. Between the two, the
clock goes on and other harts decide. The comparison is an unsigned subtraction: a hart that decides
on a value which is older than the last boost sees a huge distance instead of a negative one, boosts
again and sets the clock of the boosts back.

`boosts_apart_iff` says that this is the only way in which the rule "one boost in every interval"
fails, as long as boosts are dated by the value of the clock they rest on: they are an interval
apart, and `mlfq_last_boost` never decreases, in exactly the runs in which no hart decides on a
value that the last boost has overtaken. Dated by the tick in which they are decided, boosts are an
interval apart if none is decided later than in the tick in which the clock was read.
-/

namespace UnixCShell.Xv6.Boost

open Lib

/-- `MLFQ_BOOST_INTERVAL`. -/
def boostInterval : Nat := 48

/-- A `uint` subtraction. -/
def usub (a b : Nat) : Nat := (a + 2 ^ 32 - b) % 2 ^ 32

/-- A decision to boost: the value of `now` it rests on, and the value of `ticks` when it is
made. -/
structure Decision where
  now   : Nat
  ticks : Nat
  deriving DecidableEq, Repr

/-- The clock and the boosts. `ticks` is kept without its wrap-around (the `uint` of the source is
`ticks % 2 ^ 32`); `now h` is the local variable of a hart that is between its two critical
sections; `boosts` are the calls of `mlfq_boost_all` so far, the last one first. -/
structure Clock (H : Type) where
  ticks         : Nat
  mlfqLastBoost : Nat
  now           : H → Option Nat
  boosts        : List Decision

inductive Op (H : Type) where
  | tick
  | read (h : H)
  | decide (h : H)
  deriving DecidableEq, Repr

variable {H : Type}

/-- `clockintr` and the two halves of `mlfq_maybe_boost`. -/
def step [DecidableEq H] (s : Clock H) : Op H → Option (Clock H)
  | .tick => some { s with ticks := s.ticks + 1 }
  | .read h =>
    if s.now h = none then some { s with now := Function.update s.now h (some (s.ticks % 2 ^ 32)) }
    else none
  | .decide h =>
    match s.now h with
    | none => none
    | some now =>
      let s := { s with now := Function.update s.now h none }
      if usub now s.mlfqLastBoost ≥ boostInterval then
        some { s with mlfqLastBoost := now, boosts := ⟨now, s.ticks⟩ :: s.boosts }
      else some s

def init : Clock H := ⟨0, 0, fun _ => none, []⟩

/-! ## Properties of steps and runs -/

/-- Two values are an interval apart. -/
def Apart (a b : Nat) : Prop := a + boostInterval ≤ b ∨ b + boostInterval ≤ a

/-- The step does not set `mlfq_last_boost` back. -/
def Forward [DecidableEq H] (s : Clock H) (op : Op H) : Prop :=
  ∀ s', step s op = some s' → s.mlfqLastBoost ≤ s'.mlfqLastBoost

/-- The step is no decision on a value that the last boost has overtaken. (Where it is overtaken by
almost all of the range of a `uint`, the difference is small again.) -/
def NotOvertaken (s : Clock H) : Op H → Prop
  | .decide h => ∀ now ∈ s.now h,
    s.mlfqLastBoost ≤ now ∨ 2 ^ 32 - boostInterval < s.mlfqLastBoost - now
  | _ => True

/-- The step is no decision to boost on an old value. -/
def Prompt (s : Clock H) : Op H → Prop
  | .decide h => ∀ now ∈ s.now h, boostInterval ≤ usub now s.mlfqLastBoost → now = s.ticks
  | _ => True

instance (s : Clock H) : ∀ op, Decidable (NotOvertaken s op)
  | .tick => .isTrue trivial
  | .read _ => .isTrue trivial
  | .decide h => inferInstanceAs (Decidable (∀ now ∈ s.now h, _))

/-! ## Steps -/

theorem usub_of_le {a b : Nat} (h : b ≤ a) (ha : a < 2 ^ 32) : usub a b = a - b := by
  unfold usub
  omega

theorem usub_of_lt {a b : Nat} (h : a < b) (hb : b < 2 ^ 32) : usub a b = 2 ^ 32 - (b - a) := by
  unfold usub
  omega

/-- No hart and no boost is ahead of the clock. -/
structure Behind (s : Clock H) : Prop where
  last : s.mlfqLastBoost ≤ s.ticks
  now  : ∀ h n, s.now h = some n → n ≤ s.ticks

theorem Behind.init : Behind (init : Clock H) := ⟨le_rfl, by simp [Boost.init]⟩

variable [DecidableEq H] {s s' : Clock H} {op : Op H}

/-- Everything a step can do. -/
theorem step_cases (h : step s op = some s') :
    (op = .tick ∧ s' = { s with ticks := s.ticks + 1 }) ∨
    (∃ hart, op = .read hart ∧
      s' = { s with now := Function.update s.now hart (some (s.ticks % 2 ^ 32)) }) ∨
    (∃ hart now, op = .decide hart ∧ s.now hart = some now ∧
      boostInterval ≤ usub now s.mlfqLastBoost ∧
      s' = ⟨s.ticks, now, Function.update s.now hart none, ⟨now, s.ticks⟩ :: s.boosts⟩) ∨
    (∃ hart now, op = .decide hart ∧ s.now hart = some now ∧
      usub now s.mlfqLastBoost < boostInterval ∧
      s' = { s with now := Function.update s.now hart none }) := by
  cases op with
  | tick => exact .inl ⟨rfl, (Option.some.inj h).symm⟩
  | read hart =>
    simp only [step, Option.ite_none_right_eq_some, Option.some.injEq] at h
    exact .inr (.inl ⟨hart, rfl, h.2.symm⟩)
  | decide hart =>
    simp only [step] at h
    split at h
    · cases h
    · next now hnow =>
      split at h
      · next hle => exact .inr (.inr (.inl ⟨hart, now, rfl, hnow, hle, (Option.some.inj h).symm⟩))
      · next hlt =>
        exact .inr (.inr (.inr ⟨hart, now, rfl, hnow, by omega, (Option.some.inj h).symm⟩))

theorem now_of_update {now : H → Option Nat} {hart h : H} {n : Nat}
    (hn : Function.update now hart none h = some n) : now h = some n := by
  by_cases hh : h = hart
  · subst hh
    simp at hn
  · simpa [hh] using hn

theorem Behind.step (hs : Behind s) (h : step s op = some s') : Behind s' := by
  rcases step_cases h with ⟨_, rfl⟩ | ⟨hart, _, rfl⟩ | ⟨hart, now, _, hnow, _, rfl⟩ |
    ⟨hart, now, _, hnow, _, rfl⟩
  · exact ⟨Nat.le_succ_of_le hs.last, fun h n hn => Nat.le_succ_of_le (hs.now h n hn)⟩
  · refine ⟨hs.last, fun h n hn => ?_⟩
    by_cases hh : h = hart
    · subst hh
      simp only [Function.update_self, Option.some.injEq] at hn
      exact hn ▸ Nat.mod_le _ _
    · exact hs.now h n (by simpa [hh] using hn)
  · exact ⟨hs.now hart now hnow, fun h n hn => hs.now h n (now_of_update hn)⟩
  · exact ⟨hs.last, fun h n hn => hs.now h n (now_of_update hn)⟩

theorem ticks_le (h : step s op = some s') : s.ticks ≤ s'.ticks := by
  rcases step_cases h with ⟨_, rfl⟩ | ⟨_, _, rfl⟩ | ⟨_, _, _, _, _, rfl⟩ | ⟨_, _, _, _, _, rfl⟩
  · exact Nat.le_succ _
  · exact le_rfl
  · exact le_rfl
  · exact le_rfl

theorem run_ticks_le {ops : List (Op H)} (h : run step s ops = some s') : s.ticks ≤ s'.ticks :=
  run_invariant (I := fun t => s.ticks ≤ t.ticks)
    (fun _ _ _ hle ht => hle.trans (ticks_le ht)) le_rfl h

/-- A step sets `mlfq_last_boost` back exactly if it decides on a value that was overtaken. -/
theorem forward_iff (hs : Behind s) (hticks : s.ticks < 2 ^ 32) (h : step s op = some s') :
    Forward s op ↔ NotOvertaken s op := by
  have hforward : Forward s op ↔ s.mlfqLastBoost ≤ s'.mlfqLastBoost := by
    constructor
    · exact fun hf => hf s' h
    · intro hle t ht
      rw [h, Option.some.injEq] at ht
      exact ht ▸ hle
  rw [hforward]
  rcases step_cases h with ⟨rfl, rfl⟩ | ⟨hart, rfl, rfl⟩ | ⟨hart, now, rfl, hnow, hle, rfl⟩ |
    ⟨hart, now, rfl, hnow, hlt, rfl⟩
  · simp [NotOvertaken]
  · simp [NotOvertaken]
  · -- a boost: the value is behind the last boost only if the difference wrapped around
    have hlast := hs.last
    simp only [NotOvertaken, hnow, Option.mem_some_iff, forall_eq']
    constructor
    · exact fun hle' => .inl hle'
    · rintro (hle' | hfar)
      · exact hle'
      · rw [usub_of_lt (by omega) (by omega)] at hle
        omega
  · have hlast := hs.last
    simp only [NotOvertaken, hnow, Option.mem_some_iff, forall_eq']
    refine iff_of_true le_rfl ?_
    rcases Nat.lt_or_ge now s.mlfqLastBoost with hold | hnew
    · rw [usub_of_lt hold (by omega)] at hlt
      unfold boostInterval at *
      omega
    · exact .inl hnew

theorem allSteps_forward_iff {ops : List (Op H)} (hs : Behind s) (hrun : run step s ops = some s')
    (hticks : s'.ticks < 2 ^ 32) :
    AllSteps step Forward s ops ↔ AllSteps step NotOvertaken s ops := by
  induction ops generalizing s with
  | nil => exact Iff.rfl
  | cons op ops ih =>
    obtain ⟨t, ht, hrest⟩ := run_cons hrun
    have hle : s.ticks ≤ s'.ticks := run_ticks_le hrun
    have hone := forward_iff hs (by omega) ht
    have hmany := ih (hs.step ht) hrest
    simp only [AllSteps, ht, Option.some.injEq, forall_eq', hone, hmany]

/-! ## The boosts -/

/-- Every boost is an interval behind the one before it. -/
structure Ordered (s : Clock H) : Prop where
  last   : ∀ b ∈ s.boosts, b.now ≤ s.mlfqLastBoost
  apart  : s.boosts.Pairwise fun a b => b.now + boostInterval ≤ a.now

theorem Ordered.step (ho : Ordered s) (hs : Behind s) (hticks : s.ticks < 2 ^ 32)
    (h : step s op = some s') (hop : NotOvertaken s op) : Ordered s' := by
  rcases step_cases h with ⟨_, rfl⟩ | ⟨_, _, rfl⟩ | ⟨hart, now, rfl, hnow, hle, rfl⟩ |
    ⟨_, _, _, _, _, rfl⟩
  · exact ⟨ho.last, ho.apart⟩
  · exact ⟨ho.last, ho.apart⟩
  · have hlast := hs.last
    have hnow' := hs.now hart now hnow
    have hgap : s.mlfqLastBoost + boostInterval ≤ now := by
      rcases hop now hnow with hle' | hfar
      · rw [usub_of_le hle' (by omega)] at hle
        omega
      · rw [usub_of_lt (by omega) (by omega)] at hle
        unfold boostInterval at *
        omega
    constructor
    · intro b hb
      rcases List.mem_cons.mp hb with rfl | hb
      · exact le_rfl
      · exact (ho.last b hb).trans (Nat.le_of_add_right_le hgap)
    · refine List.pairwise_cons.mpr ⟨fun b hb => ?_, ho.apart⟩
      have := ho.last b hb
      show b.now + boostInterval ≤ now
      omega
  · exact ⟨ho.last, ho.apart⟩

theorem run_ordered {ops : List (Op H)} (ho : Ordered s) (hs : Behind s)
    (hrun : run step s ops = some s') (hticks : s'.ticks < 2 ^ 32)
    (hall : AllSteps step NotOvertaken s ops) : Ordered s' := by
  induction ops generalizing s with
  | nil =>
    cases hrun
    exact ho
  | cons op ops ih =>
    obtain ⟨t, ht, hrest⟩ := run_cons hrun
    have hle : s.ticks ≤ s'.ticks := run_ticks_le hrun
    exact ih (ho.step hs (by omega) ht hall.1) (hs.step ht) hrest (hall.2 t ht)

/-- A boost that is decided in the tick in which the clock was read. -/
theorem prompt_boosts {ops : List (Op H)} (hall : AllSteps step Prompt s ops)
    (hs : ∀ b ∈ s.boosts, b.now = b.ticks) (hrun : Lib.run step s ops = some s') :
    ∀ b ∈ s'.boosts, b.now = b.ticks := by
  refine run_invariant_of (I := fun s => ∀ b ∈ s.boosts, b.now = b.ticks) ?_ hall hs hrun
  intro s op s' hs hop h
  rcases step_cases h with ⟨_, rfl⟩ | ⟨_, _, rfl⟩ | ⟨hart, now, rfl, hnow, hle, rfl⟩ |
    ⟨_, _, _, _, _, rfl⟩
  · exact hs
  · exact hs
  · intro b hb
    rcases List.mem_cons.mp hb with rfl | hb
    · exact hop now hnow hle
    · exact hs b hb
  · exact hs

omit [DecidableEq H] in
/-- A value that is not behind the clock has not been overtaken, and no boost is decided on
others. -/
theorem Prompt.notOvertaken (hs : Behind s) (hticks : s.ticks < 2 ^ 32) (hop : Prompt s op) :
    NotOvertaken s op := by
  cases op with
  | tick => trivial
  | read _ => trivial
  | decide hart =>
    intro now hnow
    have hlast := hs.last
    rcases Nat.lt_or_ge now s.mlfqLastBoost with hold | hnew
    · by_cases hboost : boostInterval ≤ usub now s.mlfqLastBoost
      · have := hop now hnow hboost
        omega
      · rw [usub_of_lt hold (by omega)] at hboost
        unfold boostInterval at *
        omega
    · exact .inl hnew

theorem allSteps_prompt {ops : List (Op H)} (hs : Behind s) (hrun : run step s ops = some s')
    (hticks : s'.ticks < 2 ^ 32) (hall : AllSteps step Prompt s ops) :
    AllSteps step NotOvertaken s ops := by
  induction ops generalizing s with
  | nil => trivial
  | cons op ops ih =>
    obtain ⟨t, ht, hrest⟩ := run_cons hrun
    have hle : s.ticks ≤ s'.ticks := run_ticks_le hrun
    refine ⟨Prompt.notOvertaken hs (by omega) hall.1, fun u hu => ?_⟩
    rw [ht, Option.some.injEq] at hu
    subst hu
    exact ih (hs.step ht) hrest (hall.2 t ht)

/-- In every run, as long as the clock has not wrapped around: the values of the clock that boosts
were decided on are an interval apart, and `mlfq_last_boost` never decreases, exactly if no hart
decides on a value that the last boost has overtaken. If every boost is decided in the tick in which
the hart has read the clock, the boosts themselves are an interval apart. -/
theorem boosts_apart_iff (ops : List (Op H)) (hrun : run step init ops = some s)
    (hticks : s.ticks < 2 ^ 32) :
    ((s.boosts.Pairwise fun a b => Apart a.now b.now) ∧ AllSteps step Forward init ops ↔
      AllSteps step NotOvertaken init ops) ∧
    (AllSteps step Prompt init ops →
      (s.boosts.Pairwise fun a b => Apart a.ticks b.ticks) ∧ AllSteps step Forward init ops) := by
  have hforward := allSteps_forward_iff Behind.init hrun hticks
  have hordered : AllSteps step NotOvertaken init ops → Ordered s :=
    run_ordered ⟨by simp [init], by simp [init]⟩ Behind.init hrun hticks
  constructor
  · constructor
    · exact fun h => hforward.mp h.2
    · intro h
      exact ⟨(hordered h).apart.imp .inr, hforward.mpr h⟩
  · intro hprompt
    have h := allSteps_prompt Behind.init hrun hticks hprompt
    refine ⟨(hordered h).apart.imp_of_mem ?_, hforward.mpr h⟩
    intro a b ha hb hab
    have hnow := prompt_boosts hprompt (by simp [init]) hrun
    rw [hnow a ha, hnow b hb] at hab
    exact .inr hab

/-- A hart that calls `mlfq_maybe_boost` in tick 48 and again in tick 96. -/
def regularRun : List (Op Unit) :=
  List.replicate 48 .tick ++ [.read (), .decide ()] ++ List.replicate 48 .tick ++
    [.read (), .decide ()]

theorem boosts_apart_regularRun :
    (run step init regularRun).map Clock.boosts = some [⟨96, 96⟩, ⟨48, 48⟩] ∧ Apart 96 48 := by
  obtain ⟨s, hrun⟩ := Option.isSome_iff_exists.mp (by decide : (run step init regularRun).isSome)
  have hboosts : (run step init regularRun).map Clock.boosts = some [⟨96, 96⟩, ⟨48, 48⟩] := by
    decide
  have hticks : (run step init regularRun).map Clock.ticks = some 96 := by decide
  simp only [hrun, Option.map_some, Option.some.injEq] at hboosts hticks
  have h := ((boosts_apart_iff regularRun hrun (by omega)).1.mpr (by decide +kernel)).1
  rw [hboosts] at h
  exact ⟨by rw [hrun, Option.map_some, hboosts], (List.pairwise_cons.mp h).1 _ List.mem_cons_self⟩

/-- Two harts read the clock in tick 48 and in tick 49, and the first one decides last. -/
def lateRun : List (Op Bool) :=
  List.replicate 48 .tick ++ [.read false, .tick, .read true, .decide true, .decide false]

/-- Both boost in tick 49, and `mlfq_last_boost` goes back from 49 to 48. -/
theorem boosts_lateRun :
    (run step init lateRun).map Clock.boosts = some [⟨48, 49⟩, ⟨49, 49⟩] ∧
      (run step init lateRun.dropLast).map Clock.mlfqLastBoost = some 49 ∧
      (run step init lateRun).map Clock.mlfqLastBoost = some 48 := by
  decide

end UnixCShell.Xv6.Boost
