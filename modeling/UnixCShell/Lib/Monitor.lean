import UnixCShell.Lib.Locks
import UnixCShell.Lib.Runs
import UnixCShell.Lib.Sleepers

/-!
# Monitors

A lock, the state it protects, and threads that wait on channels until the state is as they need it.
A thread that has to wait registers for a channel while it still holds the lock, releases the lock,
and goes to sleep afterwards; a wakeup that comes in between takes the registration away, and then
there is no sleep. A wakeup is not one step: it visits one thread after the other, while the others
go on. And a thread may be killed at any time, which ends its sleep, but not its registration.

What the threads do is a `Program`. The main rule is `Waits.step`: if a program lets nobody wait
without a reason, and whoever takes away a reason wakes the channel before he releases the lock,
then no wakeup is ever lost. In every state of every run a thread that is registered still has its
reason to wait, or the holder of the lock is about to wake it.
-/

namespace Lib

variable {T C S K A : Type*}

/-! ## Programs -/

/-- What a thread that holds the lock does next. -/
inductive Instr (S K C : Type*) where
  /-- Change the state. -/
  | update (s : S) (k : K)
  /-- Ask whether the thread has been killed. -/
  | ifKilled (yes no : K)
  | wakeup (c : C) (k : K)
  /-- Register for a channel, release the lock, sleep, and acquire the lock again. -/
  | wait (c : C) (k : K)
  | release (k : K)

/-- What a thread that does not hold the lock does next: acquire it, or change the state without
it. -/
inductive Outer (S K : Type*) where
  | enter (k : K)
  | update (s : S) (k : K)

/-- What the threads do. `k : K` is where a thread is, with its local variables; `a : A` is a choice
that the program leaves open. -/
structure Program (T S K C A : Type*) where
  inside  : T → K → S → Instr S K C
  outside : T → K → S → A → Option (Outer S K)

/-- Where a thread is. -/
inductive Place (T C K : Type*) where
  | outside (k : K)
  /-- Before the acquisition of the lock. -/
  | entering (k : K)
  /-- With the lock. -/
  | inside (k : K)
  /-- In a wakeup, which has still to visit `rest`. -/
  | waking (c : C) (rest : List T) (k : K)
  /-- Registered, before the release of the lock. -/
  | prepared (k : K)
  /-- Behind the release of the lock, before the sleep. -/
  | dozing (k : K)
  | sleeping (k : K)
  deriving DecidableEq

namespace Place

/-- Where the program goes on. -/
def k : Place T C K → K
  | .outside k | .entering k | .inside k | .waking _ _ k | .prepared k | .dozing k
  | .sleeping k => k

/-- The lock, if the thread holds it. -/
def holds : Place T C K → Option Unit
  | .inside _ | .waking .. | .prepared _ => some ()
  | .outside _ | .entering _ | .dozing _ | .sleeping _ => none

/-- Is the thread between its registration and the end of its sleep? -/
def waits : Place T C K → Bool
  | .prepared _ | .dozing _ | .sleeping _ => true
  | .outside _ | .entering _ | .inside _ | .waking .. => false

/-- The wakeups that a thread at this place still owes to the thread `t`, where `owes` says which
ones it owes by the program. -/
def owes (owes : K → C → Prop) : Place T C K → C → T → Prop
  | .inside k, c, _ => owes k c
  | .waking c' rest k, c, t => c' = c ∧ t ∈ rest ∨ owes k c
  | _, _, _ => False

/-- What is known at a place, where `At` is asserted of whoever holds the lock: a thread that is
about to acquire it knows nothing about the state. -/
def Knows (At : K → S → Bool → Prop) (s : S) (b : Bool) : Place T C K → Prop
  | .outside _ => True
  | .inside k | .waking _ _ k => At k s b
  | .entering k | .prepared k | .dozing k | .sleeping k => ∀ s b, At k s b

/-- Who does not hold the lock knows nothing about the state. -/
theorem Knows.of_holds {At : K → S → Bool → Prop} {s s' : S} {b b' : Bool} {p : Place T C K}
    (h : p.Knows At s b) (hp : p.holds = none) : p.Knows At s' b' := by
  cases p with
  | inside | waking => cases hp
  | outside | entering | prepared | dozing | sleeping => exact h

/-- A place in the program that is not one of those `inner`, except for a thread that holds the lock
and goes on with it. -/
def KeepsOut (inner : K → Prop) : Place T C K → Prop
  | .inside _ | .waking .. => True
  | .outside k | .entering k | .prepared k | .dozing k | .sleeping k => ¬ inner k

end Place

structure Monitor (T S K C : Type*) where
  shared   : S
  locks    : Locks T Unit (Place T C K)
  sleepers : Sleepers T C

namespace Monitor

/-- The steps: a thread does what comes next in its program, it makes a choice outside of the
monitor, or it is killed. -/
inductive Act (T A : Type*) where
  | next (t : T)
  | outside (t : T) (a : A)
  | kill (t : T)
  deriving DecidableEq

/-- All threads are outside, at the beginning of their programs. -/
def init (s : S) (k : T → K) : Monitor T S K C where
  shared := s
  locks := ⟨fun t => .outside (k t), fun _ => none⟩
  sleepers := .init

/-- Where the threads are in their programs. -/
def ks (m : Monitor T S K C) (t : T) : K := (m.locks.pc t).k

/-- The choice that a step makes is one with `P`. -/
def Chooses (P : T → K → A → Prop) (m : Monitor T S K C) : Act T A → Prop
  | .outside t a => P t (m.ks t) a
  | _ => True

instance (P : T → K → A → Prop) [∀ t k a, Decidable (P t k a)] (m : Monitor T S K C) :
    ∀ a, Decidable (m.Chooses P a)
  | .outside t a => inferInstanceAs (Decidable (P t (m.ks t) a))
  | .next _ | .kill _ => .isTrue trivial

/-! ## Who holds the lock, and who waits -/

variable {m m' : Monitor T S K C} {reason : C → T → K → S → Prop} {owes : K → C → Prop}

/-- Whoever is inside holds the lock. -/
def Held (m : Monitor T S K C) : Prop := m.locks.Held Place.holds

theorem held_init (s : S) (k : T → K) : (init s k : Monitor T S K C).Held := by
  intro t l
  simp [init, Place.holds]

/-- The holder of the lock is the only one inside. -/
theorem Held.eq_of_holds (h : m.Held) {t u : T} (ht : (m.locks.pc t).holds = some ())
    (hu : m.locks.lock () = some u) : t = u := by
  have hlock := (h t ()).mpr ht
  rw [hu] at hlock
  exact (Option.some.inj hlock).symm

/-- The holder of the lock is about to wake the thread `t`, if it is registered for the channel
`c`. -/
def Owed (owes : K → C → Prop) (m : Monitor T S K C) (c : C) (t : T) : Prop :=
  ∃ u, m.locks.lock () = some u ∧ (m.locks.pc u).owes owes c t

/-- The thread `u` is registered for the channel `c`. -/
def Registered (m : Monitor T S K C) (u : T) (c : C) : Prop :=
  (m.locks.pc u).waits = true ∧ m.sleepers.chan u = some c

/-- Everyone who is registered has his reason to wait, or is about to be woken. -/
def Waits (reason : C → T → K → S → Prop) (owes : K → C → Prop) (m : Monitor T S K C) : Prop :=
  ∀ t c, m.Registered t c → reason c t (m.ks t) m.shared ∨ m.Owed owes c t

theorem not_registered_init {s : S} {k : T → K} {t : T} {c : C} :
    ¬ (init s k : Monitor T S K C).Registered t c := by
  rintro ⟨hw, -⟩
  cases hw

theorem waits_init (s : S) (k : T → K) : Waits reason owes (init s k : Monitor T S K C) :=
  fun _ _ h => absurd h not_registered_init

/-- Nobody is owed a wakeup while the lock is free. -/
theorem not_owed (hfree : m.locks.lock () = none) (c : C) (t : T) : ¬ m.Owed owes c t := by
  rintro ⟨u, hu, -⟩
  rw [hfree] at hu
  cases hu

/-- With a free lock everyone who is registered has his reason to wait. -/
theorem Waits.has_reason (h : Waits reason owes m) (hfree : m.locks.lock () = none) {t : T} {c : C}
    (ht : m.Registered t c) : reason c t (m.ks t) m.shared :=
  (h t c ht).resolve_right (not_owed hfree c t)

/-- What is owed is owed by the thread `t`, if it is the one that holds the lock. -/
theorem Held.owed_iff (h : m.Held) {t : T} (ht : (m.locks.pc t).holds = some ()) {c : C} {u : T} :
    m.Owed owes c u ↔ (m.locks.pc t).owes owes c u := by
  constructor
  · rintro ⟨v, hv, ho⟩
    rw [h.eq_of_holds ht hv]
    exact ho
  · exact fun ho => ⟨t, (h t ()).mpr ht, ho⟩

variable [DecidableEq T]

/-- A thread moves. -/
theorem ks_move (m : Monitor T S K C) (t : T) (p : Place T C K) (s : S) (lock : Unit → Option T)
    (sl : Sleepers T C) :
    ks ⟨s, ⟨Function.update m.locks.pc t p, lock⟩, sl⟩ = Function.update m.ks t p.k := by
  funext u
  by_cases hu : u = t
  · simp [ks, hu]
  · simp [ks, hu]

theorem ks_move_of {I : S → (T → K) → Prop} {t : T} {s : S} (p : Place T C K)
    {lock : Unit → Option T} {sl : Sleepers T C} (h : I s (Function.update m.ks t p.k)) :
    I s (ks ⟨s, ⟨Function.update m.locks.pc t p, lock⟩, sl⟩) := by
  rw [ks_move]
  exact h

/-- A thread that does not hold the lock moves: what the holder owes stays the same. -/
theorem Held.owed_of_goto (h : m.Held) {t : T} (ht : (m.locks.pc t).holds = none) {c : C} {u : T}
    (ho : m.Owed owes c u) (p : Place T C K) (s : S) (sl : Sleepers T C) :
    Owed owes ⟨s, m.locks.goto t p, sl⟩ c u := by
  obtain ⟨v, hv, ho⟩ := ho
  have hne : v ≠ t := by
    rintro rfl
    rw [(h v ()).mp hv] at ht
    cases ht
  refine ⟨v, hv, ?_⟩
  rwa [Locks.pc_goto, Function.update_of_ne hne]

/-- The thread `t` has moved: it has a reason if it waits, and the others are treated well. -/
theorem Waits.of_move {t : T} (p : Place T C K) {s : S} {sl : Sleepers T C} {lock : Unit → Option T}
    (hself : p.waits = true → ∀ c, sl.chan t = some c →
      reason c t p.k s ∨ Owed owes ⟨s, ⟨Function.update m.locks.pc t p, lock⟩, sl⟩ c t)
    (hothers : ∀ u c, u ≠ t → (m.locks.pc u).waits = true → sl.chan u = some c →
      reason c u (m.ks u) s ∨ Owed owes ⟨s, ⟨Function.update m.locks.pc t p, lock⟩, sl⟩ c u) :
    Waits reason owes ⟨s, ⟨Function.update m.locks.pc t p, lock⟩, sl⟩ := by
  rintro u c ⟨hw, hc⟩
  rw [ks_move]
  change (Function.update m.locks.pc t p u).waits = true at hw
  by_cases hu : u = t
  · subst hu
    rw [Function.update_self] at hw ⊢
    exact hself hw c hc
  · rw [Function.update_of_ne hu] at hw ⊢
    exact hothers u c hu hw hc

/-- The same for a place where it does not wait. -/
theorem Waits.of_others {t : T} (p : Place T C K) {s : S} {sl : Sleepers T C}
    {lock : Unit → Option T} (hp : p.waits = false)
    (hothers : ∀ u c, u ≠ t → (m.locks.pc u).waits = true → sl.chan u = some c →
      reason c u (m.ks u) s ∨ Owed owes ⟨s, ⟨Function.update m.locks.pc t p, lock⟩, sl⟩ c u) :
    Waits reason owes ⟨s, ⟨Function.update m.locks.pc t p, lock⟩, sl⟩ := by
  refine .of_move p (fun hw => ?_) hothers
  rw [hp] at hw
  cases hw

/-! ## Steps -/

variable [DecidableEq C]

/-- Move a thread that keeps what it holds. -/
def goto (m : Monitor T S K C) (t : T) (p : Place T C K) : Monitor T S K C :=
  { m with locks := m.locks.goto t p }

omit [DecidableEq C] in
@[simp] theorem ks_goto_self (m : Monitor T S K C) (t : T) (p : Place T C K) :
    (m.goto t p).ks t = p.k := by
  simp [ks, goto, Locks.goto]

/-- The next step of a thread that holds the lock. -/
def instr (all : List T) (m : Monitor T S K C) (t : T) : Instr S K C → Monitor T S K C
  | .update s k => { m.goto t (.inside k) with shared := s }
  | .ifKilled yes no => m.goto t (.inside (if m.sleepers.killed t then yes else no))
  | .wakeup c k => m.goto t (.waking c all k)
  | .wait c k => { m.goto t (.prepared k) with sleepers := m.sleepers.prepare t c }
  | .release k => { m with locks := m.locks.release t () (.outside k) }

/-- The next step of a thread; `none` where it has to wait. -/
def next (prog : Program T S K C A) (all : List T) (m : Monitor T S K C) (t : T) :
    Option (Monitor T S K C) :=
  match m.locks.pc t with
  | .outside _ => none
  | .entering k =>
    if m.locks.lock () = none then some
      { m with locks := m.locks.acquire t () (.inside k) } else none
  | .inside k => some (m.instr all t (prog.inside t k m.shared))
  | .waking _ [] k => some (m.goto t (.inside k))
  | .waking c (u :: rest) k =>
    some { m.goto t (.waking c rest k) with sleepers := m.sleepers.wake c u }
  | .prepared k => some { m with locks := m.locks.release t () (.dozing k) }
  | .dozing k => some { m.goto t (.sleeping k) with sleepers := m.sleepers.sleep t }
  | .sleeping k => if m.sleepers.asleep t then none else some (m.goto t (.entering k))

/-- What a step does. `all` are the threads in the order in which a wakeup visits them. -/
def step (prog : Program T S K C A) (all : List T) (m : Monitor T S K C) :
    Act T A → Option (Monitor T S K C)
  | .next t => m.next prog all t
  | .outside t a =>
    match m.locks.pc t with
    | .outside k =>
      (prog.outside t k m.shared a).map fun
        | .enter k => m.goto t (.entering k)
        | .update s k => { m.goto t (.outside k) with shared := s }
    | _ => none
  | .kill t => some { m with sleepers := m.sleepers.kill t }

/-- `step` as a relation, with one rule for each way through a step. -/
inductive Step (prog : Program T S K C A) (all : List T) (m : Monitor T S K C) :
    Act T A → Monitor T S K C → Prop where
  | kill (t : T) : Step prog all m (.kill t) { m with sleepers := m.sleepers.kill t }
  | enter (t : T) (k k' : K) (a : A) : m.locks.pc t = .outside k →
      prog.outside t k m.shared a = some (.enter k') →
        Step prog all m (.outside t a) (m.goto t (.entering k'))
  | change (t : T) (k : K) (s : S) (k' : K) (a : A) : m.locks.pc t = .outside k →
      prog.outside t k m.shared a = some (.update s k') →
      Step prog all m (.outside t a) { m.goto t (.outside k') with shared := s }
  | acquire (t : T) (k : K) : m.locks.pc t = .entering k → m.locks.lock () = none →
      Step prog all m (.next t) { m with locks := m.locks.acquire t () (.inside k) }
  | instr (t : T) (k : K) : m.locks.pc t = .inside k →
      Step prog all m (.next t) (m.instr all t (prog.inside t k m.shared))
  | woken (t : T) (c : C) (k : K) : m.locks.pc t = .waking c [] k →
      Step prog all m (.next t) (m.goto t (.inside k))
  | wake (t : T) (c : C) (u : T) (rest : List T) (k : K) : m.locks.pc t = .waking c (u :: rest) k →
      Step prog all m (.next t) { m.goto t (.waking c rest k) with sleepers := m.sleepers.wake c u }
  | doze (t : T) (k : K) : m.locks.pc t = .prepared k →
      Step prog all m (.next t) { m with locks := m.locks.release t () (.dozing k) }
  | sleep (t : T) (k : K) : m.locks.pc t = .dozing k →
      Step prog all m (.next t) { m.goto t (.sleeping k) with sleepers := m.sleepers.sleep t }
  | rise (t : T) (k : K) : m.locks.pc t = .sleeping k → m.sleepers.asleep t = false →
      Step prog all m (.next t) (m.goto t (.entering k))

variable {prog : Program T S K C A} {all : List T}

theorem Step.of_next {t : T} (h : m.next prog all t = some m') : Step prog all m (.next t) m' := by
  unfold next at h
  split at h
  · cases h
  · next k hpc =>
    obtain ⟨hfree, rfl⟩ : m.locks.lock () = none ∧ _ = m' := by simpa using h
    exact .acquire t k hpc hfree
  · next k hpc =>
    cases h
    exact .instr t k hpc
  · next c k hpc =>
    cases h
    exact .woken t c k hpc
  · next c u rest k hpc =>
    cases h
    exact .wake t c u rest k hpc
  · next k hpc =>
    cases h
    exact .doze t k hpc
  · next k hpc =>
    cases h
    exact .sleep t k hpc
  · next k hpc =>
    obtain ⟨hawake, rfl⟩ : m.sleepers.asleep t = false ∧ _ = m' := by simpa using h
    exact .rise t k hpc hawake

theorem Step.of_step {a : Act T A} (h : m.step prog all a = some m') : Step prog all m a m' := by
  cases a with
  | next t => exact .of_next h
  | outside t a =>
    simp only [step] at h
    split at h
    · next k hpc =>
      obtain ⟨o, ho, rfl⟩ := Option.map_eq_some_iff.mp h
      cases o with
      | enter k' => exact .enter t k k' a hpc ho
      | update s k' => exact .change t k s k' a hpc ho
    · cases h
  | kill t =>
    cases h
    exact .kill t

theorem Held.step (h : m.Held) {a : Act T A} (hstep : Step prog all m a m') : m'.Held := by
  have keep {t : T} {p p' : Place T C K} (hp : m.locks.pc t = p) (heq : p'.holds = p.holds) :
      (m.locks.goto t p').Held Place.holds := Locks.Held.goto h (by rw [hp, heq])
  have leave {t : T} {p p' : Place T C K} (hp : m.locks.pc t = p) (hold : p.holds = some ())
      (hnew : p'.holds = none) : (m.locks.release t () p').Held Place.holds :=
    Locks.Held.release h (by rw [hp, hold]) hnew
  cases hstep with
  | kill t => exact h
  | enter t k k' a hpc _ => exact keep hpc rfl
  | change t k s k' a hpc _ => exact keep hpc rfl
  | acquire t k hpc hfree => exact Locks.Held.acquire h hfree (by rw [hpc]; rfl) rfl
  | instr t k hpc =>
    cases hi : prog.inside t k m.shared with
    | release k' => exact leave hpc rfl rfl
    | update | ifKilled | wakeup | wait => exact keep hpc rfl
  | woken t c k hpc => exact keep hpc rfl
  | wake t c u rest k hpc => exact keep hpc rfl
  | doze t k hpc => exact leave hpc rfl rfl
  | sleep t k hpc => exact keep hpc rfl
  | rise t k hpc _ => exact keep hpc rfl

/-! ## The state and the places in the programs -/

/-- What the instructions do to the state and to the places of the threads in their programs,
without the lock and the channels. An invariant of these is proved for the instructions only; `P`
says which choices the threads make. -/
structure Keeps (prog : Program T S K C A) (P : T → K → A → Prop) (I : S → (T → K) → Prop) :
    Prop where
  update : ∀ {t s ks s' k'}, I s ks → prog.inside t (ks t) s = .update s' k' →
    I s' (Function.update ks t k')
  ifKilled : ∀ {t s ks yes no}, I s ks → prog.inside t (ks t) s = .ifKilled yes no →
    I s (Function.update ks t yes) ∧ I s (Function.update ks t no)
  wakeup : ∀ {t s ks c k'}, I s ks → prog.inside t (ks t) s = .wakeup c k' →
    I s (Function.update ks t k')
  wait : ∀ {t s ks c k'}, I s ks → prog.inside t (ks t) s = .wait c k' →
    I s (Function.update ks t k')
  release : ∀ {t s ks k'}, I s ks → prog.inside t (ks t) s = .release k' →
    I s (Function.update ks t k')
  enter : ∀ {t s ks a k'}, I s ks → P t (ks t) a → prog.outside t (ks t) s a = some (.enter k') →
    I s (Function.update ks t k')
  change : ∀ {t s ks a s' k'}, I s ks → P t (ks t) a →
    prog.outside t (ks t) s a = some (.update s' k') →
    I s' (Function.update ks t k')

omit [DecidableEq C] in
theorem Keeps.instr {P : T → K → A → Prop} {I : S → (T → K) → Prop} (hI : Keeps prog P I)
    (h : I m.shared m.ks) {t : T} {k : K} (hpc : m.locks.pc t = .inside k) :
    I (m.instr all t (prog.inside t k m.shared)).shared
      (m.instr all t (prog.inside t k m.shared)).ks := by
  obtain rfl : m.ks t = k := by rw [ks, hpc]; rfl
  cases hi : prog.inside t (m.ks t) m.shared with
  | update s k' => exact ks_move_of (.inside k') (hI.update h hi)
  | ifKilled yes no =>
    have hboth := hI.ifKilled h hi
    refine ks_move_of (.inside _) ?_
    show I m.shared (Function.update m.ks t (if m.sleepers.killed t then yes else no))
    split
    · exact hboth.1
    · exact hboth.2
  | wakeup c k' => exact ks_move_of (.waking c all k') (hI.wakeup h hi)
  | wait c k' => exact ks_move_of (.prepared k') (hI.wait h hi)
  | release k' => exact ks_move_of (.outside k') (hI.release h hi)

theorem Keeps.step {P : T → K → A → Prop} {I : S → (T → K) → Prop} (hI : Keeps prog P I)
    (h : I m.shared m.ks) {a : Act T A} (ha : m.Chooses P a) (hstep : Step prog all m a m') :
    I m'.shared m'.ks := by
  -- a thread that goes on at the same place in its program
  have stay {t : T} {p : Place T C K} (p' : Place T C K) {lock : Unit → Option T}
    {sl : Sleepers T C}
      (hp : m.locks.pc t = p) (heq : p'.k = p.k) :
      I m.shared (ks ⟨m.shared, ⟨Function.update m.locks.pc t p', lock⟩, sl⟩) := by
    apply ks_move_of
    have hk : p'.k = m.ks t := by rw [heq, ← hp]; rfl
    rwa [hk, Function.update_eq_self]
  cases hstep with
  | kill t => exact h
  | enter t k k' a hpc ho =>
    obtain rfl : m.ks t = k := by rw [ks, hpc]; rfl
    exact ks_move_of (.entering k') (hI.enter h ha ho)
  | change t k s k' a hpc ho =>
    obtain rfl : m.ks t = k := by rw [ks, hpc]; rfl
    exact ks_move_of (.outside k') (hI.change h ha ho)
  | acquire t k hpc hfree => exact stay (.inside k) hpc rfl
  | instr t k hpc => exact hI.instr h hpc
  | woken t c k hpc => exact stay (.inside k) hpc rfl
  | wake t c u rest k hpc => exact stay (.waking c rest k) hpc rfl
  | doze t k hpc => exact stay (.dozing k) hpc rfl
  | sleep t k hpc => exact stay (.sleeping k) hpc rfl
  | rise t k hpc _ => exact stay (.entering k) hpc rfl

/-- A property of the state and of one thread, which the thread keeps as long as it makes no choice,
and the others do not disturb. -/
structure Follows (prog : Program T S K C A) (t : T) (I : S → K → Prop) : Prop where
  update : ∀ {s k s' k'}, I s k → prog.inside t k s = .update s' k' → I s' k'
  ifKilled : ∀ {s k yes no}, I s k → prog.inside t k s = .ifKilled yes no → I s yes ∧ I s no
  wakeup : ∀ {s k c k'}, I s k → prog.inside t k s = .wakeup c k' → I s k'
  wait : ∀ {s k c k'}, I s k → prog.inside t k s = .wait c k' → I s k'
  release : ∀ {s k k'}, I s k → prog.inside t k s = .release k' → I s k'
  others : ∀ {u s k ku s' ku'}, u ≠ t → I s k → prog.inside u ku s = .update s' ku' → I s' k
  change : ∀ {u s k ku a s' ku'}, u ≠ t → I s k →
    prog.outside u ku s a = some (.update s' ku') → I s' k

omit [DecidableEq C] in
theorem Follows.keeps {t : T} {I : S → K → Prop} (hI : Follows prog t I) :
    Keeps prog (fun u _ _ => u ≠ t) fun s ks => I s (ks t) := by
  -- the thread that moves is `t`, or it leaves `t` where it is
  have moved {u : T} {s : S} {ks : T → K} {k : K} (hself : u = t → I s k)
    (hother : u ≠ t → I s (ks t)) :
    I s (Function.update ks u k t) := by
    by_cases hu : u = t
    · subst hu
      rw [Function.update_self]
      exact hself rfl
    · rw [Function.update_of_ne (Ne.symm hu)]
      exact hother hu
  constructor
  case update =>
    intro u s ks s' k' h hi
    refine moved (fun hu => ?_) fun hu => hI.others hu h hi
    subst hu
    exact hI.update h hi
  case ifKilled =>
    intro u s ks yes no h hi
    refine ⟨moved (fun hu => ?_) fun _ => h, moved (fun hu => ?_) fun _ => h⟩
    · subst hu
      exact (hI.ifKilled h hi).1
    · subst hu
      exact (hI.ifKilled h hi).2
  case wakeup =>
    intro u s ks c k' h hi
    refine moved (fun hu => ?_) fun _ => h
    subst hu
    exact hI.wakeup h hi
  case wait =>
    intro u s ks c k' h hi
    refine moved (fun hu => ?_) fun _ => h
    subst hu
    exact hI.wait h hi
  case release =>
    intro u s ks k' h hi
    refine moved (fun hu => ?_) fun _ => h
    subst hu
    exact hI.release h hi
  case enter =>
    intro u s ks a k' h hu _
    exact moved (fun heq => absurd heq hu) fun _ => h
  case change =>
    intro u s ks a s' k' h hu hi
    exact moved (fun heq => absurd heq hu) fun _ => hI.change hu h hi

/-! ## Assertions -/

/-- The assertions of a program: `At t k s b` is to hold whenever the thread `t` is at `k` with the
lock, the state is `s`, and `b` says whether the thread has been killed. -/
structure Annotates (prog : Program T S K C A) (At : T → K → S → Bool → Prop) : Prop where
  enter : ∀ {t k s a k'}, prog.outside t k s a = some (.enter k') → ∀ s b, At t k' s b
  wait : ∀ {t k s b c k'}, At t k s b → prog.inside t k s = .wait c k' → ∀ s b, At t k' s b
  update : ∀ {t k s b s' k'}, At t k s b → prog.inside t k s = .update s' k' → At t k' s' b
  ifKilled : ∀ {t k s b yes no}, At t k s b → prog.inside t k s = .ifKilled yes no →
    At t (if b then yes else no) s b
  wakeup : ∀ {t k s b c k'}, At t k s b → prog.inside t k s = .wakeup c k' → At t k' s b
  change : ∀ {t k u ku s b a s' k'}, u ≠ t → prog.outside u ku s a = some (.update s' k') →
    At t k s b → At t k s' b

/-- The assertions hold. -/
def Annot (At : T → K → S → Bool → Prop) (m : Monitor T S K C) : Prop :=
  ∀ t, (m.locks.pc t).Knows (At t) m.shared (m.sleepers.killed t)

variable {At : T → K → S → Bool → Prop}

omit [DecidableEq T] [DecidableEq C] in
theorem annot_init (s : S) (k : T → K) : Annot At (init s k : Monitor T S K C) := fun _ => trivial

omit [DecidableEq C] in
/-- The thread `t` has moved, and nothing has changed that others know. -/
theorem annot_move {t : T} {p : Place T C K} {s : S} {lock : Unit → Option T} {sl : Sleepers T C}
    (hkilled : sl.killed = m.sleepers.killed) (hp : p.Knows (At t) s (m.sleepers.killed t))
    (hs : ∀ u, u ≠ t → (m.locks.pc u).Knows (At u) s (m.sleepers.killed u)) :
    Annot At ⟨s, ⟨Function.update m.locks.pc t p, lock⟩, sl⟩ := by
  intro u
  show (Function.update m.locks.pc t p u).Knows (At u) s (sl.killed u)
  rw [hkilled]
  by_cases hu : u = t
  · subst hu
    rwa [Function.update_self]
  · rw [Function.update_of_ne hu]
    exact hs u hu

omit [DecidableEq T] [DecidableEq C] in
/-- While a thread holds the lock, the others know nothing about the state. -/
theorem Annot.others (h : Annot At m) (hheld : m.Held) {t : T}
    (ht : (m.locks.pc t).holds = some ()) (s : S) {u : T} (hu : u ≠ t) :
    (m.locks.pc u).Knows (At u) s (m.sleepers.killed u) := by
  refine (h u).of_holds ?_
  by_contra hne
  obtain ⟨⟨⟩, hsome⟩ := Option.ne_none_iff_exists'.mp hne
  exact hu (hheld.eq_of_holds hsome ((hheld t ()).mpr ht))

omit [DecidableEq T] [DecidableEq C] in
/-- Whoever holds the lock knows his assertion. -/
theorem Annot.at_holder (h : Annot At m) {t : T} (ht : (m.locks.pc t).holds = some ()) :
    At t (m.ks t) m.shared (m.sleepers.killed t) := by
  have := h t
  unfold ks
  cases hpc : m.locks.pc t with
  | inside k | waking c rest k =>
    rw [hpc] at this
    exact this
  | prepared k =>
    rw [hpc] at this
    exact this _ _
  | outside | entering | dozing | sleeping =>
    rw [hpc] at ht
    cases ht

theorem Annot.step (hat : Annotates prog At) (hheld : m.Held) (h : Annot At m) {a : Act T A}
    (hkill : ∀ t, a = .kill t → (m.locks.pc t).holds = some () → At t (m.ks t) m.shared true)
    (hstep : Step prog all m a m') : Annot At m' := by
  have knows {t : T} {p : Place T C K} (hp : m.locks.pc t = p) :
    p.Knows (At t) m.shared (m.sleepers.killed t) :=
    hp ▸ h t
  have others {t : T} {p : Place T C K} (hp : m.locks.pc t = p) (hholds : p.holds = some ()) (s : S)
      {u : T} (hu : u ≠ t) : (m.locks.pc u).Knows (At u) s (m.sleepers.killed u) :=
    h.others hheld (by rw [hp, hholds]) s hu
  cases hstep with
  | kill t =>
    intro u
    show (m.locks.pc u).Knows (At u) m.shared (Function.update m.sleepers.killed t true u)
    by_cases hu : u = t
    · subst hu
      have hk := hkill u rfl
      rw [Function.update_self]
      cases hpc : m.locks.pc u with
      | inside k | waking c rest k =>
        rw [ks, hpc] at hk
        exact hk rfl
      | outside | entering | prepared | dozing | sleeping => exact (knows hpc :)
    · rw [Function.update_of_ne hu]
      exact h u
  | enter t k k' a hpc ho => exact annot_move rfl (hat.enter ho) fun u _ => h u
  | change t k s k' a hpc ho =>
    refine annot_move rfl trivial fun u hu => ?_
    cases hpcu : m.locks.pc u with
    | inside ku | waking c rest ku => exact hat.change hu.symm ho (knows hpcu)
    | outside | entering | prepared | dozing | sleeping => exact (knows hpcu :)
  | acquire t k hpc _ => exact annot_move rfl (knows hpc _ _) fun u _ => h u
  | instr t k hpc =>
    have hk : At t k m.shared (m.sleepers.killed t) := knows hpc
    cases hi : prog.inside t k m.shared with
    | update s k' => exact annot_move rfl (hat.update hk hi) fun u hu => others hpc rfl s hu
    | ifKilled yes no => exact annot_move rfl (hat.ifKilled hk hi) fun u _ => h u
    | wakeup c k' => exact annot_move rfl (hat.wakeup hk hi) fun u _ => h u
    | wait c k' => exact annot_move rfl (hat.wait hk hi) fun u _ => h u
    | release k' => exact annot_move rfl trivial fun u _ => h u
  | woken t c k hpc => exact annot_move rfl (knows hpc :) fun u _ => h u
  | wake t c u rest k hpc =>
    exact annot_move (Sleepers.killed_wake _ _ _) (knows hpc :) fun u _ => h u
  | doze t k hpc => exact annot_move rfl (knows hpc :) fun u _ => h u
  | sleep t k hpc => exact annot_move (Sleepers.killed_sleep _ _) (knows hpc :) fun u _ => h u
  | rise t k hpc _ => exact annot_move rfl (knows hpc :) fun u _ => h u

/-! ## Places inside -/

/-- The places `inner` of a program are inside: nobody comes to them without the lock, or waits or
leaves there. -/
structure Encloses (prog : Program T S K C A) (inner : K → Prop) : Prop where
  enter : ∀ {t k s a k'}, prog.outside t k s a = some (.enter k') → ¬ inner k'
  change : ∀ {t k s a s' k'}, prog.outside t k s a = some (.update s' k') → ¬ inner k'
  wait : ∀ {t k s c k'}, prog.inside t k s = .wait c k' → ¬ inner k'
  release : ∀ {t k s k'}, prog.inside t k s = .release k' → ¬ inner k'

/-- Only threads with the lock are at the places `inner`. -/
def Within (inner : K → Prop) (m : Monitor T S K C) : Prop := ∀ t, (m.locks.pc t).KeepsOut inner

variable {inner : K → Prop}

omit [DecidableEq C] in
theorem Within.move (h : Within inner m) {t : T} {p : Place T C K} (hp : p.KeepsOut inner) {s : S}
    {lock : Unit → Option T} {sl : Sleepers T C} :
    Within inner ⟨s, ⟨Function.update m.locks.pc t p, lock⟩, sl⟩ :=
  (Function.forall_update_iff m.locks.pc fun _ p => p.KeepsOut inner).mpr ⟨hp, fun u _ => h u⟩

theorem Within.step (hinner : Encloses prog inner) (h : Within inner m) {a : Act T A}
    (hstep : Step prog all m a m') : Within inner m' := by
  have at_place {t : T} {p : Place T C K} (hp : m.locks.pc t = p) : p.KeepsOut inner := hp ▸ h t
  cases hstep with
  | kill t => exact h
  | enter t k k' a hpc ho => exact h.move (p := .entering k') (hinner.enter ho)
  | change t k s k' a hpc ho => exact h.move (p := .outside k') (hinner.change ho)
  | acquire t k hpc _ => exact h.move (p := .inside k) trivial
  | instr t k hpc =>
    cases hi : prog.inside t k m.shared with
    | update s k' => exact h.move (p := .inside k') trivial
    | ifKilled yes no => exact h.move (p := .inside _) trivial
    | wakeup c k' => exact h.move (p := .waking c all k') trivial
    | wait c k' => exact h.move (p := .prepared k') (hinner.wait hi)
    | release k' => exact h.move (p := .outside k') (hinner.release hi)
  | woken t c k hpc => exact h.move (p := .inside k) trivial
  | wake t c u rest k hpc => exact h.move (p := .waking c rest k) trivial
  | doze t k hpc => exact h.move (p := .dozing k) (at_place hpc :)
  | sleep t k hpc => exact h.move (p := .sleeping k) (at_place hpc :)
  | rise t k hpc _ => exact h.move (p := .entering k) (at_place hpc :)

/-! ## Who is asleep -/

/-- Whoever is asleep is registered, and at the place where one sleeps. -/
def Rests (m : Monitor T S K C) : Prop :=
  ∀ t, m.sleepers.asleep t = true → (m.sleepers.chan t).isSome ∧ ∃ k, m.locks.pc t = .sleeping k

omit [DecidableEq T] [DecidableEq C] in
theorem rests_init (s : S) (k : T → K) : (init s k : Monitor T S K C).Rests := by
  intro t ht
  cases ht

omit [DecidableEq C] in
/-- A thread that is not asleep moves. -/
theorem Rests.move (h : m.Rests) {t : T} (ht : ∀ k, m.locks.pc t ≠ .sleeping k)
    {p : Place T C K} {s : S} {lock : Unit → Option T} {sl : Sleepers T C}
    (hasleep : sl.asleep = m.sleepers.asleep) (hchan : ∀ u, u ≠ t → sl.chan u = m.sleepers.chan u) :
    Rests ⟨s, ⟨Function.update m.locks.pc t p, lock⟩, sl⟩ := by
  intro u hu
  change sl.asleep u = true at hu
  rw [hasleep] at hu
  obtain ⟨hsome, k, hk⟩ := h u hu
  have hne : u ≠ t := by
    rintro rfl
    exact ht k hk
  exact ⟨by rwa [← hchan u hne] at hsome, k, by simpa [hne] using hk⟩

theorem Rests.step (h : m.Rests) {a : Act T A} (hstep : Step prog all m a m') : m'.Rests := by
  -- a thread at another place than that of a sleeper
  have ne {t : T} {p : Place T C K} (hp : m.locks.pc t = p) (hw : ∀ k, p ≠ .sleeping k) :
      ∀ k, m.locks.pc t ≠ .sleeping k := fun k heq => hw k (hp.symm.trans heq)
  cases hstep with
  | kill t =>
    intro u hu
    have hne : u ≠ t := by
      rintro rfl
      simp [Sleepers.kill] at hu
    exact h u (by simpa [Sleepers.kill, hne] using hu)
  | enter t k k' a hpc _ => exact h.move (ne hpc (by simp)) rfl fun _ _ => rfl
  | change t k s k' a hpc _ => exact h.move (ne hpc (by simp)) rfl fun _ _ => rfl
  | acquire t k hpc _ => exact h.move (ne hpc (by simp)) rfl fun _ _ => rfl
  | instr t k hpc =>
    cases hi : prog.inside t k m.shared with
    | wait c k' =>
      exact h.move (ne hpc (by simp)) rfl fun u hu => Sleepers.chan_prepare_of_ne _ _ hu
    | update | ifKilled | wakeup | release => exact h.move (ne hpc (by simp)) rfl fun _ _ => rfl
  | woken t c k hpc => exact h.move (ne hpc (by simp)) rfl fun _ _ => rfl
  | wake t c v rest k hpc =>
    intro u hu
    change (m.sleepers.wake c v).asleep u = true at hu
    show ((m.sleepers.wake c v).chan u).isSome = true ∧
      ∃ k', Function.update m.locks.pc t _ u = .sleeping k'
    have hboth := Sleepers.asleep_of_wake hu
    obtain ⟨hsome, k', hk'⟩ := h u hboth.1
    have hne : u ≠ t := by
      rintro rfl
      rw [hpc] at hk'
      cases hk'
    exact ⟨by rwa [hboth.2], k', by rwa [Function.update_of_ne hne]⟩
  | doze t k hpc => exact h.move (ne hpc (by simp)) rfl fun _ _ => rfl
  | sleep t k hpc =>
    intro u hu
    change (m.sleepers.sleep t).asleep u = true at hu
    show ((m.sleepers.sleep t).chan u).isSome = true ∧
      ∃ k', Function.update m.locks.pc t _ u = .sleeping k'
    rw [Sleepers.chan_sleep]
    by_cases hut : u = t
    · subst hut
      refine ⟨?_, k, Function.update_self _ _ _⟩
      by_contra hnone
      rw [Sleepers.sleep, if_neg hnone] at hu
      obtain ⟨hsome, -⟩ := h u hu
      exact hnone hsome
    · have hu' : m.sleepers.asleep u = true := by
        unfold Sleepers.sleep at hu
        split at hu
        · simpa [hut] using hu
        · exact hu
      rw [Function.update_of_ne hut]
      exact h u hu'
  | rise t k hpc hawake =>
    intro u hu
    have hne : u ≠ t := by
      rintro rfl
      rw [show m.sleepers.asleep u = true from hu] at hawake
      cases hawake
    obtain ⟨hsome, k', hk'⟩ := h u hu
    exact ⟨hsome, k', by simpa [goto, hne] using hk'⟩

/-! ## Wakeups -/

/-- The discipline of a program, in the states with `J`: nobody waits without a reason, and whoever
takes away a reason owes a wakeup, which he does not forget before nobody needs it any more. -/
structure Fair (prog : Program T S K C A) (J : Monitor T S K C → Prop)
    (reason : C → T → K → S → Prop) (owes : K → C → Prop) : Prop where
  update : ∀ {m t k s' k'}, J m → m.locks.pc t = .inside k →
    prog.inside t k m.shared = .update s' k' →
    (∀ c, owes k c → owes k' c) ∧
    ∀ {c u}, u ≠ t → m.Registered u c → reason c u (m.ks u) m.shared →
      reason c u (m.ks u) s' ∨ owes k' c
  ifKilled : ∀ {m t k yes no}, J m → m.locks.pc t = .inside k →
    prog.inside t k m.shared = .ifKilled yes no →
    ∀ c, owes k c → owes (if m.sleepers.killed t then yes else no) c
  wakeup : ∀ {m t k c k'}, J m → m.locks.pc t = .inside k →
    prog.inside t k m.shared = .wakeup c k' →
    ∀ c', owes k c' → c' = c ∨ owes k' c'
  wait : ∀ {m t k c k'}, J m → m.locks.pc t = .inside k → prog.inside t k m.shared = .wait c k' →
    reason c t k' m.shared ∧ ∀ {c' u}, owes k c' → m.Registered u c' → reason c' u (m.ks u) m.shared
  release : ∀ {m t k k'}, J m → m.locks.pc t = .inside k → prog.inside t k m.shared = .release k' →
    ∀ {c u}, owes k c → m.Registered u c → reason c u (m.ks u) m.shared
  change : ∀ {m t k a s' k'}, J m → m.locks.pc t = .outside k →
    prog.outside t k m.shared a = some (.update s' k') →
    ∀ {c u}, u ≠ t → m.Registered u c → reason c u (m.ks u) m.shared → reason c u (m.ks u) s'

variable {J : Monitor T S K C → Prop}

omit [DecidableEq C] in
/-- No instruction loses a wakeup. -/
theorem Waits.instr (hall : ∀ t, t ∈ all) (hfair : Fair prog J reason owes) (hJ : J m)
    (hheld : m.Held) (h : Waits reason owes m) {t : T} {k : K} (hpc : m.locks.pc t = .inside k) :
    Waits reason owes (m.instr all t (prog.inside t k m.shared)) := by
  have hholds : (m.locks.pc t).holds = some () := by rw [hpc]; rfl
  have hlock : m.locks.lock () = some t := (hheld t ()).mpr hholds
  -- what is owed before the step is owed by `t`, at `k`
  have hbefore {u : T} {c : C} (hw : (m.locks.pc u).waits = true)
    (hc : m.sleepers.chan u = some c) :
    reason c u (m.ks u) m.shared ∨ owes k c := by
    have := h u c ⟨hw, hc⟩
    rw [hheld.owed_iff hholds, hpc] at this
    exact this
  have hafter {s : S} {sl : Sleepers T C} {p : Place T C K} {c : C} {u : T} (ho : p.owes owes c u) :
      Owed owes ⟨s, ⟨Function.update m.locks.pc t p, m.locks.lock⟩, sl⟩ c u :=
    ⟨t, hlock, by simpa using ho⟩
  cases hi : prog.inside t k m.shared with
  | update s' k' =>
    obtain ⟨hkeep, hreason⟩ := hfair.update hJ hpc hi
    refine .of_others (.inside k') rfl fun u c hu hw hc => ?_
    rcases hbefore hw hc with hr | ho
    · exact (hreason hu ⟨hw, hc⟩ hr).imp_right hafter
    · exact .inr (hafter (hkeep c ho))
  | ifKilled yes no =>
    refine .of_others (.inside _) rfl fun u c hu hw hc => ?_
    exact (hbefore hw hc).imp_right fun ho => hafter (hfair.ifKilled hJ hpc hi c ho)
  | wakeup c' k' =>
    refine .of_others (.waking c' all k') rfl fun u c hu hw hc => ?_
    refine (hbefore hw hc).imp_right fun ho => hafter ?_
    exact (hfair.wakeup hJ hpc hi c ho).imp_left fun heq => ⟨heq.symm, hall u⟩
  | wait c' k' =>
    obtain ⟨hself, hnone⟩ := hfair.wait hJ hpc hi
    refine .of_move (.prepared k') (fun _ c hc => ?_) fun u c hu hw hc => ?_
    · obtain rfl : c' = c := by simpa using hc
      exact .inl hself
    · rw [Sleepers.chan_prepare_of_ne _ _ hu] at hc
      exact .inl ((hbefore hw hc).elim id fun ho => hnone ho ⟨hw, hc⟩)
  | release k' =>
    refine .of_others (.outside k') rfl fun u c hu hw hc => ?_
    exact .inl ((hbefore hw hc).elim id fun ho => hfair.release hJ hpc hi ho ⟨hw, hc⟩)

/-- No step loses a wakeup. -/
theorem Waits.step (hall : ∀ t, t ∈ all) (hfair : Fair prog J reason owes) (hJ : J m)
    (hheld : m.Held) (h : Waits reason owes m) {a : Act T A} (hstep : Step prog all m a m') :
    Waits reason owes m' := by
  cases hstep with
  | kill t => exact h
  | enter t k k' a hpc _ =>
    refine .of_others (.entering k') rfl fun u c hu hw hc => ?_
    exact (h u c ⟨hw, hc⟩).imp_right fun ho => hheld.owed_of_goto (by rw [hpc]; rfl) ho _ _ _
  | change t k s' k' a hpc ho =>
    refine .of_others (.outside k') rfl fun u c hu hw hc => ?_
    exact (h u c ⟨hw, hc⟩).imp (hfair.change hJ hpc ho hu ⟨hw, hc⟩)
      fun ho => hheld.owed_of_goto (by rw [hpc]; rfl) ho _ _ _
  | acquire t k hpc hfree =>
    exact .of_others (.inside k) rfl fun u c hu hw hc => .inl (h.has_reason hfree ⟨hw, hc⟩)
  | instr t k hpc => exact h.instr hall hfair hJ hheld hpc
  | woken t c' k hpc =>
    refine .of_others (.inside k) rfl fun u c hu hw hc => ?_
    have hholds : (m.locks.pc t).holds = some () := by rw [hpc]; rfl
    refine (h u c ⟨hw, hc⟩).imp_right fun ho => ⟨t, (hheld t ()).mpr hholds, ?_⟩
    rw [hheld.owed_iff hholds, hpc] at ho
    simpa [Place.owes] using ho
  | wake t c' v rest k hpc =>
    refine .of_others (.waking c' rest k) rfl fun u c hu hw hc => ?_
    have hholds : (m.locks.pc t).holds = some () := by rw [hpc]; rfl
    obtain ⟨hc, hne⟩ := Sleepers.chan_eq_some_of_wake hc
    refine (h u c ⟨hw, hc⟩).imp_right fun ho => ⟨t, (hheld t ()).mpr hholds, ?_⟩
    rw [hheld.owed_iff hholds, hpc] at ho
    rcases ho with ⟨hcc, hmem⟩ | ho
    · rcases List.mem_cons.mp hmem with huv | hmem
      · exact absurd ⟨huv, hcc⟩ hne
      · simpa [Place.owes] using Or.inl ⟨hcc, hmem⟩
    · simpa [Place.owes] using Or.inr ho
  | doze t k hpc =>
    have hholds : (m.locks.pc t).holds = some () := by rw [hpc]; rfl
    -- a thread that goes to sleep owes nothing
    have hbefore {u : T} {c : C} (hw : (m.locks.pc u).waits = true)
        (hc : m.sleepers.chan u = some c) : reason c u (m.ks u) m.shared := by
      refine (h u c ⟨hw, hc⟩).resolve_right fun ho => ?_
      rw [hheld.owed_iff hholds, hpc] at ho
      exact ho
    have hks : m.ks t = k := by rw [ks, hpc]; rfl
    refine .of_move (.dozing k) (fun _ c hc => ?_) fun u c hu hw hc => .inl (hbefore hw hc)
    have := hbefore (u := t) (by rw [hpc]; rfl) hc
    rw [hks] at this
    exact .inl this
  | sleep t k hpc =>
    have hks : m.ks t = k := by rw [ks, hpc]; rfl
    have hnone : (m.locks.pc t).holds = none := by rw [hpc]; rfl
    have hbefore {u : T} {c : C} (hw : (m.locks.pc u).waits = true)
        (hc : (m.sleepers.sleep t).chan u = some c) : reason c u (m.ks u) m.shared ∨
          m.Owed owes c u :=
      h u c ⟨hw, by rwa [Sleepers.chan_sleep] at hc⟩
    refine .of_move (.sleeping k) (fun _ c hc => ?_) fun u c hu hw hc => ?_
    · have := hbefore (u := t) (by rw [hpc]; rfl) hc
      rw [hks] at this
      exact this.imp_right fun ho => hheld.owed_of_goto hnone ho _ _ _
    · exact (hbefore hw hc).imp_right fun ho => hheld.owed_of_goto hnone ho _ _ _
  | rise t k hpc _ =>
    refine .of_others (.entering k) rfl fun u c hu hw hc => ?_
    exact (h u c ⟨hw, hc⟩).imp_right fun ho => hheld.owed_of_goto (by rw [hpc]; rfl) ho _ _ _

/-- A program with the discipline loses no wakeup in any run, if `J` is kept by the steps of the
run. -/
theorem run_waits {P : Monitor T S K C → Act T A → Prop} (hall : ∀ t, t ∈ all)
    (hfair : Fair prog J reason owes)
    (hJ : ∀ {m a m'}, m.Held → J m → P m a → Step prog all m a m' → J m') {acts : List (Act T A)}
    (hP : AllSteps (step prog all) P m acts) (hheld : m.Held) (hm : J m)
    (hwaits : Waits reason owes m) (hrun : run (step prog all) m acts = some m') :
    J m' ∧ Waits reason owes m' := by
  refine (run_invariant_of (I := fun m => m.Held ∧ J m ∧ Waits reason owes m) ?_ hP
    ⟨hheld, hm, hwaits⟩ hrun).2
  rintro m a m' ⟨hheld, hm, hwaits⟩ ha hstep
  have hrel := Step.of_step hstep
  exact ⟨hheld.step hrel, hJ hheld hm ha hrel, hwaits.step hall hfair hm hheld hrel⟩

omit [DecidableEq T] [DecidableEq C] in
/-- While the lock is free, whoever is asleep has his reason. -/
theorem Waits.asleep (h : Waits reason owes m) (hrests : m.Rests)
    (hfree : m.locks.lock () = none) {t : T} (ht : m.sleepers.asleep t = true) :
    ∃ c, m.sleepers.chan t = some c ∧ reason c t (m.ks t) m.shared := by
  obtain ⟨hsome, k, hk⟩ := hrests t ht
  obtain ⟨c, hc⟩ := Option.isSome_iff_exists.mp hsome
  exact ⟨c, hc, h.has_reason hfree ⟨by rw [hk]; rfl, hc⟩⟩

theorem run_rests {acts : List (Act T A)} (hrests : m.Rests)
    (hrun : run (step prog all) m acts = some m') :
    m'.Rests :=
  run_invariant (fun _ _ _ h hstep => h.step (Step.of_step hstep)) hrests hrun

/-- Assertions that do not depend on who has been killed hold in every run. -/
theorem run_annot {At : T → K → S → Prop} (hat : Annotates prog fun t k s _ => At t k s)
    {acts : List (Act T A)} (hheld : m.Held) (h : Annot (fun t k s _ => At t k s) m)
    (hrun : run (step prog all) m acts = some m') :
    Annot (fun t k s _ => At t k s) m' := by
  refine (run_invariant (I := fun m => m.Held ∧ Annot (fun t k s _ => At t k s) m) ?_
    ⟨hheld, h⟩ hrun).2
  rintro m a m' ⟨hheld, h⟩ hstep
  have hrel := Step.of_step hstep
  exact ⟨hheld.step hrel, h.step hat hheld (fun t _ ht => h.at_holder ht) hrel⟩

omit [DecidableEq T] [DecidableEq C] in
/-- A condition on the choices that does not look at the places of the threads. -/
theorem allSteps_chooses {step : Monitor T S K C → Act T A → Option (Monitor T S K C)}
    {P : T → A → Prop} {acts : List (Act T A)} (h : ∀ t a, .outside t a ∈ acts → P t a)
    (m : Monitor T S K C) :
    AllSteps step (Chooses fun t _ a => P t a) m acts := by
  refine allSteps_of_forall_mem (fun a ha m => ?_) m
  cases a with
  | outside t a => exact h t a ha
  | next | kill => trivial

/-- What the instructions keep, every run keeps. -/
theorem run_keeps {P : T → K → A → Prop} {I : S → (T → K) → Prop} (hI : Keeps prog P I)
    {acts : List (Act T A)} (hP : AllSteps (step prog all) (Chooses P) m acts) (h : I m.shared m.ks)
    (hrun : run (step prog all) m acts = some m') : I m'.shared m'.ks :=
  run_invariant_of (I := fun m => I m.shared m.ks)
    (fun _ _ _ h ha hstep => hI.step h ha (Step.of_step hstep)) hP h hrun

end Monitor

end Lib
