import Mathlib.Logic.Function.Basic
import Mathlib.Tactic.Common

/-!
# Threads and locks

Threads that each have a program counter, and locks that a thread can hold. Which lock a thread
holds is read off its program counter: `Held holds` says that the locks agree with that. A thread
that moves acquires a lock, releases one, or keeps what it has.

`Exclusive owns` is the other half of mutual exclusion: no two threads are at places that own the
same thing.
-/

namespace Lib

variable {H L P X : Type*}

structure Locks (H L P : Type*) where
  pc   : H → P
  lock : L → Option H

namespace Locks

/-! ## Who holds which lock -/

/-- A lock is held by the thread that is at a place where it is held, and by no other. -/
def Held (holds : P → Option L) (s : Locks H L P) : Prop :=
  ∀ t l, s.lock l = some t ↔ holds (s.pc t) = some l

variable {holds : P → Option L} {s : Locks H L P} {t : H} {l : L} {p : P}

/-- A thread at a place where a lock is held is not there while the lock is free. -/
theorem Held.ne_of_free (h : s.Held holds) (hfree : s.lock l = none) : holds (s.pc t) ≠ some l := by
  intro heq
  rw [← h t l, hfree] at heq
  cases heq

/-! ## Moves -/

variable [DecidableEq H]

/-- A thread moves. -/
def goto (s : Locks H L P) (t : H) (p : P) : Locks H L P :=
  { s with pc := Function.update s.pc t p }

@[simp] theorem pc_goto (s : Locks H L P) (t : H) (p : P) :
    (s.goto t p).pc = Function.update s.pc t p := rfl

theorem Held.goto (h : s.Held holds) (hp : holds p = holds (s.pc t)) : (s.goto t p).Held holds := by
  intro t' l'
  by_cases ht : t' = t
  · subst ht
    simpa [Locks.goto, hp] using h t' l'
  · simpa [Locks.goto, ht] using h t' l'

variable [DecidableEq L]

/-- A thread moves and acquires a lock. -/
def acquire (s : Locks H L P) (t : H) (l : L) (p : P) : Locks H L P :=
  { pc := Function.update s.pc t p, lock := Function.update s.lock l (some t) }

/-- A thread moves and releases a lock. -/
def release (s : Locks H L P) (t : H) (l : L) (p : P) : Locks H L P :=
  { pc := Function.update s.pc t p, lock := Function.update s.lock l none }

theorem Held.acquire (h : s.Held holds) (hfree : s.lock l = none) (hnone : holds (s.pc t) = none)
    (hp : holds p = some l) : (s.acquire t l p).Held holds := by
  intro t' l'
  have hold := h t' l'
  by_cases ht : t' = t
  · subst ht
    by_cases hl : l' = l
    · subst hl
      simp [Locks.acquire, hp]
    · have hl' : l ≠ l' := fun heq => hl heq.symm
      have hother : s.lock l' ≠ some t' := by simp [hold, hnone]
      simp [Locks.acquire, hl, hl', hp, hother]
  · by_cases hl : l' = l
    · subst hl
      have ht' : t ≠ t' := fun heq => ht heq.symm
      have hother : holds (s.pc t') ≠ some l' := by simp [← hold, hfree]
      simp [Locks.acquire, ht, ht', hother]
    · simpa [Locks.acquire, ht, hl] using hold

theorem Held.release (h : s.Held holds) (hl : holds (s.pc t) = some l) (hp : holds p = none) :
    (s.release t l p).Held holds := by
  intro t' l'
  have hold := h t' l'
  by_cases ht : t' = t
  · subst ht
    by_cases hl' : l' = l
    · subst hl'
      simp [Locks.release, hp]
    · have hother : s.lock l' ≠ some t' := by
        rw [Ne, hold, hl]
        simpa using fun heq => hl' heq.symm
      simp [Locks.release, hl', hp, hother]
  · by_cases hl' : l' = l
    · subst hl'
      have hother : holds (s.pc t') ≠ some l' := by
        intro heq
        have h₁ := hold.mpr heq
        rw [(h t l').mpr hl] at h₁
        exact ht (Option.some.inj h₁).symm
      simp [Locks.release, ht, hother]
    · simpa [Locks.release, ht, hl'] using hold

end Locks

/-! ## Ownership -/

/-- No two threads are at places that own the same thing. -/
def Exclusive (owns : P → Option X) (pc : H → P) : Prop :=
  ∀ t t' x, owns (pc t) = some x → owns (pc t') = some x → t = t'

variable {owns : P → Option X} {pc : H → P} {t : H} {p : P} [DecidableEq H]

/-- A thread may move to a place that owns nothing, or what nobody else owns. -/
theorem Exclusive.update (h : Exclusive owns pc)
    (hp : ∀ x, owns p = some x → ∀ t', t' ≠ t → owns (pc t') ≠ some x) :
    Exclusive owns (Function.update pc t p) := by
  intro t₁ t₂ x h₁ h₂
  by_cases ht₁ : t₁ = t
  · by_cases ht₂ : t₂ = t
    · rw [ht₁, ht₂]
    · rw [ht₁, Function.update_self] at h₁
      rw [Function.update_of_ne ht₂] at h₂
      exact absurd h₂ (hp x h₁ t₂ ht₂)
  · rw [Function.update_of_ne ht₁] at h₁
    by_cases ht₂ : t₂ = t
    · rw [ht₂, Function.update_self] at h₂
      exact absurd h₁ (hp x h₂ t₁ ht₁)
    · rw [Function.update_of_ne ht₂] at h₂
      exact h t₁ t₂ x h₁ h₂

theorem Exclusive.update_same (h : Exclusive owns pc) (hp : owns p = owns (pc t)) :
    Exclusive owns (Function.update pc t p) := by
  apply h.update
  intro x hx t' ht' hother
  rw [hp] at hx
  exact ht' (h t' t x hother hx)

theorem Exclusive.update_none (h : Exclusive owns pc) (hp : owns p = none) :
    Exclusive owns (Function.update pc t p) := by
  apply h.update
  intro x hx
  rw [hp] at hx
  cases hx

/-- What the threads own together, when one of them moves. -/
theorem exists_owns_update {x : X} :
    (∃ t', owns (Function.update pc t p t') = some x) ↔
      owns p = some x ∨ ∃ t', t' ≠ t ∧ owns (pc t') = some x := by
  constructor
  · rintro ⟨t', ht'⟩
    by_cases heq : t' = t
    · rw [heq, Function.update_self] at ht'
      exact .inl ht'
    · rw [Function.update_of_ne heq] at ht'
      exact .inr ⟨t', heq, ht'⟩
  · rintro (h | ⟨t', hne, ht'⟩)
    · exact ⟨t, by rwa [Function.update_self]⟩
    · exact ⟨t', by rwa [Function.update_of_ne hne]⟩

end Lib
