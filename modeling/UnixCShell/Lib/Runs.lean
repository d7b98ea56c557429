import Mathlib.Tactic.Common

/-!
# Runs of a step function

A system is a partial function from states and labels to states; a label is not enabled where the
function is undefined. A run is a list of labels. Safety properties of all runs are proved by
`run_invariant`: what every step keeps, every run keeps. Where only some steps keep a property,
`AllSteps` restricts the runs.
-/

namespace Lib

variable {σ ε : Type*} (step : σ → ε → Option σ)

/-- Take the steps `es` one after the other. -/
def run : σ → List ε → Option σ
  | s, [] => some s
  | s, e :: es => (step s e).bind fun s' => run s' es

/-- Every step of the run has the property `P`, which may look at the state it is taken in. -/
def AllSteps (P : σ → ε → Prop) : σ → List ε → Prop
  | _, [] => True
  | s, e :: es => P s e ∧ ∀ s', step s e = some s' → AllSteps P s' es

instance AllSteps.instDecidable (P : σ → ε → Prop) [∀ s e, Decidable (P s e)] :
    ∀ s es, Decidable (AllSteps step P s es)
  | _, [] => .isTrue trivial
  | s, e :: es =>
    match h : step s e with
    | none => decidable_of_iff (P s e) (by simp [AllSteps, h])
    | some s' =>
      have := AllSteps.instDecidable P s' es
      decidable_of_iff (P s e ∧ AllSteps step P s' es) (by simp [AllSteps, h])

/-- Every state that the run comes through has the property `Q`. -/
def AllStates (Q : σ → Prop) : σ → List ε → Prop
  | s, [] => Q s
  | s, e :: es => Q s ∧ ∀ s', step s e = some s' → AllStates Q s' es

variable {step} {s s' : σ}

theorem AllStates.here {Q : σ → Prop} {es : List ε} (h : AllStates step Q s es) : Q s := by
  cases es with
  | nil => exact h
  | cons e es => exact h.1

theorem run_cons {e : ε} {es : List ε} (h : run step s (e :: es) = some s') :
    ∃ t, step s e = some t ∧ run step t es = some s' := Option.bind_eq_some_iff.mp h

theorem run_step {e : ε} {t : σ} (h : step s e = some t) (es : List ε) :
    run step s (e :: es) = run step t es := by
  rw [run, h, Option.bind_some]

theorem run_append (es es' : List ε) (s : σ) :
    run step s (es ++ es') = (run step s es).bind fun t => run step t es' := by
  induction es generalizing s with
  | nil => rfl
  | cons e es ih =>
    rw [List.cons_append, run, run, Option.bind_assoc]
    simp only [ih]

/-- A run that can be evaluated. -/
theorem exists_run_of_any {p : σ → Prop} [DecidablePred p] {es : List ε}
    (h : ((run step s es).any fun t => decide (p t)) = true) :
    ∃ t, run step s es = some t ∧ p t := by
  obtain ⟨t, ht, hp⟩ := (Option.any_eq_true _ _).mp h
  exact ⟨t, ht, of_decide_eq_true hp⟩

/-- What the permitted steps keep, the runs of permitted steps keep. -/
theorem run_invariant_of {P : σ → ε → Prop} {I : σ → Prop}
    (hstep : ∀ s e s', I s → P s e → step s e = some s' → I s') {es : List ε}
    (hall : AllSteps step P s es) (hs : I s) (hrun : run step s es = some s') : I s' := by
  induction es generalizing s with
  | nil =>
    cases hrun
    exact hs
  | cons e es ih =>
    obtain ⟨t, ht, hrest⟩ := run_cons hrun
    exact ih (hall.2 t ht) (hstep s e t hs hall.1 ht) hrest

/-- A property of the labels alone. -/
theorem allSteps_of_forall_mem {P : σ → ε → Prop} {es : List ε} (h : ∀ e ∈ es, ∀ s, P s e) (s : σ) :
    AllSteps step P s es := by
  induction es generalizing s with
  | nil => trivial
  | cons e es ih =>
    rw [List.forall_mem_cons] at h
    exact ⟨h.1 s, fun s' _ => ih h.2 s'⟩

theorem AllSteps.and {P Q : σ → ε → Prop} {es : List ε} (h : AllSteps step P s es)
    (h' : AllSteps step Q s es) : AllSteps step (fun s e => P s e ∧ Q s e) s es := by
  induction es generalizing s with
  | nil => trivial
  | cons e es ih => exact ⟨⟨h.1, h'.1⟩, fun t ht => ih (h.2 t ht) (h'.2 t ht)⟩

/-- If a step keeps `Q` exactly if it has `P`, a run stays in `Q` exactly if all its steps have
`P`. -/
theorem allStates_iff_allSteps {P R : σ → ε → Prop} {I Q : σ → Prop}
    (hI : ∀ s e s', I s → R s e → step s e = some s' → I s')
    (hQ : ∀ s e s', I s → Q s → R s e → step s e = some s' → (Q s' ↔ P s e)) {es : List ε}
    (hall : AllSteps step R s es) (hs : I s) (hq : Q s) (hrun : run step s es = some s') :
    AllStates step Q s es ↔ AllSteps step P s es := by
  induction es generalizing s with
  | nil => exact iff_of_true hq trivial
  | cons e es ih =>
    obtain ⟨t, ht, hrest⟩ := run_cons hrun
    have hone := hQ s e t hs hq hall.1 ht
    have hmany := ih (hall.2 t ht) (hI s e t hs hall.1 ht)
    simp only [AllStates, AllSteps, ht, Option.some.injEq, forall_eq']
    constructor
    · rintro ⟨-, hstates⟩
      exact ⟨hone.mp hstates.here, (hmany hstates.here hrest).mp hstates⟩
    · rintro ⟨hp, hsteps⟩
      exact ⟨hq, (hmany (hone.mpr hp) hrest).mpr hsteps⟩

/-- What every step keeps, every run keeps. -/
theorem run_invariant {I : σ → Prop} (hstep : ∀ s e s', I s → step s e = some s' → I s')
    {es : List ε} (hs : I s) (hrun : run step s es = some s') : I s' :=
  run_invariant_of (P := fun _ _ => True) (fun s e s' hI _ => hstep s e s' hI)
    (allSteps_of_forall_mem (fun _ _ _ => trivial) s) hs hrun

end Lib
