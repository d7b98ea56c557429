import UnixCShell.Reveal.Basic

/-!
# Runs of `reveal_dir`

What a call of `reveal_dir` with `-t` prints if it comes back, with any amount of fuel: one rule for
the call (`prints_iff`) and one for every form of its loop (`loopPrints_nil`, `loopPrints_cons`).

A path that is cut names something else. If this is a directory, the path of every entry in it is
cut at the same place again, so that `reveal_dir` either finds nothing there or never comes back
(`readSortedEntries_of_prints`).
-/

namespace UnixCShell.Reveal

section

variable (fs : Fs) (flagA : Bool)

/-- `reveal_dir` with `-t` comes back, and has printed these lines. -/
def Prints (absPath rel : Str) (lines : List Line) : Prop :=
  ∃ fuel, revealDir fs flagA true fuel absPath rel = some lines

/-- The same for its loop. -/
def LoopPrints (absPath rel : Str) (names : List Str) (lines : List Line) : Prop :=
  ∃ fuel, revealLoop fs true (revealDir fs flagA true fuel) absPath rel names = some lines

/-- What is printed for the inside of an entry: nothing if it is not a directory. -/
def Enters (absPath rel : Str) (lines : List Line) : Prop :=
  if fs.lstat absPath = some .dir then Prints fs flagA absPath rel lines else lines = []

/-- One round of the loop. -/
def EntryPrints (absPath rel name : Str) (lines : List Line) : Prop :=
  ∃ inside, Enters fs flagA (childAbs absPath name) (childRel rel name) inside ∧
    lines = .entry (childRel rel name) (fs.lstat (childAbs absPath name) = some .dir) :: inside

end

variable {fs : Fs} {flagA : Bool} {absPath rel name : Str} {names : List Str} {lines : List Line}

theorem enters_of_dir (h : fs.lstat absPath = some .dir) :
    Enters fs flagA absPath rel lines ↔ Prints fs flagA absPath rel lines := by
  rw [Enters, if_pos h]

theorem enters_of_not_dir (h : fs.lstat absPath ≠ some .dir) :
    Enters fs flagA absPath rel lines ↔ lines = [] := by
  rw [Enters, if_neg h]

theorem revealLoop_cons (enter : Str → Str → Option (List Line)) :
    revealLoop fs true enter absPath rel (name :: names) = some lines ↔
      ∃ inside rest,
        (if fs.lstat (childAbs absPath name) =
          some .dir then enter (childAbs absPath name) (childRel rel name)
          else some []) = some inside ∧
        revealLoop fs true enter absPath rel names = some rest ∧
        lines = .entry (childRel rel name) (fs.lstat (childAbs absPath name) = some .dir) ::
          (inside ++ rest) := by
  simp only [revealLoop, Bool.and_true, decide_eq_true_eq, Option.bind_eq_bind,
    Option.bind_eq_some_iff,
    Option.pure_def, Option.some.injEq]
  constructor
  · rintro ⟨inside, hinside, rest, hrest, rfl⟩
    exact ⟨inside, rest, hinside, hrest, rfl⟩
  · rintro ⟨inside, rest, hinside, hrest, rfl⟩
    exact ⟨inside, hinside, rest, hrest, rfl⟩

theorem revealLoop_mono {enter enter' : Str → Str → Option (List Line)}
    (h : ∀ p r ls, enter p r = some ls → enter' p r = some ls)
    (hrun : revealLoop fs true enter absPath rel names = some lines) :
    revealLoop fs true enter' absPath rel names = some lines := by
  induction names generalizing lines with
  | nil => exact hrun
  | cons name names ih =>
    obtain ⟨inside, rest, hinside, hrest, rfl⟩ := (revealLoop_cons enter).mp hrun
    refine (revealLoop_cons enter').mpr ⟨inside, rest, ?_, ih hrest, rfl⟩
    split at hinside
    · next hdir =>
      rw [if_pos hdir]
      exact h _ _ _ hinside
    · next hdir =>
      rw [if_neg hdir]
      exact hinside

/-- More fuel does not change anything. -/
theorem revealDir_mono {fuel fuel' : Nat} (hle : fuel ≤ fuel')
    (hrun : revealDir fs flagA true fuel absPath rel = some lines) :
    revealDir fs flagA true fuel' absPath rel = some lines := by
  induction fuel generalizing fuel' absPath rel lines with
  | zero => cases hrun
  | succ fuel ih =>
    obtain ⟨fuel', rfl⟩ : ∃ m, fuel' = m + 1 := ⟨fuel' - 1, by omega⟩
    rw [revealDir] at hrun ⊢
    cases hread : readSortedEntries fs flagA absPath with
    | none =>
      rw [hread] at hrun
      exact hrun
    | some names =>
      rw [hread] at hrun
      exact revealLoop_mono (fun p r ls => ih (by omega)) hrun

/-- What the call of `reveal_dir` for a directory prints. -/
theorem prints_iff : Prints fs flagA absPath rel lines ↔
    match readSortedEntries fs flagA absPath with
    | none => lines = [.noSuchDirectory]
    | some names => LoopPrints fs flagA absPath rel names lines := by
  constructor
  · rintro ⟨fuel, hrun⟩
    cases fuel with
    | zero => cases hrun
    | succ fuel =>
      rw [revealDir] at hrun
      cases hread : readSortedEntries fs flagA absPath with
      | none =>
        rw [hread] at hrun
        exact (Option.some.inj hrun).symm
      | some names =>
        rw [hread] at hrun
        exact ⟨fuel, hrun⟩
  · intro h
    cases hread : readSortedEntries fs flagA absPath with
    | none =>
      rw [hread] at h
      refine ⟨1, ?_⟩
      rw [revealDir, hread, h]
    | some names =>
      rw [hread] at h
      obtain ⟨fuel, hrun⟩ := h
      refine ⟨fuel + 1, ?_⟩
      rw [revealDir, hread]
      exact hrun

theorem loopPrints_nil : LoopPrints fs flagA absPath rel [] lines ↔ lines = [] :=
  ⟨fun ⟨_, hrun⟩ => (Option.some.inj hrun).symm, fun h => ⟨0, congrArg some h.symm⟩⟩

theorem loopPrints_cons : LoopPrints fs flagA absPath rel (name :: names) lines ↔
    ∃ first rest, EntryPrints fs flagA absPath rel name first ∧
      LoopPrints fs flagA absPath rel names rest ∧
      lines = first ++ rest := by
  constructor
  · rintro ⟨fuel, hrun⟩
    obtain ⟨inside, rest, hinside, hrest, rfl⟩ := (revealLoop_cons _).mp hrun
    refine ⟨_, rest, ⟨inside, ?_, rfl⟩, ⟨fuel, hrest⟩, rfl⟩
    split at hinside
    · next hdir => exact (enters_of_dir hdir).mpr ⟨fuel, hinside⟩
    · next hdir => exact (enters_of_not_dir hdir).mpr (Option.some.inj hinside).symm
  · rintro ⟨first, rest, ⟨inside, hinside, rfl⟩, ⟨fuel, hrest⟩, rfl⟩
    by_cases hdir : fs.lstat (childAbs absPath name) = some .dir
    · -- enough for both
      obtain ⟨fuel', hinside⟩ := (enters_of_dir hdir).mp hinside
      refine ⟨max fuel fuel', (revealLoop_cons _).mpr ⟨inside, rest, ?_, ?_, rfl⟩⟩
      · rw [if_pos hdir]
        exact revealDir_mono (le_max_right ..) hinside
      · exact revealLoop_mono (fun p r ls => revealDir_mono (le_max_left ..)) hrest
    · refine ⟨fuel, (revealLoop_cons _).mpr ⟨inside, rest, ?_, hrest, rfl⟩⟩
      rw [if_neg hdir, (enters_of_not_dir hdir).mp hinside]

/-! ## Paths that are cut -/

theorem length_snprintf {size : Nat} {text : Str} (h : size ≤ text.length) :
    (snprintf size text).length = size - 1 := by
  rw [snprintf, List.length_take]
  omega

/-- A path that fills the buffer is the path of everything inside. -/
theorem childAbs_of_full (hfull : absPath.length = pathMax - 1) (name : Str) :
    childAbs absPath name = absPath := by
  rw [childAbs, snprintf, ← hfull, List.take_left']
  rfl

/-- `reveal_dir` comes back from such a directory only if it finds nothing there. -/
theorem readSortedEntries_of_prints (hfull : absPath.length = pathMax - 1)
    (hdir : fs.lstat absPath = some .dir) (h : Prints fs flagA absPath rel lines)
    (hread : readSortedEntries fs flagA absPath = some names) : names = [] := by
  obtain ⟨fuel, hrun⟩ := h
  induction fuel generalizing rel lines with
  | zero => cases hrun
  | succ fuel ih =>
    cases names with
    | nil => rfl
    | cons name names =>
      rw [revealDir, hread] at hrun
      obtain ⟨inside, rest, hinside, -⟩ := (revealLoop_cons _).mp hrun
      rw [childAbs_of_full hfull, if_pos hdir] at hinside
      exact ih hinside

end UnixCShell.Reveal
