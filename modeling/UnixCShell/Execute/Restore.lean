import UnixCShell.Execute.Isolation

/-!
# The descriptors around a builtin

`exec_cmd` leads descriptors 0 and 1 elsewhere before it runs a builtin, and back again afterwards.
In `World.execBuiltin` the files that are opened and closed in between leave no trace in the
descriptor table. Here every `open` takes a descriptor, and any of them may fail (`FdState`):
whatever they answer, the table is the same in the end (`FdState.execBuiltin_get`). The shell itself
is the case in which its file system answers (`FdState.execBuiltin_answers`).

Two tables are the same if `get` is the same for them: a table may end in descriptors that are not
open.
-/

namespace UnixCShell

open Lib

/-! ## Tables as functions -/

namespace FdTable

variable {fds fds' : FdTable}

theorem lowest_le {k : Nat} (h : fds.get k = none) : fds.lowest ≤ k := by
  by_contra hlt
  have hlt : k < fds.findIdx (· = none) := Nat.lt_of_not_le hlt
  have hlen : k < fds.length := Nat.lt_of_lt_of_le hlt List.findIdx_le_length
  have hopen := List.not_of_lt_findIdx hlt
  rw [get, List.getElem?_eq_getElem hlen] at h
  simp_all

theorem lowest_congr (h : fds.get = fds'.get) : fds.lowest = fds'.lowest := by
  apply Nat.le_antisymm
  · exact lowest_le (by rw [h, get_lowest])
  · exact lowest_le (by rw [← h, get_lowest])

theorem put_congr (h : fds.get = fds'.get) (fd : Nat) (d : Desc) :
    (fds.put fd d).get = (fds'.put fd d).get := by
  funext k
  rw [get_put, get_put, h]

theorem close_congr (h : fds.get = fds'.get) (fd : Nat) :
    (fds.close fd).get = (fds'.close fd).get := by
  funext k
  rw [get_close, get_close, h]

theorem dup2_congr (h : fds.get = fds'.get) (old new : Nat) :
    (fds.dup2 old new).get = (fds'.dup2 old new).get := by
  unfold dup2
  rw [h]
  split
  · exact put_congr h _ _
  · exact h

theorem dup_congr (h : fds.get = fds'.get) (fd : Nat) :
    (fds.dup fd).1 = (fds'.dup fd).1 ∧ (fds.dup fd).2.get = (fds'.dup fd).2.get := by
  unfold dup
  rw [h]
  split
  · exact ⟨rfl, h⟩
  · rw [alloc, alloc, lowest_congr h]
    exact ⟨rfl, put_congr h _ _⟩

theorem restore_congr (h : fds.get = fds'.get) (saved : Option Nat) (fd : Nat) :
    (fds.restore saved fd).get = (fds'.restore saved fd).get := by
  cases saved with
  | none => exact h
  | some saved => exact close_congr (dup2_congr h saved fd) saved

end FdTable

/-! ## Every `open` -/

/-- The descriptors of the shell, and what its next calls of `open` answer. A call fails if the
answer is `none`, or if there is none left. -/
structure FdState where
  fds     : FdTable
  answers : List (Option Desc)

namespace FdState

/-- `open`. -/
def openFd (s : FdState) : Option Nat × FdState :=
  match s.answers with
  | [] => (none, s)
  | none :: answers => (none, { s with answers := answers })
  | some d :: answers => (some s.fds.lowest, ⟨s.fds.put s.fds.lowest d, answers⟩)

/-- `close`. -/
def close (s : FdState) (fd : Nat) : FdState := { s with fds := s.fds.close fd }

/-- The loop of `setup_input` over `in_files`. -/
def gatherInput (s : FdState) : List Str → FdState × Bool
  | [] => (s, true)
  | _ :: files =>
    match s.openFd with
    | (none, s) => (s, false)
    | (some fd, s) => (s.close fd).gatherInput files

/-- `setup_input`. -/
def setupInput (s : FdState) (inFiles : List Str) : FdState × InputFd :=
  if inFiles = [] then (s, .none)
  else
    match s.openFd with
    | (none, s) => (s, .none)
    | (some tmpFd, s) =>
      match s.gatherInput inFiles with
      | (s, true) => (s, .fd tmpFd)
      | (s, false) => (s.close tmpFd, .missing)

/-- The loop of `outreg_validate`; `opened` is what `fds` holds so far. -/
def validateTargets (s : FdState) (opened : List Nat) : List (Str × Bool) → FdState × Bool
  | [] => (opened.foldl close s, true)
  | _ :: files =>
    match s.openFd with
    | (none, s) => (opened.foldl close s, false)
    | (some fd, s) => s.validateTargets (opened ++ [fd]) files

/-- `outreg_validate`. -/
def outregValidate (s : FdState) (outFiles : List (Str × Bool)) : FdState × Bool :=
  s.validateTargets [] outFiles

/-- The loop that opens the targets again. -/
def openTargets (s : FdState) : List Str → FdState × List (Option Nat)
  | [] => (s, [])
  | _ :: files =>
    let (fd, s) := s.openFd
    let (s, outFds) := s.openTargets files
    (s, fd :: outFds)

/-- The copy to the targets: `rfd` is closed before the targets are. -/
def deliver (s : FdState) (outFiles : List Str) : FdState :=
  let (s, outFds) := s.openTargets outFiles
  let (rfd, s) := s.openFd
  let s := rfd.elim s s.close
  (outFds.filterMap id).foldl close s

/-- The part of `exec_cmd` that leads descriptor 0 to the input files. -/
def swapStdin (s : FdState) (inFiles : List Str) : FdState × Option (Option Nat) :=
  if inFiles = [] then (s, some none)
  else
    match s.setupInput inFiles with
    | (s, .fd tmpIn) =>
      let (saved, fds) := s.fds.dup 0
      ({ s with fds := (fds.dup2 tmpIn 0).close tmpIn }, some saved)
    | (s, _) => (s, none)

/-- The part that leads descriptor 1 to the temporary file. -/
def swapStdout (s : FdState) (outFiles : List (Str × Bool)) :
    FdState × Option (Option Nat × Option Nat) :=
  if outFiles = [] then (s, some (none, none))
  else
    match s.outregValidate outFiles with
    | (s, false) => (s, none)
    | (s, true) =>
      let (tmpOutFd, s) := s.openFd
      let (saved, fds) := s.fds.dup 1
      -- `dup2(-1, 1)` fails
      ({ s with fds := tmpOutFd.elim fds fun fd => FdTable.dup2 fds fd 1 }, some (tmpOutFd, saved))

/-- The part that leads descriptor 1 back, and copies the output. -/
def restoreStdout (s : FdState) (tmpOutFd saved : Option Nat) (outFiles : List Str) : FdState :=
  match saved with
  | none => s
  | some _ =>
    let fds := s.fds.restore saved 1
    deliver { s with fds := tmpOutFd.elim fds fds.close } outFiles

/-- `exec_cmd` for a builtin. -/
def execBuiltin (run : FdState → FdState) (tokens : List Token) (s : FdState) : FdState :=
  let (_, inFiles, outFiles) := stripRedirections tokens
  let (s, stdin) := s.swapStdin inFiles
  match stdin with
  | none => s
  | some savedStdin =>
    let (s, stdout) := s.swapStdout outFiles
    match stdout with
    | none => { s with fds := s.fds.restore savedStdin 0 }
    | some (tmpOutFd, savedStdout) =>
      let s := (run s).restoreStdout tmpOutFd savedStdout (outFiles.map Prod.fst)
      { s with fds := s.fds.restore savedStdin 0 }

/-! ## What is opened for a moment -/

/-- The table `f'` is the table `f` with the descriptors `ks` besides. -/
structure Extends (f f' : Nat → Option Desc) (ks : List Nat) : Prop where
  new  : ∀ k ∈ ks, f k = none
  kept : ∀ k, k ∉ ks → f' k = f k

namespace Extends

variable {f : Nat → Option Desc} {ks : List Nat}

theorem refl (f : Nat → Option Desc) : Extends f f [] := ⟨by simp, fun _ _ => rfl⟩

theorem put_lowest {fds : FdTable} (h : Extends f fds.get ks) (d : Desc) :
    Extends f (fds.put fds.lowest d).get (ks ++ [fds.lowest]) := by
  constructor
  · intro k hk
    by_cases hmem : k ∈ ks
    · exact h.new k hmem
    · have hlowest : k = fds.lowest := by simpa [hmem] using hk
      rw [← h.kept k hmem, hlowest, FdTable.get_lowest]
  · intro k hk
    rw [List.mem_append, List.mem_singleton, not_or] at hk
    rw [FdTable.get_put, if_neg hk.2, h.kept k hk.1]

/-- Closing the new descriptors gives back the old table. -/
theorem foldl_close {s : FdState} (h : Extends f s.fds.get ks) :
    (ks.foldl close s).fds.get = f := by
  induction ks generalizing s with
  | nil => exact funext fun k => h.kept k (by simp)
  | cons k ks ih =>
    apply ih
    refine ⟨fun j hj => h.new j (List.mem_cons_of_mem k hj), fun j hj => ?_⟩
    show (s.fds.close k).get j = f j
    rw [FdTable.get_close]
    split
    · next heq => rw [heq, h.new k (List.mem_cons_self ..)]
    · next hne => exact h.kept j (by simp [hne, hj])

end Extends

theorem foldl_close_answers (ks : List Nat) (s : FdState) :
    (ks.foldl close s).answers = s.answers := by
  induction ks generalizing s with
  | nil => rfl
  | cons k ks ih => exact ih (s.close k)

variable {s s' : FdState}

theorem openFd_cases (s : FdState) :
    (∃ answers, s.openFd = (none, { s with answers := answers })) ∨
    ∃ d answers, s.openFd = (some s.fds.lowest, ⟨s.fds.put s.fds.lowest d, answers⟩) := by
  obtain ⟨fds, answers⟩ := s
  rcases answers with - | ⟨- | d, answers⟩
  · exact .inl ⟨[], rfl⟩
  · exact .inl ⟨answers, rfl⟩
  · exact .inr ⟨d, answers, rfl⟩

/-- A file that is opened and closed again leaves no trace. -/
theorem openFd_close {fd : Option Nat} (h : s.openFd = (fd, s')) :
    (fd.elim s' s'.close).fds.get = s.fds.get := by
  rcases openFd_cases s with ⟨answers, hopen⟩ | ⟨d, answers, hopen⟩
  · rw [hopen] at h
    cases h
    rfl
  · rw [hopen] at h
    cases h
    exact ((Extends.refl s.fds.get).put_lowest d).foldl_close (s := ⟨_, answers⟩)

theorem gatherInput_get (s : FdState) (files : List Str) :
    (s.gatherInput files).1.fds.get = s.fds.get := by
  induction files generalizing s with
  | nil => rfl
  | cons file files ih =>
    rw [gatherInput]
    split
    · next hopen => exact openFd_close hopen
    · next hopen => exact (ih _).trans (openFd_close hopen)

theorem validateTargets_get {f : Nat → Option Desc} {opened : List Nat} (files : List (Str × Bool))
    (h : Extends f s.fds.get opened) : (s.validateTargets opened files).1.fds.get = f := by
  induction files generalizing s opened with
  | nil => exact h.foldl_close
  | cons file files ih =>
    rw [validateTargets]
    rcases openFd_cases s with ⟨answers, hopen⟩ | ⟨d, answers, hopen⟩
    · rw [hopen]
      exact h.foldl_close (s := { s with answers := answers })
    · rw [hopen]
      exact ih (h.put_lowest d)

theorem outregValidate_get (s : FdState) (outFiles : List (Str × Bool)) :
    (s.outregValidate outFiles).1.fds.get = s.fds.get :=
  validateTargets_get outFiles (Extends.refl _)

theorem openTargets_extends {f : Nat → Option Desc} {ks : List Nat} (files : List Str)
    (h : Extends f s.fds.get ks) :
    Extends f (s.openTargets files).1.fds.get (ks ++ (s.openTargets files).2.filterMap id) := by
  induction files generalizing s ks with
  | nil => simpa [openTargets] using h
  | cons file files ih =>
    rw [openTargets]
    rcases openFd_cases s with ⟨answers, hopen⟩ | ⟨d, answers, hopen⟩
    · rw [hopen]
      exact ih (s := { s with answers := answers }) h
    · rw [hopen]
      show Extends f _ (ks ++ ([s.fds.lowest] ++ _))
      rw [← List.append_assoc]
      exact ih (h.put_lowest d)

theorem deliver_get (s : FdState) (outFiles : List Str) :
    (s.deliver outFiles).fds.get = s.fds.get := by
  have hopened := openTargets_extends outFiles (Extends.refl s.fds.get)
  apply Extends.foldl_close
  rw [openFd_close rfl]
  exact hopened

/-! ## What is opened for the builtin -/

/-- `dup2(saved, fd)` and `close(saved)` give back the table `f`, if `saved` is new and leads to
where `fd` led, and nothing else has changed. -/
theorem get_restore_eq {f : Nat → Option Desc} {fds : FdTable} {saved fd : Nat}
    (hnew : f saved = none) (hopen : f fd ≠ none) (hsaved : fds.get saved = f fd)
    (hother : ∀ k, k ≠ fd → k ≠ saved → fds.get k = f k) :
    (fds.restore (some saved) fd).get = f := by
  obtain ⟨d, hd⟩ := Option.ne_none_iff_exists'.mp hopen
  have hne : fd ≠ saved := by
    rintro rfl
    exact hopen hnew
  funext k
  by_cases hfd : k = fd
  · rw [hfd, FdTable.get_restore_self (hsaved.trans hd) hne, hd]
  by_cases hk : k = saved
  · rw [hk, FdTable.restore, FdTable.get_close, if_pos rfl, hnew]
  · rw [FdTable.get_restore_of_ne hfd hk, hother k hfd hk]

/-- A descriptor that has been duplicated and led elsewhere. -/
theorem get_restore_dup {fds ran : FdTable} {fd : Nat} {d : Desc} (hd : fds.get fd = some d)
    (hran : ∀ k, k ≠ fd → ran.get k = (fds.put fds.lowest d).get k) :
    (ran.restore (some fds.lowest) fd).get = fds.get := by
  have hopen : fds.get fd ≠ none := by simp [hd]
  refine get_restore_eq fds.get_lowest hopen ?_ fun k hfd hk => ?_
  · rw [hran _ (fds.lowest_ne hopen), FdTable.get_put_self, hd]
  · rw [hran k hfd, FdTable.get_put, if_neg hk]

/-- If descriptor 1 is not open but descriptor 0 is, the next `open` returns it. -/
theorem get_one_put_lowest {fds : FdTable} (h : fds.get 0 ≠ none ∨ fds.get 1 ≠ none) (d : Desc) :
    (fds.put fds.lowest d).get 1 ≠ none := by
  rw [FdTable.get_put]
  split
  · simp
  · next hne =>
    intro hnone
    have hle : fds.lowest ≤ 1 := FdTable.lowest_le hnone
    have hne₀ : fds.lowest ≠ 0 := fds.lowest_ne (h.resolve_right (not_not_intro hnone))
    omega

theorem setupInput_get {tmpFd : InputFd} {inFiles : List Str}
    (h : s.setupInput inFiles = (s', tmpFd)) :
    match tmpFd with
    | .fd t => t = s.fds.lowest ∧ ∃ d, s'.fds.get = (s.fds.put t d).get
    | .none | .missing => s'.fds.get = s.fds.get := by
  rw [setupInput] at h
  split at h
  · cases h
    rfl
  rcases openFd_cases s with ⟨answers, hopen⟩ | ⟨d, answers, hopen⟩
  · rw [hopen] at h
    cases h
    rfl
  · rw [hopen] at h
    dsimp only at h
    have hgather := gatherInput_get ⟨s.fds.put s.fds.lowest d, answers⟩ inFiles
    split at h
    · next s₂ heq =>
      cases h
      rw [heq] at hgather
      exact ⟨rfl, d, hgather⟩
    · next s₂ heq =>
      cases h
      rw [heq] at hgather
      have hclosed := ((Extends.refl s.fds.get).put_lowest d)
      rw [← hgather] at hclosed
      exact hclosed.foldl_close

/-- Descriptor 0, if it was open, can be led back to where it led. -/
theorem swapStdin_get {inFiles : List Str} {saved : Option (Option Nat)} (hin : s.fds.get 0 ≠ none)
    (h : s.swapStdin inFiles = (s', saved)) :
    match saved with
    | none => s'.fds.get = s.fds.get
    | some saved => s'.fds.get 0 ≠ none ∧
      ∀ fds : FdTable, fds.get = s'.fds.get → (fds.restore saved 0).get = s.fds.get := by
  rw [swapStdin] at h
  split at h
  · cases h
    exact ⟨hin, fun fds hfds => hfds⟩
  split at h
  · next s₁ t hsetup =>
    obtain ⟨rfl, d, hget⟩ := setupInput_get hsetup
    obtain ⟨d₀, hd₀⟩ := Option.ne_none_iff_exists'.mp hin
    have hin₁ : s₁.fds.get 0 = some d₀ := by rw [hget, FdTable.get_put_lowest d hd₀]
    have htmp₁ : s₁.fds.get s.fds.lowest = some d := by rw [hget, FdTable.get_put_self]
    rw [FdTable.dup_eq hin₁] at h
    cases h
    -- the saved descriptor is new in both tables, and the temporary file is closed again
    have hne : s₁.fds.lowest ≠ s.fds.lowest := s₁.fds.lowest_ne (by simp [htmp₁])
    have hne₀ : s.fds.lowest ≠ 0 := s.fds.lowest_ne hin
    have hnew : s.fds.get s₁.fds.lowest = none := by
      have hlowest := s₁.fds.get_lowest
      rwa [hget, FdTable.get_put, if_neg hne] at hlowest
    have htmp₂ := FdTable.get_put_lowest d₀ htmp₁
    have hswapped : ∀ k, k ≠ s.fds.lowest →
        (((s₁.fds.put s₁.fds.lowest d₀).dup2 s.fds.lowest 0).close s.fds.lowest).get k =
          if k = 0 then some d else (s₁.fds.put s₁.fds.lowest d₀).get k := by
      intro k hk
      rw [FdTable.get_close, if_neg hk, FdTable.get_dup2 _ htmp₂]
    refine ⟨by simp [hswapped 0 hne₀.symm], fun fds hfds => ?_⟩
    refine get_restore_eq hnew hin ?_ fun k hk₀ hk => ?_
    · have hne₁ : s₁.fds.lowest ≠ 0 := s₁.fds.lowest_ne (by simp [hin₁])
      rw [hfds, hswapped _ hne, if_neg hne₁, FdTable.get_put_self, hd₀]
    · by_cases hkt : k = s.fds.lowest
      · rw [hfds, hkt, FdTable.get_close, if_pos rfl, FdTable.get_lowest]
      · rw [hfds, hswapped k hkt, if_neg hk₀, FdTable.get_put, if_neg hk, hget,
          FdTable.get_put, if_neg hkt]
  · next s₁ t hother hsetup =>
    cases h
    cases t with
    | fd t => exact absurd rfl (hother t)
    | none => exact setupInput_get hsetup
    | missing => exact setupInput_get hsetup

/-- Descriptor 1 can be led back, too; if it was not open, it belongs to the temporary file. -/
theorem swapStdout_get {outFiles : List (Str × Bool)} {swap : Option (Option Nat × Option Nat)}
    (hopen : s.fds.get 0 ≠ none ∨ s.fds.get 1 ≠ none) (h : s.swapStdout outFiles = (s', swap)) :
    match swap with
    | none => s'.fds.get = s.fds.get
    | some (tmpOutFd, saved) => ∀ (ran : FdState) (files : List Str), ran.fds.get = s'.fds.get →
      (ran.restoreStdout tmpOutFd saved files).fds.get = s.fds.get := by
  have hvalid := outregValidate_get s outFiles
  rw [swapStdout] at h
  split at h
  · cases h
    exact fun ran files hran => hran
  split at h
  · next s₁ heq =>
    cases h
    rwa [heq] at hvalid
  next s₁ heq =>
  rw [heq] at hvalid
  rw [← hvalid] at hopen ⊢
  clear heq hvalid
  rcases openFd_cases s₁ with ⟨answers, hopen₁⟩ | ⟨d, answers, hopen₁⟩
  · rw [hopen₁] at h
    cases hout : s₁.fds.get 1 with
    | none =>
      simp only [FdTable.dup, hout] at h
      cases h
      exact fun ran files hran => hran
    | some d =>
      simp only [FdTable.dup_eq hout] at h
      cases h
      intro ran files hran
      rw [restoreStdout, deliver_get]
      exact get_restore_dup hout fun k _ => congrFun hran k
  · rw [hopen₁] at h
    have hout := get_one_put_lowest hopen d
    obtain ⟨d₁, hd₁⟩ := Option.ne_none_iff_exists'.mp hout
    simp only [FdTable.dup_eq hd₁, Option.elim] at h
    cases h
    intro ran files hran
    rw [restoreStdout, deliver_get]
    -- the table with the temporary file is restored, and then the file is closed
    have hrestored : (ran.fds.restore (some (s₁.fds.put s₁.fds.lowest d).lowest) 1).get =
        (s₁.fds.put s₁.fds.lowest d).get := by
      refine get_restore_dup hd₁ fun k hk => ?_
      rw [hran, FdTable.get_dup2_of_ne hk]
    show ((ran.fds.restore _ 1).close s₁.fds.lowest).get = s₁.fds.get
    rw [FdTable.close_congr hrestored]
    exact ((Extends.refl s₁.fds.get).put_lowest d).foldl_close (s := ⟨_, answers⟩)

/-- Whatever the calls of `open` answer, the table is restored. (Descriptor 1 need not be open.) -/
theorem execBuiltin_get {run : FdState → FdState} (hrun : ∀ s, (run s).fds.get = s.fds.get)
    (tokens : List Token) {s : FdState} (hin : s.fds.get 0 ≠ none) :
    (s.execBuiltin run tokens).fds.get = s.fds.get := by
  rw [execBuiltin]
  obtain ⟨args, inFiles, outFiles⟩ := stripRedirections tokens
  dsimp only
  rcases hstdin : s.swapStdin inFiles with ⟨s₁, - | savedStdin⟩
  · exact swapStdin_get hin hstdin
  obtain ⟨hin₁, hrestore⟩ := swapStdin_get hin hstdin
  dsimp only
  rcases hstdout : s₁.swapStdout outFiles with ⟨s₂, - | ⟨tmpOutFd, savedStdout⟩⟩
  · exact hrestore _ (swapStdout_get (.inl hin₁) hstdout)
  · exact hrestore _ (swapStdout_get (.inl hin₁) hstdout _ _ (hrun s₂))

/-! ## The answers of the file system -/

/-- There are answers with which `step` results in `r`, whatever the table is and whatever is
answered afterwards. -/
def Answers {α : Type*} (step : FdState → FdState × α) (r : α) : Prop :=
  ∃ answers, ∀ fds rest, ∃ fds', step ⟨fds, answers ++ rest⟩ = (⟨fds', rest⟩, r)

theorem gatherInput_answers (fs : Files Str Char) (ino : Nat) (locate : Str → Str)
    (files : List Str) :
    Answers (·.gatherInput files) (UnixCShell.gatherInput fs ino (files.map locate)).2 := by
  induction files generalizing fs with
  | nil => exact ⟨[], fun fds rest => ⟨fds, rfl⟩⟩
  | cons file files ih =>
    rw [List.map_cons, UnixCShell.gatherInput]
    cases fs.openRead (locate file) with
    | none => exact ⟨[none], fun fds rest => ⟨fds, rfl⟩⟩
    | some src =>
      obtain ⟨answers, hanswers⟩ := ih (fs.copyAll copyChunk src [ino])
      exact ⟨some (.file src) :: answers, fun fds rest => hanswers _ rest⟩

theorem validateTargets_answers (fs : Files Str Char) (locate : Str → Str) (opened : List Nat)
    (files : List (Str × Bool)) :
    Answers (·.validateTargets opened files)
      (UnixCShell.validateTargets fs (files.map fun f => (locate f.1, f.2))).2 := by
  have hclosed : ∀ opened fds rest, ∃ fds', List.foldl close ⟨fds, rest⟩ opened = ⟨fds', rest⟩ :=
    fun opened fds rest => ⟨_, congrArg (FdState.mk _) (foldl_close_answers opened ⟨fds, rest⟩)⟩
  have hanswers : ∃ answers, ∀ opened fds rest, ∃ fds',
    validateTargets ⟨fds, answers ++ rest⟩ opened files =
      (⟨fds', rest⟩, (UnixCShell.validateTargets fs (files.map fun f => (locate f.1, f.2))).2) := by
    induction files generalizing fs with
    | nil =>
      refine ⟨[], fun opened fds rest => ?_⟩
      obtain ⟨fds', hfold⟩ := hclosed opened fds rest
      exact ⟨fds', congrArg (·, true) hfold⟩
    | cons file files ih =>
      rw [List.map_cons, UnixCShell.validateTargets]
      cases fs.openWrite (!file.2) (locate file.1) with
      | none =>
        refine ⟨[none], fun opened fds rest => ?_⟩
        obtain ⟨fds', hfold⟩ := hclosed opened fds rest
        exact ⟨fds', congrArg (·, false) hfold⟩
      | some p =>
        obtain ⟨ino, fs'⟩ := p
        obtain ⟨answers, hanswers⟩ := ih fs'
        exact ⟨some (.file ino) :: answers, fun opened fds rest => hanswers _ _ rest⟩
  obtain ⟨answers, hanswers⟩ := hanswers
  exact ⟨answers, hanswers opened⟩

/-- The answers that the file system gives for the input files. -/
theorem swapStdin_answers (w : World) (inFiles : List Str) :
    ∃ answers, ∀ rest, ∃ fds', swapStdin ⟨w.fds, answers ++ rest⟩ inFiles =
      (⟨fds', rest⟩, (w.swapStdin inFiles).2) ∧
      fds'.get = (w.swapStdin inFiles).1.fds.get := by
  by_cases hnil : inFiles = []
  · rw [World.swapStdin, if_pos hnil]
    exact ⟨[], fun rest => ⟨w.fds, if_pos hnil, rfl⟩⟩
  rw [World.swapStdin, if_neg hnil, World.setupInput, if_neg hnil]
  cases w.fs.openWrite true (w.locate (tmpInName 9001)) with
  | none =>
    refine ⟨[none], fun rest => ⟨w.fds, ?_, rfl⟩⟩
    simp [swapStdin, setupInput, hnil, openFd]
  | some p =>
    obtain ⟨ino, fs⟩ := p
    obtain ⟨answers, hanswers⟩ := gatherInput_answers fs ino w.locate inFiles
    refine ⟨some (.file ino) :: answers, fun rest => ?_⟩
    obtain ⟨fds', hgather⟩ := hanswers (w.fds.put w.fds.lowest (.file ino)) rest
    have hget : fds'.get = (w.fds.put w.fds.lowest (.file ino)).get :=
      (congrArg (fun r => r.1.fds.get) hgather).symm.trans (gatherInput_get _ inFiles)
    dsimp only [FdTable.alloc] at hgather ⊢
    generalize UnixCShell.gatherInput fs ino (inFiles.map w.locate) = gathered at hgather ⊢
    obtain ⟨fs', - | -⟩ := gathered
    · refine ⟨fds'.close w.fds.lowest, ?_, FdTable.close_congr hget _⟩
      simp [swapStdin, setupInput, hnil, openFd, hgather, close]
    · obtain ⟨hdup, hdup'⟩ := FdTable.dup_congr hget 0
      refine ⟨((fds'.dup 0).2.dup2 w.fds.lowest 0).close w.fds.lowest, ?_,
        FdTable.close_congr (FdTable.dup2_congr hdup' _ _) _⟩
      simp [swapStdin, setupInput, hnil, openFd, hgather, hdup]

/-- The answers that it gives for the targets. -/
theorem swapStdout_answers (w : World) (outFiles : List (Str × Bool)) :
    ∃ answers, ∀ fds : FdTable, fds.get = w.fds.get →
      ∃ s', swapStdout ⟨fds, answers⟩ outFiles = (s', (w.swapStdout outFiles).2) ∧
        s'.fds.get = (w.swapStdout outFiles).1.fds.get := by
  by_cases hnil : outFiles = []
  · rw [World.swapStdout, if_pos hnil]
    exact ⟨[], fun fds h => ⟨⟨fds, []⟩, if_pos hnil, h⟩⟩
  obtain ⟨answers, hanswers⟩ := validateTargets_answers w.fs w.locate [] outFiles
  rw [World.swapStdout, if_neg hnil, World.outregValidate]
  generalize UnixCShell.validateTargets w.fs (outFiles.map fun f => (w.locate f.1, f.2)) =
    valid at hanswers ⊢
  have hvalidated : ∀ fds : FdTable, fds.get = w.fds.get → ∀ rest, ∃ fds',
      outregValidate ⟨fds, answers ++ rest⟩ outFiles = (⟨fds', rest⟩, valid.2) ∧
          fds'.get = w.fds.get := by
    intro fds h rest
    obtain ⟨fds', hvalid⟩ := hanswers fds rest
    exact ⟨fds', hvalid, (congrArg (fun r => r.1.fds.get) hvalid).symm.trans
      ((outregValidate_get _ outFiles).trans h)⟩
  obtain ⟨fs, - | -⟩ := valid
  · refine ⟨answers ++ [], fun fds h => ?_⟩
    obtain ⟨fds', hvalid, hget⟩ := hvalidated fds h []
    refine ⟨⟨fds', []⟩, ?_, hget⟩
    simp only [swapStdout, if_neg hnil, hvalid]
  dsimp only
  cases fs.openWrite true
    (World.locate { w with fs := fs } (World.tmpBuiltinName { w with fs := fs })) with
  | none =>
    refine ⟨answers ++ [none], fun fds h => ?_⟩
    obtain ⟨fds', hvalid, hget⟩ := hvalidated fds h [none]
    obtain ⟨hdup, hdup'⟩ := FdTable.dup_congr hget 1
    refine ⟨⟨(fds'.dup 1).2, []⟩, ?_, hdup'⟩
    simp [swapStdout, hnil, hvalid, openFd, hdup]
  | some p =>
    obtain ⟨ino, fs'⟩ := p
    refine ⟨answers ++ [some (.file ino)], fun fds h => ?_⟩
    obtain ⟨fds', hvalid, hget⟩ := hvalidated fds h [some (.file ino)]
    have hlowest := FdTable.lowest_congr hget
    obtain ⟨hdup, hdup'⟩ := FdTable.dup_congr (FdTable.put_congr hget w.fds.lowest (.file ino)) 1
    refine ⟨⟨((fds'.put w.fds.lowest (.file ino)).dup 1).2.dup2 w.fds.lowest 1, []⟩, ?_,
      FdTable.dup2_congr hdup' _ _⟩
    simp [swapStdout, hnil, hvalid, openFd, hdup, hlowest, FdTable.alloc]

theorem restoreStdout_congr {w : World} (h : s.fds.get = w.fds.get) (tmpOutFd saved : Option Nat)
    (files : List Str) :
    (s.restoreStdout tmpOutFd saved files).fds.get =
      (w.restoreStdout tmpOutFd saved files).fds.get := by
  cases saved with
  | none => exact h
  | some saved =>
    rw [restoreStdout, deliver_get]
    have hrestored := FdTable.restore_congr h (some saved) 1
    cases tmpOutFd with
    | none => exact hrestored
    | some fd => exact FdTable.close_congr hrestored fd

/-- `World.execBuiltin` does to the descriptors what is done here with the answers of its file
system. -/
theorem execBuiltin_answers {run : List Token → World → Except World World}
    (hrun : ∀ args w w', run args w = .ok w' → w'.fds.get = w.fds.get)
    {tokens : List Token} {w w' : World} (h : World.execBuiltin run tokens w = .ok w') :
    ∃ answers, (execBuiltin id tokens ⟨w.fds, answers⟩).fds.get = w'.fds.get := by
  rcases hstrip : stripRedirections tokens with ⟨args, inFiles, outFiles⟩
  obtain ⟨answers₁, hanswers₁⟩ := swapStdin_answers w inFiles
  rw [World.execBuiltin, hstrip] at h
  simp only [execBuiltin, hstrip]
  dsimp only at h
  generalize w.swapStdin inFiles = stdin at h hanswers₁
  obtain ⟨w₁, - | savedStdin⟩ := stdin
  · obtain ⟨fds₁, hstdin, hget₁⟩ := hanswers₁ []
    cases h
    exact ⟨answers₁ ++ [], by rw [hstdin]; exact hget₁⟩
  obtain ⟨answers₂, hanswers₂⟩ := swapStdout_answers w₁ outFiles
  obtain ⟨fds₁, hstdin, hget₁⟩ := hanswers₁ answers₂
  obtain ⟨s₂, hstdout, hget₂⟩ := hanswers₂ fds₁ hget₁
  refine ⟨answers₁ ++ answers₂, ?_⟩
  rw [hstdin]
  dsimp only at h ⊢
  rw [hstdout]
  dsimp only
  generalize w₁.swapStdout outFiles = stdout at h hget₂
  obtain ⟨w₂, - | ⟨tmpOutFd, savedStdout⟩⟩ := stdout
  · cases h
    exact FdTable.restore_congr hget₂ savedStdin 0
  · dsimp only at h
    cases hok : run args w₂ with
    | error w₃ => simp [hok] at h
    | ok w₃ =>
      rw [hok] at h
      cases h
      have hget₃ : s₂.fds.get = w₃.fds.get := hget₂.trans (hrun _ _ _ hok).symm
      exact FdTable.restore_congr (restoreStdout_congr hget₃ ..) savedStdin 0

end FdState

/-- **The descriptors around a builtin.** `exec_cmd` leaves the descriptor table as it was, if the
builtin does: with every way in which its calls of `open` may succeed or fail, and in the shell
itself. (Descriptor 0 is open, since the command was read from it.) -/
theorem execBuiltin_restores {w : World} (hin : w.fds.get 0 ≠ none) (tokens : List Token) :
    (∀ (answers : List (Option Desc)) (run : FdState → FdState),
      (∀ s, (run s).fds.get = s.fds.get) →
      (FdState.execBuiltin run tokens ⟨w.fds, answers⟩).fds.get = w.fds.get) ∧
    ∀ run : List Token → World → Except World World,
      (∀ args w w', run args w = .ok w' → w'.fds.get = w.fds.get) →
      ∀ w', World.execBuiltin run tokens w = .ok w' → w'.fds.get = w.fds.get := by
  refine ⟨fun answers run hrun => FdState.execBuiltin_get hrun tokens hin, fun run hrun w' h => ?_⟩
  obtain ⟨answers, hanswers⟩ := FdState.execBuiltin_answers hrun h
  rw [← hanswers]
  exact FdState.execBuiltin_get (fun _ => rfl) tokens hin

/-- `peek < f > g`, whether or not the four files can be opened. -/
theorem execBuiltin_restores_peek :
    World.init.fds.get 0 ≠ none ∧
    ∀ answers, (FdState.execBuiltin id (peekF ++ [⟨.opGt, ['>']⟩, word "g"])
      ⟨World.init.fds, answers⟩).fds.get = World.init.fds.get :=
  ⟨by decide, fun answers => (execBuiltin_restores (by decide) _).1 answers id fun _ => rfl⟩

end UnixCShell
