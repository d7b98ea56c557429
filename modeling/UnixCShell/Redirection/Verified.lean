import UnixCShell.Redirection.Basic

/-!
# What is delivered

What `setup_input` collects: if every input file can be opened, the temporary file gets their
contents, one after the other. Then the specification of `deliver`, the common end of the redirected
external command and of the redirected builtin: if the targets exist and can be opened, are pairwise
different files and not the temporary file, every target grows by the contents of the temporary
file, and nothing else changes but that the temporary file is gone.
-/

namespace UnixCShell

open Lib

variable {fs : Files Str Char}

/-! ## Input -/

/-- What the files with these names hold, one after the other. -/
def concatenation (fs : Files Str Char) (files : List Str) : Str :=
  files.flatMap fun f => (fs.contents f).getD []

theorem gatherInput_eq {ino : Nat} {files : List Str}
    (hfiles : ∀ f ∈ files, ∃ src, fs.openRead f = some src ∧ src ≠ ino) :
    ∃ fs', gatherInput fs ino files = (fs', true) ∧ fs.SameNames fs' ∧
      fs'.data ino = fs.data ino ++ concatenation fs files := by
  induction files generalizing fs with
  | nil => exact ⟨fs, rfl, .refl fs, (List.append_nil _).symm⟩
  | cons f files ih =>
    obtain ⟨src, hopen, hsrc⟩ := hfiles f List.mem_cons_self
    have hnames := fs.copyAll_sameNames copyChunk src [ino]
    have hchunk : 0 < copyChunk := by decide
    have hdata := Files.copyAll_data hchunk (by simpa using hsrc) (List.nodup_singleton ino) fs
    -- the other files are not touched by the copy of the first one
    have hcontents : ∀ g ∈ files,
        (fs.copyAll copyChunk src [ino]).contents g = fs.contents g := by
      intro g hg
      obtain ⟨src', hopen', hsrc'⟩ := hfiles g (List.mem_cons_of_mem _ hg)
      have hg := (Files.openRead_eq_some.mp hopen').2
      simp [Files.contents, hnames.dir, hg, hdata, hsrc']
    have hfiles' : ∀ g ∈ files, ∃ src', (fs.copyAll copyChunk src [ino]).openRead g = some src' ∧
        src' ≠ ino := by
      intro g hg
      have := hfiles g (List.mem_cons_of_mem _ hg)
      rwa [Files.openRead, hnames.readable, hnames.dir]
    obtain ⟨fs', hgather, hnames', hdata'⟩ := ih hfiles'
    have hcons : concatenation fs (f :: files) = fs.data src ++ concatenation fs files := by
      rw [concatenation, List.flatMap_cons, Files.contents, (Files.openRead_eq_some.mp hopen).2]
      rfl
    have hrest : concatenation (fs.copyAll copyChunk src [ino]) files = concatenation fs files :=
      List.flatMap_congr fun g hg => by rw [hcontents g hg]
    refine ⟨fs', ?_, hnames.trans hnames', ?_⟩
    · rw [gatherInput, hopen]
      exact hgather
    · rw [hdata', hrest, hdata, if_pos (by simp), hcons, List.append_assoc]

/-- The loop fails if and only if one of the files cannot be opened. -/
theorem gatherInput_snd (fs : Files Str Char) (ino : Nat) (files : List Str) :
    (gatherInput fs ino files).2 = true ↔ ∀ f ∈ files, fs.openRead f ≠ none := by
  induction files generalizing fs with
  | nil => simp [gatherInput]
  | cons f files ih =>
    rw [gatherInput]
    cases hopen : fs.openRead f with
    | none => simp [hopen]
    | some src =>
      have hnames := fs.copyAll_sameNames copyChunk src [ino]
      have hread : ∀ g, (fs.copyAll copyChunk src [ino]).openRead g = fs.openRead g := by
        intro g
        rw [Files.openRead, Files.openRead, hnames.readable, hnames.dir]
      simp [ih, hread, hopen]

/-! ### Names -/

/-- Names are resolved from the working directory. -/
theorem World.locate_congr {v w : World} (h : v.cwd = w.cwd) : v.locate = w.locate := by
  funext name
  rw [World.locate, World.locate, h]

theorem World.locate_of_relative {name : Str} (h : name.head? ≠ some '/') (w : World) :
    w.locate name = w.cwd ++ '/' :: name := if_neg h

theorem World.locate_tmpInName (w : World) (i : Nat) :
    w.locate (tmpInName i) = w.cwd ++ '/' :: tmpInName i := by
  have hhead : (tmpInName i).head? = some '.' := rfl
  exact World.locate_of_relative (by rw [hhead]; decide) w

theorem World.locate_tmpOutName (w : World) (pid : Int) :
    w.locate (tmpOutName pid) = w.cwd ++ '/' :: tmpOutName pid := by
  have hhead : (tmpOutName pid).head? = some '.' := rfl
  exact World.locate_of_relative (by rw [hhead]; decide) w

theorem World.locate_tmpOutName_ne (w : World) (pid : Int) (i : Nat) :
    w.locate (tmpOutName pid) ≠ w.locate (tmpInName i) := by
  intro h
  rw [locate_tmpOutName, locate_tmpInName] at h
  have hname : tmpOutName pid = tmpInName i := (List.cons.inj (List.append_cancel_left h)).2
  -- the names differ where one says `out` and the other `in`
  have hout : (tmpOutName pid)[12]? = some 'o' := rfl
  have hin : (tmpInName i)[12]? = some 'i' := rfl
  rw [hname, hin] at hout
  exact absurd hout (by decide)

/-- The temporary file for the input of command `i` belongs to the shell: it has no second name, and
is none of the input files. -/
structure TmpInOwn (w : World) (i : Nat) (inFiles : List Str) : Prop where
  own   : ∀ m k, w.fs.dir (w.locate (tmpInName i)) = some k → w.fs.dir m = some k →
    m = w.locate (tmpInName i)
  other : ∀ f ∈ inFiles, w.locate f ≠ w.locate (tmpInName i)

/-- The input files are gathered in a file with a single name. -/
theorem TmpInOwn.setupInput_eq {w : World} {i : Nat} {inFiles : List Str} (h : TmpInOwn w i inFiles)
    (hne : inFiles ≠ []) (hwritable : w.fs.writable (w.locate (tmpInName i)) = true)
    (hreadable : ∀ f ∈ inFiles, (w.fs.openRead (w.locate f)).isSome) :
    ∃ fs ino, w.setupInput inFiles i =
        ({ w with fs := fs, fds := w.fds.put w.fds.lowest (.file ino) }, .fd w.fds.lowest) ∧
      fs.NamedIn {w.locate (tmpInName i)} ino ∧
      fs.data ino = concatenation w.fs (inFiles.map w.locate) := by
  obtain ⟨ino, fs₁, hopen, hlt, hempty, honly, hsame⟩ := Files.openWrite_own hwritable h.own
  have hother : ∀ f ∈ inFiles.map w.locate, f ≠ w.locate (tmpInName i) := by
    intro f hf
    obtain ⟨g, hg, rfl⟩ := List.mem_map.mp hf
    exact h.other g hg
  have hfiles : ∀ f ∈ inFiles.map w.locate, ∃ src, fs₁.openRead f = some src ∧ src ≠ ino := by
    intro f hf
    obtain ⟨g, hg, rfl⟩ := List.mem_map.mp hf
    obtain ⟨src, hsrc⟩ := Option.isSome_iff_exists.mp (hreadable g hg)
    have hsrc₁ := (hsame _ (hother _ hf)).1.trans hsrc
    refine ⟨src, hsrc₁, ?_⟩
    rintro rfl
    exact hother _ hf (honly _ (Files.openRead_eq_some.mp hsrc₁).2)
  obtain ⟨fs, hgather, hnames, hdata⟩ := gatherInput_eq hfiles
  refine ⟨fs, ino, ?_, ⟨hnames.next.symm ▸ hlt, fun m hm => honly m (hnames.dir ▸ hm)⟩, ?_⟩
  · rw [World.setupInput, if_neg hne, hopen]
    dsimp only
    rw [hgather]
    rfl
  · rw [hdata, hempty, List.nil_append]
    exact List.flatMap_congr fun f hf => by rw [(hsame f (hother f hf)).2]

/-! ## Delivery -/

/-- Targets that exist are opened as they are. -/
theorem openTargets_of_exist {targets : List Str} (hwritable : ∀ t ∈ targets, fs.writable t = true)
    (hexist : ∀ t ∈ targets, (fs.dir t).isSome) :
    openTargets fs targets = (fs, targets.map fs.dir) := by
  induction targets with
  | nil => rfl
  | cons t targets ih =>
    obtain ⟨i, hi⟩ := Option.isSome_iff_exists.mp (hexist t List.mem_cons_self)
    have hopen : fs.openWrite false t = some (i, fs) := by
      simp [Files.openWrite, hwritable t List.mem_cons_self, hi]
    rw [openTargets, hopen]
    simp only [ih (fun t ht => hwritable t (List.mem_cons_of_mem _ ht))
      (fun t ht => hexist t (List.mem_cons_of_mem _ ht)), List.map_cons, hi]

/-- A temporary file and targets it can be delivered to: all targets exist and can be opened, and
they are different files, none of them the temporary one. -/
structure Deliverable (fs : Files Str Char) (tmpname : Str) (targets : List Str) (src : Nat) :
    Prop where
  writable : ∀ t ∈ targets, fs.writable t = true
  exist    : ∀ t ∈ targets, (fs.dir t).isSome
  readable : fs.readable tmpname = true
  tmp      : fs.dir tmpname = some src
  other    : src ∉ targets.filterMap fs.dir
  distinct : (targets.filterMap fs.dir).Nodup

namespace Deliverable

variable {tmpname : Str} {targets : List Str} {src : Nat}

theorem deliver_eq (h : Deliverable fs tmpname targets src) :
    deliver fs tmpname targets =
      (fs.copyAll copyChunk src (targets.filterMap fs.dir)).unlink tmpname := by
  have hread : fs.openRead tmpname = some src := by simp [Files.openRead, h.readable, h.tmp]
  simp only [deliver, openTargets_of_exist h.writable h.exist, hread, List.filterMap_map]
  rfl

/-- Every target grows by the contents of the temporary file. -/
theorem deliver_data (h : Deliverable fs tmpname targets src) (i : Nat) :
    (deliver fs tmpname targets).data i =
      if i ∈ targets.filterMap fs.dir then fs.data i ++ fs.data src else fs.data i := by
  rw [h.deliver_eq]
  exact Files.copyAll_data (by decide) h.other h.distinct fs i

/-- Only the name of the temporary file goes away. -/
theorem deliver_dir (h : Deliverable fs tmpname targets src) :
    (deliver fs tmpname targets).dir = Function.update fs.dir tmpname none := by
  have hdir := (fs.copyAll_sameNames copyChunk src (targets.filterMap fs.dir)).dir
  rw [h.deliver_eq]
  show Function.update (fs.copyAll _ _ _).dir tmpname none = _
  rw [hdir]

/-- The name of a target is not that of the temporary file. -/
theorem ne_tmpname (h : Deliverable fs tmpname targets src) {t : Str} (ht : t ∈ targets) :
    t ≠ tmpname := by
  rintro rfl
  exact h.other (List.mem_filterMap.mpr ⟨t, ht, h.tmp⟩)

/-- Writing to a file keeps all of this. -/
theorem append (h : Deliverable fs tmpname targets src) (i : Nat) (bs : Str) :
    Deliverable (fs.append i bs) tmpname targets src :=
  ⟨h.writable, h.exist, h.readable, h.tmp, h.other, h.distinct⟩

end Deliverable

/-! ## Validation -/

theorem openWrite_true_data {n : Str} {i : Nat} {fs' : Files Str Char}
    (h : fs.openWrite true n = some (i, fs')) : fs'.data i = [] := by
  obtain ⟨-, ⟨-, rfl⟩ | ⟨-, rfl, rfl⟩⟩ := Files.openWrite_cases h
  · simp
  · simp [Files.create]

theorem openWrite_some {trunc : Bool} {n : Str} {i : Nat} {fs' : Files Str Char}
    (h : fs.openWrite trunc n = some (i, fs')) :
    fs.writable n = true ∧ fs'.dir n = some i ∧ fs'.writable = fs.writable ∧
      fs'.readable = fs.readable ∧ ∀ m j, fs.dir m = some j → fs'.dir m = some j := by
  obtain ⟨hwritable, ⟨hi, rfl⟩ | ⟨hnone, rfl, rfl⟩⟩ := Files.openWrite_cases h
  · refine ⟨hwritable, ?_⟩
    split <;> exact ⟨hi, rfl, rfl, fun _ _ => id⟩
  · refine ⟨hwritable, by simp [Files.create], rfl, rfl, ?_⟩
    intro m j hm
    have hne : m ≠ n := by
      rintro rfl
      rw [hnone] at hm
      cases hm
    simpa [Files.create, hne] using hm

/-- A file that has none of the names of the targets is left alone. -/
theorem validateTargets_namedIn {names : Set Str} {i : Nat} {files : List (Str × Bool)}
    (h : fs.NamedIn names i) (hfiles : ∀ f ∈ files, f.1 ∉ names) :
    (validateTargets fs files).1.NamedIn names i ∧
      (validateTargets fs files).1.data i = fs.data i := by
  induction files generalizing fs with
  | nil => exact ⟨h, rfl⟩
  | cons f files ih =>
    obtain ⟨file, append⟩ := f
    obtain ⟨hfile, hrest⟩ := List.forall_mem_cons.mp hfiles
    rw [validateTargets]
    split
    · exact ⟨h, rfl⟩
    · next j fs' hopen =>
      obtain ⟨h', -, hdata⟩ := h.openWrite hfile hopen
      obtain ⟨hnamed, hdata'⟩ := ih h' hrest
      exact ⟨hnamed, hdata'.trans hdata⟩

/-- Targets that have been validated exist and can be opened. -/
theorem validateTargets_true {fs fs' : Files Str Char} {files : List (Str × Bool)}
    (h : validateTargets fs files = (fs', true)) :
    fs'.writable = fs.writable ∧ fs'.readable = fs.readable ∧
      (∀ m j, fs.dir m = some j → fs'.dir m = some j) ∧
      ∀ f ∈ files, fs.writable f.1 = true ∧ (fs'.dir f.1).isSome := by
  induction files generalizing fs with
  | nil =>
    cases h
    exact ⟨rfl, rfl, fun _ _ => id, by simp⟩
  | cons f files ih =>
    obtain ⟨file, append⟩ := f
    rw [validateTargets] at h
    split at h
    · cases h
    · next i fs₁ hopen =>
      obtain ⟨hw, hi, hwritable, hreadable, hdir⟩ := openWrite_some hopen
      obtain ⟨hwritable', hreadable', hdir', hall⟩ := ih h
      refine ⟨hwritable'.trans hwritable, hreadable'.trans hreadable,
        fun m j hm => hdir' m j (hdir m j hm), ?_⟩
      intro g hg
      rcases List.mem_cons.mp hg with rfl | hg
      · exact ⟨hw, by rw [hdir' _ _ hi]; rfl⟩
      · obtain ⟨h1, h2⟩ := hall g hg
        exact ⟨hwritable ▸ h1, h2⟩

theorem outregValidate_true {w w' : World} {outFiles : List (Str × Bool)}
    (h : w.outregValidate outFiles = (w', true)) :
    ∃ fs, validateTargets w.fs (outFiles.map fun f => (w.locate f.1, f.2)) = (fs, true) ∧
      w' = { w with fs := fs } := by
  unfold World.outregValidate at h
  split at h
  · next fs hfs => exact ⟨fs, hfs, (Prod.mk.inj h).1.symm⟩
  · cases h

/-- A registration that finds a free slot. -/
theorem outregRegister_free (w : World) (pid : Int) (outFiles : List Str) {i : Fin outregMax}
    (hne : outFiles ≠ []) (hmax : outFiles.length ≤ outregFilesMax)
    (hfree : w.registry.firstFree = some i) :
    w.outregRegister pid outFiles =
      { w with registry := w.registry.set i (some ⟨pid, outFiles⟩) } := by
  rw [World.outregRegister, if_neg hne, Slots.insert, hfree, List.take_of_length_le hmax]

end UnixCShell
