import UnixCShell.Redirection.Verified

/-!
# Output to several files

The output of a redirected command goes to a temporary file and from there to every target: the
targets are opened and closed once before the command starts, which empties those that are not
appended to; the command writes to its temporary file; and then this file is copied to the targets,
which are opened again, and removed. `FansOut` is this way of the output, with reads of any size.

The temporary file is opened in the working directory, and nobody looks at whether that has worked,
or what file it is. So the targets get the output, and nothing else changes, exactly if the
temporary file is the shell's own (`fansOut_iff`).
-/

namespace UnixCShell

open Lib

variable {fs fs' : Files Str Char}

/-! ## Targets -/

/-- Two names lead to the same file, which need not exist. -/
def SameFile (fs : Files Str Char) (n m : Str) : Prop :=
  n = m ∨ ∃ i, fs.dir n = some i ∧ fs.dir m = some i

/-- The targets are pairwise different files. -/
def DistinctFiles (fs : Files Str Char) (targets : List (Str × Bool)) : Prop :=
  targets.Pairwise fun f g => ¬ SameFile fs f.1 g.1

/-- What a target holds when the command starts: what it held before, if it is appended to. -/
def keptBy (fs : Files Str Char) (f : Str × Bool) : Str :=
  if f.2 then (fs.contents f.1).getD [] else []

/-- What `outreg_validate` does to the files: every target exists, emptied or not, and nothing else
changes. -/
structure Validated (fs : Files Str Char) (targets : List (Str × Bool)) (fs' : Files Str Char) :
    Prop where
  readable : fs'.readable = fs.readable
  writable : fs'.writable = fs.writable
  next     : fs.next ≤ fs'.next
  old      : ∀ n i, fs.dir n = some i → fs'.dir n = some i
  new      : ∀ n i, fs'.dir n = some i → fs.dir n = none →
    n ∈ targets.map Prod.fst ∧ fs.next ≤ i ∧ ∀ m, fs'.dir m = some i → m = n
  target   : ∀ f ∈ targets, fs'.contents f.1 = some (keptBy fs f)
  data     : ∀ i < fs.next, (∀ f ∈ targets, fs.dir f.1 ≠ some i) → fs'.data i = fs.data i

namespace Validated

variable {targets : List (Str × Bool)}

/-- A name that leads to a file now led to it before, or is new. -/
theorem dir_cases (h : Validated fs targets fs') {n : Str} {i : Nat} (hn : fs'.dir n = some i) :
    fs.dir n = some i ∨
      fs.dir n = none ∧ n ∈ targets.map Prod.fst ∧ fs.next ≤ i ∧
        ∀ m, fs'.dir m = some i → m = n := by
  cases hold : fs.dir n with
  | none => exact .inr ⟨rfl, h.new n i hn hold⟩
  | some j =>
    rw [h.old n j hold] at hn
    exact .inl hn

theorem dir_of_not_mem (h : Validated fs targets fs') {n : Str} (hn : n ∉ targets.map Prod.fst) :
    fs'.dir n = fs.dir n := by
  cases hdir : fs'.dir n with
  | none =>
    cases hold : fs.dir n with
    | none => rfl
    | some j =>
      rw [h.old n j hold] at hdir
      cases hdir
  | some i =>
    rcases h.dir_cases hdir with hold | ⟨-, hmem, -⟩
    · exact hold.symm
    · exact absurd hmem hn

theorem sameFile (h : Validated fs targets fs') {n m : Str} (hsame : SameFile fs' n m) :
    SameFile fs n m := by
  rcases hsame with rfl | ⟨i, hn, hm⟩
  · exact .inl rfl
  · rcases h.dir_cases hn with hn' | ⟨-, -, -, honly⟩
    · rcases h.dir_cases hm with hm' | ⟨-, -, -, honly⟩
      · exact .inr ⟨i, hn', hm'⟩
      · exact .inl (honly n hn)
    · exact .inl (honly m hm).symm

/-- A file that is no target keeps its contents. -/
theorem contents (h : Validated fs targets fs') {n : Str}
    (hn : ∀ f ∈ targets, ¬ SameFile fs f.1 n) : fs'.contents n = fs.contents n := by
  have hmem : n ∉ targets.map Prod.fst := by
    intro hmem
    obtain ⟨f, hf, rfl⟩ := List.mem_map.mp hmem
    exact hn f hf (.inl rfl)
  rw [Files.contents, Files.contents, h.dir_of_not_mem hmem]
  cases hdir : fs.dir n with
  | none => rfl
  | some i =>
    have hdata := h.data i (fs.lt_next n i hdir) fun f hf hi => hn f hf (.inr ⟨i, hi, hdir⟩)
    rw [Option.map_some, Option.map_some, hdata]

end Validated

/-- One target. -/
theorem openWrite_validated {n : Str} {append : Bool} {i : Nat}
    (h : fs.openWrite (!append) n = some (i, fs')) : Validated fs [(n, append)] fs' := by
  obtain ⟨-, ⟨hi, rfl⟩ | ⟨hnone, rfl, rfl⟩⟩ := Files.openWrite_cases h
  · cases append with
    | true =>
      refine ⟨rfl, rfl, le_rfl, fun _ _ => id, ?_, ?_, fun _ _ _ => rfl⟩
      · intro m j hm hnone
        rw [Bool.not_true, if_neg (by decide), hnone] at hm
        cases hm
      · simp [keptBy, Files.contents, hi]
    | false =>
      refine ⟨rfl, rfl, le_rfl, fun _ _ => id, ?_, ?_, ?_⟩
      · intro m j hm hnone
        rw [Bool.not_false, if_pos rfl, hnone] at hm
        cases hm
      · simp [keptBy, Files.contents, hi]
      · intro j _ hj
        have hne : j ≠ i := by
          rintro rfl
          exact hj (n, false) (by simp) hi
        exact Function.update_of_ne hne _ _
  · refine ⟨rfl, rfl, Nat.le_succ _, ?_, ?_, ?_, ?_⟩
    · intro m j hm
      have hne : m ≠ n := by
        rintro rfl
        rw [hnone] at hm
        cases hm
      rwa [Files.create_dir_of_ne hne]
    · intro m j hm hold
      have hmn : m = n := by
        by_contra hne
        rw [Files.create_dir_of_ne hne, hold] at hm
        cases hm
      subst hmn
      obtain rfl : fs.next = j := by simpa [Files.create] using hm
      refine ⟨by simp, le_rfl, fun m' hm' => ?_⟩
      by_contra hne
      rw [Files.create_dir_of_ne hne] at hm'
      exact Nat.lt_irrefl _ (fs.lt_next m' _ hm')
    · simp [keptBy, Files.contents, Files.create, hnone]
    · intro j hj _
      exact Function.update_of_ne (Nat.ne_of_lt hj) _ _

/-- A first target and the others, none of which is the same file. -/
theorem Validated.cons {fs₁ : Files Str Char} {f : Str × Bool} {targets : List (Str × Bool)}
    (h : Validated fs [f] fs₁) (hrest : Validated fs₁ targets fs')
    (hne : ∀ g ∈ targets, ¬ SameFile fs f.1 g.1) : Validated fs (f :: targets) fs' where
  readable := hrest.readable.trans h.readable
  writable := hrest.writable.trans h.writable
  next := h.next.trans hrest.next
  old n i hn := hrest.old n i (h.old n i hn)
  new n i hn hnone := by
    rcases hrest.dir_cases hn with hn₁ | ⟨-, hmem, hle, honly⟩
    · obtain ⟨hmem, hle, honly⟩ := h.new n i hn₁ hnone
      refine ⟨by simpa using .inl (List.mem_singleton.mp hmem), hle, fun m hm => ?_⟩
      rcases hrest.dir_cases hm with hm₁ | ⟨-, -, -, honly'⟩
      · exact honly m hm₁
      · exact (honly' n hn).symm
    · exact ⟨List.mem_cons_of_mem _ hmem, h.next.trans hle, honly⟩
  target g hg := by
    rcases List.mem_cons.mp hg with rfl | hg
    · rw [hrest.contents fun g' hg' hsame => hne g' hg' ?_]
      · exact h.target g (by simp)
      · rcases h.sameFile hsame with heq | ⟨i, h₁, h₂⟩
        · exact .inl heq.symm
        · exact .inr ⟨i, h₂, h₁⟩
    · have hcontents : fs₁.contents g.1 = fs.contents g.1 := by
        refine h.contents fun f' hf' => ?_
        rw [List.mem_singleton.mp hf']
        exact hne g hg
      rw [hrest.target g hg, keptBy, keptBy, hcontents]
  data i hi hnot := by
    have h₁ := h.data i hi fun f' hf' => hnot f' (by simp [List.mem_singleton.mp hf'])
    rw [hrest.data i (hi.trans_le h.next) ?_, h₁]
    intro g hg hdir
    rcases h.dir_cases hdir with hold | ⟨-, -, hle, -⟩
    · exact hnot g (List.mem_cons_of_mem _ hg) hold
    · omega

/-- Different files that can all be opened are validated. -/
theorem validateTargets_validated {targets : List (Str × Bool)}
    (hwritable : ∀ f ∈ targets, fs.writable f.1 = true) (hdistinct : DistinctFiles fs targets) :
    ∃ fs', validateTargets fs targets = (fs', true) ∧ Validated fs targets fs' := by
  induction targets generalizing fs with
  | nil =>
    refine ⟨fs, rfl, ⟨rfl, rfl, le_rfl, fun _ _ => id, ?_, by simp, fun _ _ _ => rfl⟩⟩
    intro n i hn hnone
    rw [hnone] at hn
    cases hn
  | cons f targets ih =>
    obtain ⟨hf, hwritable⟩ := List.forall_mem_cons.mp hwritable
    obtain ⟨hne, hdistinct⟩ := List.pairwise_cons.mp hdistinct
    obtain ⟨i, fs₁, hopen⟩ : ∃ i fs₁, fs.openWrite (!f.2) f.1 = some (i, fs₁) := by
      rw [Files.openWrite, if_pos hf]
      split <;> exact ⟨_, _, rfl⟩
    have h := openWrite_validated hopen
    obtain ⟨fs', hvalidate, hrest⟩ := ih (h.writable ▸ hwritable)
      (hdistinct.imp fun hfg hsame => hfg (h.sameFile hsame))
    refine ⟨fs', ?_, h.cons hrest hne⟩
    rw [validateTargets, hopen]
    exact hvalidate

/-! ## The temporary file -/

/-- Opening the targets again, copying the temporary file to them with reads of any size, and
removing it. -/
def DeliversTo (fs : Files Str Char) (tmpname : Str) (targets : List Str) (fs' : Files Str Char) :
    Prop :=
  let (fs, inos) := openTargets fs targets
  match fs.openRead tmpname with
  | some src => ∃ copied, Files.Copies copyChunk src (inos.filterMap id) 0 fs copied ∧
      fs' = copied.unlink tmpname
  | none => fs' = fs.unlink tmpname

/-- A command opens its temporary file and writes to it, if it can be opened. -/
def writeTmp (fs : Files Str Char) (tmpname : Str) (bytes : Str) : Files Str Char :=
  match fs.openWrite true tmpname with
  | some (ino, fs) => fs.append ino bytes
  | none => fs

/-- The way of the output `bytes` to the targets. -/
def FansOut (fs : Files Str Char) (tmpname : Str) (targets : List (Str × Bool)) (bytes : Str)
    (fs' : Files Str Char) : Prop :=
  ∃ fs₁, validateTargets fs targets = (fs₁, true) ∧
    DeliversTo (writeTmp fs₁ tmpname bytes) tmpname (targets.map Prod.fst) fs'

/-- The way of the output behind the validation. -/
theorem fansOut_of_validate {tmpname : Str} {targets : List (Str × Bool)} {bytes : Str}
    {fs₁ : Files Str Char} (h : validateTargets fs targets = (fs₁, true)) :
    FansOut fs tmpname targets bytes fs' ↔
      DeliversTo (writeTmp fs₁ tmpname bytes) tmpname (targets.map Prod.fst) fs' := by
  constructor
  · rintro ⟨fs₂, h₂, hdel⟩
    obtain rfl : fs₁ = fs₂ := congrArg Prod.fst (h.symm.trans h₂)
    exact hdel
  · intro hdel
    exact ⟨fs₁, h, hdel⟩

/-- What is asked for: every target holds what it kept and the output, the temporary file is gone,
and all other files are what they were. -/
structure FannedOut (fs : Files Str Char) (tmpname : Str)
    (targets : List (Str × Bool)) (bytes : Str) (fs' : Files Str Char) : Prop where
  target : ∀ f ∈ targets, fs'.contents f.1 = some (keptBy fs f ++ bytes)
  /-- Other names of a target. -/
  link   : ∀ f ∈ targets, ∀ n i, n ≠ tmpname → fs.dir n = some i → fs.dir f.1 = some i →
    fs'.contents n = some (keptBy fs f ++ bytes)
  other  : ∀ n, n ≠ tmpname → (∀ f ∈ targets, ¬ SameFile fs f.1 n) → fs'.contents n = fs.contents n
  gone   : fs'.contents tmpname = none

/-- A run comes to an end, and always in a file system as it is asked for. -/
def Meets (run spec : Files Str Char → Prop) : Prop := (∃ fs', run fs') ∧ ∀ fs', run fs' → spec fs'

/-- The temporary file is the shell's own: it can be opened, is not among the targets, and if there
is such a file already, it has no second name. -/
structure TmpOwn (fs : Files Str Char) (tmpname : Str) (targets : List (Str × Bool)) : Prop where
  writable : fs.writable tmpname = true
  other    : tmpname ∉ targets.map Prod.fst
  own      : ∀ n i, fs.dir tmpname = some i → fs.dir n = some i → n = tmpname

/-! ## What is delivered -/

theorem deliversTo_iff {tmpname : Str} {targets : List Str} {src : Nat}
    (hwritable : ∀ t ∈ targets, fs.writable t = true) (hexist : ∀ t ∈ targets, (fs.dir t).isSome)
    (hread : fs.openRead tmpname = some src) :
    DeliversTo fs tmpname targets fs' ↔
      ∃ copied, Files.Copies copyChunk src (targets.filterMap fs.dir) 0 fs copied ∧
        fs' = copied.unlink tmpname := by
  simp only [DeliversTo, openTargets_of_exist hwritable hexist, hread, List.filterMap_map]
  rfl

theorem deliversTo_of_missing {tmpname : Str} {targets : List Str}
    (hwritable : ∀ t ∈ targets, fs.writable t = true) (hexist : ∀ t ∈ targets, (fs.dir t).isSome)
    (hdir : fs.dir tmpname = none) :
    DeliversTo fs tmpname targets fs' ↔ fs' = fs.unlink tmpname := by
  have hread : fs.openRead tmpname = none := by simp [Files.openRead, hdir]
  simp only [DeliversTo, openTargets_of_exist hwritable hexist, hread]

/-- Reads of the largest size are one way to deliver. -/
theorem Deliverable.deliversTo {tmpname : Str} {targets : List Str} {src : Nat}
    (h : Deliverable fs tmpname targets src) :
    DeliversTo fs tmpname targets (deliver fs tmpname targets) := by
  have hread : fs.openRead tmpname = some src := by simp [Files.openRead, h.readable, h.tmp]
  rw [deliversTo_iff h.writable h.exist hread, h.deliver_eq]
  exact ⟨_, Files.copies_copyAll (by decide) h.other h.distinct, rfl⟩

/-- The file `ino` is the temporary file, and holds the output. -/
structure Wrote (fs : Files Str Char) (tmpname : Str) (bytes : Str) (ino : Nat)
    (fs' : Files Str Char) : Prop where
  readable : fs'.readable = fs.readable
  writable : fs'.writable = fs.writable
  file     : fs.dir tmpname = some ino ∨ fs.dir tmpname = none ∧ ino = fs.next
  tmp      : fs'.dir tmpname = some ino
  dir      : ∀ n, n ≠ tmpname → fs'.dir n = fs.dir n
  bytes    : fs'.data ino = bytes
  data     : ∀ i, i ≠ ino → fs'.data i = fs.data i

theorem exists_wrote {tmpname : Str} (h : fs.writable tmpname = true) (bytes : Str) :
    ∃ ino, Wrote fs tmpname bytes ino (writeTmp fs tmpname bytes) := by
  cases hdir : fs.dir tmpname with
  | some ino =>
    have hopen : fs.openWrite true tmpname =
        some (ino, { fs with data := Function.update fs.data ino [] }) := by
      simp [Files.openWrite, h, hdir]
    refine ⟨ino, ?_⟩
    rw [writeTmp, hopen]
    exact ⟨rfl, rfl, .inl hdir, hdir, fun _ _ => rfl, by simp [Files.append],
      fun i hi => by simp [Files.append, hi]⟩
  | none =>
    have hopen : fs.openWrite true tmpname = some (fs.next, fs.create tmpname) := by
      simp [Files.openWrite, h, hdir]
    refine ⟨fs.next, ?_⟩
    rw [writeTmp, hopen]
    exact ⟨rfl, rfl, .inr ⟨hdir, rfl⟩, by simp [Files.append, Files.create],
      fun n hn => Files.create_dir_of_ne hn, by simp [Files.append, Files.create],
      fun i hi => by simp [Files.append, Files.create, hi]⟩

/-- The files are where they are when the output is delivered: the targets have been validated, and
the temporary file, which is none of them, holds the output. -/
structure Staged (fs : Files Str Char) (tmpname : Str) (targets : List (Str × Bool)) (bytes : Str)
    (ino : Nat) (fs₁ fs₂ : Files Str Char) : Prop where
  validated : Validated fs targets fs₁
  wrote     : Wrote fs₁ tmpname bytes ino fs₂
  other     : tmpname ∉ targets.map Prod.fst
  writable  : ∀ f ∈ targets, fs.writable f.1 = true
  readable  : fs.readable tmpname = true
  distinct  : DistinctFiles fs targets

namespace Staged

variable {tmpname : Str} {targets : List (Str × Bool)} {bytes : Str} {ino : Nat}
  {fs₁ fs₂ : Files Str Char}

theorem ne_tmpname (h : Staged fs tmpname targets bytes ino fs₁ fs₂) {f : Str × Bool}
    (hf : f ∈ targets) : f.1 ≠ tmpname := by
  rintro rfl
  exact h.other (List.mem_map_of_mem hf)

/-- A target is a file that holds what it kept. -/
theorem target (h : Staged fs tmpname targets bytes ino fs₁ fs₂) {f : Str × Bool}
    (hf : f ∈ targets) : ∃ i, fs₁.dir f.1 = some i ∧ fs₂.dir f.1 = some i ∧
      fs₁.data i = keptBy fs f := by
  have hcontents := h.validated.target f hf
  obtain ⟨i, hi, hdata⟩ := Option.map_eq_some_iff.mp hcontents
  exact ⟨i, hi, (h.wrote.dir _ (h.ne_tmpname hf)).trans hi, hdata⟩

theorem dests_nodup (h : Staged fs tmpname targets bytes ino fs₁ fs₂) :
    ((targets.map Prod.fst).filterMap fs₂.dir).Nodup := by
  have hnames : (targets.map Prod.fst).Pairwise fun n m => n ≠ tmpname ∧ m ≠ tmpname ∧
      ¬ SameFile fs n m := by
    rw [List.pairwise_map]
    exact h.distinct.imp_of_mem fun hf hg hfg => ⟨h.ne_tmpname hf, h.ne_tmpname hg, hfg⟩
  refine hnames.filterMap _ ?_
  rintro n m ⟨hn, hm, hnm⟩ i hi j hj rfl
  rw [h.wrote.dir n hn] at hi
  rw [h.wrote.dir m hm] at hj
  exact hnm (h.validated.sameFile (.inr ⟨i, hi, hj⟩))

/-- A file is a destination if it is a target. -/
theorem mem_dests (h : Staged fs tmpname targets bytes ino fs₁ fs₂) {i : Nat} :
    i ∈ (targets.map Prod.fst).filterMap fs₂.dir ↔ ∃ f ∈ targets, fs₁.dir f.1 = some i := by
  rw [List.mem_filterMap]
  constructor
  · rintro ⟨n, hn, hi⟩
    obtain ⟨f, hf, rfl⟩ := List.mem_map.mp hn
    exact ⟨f, hf, (h.wrote.dir _ (h.ne_tmpname hf)).symm.trans hi⟩
  · rintro ⟨f, hf, hi⟩
    exact ⟨f.1, List.mem_map_of_mem hf, (h.wrote.dir _ (h.ne_tmpname hf)).trans hi⟩

theorem dest_writable (h : Staged fs tmpname targets bytes ino fs₁ fs₂) :
    ∀ t ∈ targets.map Prod.fst, fs₂.writable t = true := by
  intro t ht
  obtain ⟨f, hf, rfl⟩ := List.mem_map.mp ht
  rw [h.wrote.writable, h.validated.writable]
  exact h.writable f hf

theorem dest_exist (h : Staged fs tmpname targets bytes ino fs₁ fs₂) :
    ∀ t ∈ targets.map Prod.fst, (fs₂.dir t).isSome := by
  intro t ht
  obtain ⟨f, hf, rfl⟩ := List.mem_map.mp ht
  obtain ⟨i, -, hi, -⟩ := h.target hf
  rw [hi]
  rfl

theorem deliversTo_iff (h : Staged fs tmpname targets bytes ino fs₁ fs₂) :
    DeliversTo fs₂ tmpname (targets.map Prod.fst) fs' ↔
      ∃ copied, Files.Copies copyChunk ino ((targets.map Prod.fst).filterMap fs₂.dir) 0 fs₂ copied ∧
        fs' = copied.unlink tmpname := by
  refine UnixCShell.deliversTo_iff h.dest_writable h.dest_exist ?_
  rw [Files.openRead_eq_some, h.wrote.readable, h.validated.readable]
  exact ⟨h.readable, h.wrote.tmp⟩

/-- If the temporary file has no second name, no other name leads to it now. -/
theorem dir_ne (h : Staged fs tmpname targets bytes ino fs₁ fs₂)
    (hown : ∀ n i, fs.dir tmpname = some i → fs.dir n = some i → n = tmpname) {n : Str}
    (hn : n ≠ tmpname) : fs₁.dir n ≠ some ino := by
  intro hdir
  rcases h.wrote.file with htmp | ⟨-, rfl⟩
  · rcases h.validated.sameFile (.inr ⟨ino, hdir, htmp⟩) with rfl | ⟨i, hi, hi'⟩
    · exact hn rfl
    · exact hn (hown n i hi' hi)
  · exact Nat.lt_irrefl _ (fs₁.lt_next n _ hdir)

theorem ino_not_mem (h : Staged fs tmpname targets bytes ino fs₁ fs₂)
    (hown : ∀ n i, fs.dir tmpname = some i → fs.dir n = some i → n = tmpname) :
    ino ∉ (targets.map Prod.fst).filterMap fs₂.dir := by
  rw [h.mem_dests]
  rintro ⟨f, hf, hi⟩
  exact h.dir_ne hown (h.ne_tmpname hf) hi

/-- What the names lead to behind the delivery. -/
theorem delivered (h : Staged fs tmpname targets bytes ino fs₁ fs₂)
    (hown : ∀ n i, fs.dir tmpname = some i → fs.dir n = some i → n = tmpname)
    (hdel : DeliversTo fs₂ tmpname (targets.map Prod.fst) fs') {n : Str} (hn : n ≠ tmpname) :
    fs'.contents n = (fs₁.dir n).map fun i =>
      if i ∈ (targets.map Prod.fst).filterMap fs₂.dir then fs₁.data i ++ bytes else fs₁.data i := by
  obtain ⟨copied, hcopies, rfl⟩ := h.deliversTo_iff.mp hdel
  have hsrc := h.ino_not_mem hown
  have hdir : (copied.unlink tmpname).dir n = fs₁.dir n := by
    rw [← h.wrote.dir n hn, ← hcopies.sameNames.dir]
    exact Function.update_of_ne hn _ _
  rw [Files.contents, hdir]
  refine Option.map_congr fun i hi => ?_
  have hi' : i ≠ ino := by
    rintro rfl
    exact h.dir_ne hown hn hi
  show copied.data i = _
  rw [hcopies.data hsrc h.dests_nodup, List.drop_zero, h.wrote.bytes, h.wrote.data i hi']

theorem fannedOut (h : Staged fs tmpname targets bytes ino fs₁ fs₂)
    (hown : ∀ n i, fs.dir tmpname = some i → fs.dir n = some i → n = tmpname)
    (hdel : DeliversTo fs₂ tmpname (targets.map Prod.fst) fs') :
    FannedOut fs tmpname targets bytes fs' := by
  have target : ∀ f ∈ targets, ∀ n i, n ≠ tmpname → fs₁.dir n = some i → fs₁.dir f.1 = some i →
      fs'.contents n = some (keptBy fs f ++ bytes) := by
    intro f hf n i hn hni hfi
    obtain ⟨j, hj, -, hdata⟩ := h.target hf
    obtain rfl : j = i := Option.some.inj (hj.symm.trans hfi)
    rw [h.delivered hown hdel hn, hni, Option.map_some,
      if_pos (h.mem_dests.mpr ⟨f, hf, hfi⟩), hdata]
  refine ⟨fun f hf => ?_, fun f hf n i hn hni hfi => ?_, fun n hn hnot => ?_, ?_⟩
  · obtain ⟨i, hi, -, -⟩ := h.target hf
    exact target f hf f.1 i (h.ne_tmpname hf) hi hi
  · exact target f hf n i hn (h.validated.old n i hni) (h.validated.old f.1 i hfi)
  · rw [h.delivered hown hdel hn, ← h.validated.contents hnot]
    refine Option.map_congr fun i hi => ?_
    rw [if_neg]
    rw [h.mem_dests]
    rintro ⟨f, hf, hfi⟩
    exact hnot f hf (h.validated.sameFile (.inr ⟨i, hfi, hi⟩))
  · obtain ⟨copied, -, rfl⟩ := h.deliversTo_iff.mp hdel
    simp [Files.contents, Files.unlink]

end Staged

/-- With the temporary file being the shell's own, `deliver` can do its work. -/
theorem Staged.deliverable {tmpname : Str} {targets : List (Str × Bool)} {bytes : Str} {ino : Nat}
    {fs₁ fs₂ : Files Str Char} (h : Staged fs tmpname targets bytes ino fs₁ fs₂)
    (hown : ∀ n i, fs.dir tmpname = some i → fs.dir n = some i → n = tmpname) :
    Deliverable fs₂ tmpname (targets.map Prod.fst) ino where
  writable := h.dest_writable
  exist := h.dest_exist
  readable := by rw [h.wrote.readable, h.validated.readable, h.readable]
  tmp := h.wrote.tmp
  other := h.ino_not_mem hown
  distinct := h.dests_nodup

theorem FannedOut.tmpname_not_mem {tmpname : Str} {targets : List (Str × Bool)} {bytes : Str}
    (h : FannedOut fs tmpname targets bytes fs') : tmpname ∉ targets.map Prod.fst := by
  intro hmem
  obtain ⟨f, hf, rfl⟩ := List.mem_map.mp hmem
  have hgone := h.gone
  rw [h.target f hf] at hgone
  cases hgone

/-- No file system shows two different outputs. -/
theorem FannedOut.bytes_inj {tmpname : Str} {targets : List (Str × Bool)} {bytes bytes' : Str}
    (hne : targets ≠ []) (h : FannedOut fs tmpname targets bytes fs')
    (h' : FannedOut fs tmpname targets bytes' fs') : bytes = bytes' := by
  obtain ⟨f, hf⟩ := List.exists_mem_of_ne_nil targets hne
  have heq := (h.target f hf).symm.trans (h'.target f hf)
  exact List.append_cancel_left (Option.some.inj heq)

/-- Two ways of the same output, with different temporary files, leave the same files. -/
theorem FannedOut.contents_eq {tmp₁ tmp₂ : Str} {targets : List (Str × Bool)} {bytes : Str}
    {fs₁ fs₂ : Files Str Char} (h₁ : FannedOut fs tmp₁ targets bytes fs₁)
    (h₂ : FannedOut fs tmp₂ targets bytes fs₂) {n : Str} (hn₁ : n ≠ tmp₁) (hn₂ : n ≠ tmp₂) :
    fs₁.contents n = fs₂.contents n := by
  by_cases hnot : ∀ f ∈ targets, ¬ SameFile fs f.1 n
  · rw [h₁.other n hn₁ hnot, h₂.other n hn₂ hnot]
  · push Not at hnot
    obtain ⟨f, hf, rfl | ⟨i, hi, hi'⟩⟩ := hnot
    · rw [h₁.target f hf, h₂.target f hf]
    · rw [h₁.link f hf n i hn₁ hi' hi, h₂.link f hf n i hn₂ hi' hi]

/-- A second name of the temporary file either is a target, and then the copying does not end, or
leads to a file that is overwritten. -/
theorem own_of_fannedOut {tmpname : Str} {targets : List (Str × Bool)} {fs₁ : Files Str Char}
    (staged : ∀ bytes, ∃ ino, Staged fs tmpname targets bytes ino fs₁ (writeTmp fs₁ tmpname bytes))
    (hall : ∀ bytes,
      Meets (DeliversTo (writeTmp fs₁ tmpname bytes) tmpname (targets.map Prod.fst))
        (FannedOut fs tmpname targets bytes))
    {n : Str} {k : Nat} (htmp : fs.dir tmpname = some k) (hn : fs.dir n = some k) :
    n = tmpname := by
  by_contra hne
  -- what is found under `n` behind the command
  have contents : ∀ bytes, bytes ≠ [] → fs.contents n = some bytes := by
    intro bytes hbytes
    obtain ⟨ino, h⟩ := staged bytes
    obtain ⟨⟨fs', hdel⟩, hmeets⟩ := hall bytes
    have hfile : ino = k := by
      have htmp₁ := h.validated.old _ _ htmp
      rcases h.wrote.file with h' | ⟨h', -⟩
      · exact Option.some.inj (h'.symm.trans htmp₁)
      · rw [h'] at htmp₁
        cases htmp₁
    subst hfile
    obtain ⟨copied, hcopies, rfl⟩ := h.deliversTo_iff.mp hdel
    have hsrc : ino ∉ (targets.map Prod.fst).filterMap (writeTmp fs₁ tmpname bytes).dir := by
      intro hmem
      refine Files.not_copies_self hmem h.dests_nodup ?_ hcopies
      rw [h.wrote.bytes]
      exact List.length_pos_iff.mpr hbytes
    have hnot : ∀ f ∈ targets, ¬ SameFile fs f.1 n := by
      rintro f hf (rfl | ⟨i, hi, hi'⟩)
      · exact hsrc (h.mem_dests.mpr ⟨f, hf, h.validated.old _ _ hn⟩)
      · obtain rfl : i = ino := Option.some.inj (hi'.symm.trans hn)
        exact hsrc (h.mem_dests.mpr ⟨f, hf, h.validated.old _ _ hi⟩)
    rw [← (hmeets _ hdel).other n hne hnot]
    have hdir : (copied.unlink tmpname).dir n = some ino := by
      have hdir₂ := (h.wrote.dir n hne).trans (h.validated.old _ _ hn)
      rw [← hdir₂, ← hcopies.sameNames.dir]
      exact Function.update_of_ne hne _ _
    rw [Files.contents, hdir, Option.map_some]
    show some (copied.data ino) = some bytes
    rw [hcopies.data hsrc h.dests_nodup, if_neg hsrc, h.wrote.bytes]
  have h₁ := contents ['x'] (by simp)
  have h₂ := contents ['y'] (by simp)
  rw [h₁] at h₂
  exact absurd (Option.some.inj h₂) (by decide)

theorem openTargets_dir {targets : List Str} {n : Str} (h : fs.dir n ≠ none) :
    (openTargets fs targets).1.dir n ≠ none := by
  induction targets generalizing fs with
  | nil => exact h
  | cons t targets ih =>
    rw [openTargets]
    split
    · exact ih h
    · next ino fs₁ hopen =>
      obtain ⟨i, hi⟩ := Option.ne_none_iff_exists'.mp h
      have hdir := (openWrite_some hopen).2.2.2.2 n i hi
      exact ih (by rw [hdir]; simp)

/-- A delivery removes no other name than that of its temporary file. -/
theorem DeliversTo.dir {tmpname n : Str} {targets : List Str}
    (h : DeliversTo fs tmpname targets fs') (hn : n ≠ tmpname) (hdir : fs.dir n ≠ none) :
    fs'.dir n ≠ none := by
  have hopened : (openTargets fs targets).1.dir n ≠ none := openTargets_dir hdir
  unfold DeliversTo at h
  dsimp only at h
  have hunlink : ∀ fs₁ : Files Str Char, (fs₁.unlink tmpname).dir n = fs₁.dir n :=
    fun _ => Function.update_of_ne hn _ _
  split at h
  · obtain ⟨copied, hcopies, rfl⟩ := h
    rw [hunlink, hcopies.sameNames.dir]
    exact hopened
  · rw [h, hunlink]
    exact hopened

/-- A command whose temporary file is not removed, or could not be opened, does not do what is asked
for. -/
theorem not_meets_of_kept {tmpname : Str} {targets : List (Str × Bool)} (hne : targets ≠ [])
    {fs₁ : Files Str Char} (after : Files Str Char → Files Str Char → Prop)
    (hkept : ∀ fs₂ fs', after fs₂ fs' → fs₂.dir tmpname ≠ none → fs'.dir tmpname ≠ none) :
    ¬ ∀ bytes, Meets (after (writeTmp fs₁ tmpname bytes)) (FannedOut fs tmpname targets bytes) := by
  intro hall
  obtain ⟨⟨fs', hrun⟩, hmeets⟩ := hall []
  by_cases htmp : fs₁.writable tmpname = true
  · obtain ⟨ino, hwrote⟩ := exists_wrote htmp []
    have hgone := (hmeets fs' hrun).gone
    rw [Files.contents, Option.map_eq_none_iff] at hgone
    exact hkept _ _ hrun (by rw [hwrote.tmp]; simp) hgone
  · -- nothing is written, so the files are the same for every output
    have hwrite : ∀ bytes, writeTmp fs₁ tmpname bytes = fs₁ := by
      intro bytes
      rw [writeTmp, Files.openWrite, if_neg htmp]
    obtain ⟨-, hmeets'⟩ := hall ['x']
    rw [hwrite] at hrun hmeets hmeets'
    exact absurd ((hmeets fs' hrun).bytes_inj hne (hmeets' fs' hrun)) (by decide)

/-- Whatever a command writes reaches the targets, and nothing else changes, if and only if the
temporary file is the shell's own. (What can be opened with `O_RDWR` can be opened for reading
again.) -/
theorem fansOut_iff {tmpname : Str} {targets : List (Str × Bool)} (hne : targets ≠ [])
    (hwritable : ∀ f ∈ targets, fs.writable f.1 = true) (hdistinct : DistinctFiles fs targets)
    (hrdwr : fs.writable tmpname = true → fs.readable tmpname = true) :
    (∀ bytes, Meets (FansOut fs tmpname targets bytes) (FannedOut fs tmpname targets bytes)) ↔
      TmpOwn fs tmpname targets := by
  obtain ⟨fs₁, hvalidate, hvalidated⟩ := validateTargets_validated hwritable hdistinct
  have staged : fs.writable tmpname = true → tmpname ∉ targets.map Prod.fst → ∀ bytes,
      ∃ ino, Staged fs tmpname targets bytes ino fs₁ (writeTmp fs₁ tmpname bytes) := by
    intro htmp hother bytes
    have htmp₁ : fs₁.writable tmpname = true := by rw [hvalidated.writable, htmp]
    obtain ⟨ino, hwrote⟩ := exists_wrote htmp₁ bytes
    exact ⟨ino, hvalidated, hwrote, hother, hwritable, hrdwr htmp, hdistinct⟩
  simp only [Meets, fansOut_of_validate hvalidate]
  constructor
  · intro hall
    have hother : tmpname ∉ targets.map Prod.fst := by
      obtain ⟨⟨fs', hdel⟩, hmeets⟩ := hall []
      exact (hmeets fs' hdel).tmpname_not_mem
    have htmp : fs.writable tmpname = true := by
      by_contra hnot
      -- nothing is written, so the files are the same for every output
      have hwrite : ∀ bytes, writeTmp fs₁ tmpname bytes = fs₁ := by
        intro bytes
        rw [writeTmp, Files.openWrite, hvalidated.writable, if_neg hnot]
      obtain ⟨⟨fs', hdel⟩, hmeets⟩ := hall []
      obtain ⟨-, hmeets'⟩ := hall ['x']
      rw [hwrite] at hdel hmeets hmeets'
      exact absurd ((hmeets fs' hdel).bytes_inj hne (hmeets' fs' hdel)) (by decide)
    exact ⟨htmp, hother, fun n i hi hn => own_of_fannedOut (staged htmp hother) hall hi hn⟩
  · intro hown bytes
    obtain ⟨ino, h⟩ := staged hown.writable hown.other bytes
    exact ⟨⟨_, (h.deliverable hown.own).deliversTo⟩, fun fs' hdel => h.fannedOut hown.own hdel⟩

end UnixCShell
