import Mathlib.Logic.Function.Basic
import Mathlib.Order.Nat
import Mathlib.Tactic.Common

/-!
# Files

A file system as far as programs that copy files see it: names lead to inodes, inodes hold bytes.
An inode without a name still holds what was written to it. Which names can be opened is given once
and for all; opening a name for writing creates the file if it does not exist.

`Copies` is the loop that reads a file and writes what it has read to a list of files, with reads of
any size; `Copies.data` says what it does. `copyAll` is the loop whose reads are as large as they
can be.
-/

namespace Lib

/-- A file system over names `ν` and bytes `β`. Inodes from `next` on have never been used. -/
structure Files (ν β : Type*) where
  dir      : ν → Option Nat
  data     : Nat → List β
  next     : Nat
  readable : ν → Bool
  writable : ν → Bool
  lt_next  : ∀ n i, dir n = some i → i < next

namespace Files

variable {ν β : Type*}

/-- The contents of the file with a given name. -/
def contents (fs : Files ν β) (n : ν) : Option (List β) := (fs.dir n).map fs.data

/-- Write at the end of a file. -/
def append (fs : Files ν β) (i : Nat) (bs : List β) : Files ν β :=
  { fs with data := Function.update fs.data i (fs.data i ++ bs) }

/-- `open` with `O_RDONLY`. -/
def openRead (fs : Files ν β) (n : ν) : Option Nat := if fs.readable n then fs.dir n else none

section Names

variable [DecidableEq ν]

/-- `unlink`. -/
def unlink (fs : Files ν β) (n : ν) : Files ν β where
  dir := Function.update fs.dir n none
  data := fs.data
  next := fs.next
  readable := fs.readable
  writable := fs.writable
  lt_next m i h := by
    by_cases hm : m = n
    · subst hm
      simp at h
    · exact fs.lt_next m i (by simpa [hm] using h)

/-- A new, empty file. -/
def create (fs : Files ν β) (n : ν) : Files ν β where
  dir := Function.update fs.dir n (some fs.next)
  data := Function.update fs.data fs.next []
  next := fs.next + 1
  readable := fs.readable
  writable := fs.writable
  lt_next m i h := by
    by_cases hm : m = n
    · subst hm
      simp only [Function.update_self, Option.some.injEq] at h
      omega
    · exact Nat.lt_succ_of_lt (fs.lt_next m i (by simpa [hm] using h))

/-- `open` for writing with `O_CREAT`, and with `O_TRUNC` or `O_APPEND`. -/
def openWrite (fs : Files ν β) (trunc : Bool) (n : ν) : Option (Nat × Files ν β) :=
  if fs.writable n then
    match fs.dir n with
    | some i => some (i, if trunc then { fs with data := Function.update fs.data i [] } else fs)
    | none => some (fs.next, fs.create n)
  else none

end Names

/-! ## Copying -/

/-- Write one buffer to every file of a list. -/
def appendAll (fs : Files ν β) (dsts : List Nat) (buf : List β) : Files ν β :=
  dsts.foldl (fun fs i => fs.append i buf) fs

/-- At most `fuel` rounds of reading up to `chunk` bytes of `src` and writing them to `dsts`. -/
def pump (chunk src : Nat) (dsts : List Nat) : Nat → Nat → Files ν β → Files ν β
  | 0, _, fs => fs
  | fuel + 1, pos, fs =>
    match ((fs.data src).drop pos).take chunk with
    | [] => fs
    | b :: bs => pump chunk src dsts fuel (pos + (b :: bs).length) (fs.appendAll dsts (b :: bs))

/-- Copy a file to others, up to its end. (If the file is one of its own destinations, the end is
never reached; the rounds are counted for a file that does not grow.) -/
def copyAll (fs : Files ν β) (chunk src : Nat) (dsts : List Nat) : Files ν β :=
  pump chunk src dsts ((fs.data src).length + 1) 0 fs

/-- Reading a file from `pos` on, at least one and at most `chunk` bytes at a time, and writing what
was read to the files `dsts`, until the end of the file is found. -/
inductive Copies (chunk src : Nat) (dsts : List Nat) : Nat → Files ν β → Files ν β → Prop where
  | done {pos : Nat} {fs : Files ν β} : (fs.data src).length ≤ pos → Copies chunk src dsts pos fs fs
  | read {pos : Nat} {fs fs' : Files ν β} {buf : List β} : buf ≠ [] → buf.length ≤ chunk →
      buf <+: (fs.data src).drop pos →
      Copies chunk src dsts (pos + buf.length) (fs.appendAll dsts buf) fs' →
      Copies chunk src dsts pos fs fs'

/-! ## What the operations leave alone -/

@[simp] theorem append_data_self (fs : Files ν β) (i : Nat) (bs : List β) :
    (fs.append i bs).data i = fs.data i ++ bs := by simp [append]

theorem append_data_of_ne (fs : Files ν β) {i j : Nat} (bs : List β) (h : j ≠ i) :
    (fs.append i bs).data j = fs.data j := by simp [append, h]

theorem openRead_eq_some {fs : Files ν β} {n : ν} {i : Nat} :
    fs.openRead n = some i ↔ fs.readable n = true ∧ fs.dir n = some i := by
  simp [openRead]

section Names

variable [DecidableEq ν] {fs fs' : Files ν β} {n m : ν} {i j : Nat} {trunc : Bool}

/-- A file that is opened for writing was there before, or is new. -/
theorem openWrite_cases (h : fs.openWrite trunc n = some (i, fs')) : fs.writable n = true ∧
    (fs.dir n = some i ∧
      fs' = (if trunc then { fs with data := Function.update fs.data i [] } else fs) ∨
      fs.dir n = none ∧ i = fs.next ∧ fs' = fs.create n) := by
  unfold openWrite at h
  split at h
  · next hwritable =>
    refine ⟨hwritable, ?_⟩
    split at h
    · next k hk =>
      obtain ⟨rfl, rfl⟩ := Prod.mk.inj (Option.some.inj h)
      exact .inl ⟨hk, rfl⟩
    · next hnone =>
      obtain ⟨rfl, rfl⟩ := Prod.mk.inj (Option.some.inj h)
      exact .inr ⟨hnone, rfl, rfl⟩
  · cases h

theorem create_dir_of_ne (h : m ≠ n) : (fs.create n).dir m = fs.dir m := by simp [create, h]

/-- A file that was there before a new one was created is still what it was. -/
theorem create_contents_of_ne (h : m ≠ n) : (fs.create n).contents m = fs.contents m := by
  rw [contents, contents, create_dir_of_ne h]
  cases hm : fs.dir m with
  | none => rfl
  | some k =>
    have hk : k ≠ fs.next := Nat.ne_of_lt (fs.lt_next m k hm)
    simp [create, hk]

/-- Opening a name that no other name shares its file with, and truncating the file: all other files
stay what they are. -/
theorem openWrite_own (hwritable : fs.writable n = true)
    (hown : ∀ m i, fs.dir n = some i → fs.dir m = some i → m = n) :
    ∃ i fs', fs.openWrite true n = some (i, fs') ∧ i < fs'.next ∧ fs'.data i = [] ∧
      (∀ m, fs'.dir m = some i → m = n) ∧
      ∀ m, m ≠ n → fs'.openRead m = fs.openRead m ∧ fs'.contents m = fs.contents m := by
  cases hn : fs.dir n with
  | none =>
    refine ⟨fs.next, fs.create n, by simp [openWrite, hwritable, hn], Nat.lt_succ_self _,
      Function.update_self _ _ _, fun m hm => ?_, fun m hm => ⟨?_, create_contents_of_ne hm⟩⟩
    · by_contra hne
      rw [create_dir_of_ne hne] at hm
      exact Nat.lt_irrefl _ (fs.lt_next m _ hm)
    · rw [openRead, create_dir_of_ne hm]
      rfl
  | some i =>
    refine ⟨i, { fs with data := Function.update fs.data i [] }, by simp [openWrite, hwritable, hn],
      fs.lt_next n i hn, Function.update_self _ _ _, fun m hm => hown m i hn hm,
        fun m hm => ⟨rfl, ?_⟩⟩
    cases hdir : fs.dir m with
    | none => simp [contents, hdir]
    | some j =>
      have hne : j ≠ i := by
        rintro rfl
        exact hm (hown m j hn hdir)
      simp [contents, hdir, hne]

/-- A file in use that no name leads to but these. -/
structure NamedIn (fs : Files ν β) (names : Set ν) (i : Nat) : Prop where
  lt  : i < fs.next
  mem : ∀ n, fs.dir n = some i → n ∈ names

/-- Opening another name leaves the file alone. -/
theorem NamedIn.openWrite {names : Set ν} (h : fs.NamedIn names i) (hn : n ∉ names)
    (hopen : fs.openWrite trunc n = some (j, fs')) :
    fs'.NamedIn names i ∧ j ≠ i ∧ fs'.data i = fs.data i := by
  obtain ⟨-, ⟨hj, rfl⟩ | ⟨-, rfl, rfl⟩⟩ := openWrite_cases hopen
  · have hne : j ≠ i := by
      rintro rfl
      exact hn (h.mem n hj)
    cases trunc with
    | true => exact ⟨⟨h.lt, h.mem⟩, hne, Function.update_of_ne hne.symm _ _⟩
    | false => exact ⟨⟨h.lt, h.mem⟩, hne, rfl⟩
  · have hne : fs.next ≠ i := Nat.ne_of_gt h.lt
    refine ⟨⟨Nat.lt_succ_of_lt h.lt, fun m hm => ?_⟩, hne, Function.update_of_ne hne.symm _ _⟩
    by_cases hmn : m = n
    · subst hmn
      exact absurd (by simpa [create] using hm) hne
    · rw [create_dir_of_ne hmn] at hm
      exact h.mem m hm

/-- A file in use that no name leads to. Only those who have it open can reach it. -/
structure Nameless (fs : Files ν β) (i : Nat) : Prop where
  lt      : i < fs.next
  unnamed : ∀ n, fs.dir n ≠ some i

omit [DecidableEq ν] in
theorem nameless_iff : fs.Nameless i ↔ fs.NamedIn ∅ i :=
  ⟨fun h => ⟨h.lt, fun n hn => absurd hn (h.unnamed n)⟩, fun h => ⟨h.lt, h.mem⟩⟩

theorem Nameless.openWrite (h : fs.Nameless i) (hopen : fs.openWrite trunc n = some (j, fs')) :
    fs'.Nameless i ∧ j ≠ i ∧ fs'.data i = fs.data i := by
  rw [nameless_iff] at h ⊢
  exact h.openWrite (fun hn => hn) hopen

/-- Removing its only name makes a file nameless. -/
theorem unlink_nameless (hlt : i < fs.next) (honly : ∀ m, fs.dir m = some i → m = n) :
    (fs.unlink n).Nameless i := by
  refine ⟨hlt, fun m hm => ?_⟩
  by_cases h : m = n
  · subst h
    simp [unlink] at hm
  · exact h (honly m (by simpa [unlink, h] using hm))

end Names

/-- Everything but the data is the same. -/
structure SameNames (fs fs' : Files ν β) : Prop where
  dir      : fs'.dir = fs.dir
  next     : fs'.next = fs.next
  readable : fs'.readable = fs.readable
  writable : fs'.writable = fs.writable

theorem SameNames.refl (fs : Files ν β) : SameNames fs fs := ⟨rfl, rfl, rfl, rfl⟩

theorem SameNames.trans {a b c : Files ν β} (hab : SameNames a b) (hbc : SameNames b c) :
    SameNames a c :=
  ⟨hbc.dir.trans hab.dir, hbc.next.trans hab.next, hbc.readable.trans hab.readable,
    hbc.writable.trans hab.writable⟩

theorem append_sameNames (fs : Files ν β) (i : Nat) (bs : List β) : SameNames fs (fs.append i bs) :=
  ⟨rfl, rfl, rfl, rfl⟩

theorem appendAll_sameNames (fs : Files ν β) (dsts : List Nat) (buf : List β) :
    SameNames fs (fs.appendAll dsts buf) := by
  induction dsts generalizing fs with
  | nil => exact .refl fs
  | cons i dsts ih => exact (fs.append_sameNames i buf).trans (ih _)

theorem appendAll_data (fs : Files ν β) {dsts : List Nat} (hnodup : dsts.Nodup) (buf : List β)
    (i : Nat) :
    (fs.appendAll dsts buf).data i = if i ∈ dsts then fs.data i ++ buf else fs.data i := by
  induction dsts generalizing fs with
  | nil => rfl
  | cons d dsts ih =>
    rw [List.nodup_cons] at hnodup
    show (((fs.append d buf).appendAll dsts buf).data i) = _
    rw [ih _ hnodup.2]
    by_cases hi : i = d
    · subst hi
      simp [hnodup.1]
    · simp [hi, append_data_of_ne fs buf hi]

/-! ### The loop -/

section Loop

variable {chunk src : Nat} {dsts : List Nat} {pos : Nat} {fs fs' : Files ν β}

theorem Copies.sameNames (h : Copies chunk src dsts pos fs fs') : SameNames fs fs' := by
  induction h with
  | done => exact .refl _
  | @read pos fs fs' buf _ _ _ _ ih => exact (fs.appendAll_sameNames dsts buf).trans ih

/-- Every destination gets what stands behind `pos`, whatever the sizes of the reads. -/
theorem Copies.data (h : Copies chunk src dsts pos fs fs') (hsrc : src ∉ dsts)
    (hnodup : dsts.Nodup) (i : Nat) :
    fs'.data i = if i ∈ dsts then fs.data i ++ (fs.data src).drop pos else fs.data i := by
  induction h with
  | done hend => simp [List.drop_eq_nil_of_le hend]
  | @read pos fs fs' buf _ _ hbuf _ ih =>
    obtain ⟨t, ht⟩ := hbuf
    have hrest : (fs.data src).drop (pos + buf.length) = t := by
      rw [← List.drop_drop, ← ht, List.drop_left]
    rw [ih, appendAll_data fs hnodup, appendAll_data fs hnodup, if_neg hsrc, hrest, ← ht]
    split
    · rw [List.append_assoc]
    · rfl

/-- A file that is copied to itself grows as fast as it is read. -/
theorem not_copies_self (hmem : src ∈ dsts) (hnodup : dsts.Nodup)
    (hpos : pos < (fs.data src).length) : ¬ Copies chunk src dsts pos fs fs' := by
  intro h
  induction h with
  | done hend => omega
  | @read pos fs fs' buf _ _ _ _ ih =>
    apply ih
    rw [appendAll_data fs hnodup, if_pos hmem, List.length_append]
    omega

/-- The loop with the largest reads ends if there is enough fuel. -/
theorem copies_pump {fuel : Nat} (hchunk : 0 < chunk) (hsrc : src ∉ dsts) (hnodup : dsts.Nodup)
    (hfuel : (fs.data src).length < fuel + pos) :
    Copies chunk src dsts pos fs (pump chunk src dsts fuel pos fs) := by
  induction fuel generalizing pos fs with
  | zero => exact .done (by omega)
  | succ fuel ih =>
    rw [pump]
    split
    · next hbuf =>
      rw [List.take_eq_nil_iff] at hbuf
      exact .done (List.drop_eq_nil_iff.mp (hbuf.resolve_left (by omega)))
    · next b bs hbuf =>
      have hkeep : (fs.appendAll dsts (b :: bs)).data src = fs.data src := by
        rw [appendAll_data fs hnodup, if_neg hsrc]
      refine .read (List.cons_ne_nil b bs) ?_ ?_ (ih ?_)
      · rw [← hbuf]
        exact List.length_take_le _ _
      · rw [← hbuf]
        exact List.take_prefix _ _
      · rw [hkeep, List.length_cons]
        omega

theorem copies_copyAll (hchunk : 0 < chunk) (hsrc : src ∉ dsts) (hnodup : dsts.Nodup) :
    Copies chunk src dsts 0 fs (fs.copyAll chunk src dsts) :=
  copies_pump hchunk hsrc hnodup (Nat.lt_succ_self _)

end Loop

theorem pump_sameNames (chunk src : Nat) (dsts : List Nat) (fuel pos : Nat) (fs : Files ν β) :
    SameNames fs (pump chunk src dsts fuel pos fs) := by
  induction fuel generalizing pos fs with
  | zero => exact .refl fs
  | succ fuel ih =>
    rw [pump]
    split
    · exact .refl fs
    · exact (fs.appendAll_sameNames dsts _).trans (ih _ _)

theorem copyAll_sameNames (fs : Files ν β) (chunk src : Nat) (dsts : List Nat) :
    SameNames fs (fs.copyAll chunk src dsts) := pump_sameNames ..

/-- Every destination gets the whole file, and nothing else changes. -/
theorem copyAll_data {chunk src : Nat} {dsts : List Nat} (hchunk : 0 < chunk) (hsrc : src ∉ dsts)
    (hnodup : dsts.Nodup) (fs : Files ν β) (i : Nat) :
    (fs.copyAll chunk src dsts).data i =
      if i ∈ dsts then fs.data i ++ fs.data src else fs.data i := by
  rw [(copies_copyAll hchunk hsrc hnodup).data hsrc hnodup, List.drop_zero]

end Files

end Lib
