import UnixCShell.Shell.World

/-!
# Descriptors and `stdin`

What the operations on a descriptor table do, one descriptor at a time; and the stream `stdin`,
which keeps its buffer and its end-of-file indicator when descriptor 0 is made to lead elsewhere.
-/

namespace UnixCShell

open Lib

namespace FdTable

variable (fds : FdTable)

theorem get_put (fd k : Nat) (d : Desc) :
    (fds.put fd d).get k = if k = fd then some d else fds.get k := by
  unfold put get
  split
  · rename_i hlt
    rw [List.getElem?_set]
    by_cases hk : fd = k
    · subst hk
      simp [hlt]
    · rw [if_neg hk, if_neg (Ne.symm hk)]
  · -- the table grows: there is nothing between its old end and the new descriptor
    rename_i hge
    have hlen : (fds ++ List.replicate (fd - fds.length) none).length = fd := by
      rw [List.length_append, List.length_replicate]
      omega
    rcases Nat.lt_trichotomy k fd with hk | rfl | hk
    · rw [if_neg (Nat.ne_of_lt hk), List.getElem?_append_left (hlen.symm ▸ hk)]
      by_cases hold : k < fds.length
      · rw [List.getElem?_append_left hold]
      · rw [List.getElem?_append_right (by omega), List.getElem?_replicate_of_lt (by omega),
          List.getElem?_eq_none (by omega)]
        rfl
    · rw [if_pos rfl, List.getElem?_append_right (Nat.le_of_eq hlen), hlen, Nat.sub_self]
      rfl
    · rw [if_neg (Nat.ne_of_gt hk), List.getElem?_eq_none (by simp; omega),
        List.getElem?_eq_none (by omega)]

/-- The lowest free descriptor is free. -/
theorem get_lowest : fds.get fds.lowest = none := by
  unfold get lowest
  by_cases h : fds.findIdx (· = none) < fds.length
  · have hnone := List.findIdx_getElem (w := h)
    rw [List.getElem?_eq_getElem h]
    simpa using hnone
  · rw [List.getElem?_eq_none (by omega)]
    rfl

/-- A descriptor that is open is not the lowest free one. -/
theorem lowest_ne {fd : Nat} (h : fds.get fd ≠ none) : fds.lowest ≠ fd := by
  rintro rfl
  exact h fds.get_lowest

theorem get_close (fd k : Nat) : (fds.close fd).get k = if k = fd then none else fds.get k := by
  unfold close get
  rw [List.getElem?_set]
  by_cases hk : fd = k
  · subst hk
    rw [if_pos rfl, if_pos rfl]
    split <;> rfl
  · rw [if_neg hk, if_neg (Ne.symm hk)]

theorem get_dup2 {old : Nat} {d : Desc} (h : fds.get old = some d) (new k : Nat) :
    (fds.dup2 old new).get k = if k = new then some d else fds.get k := by
  unfold dup2
  rw [h]
  exact fds.get_put new k d

end FdTable

/-! ## The stream over descriptor 0 -/

/-- The size of the buffer of a stream. -/
def bufferSize : Nat := 4096

namespace World

/-- What `read` on descriptor 0 gives. (A file is given from its beginning, since here nobody stops
reading one before its end.) -/
def reads (w : World) : List Str :=
  match w.fds.get 0 with
  | some .input => w.input
  | some (.file ino) => blocks bufferSize (w.fs.data ino)
  | _ => []

/-- Reading from `stdin` leaves the stream `st`, with `rest` still to be read. -/
def setStdin (w : World) (st : Stream Char) (rest : List Str) : World :=
  match w.fds.get 0 with
  | some .input => { w with stdin := st, input := rest }
  | _ => { w with stdin := st }

/-- `getline(&line, &len, stdin)`. -/
def getline (w : World) : Option Str × World :=
  let (line, st, rest) := Lib.getline '\n' w.stdin w.reads
  (line, w.setStdin st rest)

/-- What a loop of `getline` on `stdin` would still read. -/
def stdinLeft (w : World) : Str := w.stdin.pending w.reads

theorem stdinLeft_of_atEof {w : World} (h : w.stdin = .atEof) : w.stdinLeft = [] := by
  rw [stdinLeft, h, Stream.pending_atEof]

theorem getline_eq_none {w : World} : w.getline.1 = none ↔ w.stdinLeft = [] := by
  unfold getline stdinLeft
  cases heof : w.stdin.eof with
  | true => simp [Stream.eq_atEof heof]
  | false =>
    rcases getline_eq '\n' heof w.reads with ⟨hleft, h⟩ | ⟨-, hleft, h⟩ |
      ⟨l, rest, rs, -, hleft, -, h⟩
    · simp [h, hleft]
    · simp [h, hleft]
    · simp [h, hleft]

@[simp] theorem setStdin_fds (w : World) (st : Stream Char) (rest : List Str) :
    (w.setStdin st rest).fds = w.fds := by
  unfold setStdin
  split <;> rfl

@[simp] theorem setStdin_stdin (w : World) (st : Stream Char) (rest : List Str) :
    (w.setStdin st rest).stdin = st := by
  unfold setStdin
  split <;> rfl

@[simp] theorem print_fds (w : World) (s : Str) : (w.print s).fds = w.fds := by
  unfold print
  split <;> rfl

@[simp] theorem print_stdin (w : World) (s : Str) : (w.print s).stdin = w.stdin := by
  unfold print
  split <;> rfl

/-- What is printed does not go to the file that `stdin` reads. -/
def InputApart (w : World) : Prop :=
  ∀ ino, w.fds.get 0 = some (.file ino) → w.fds.get 1 ≠ some (.file ino)

theorem InputApart.print_reads {w : World} (h : w.InputApart) (s : Str) :
    (w.print s).reads = w.reads := by
  unfold print
  split
  · rfl
  · next ino hout =>
    unfold reads
    dsimp only
    split
    · rfl
    · next ino' hin =>
      have hne : ino' ≠ ino := by
        rintro rfl
        exact h _ hin hout
      rw [Files.append_data_of_ne _ _ hne]
    · rfl
  · rfl

theorem InputApart.print_stdinLeft {w : World} (h : w.InputApart) (s : Str) :
    (w.print s).stdinLeft = w.stdinLeft := by
  rw [stdinLeft, h.print_reads, print_stdin, stdinLeft]

end World

end UnixCShell
