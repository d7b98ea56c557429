import UnixCShell.Peek.Basic
import UnixCShell.Shell.Descriptors

/-!
# The builtin `peek`

`run_peek` (`peek.c`): its flags, and its loops over the files, where `-` stands for `stdin`. What
it takes from `stdin` is all that is left there, in the buffer of the stream and behind descriptor
0, and it leaves the stream with its end-of-file indicator set (`peekFiles_stdin`).
-/

namespace UnixCShell.Peek

open Lib

/-! ## Printing forwards -/

/-- The loop of `print_forward`, on the lines in the order of reading: what it prints, and
`*line_num`. -/
def forwardLoop (flagN : Bool) : Int → List Str → Str × Int
  | n, [] => ([], n)
  | n, line :: lines =>
    let (out, n') := forwardLoop flagN (if flagN && isNonEmpty line then n + 1 else n) lines
    (printLine flagN n line ++ out, n')

/-- `print_forward` on a stream `st` over the reads `rs`: what it prints, `*line_num`, and the
stream it leaves. -/
def printForward (flagN : Bool) (lineNum : Int) (st : Stream Char) (rs : List Str) :
    Str × Int × Stream Char × List Str :=
  let (read, st', rs') := readLines '\n' st rs
  let (out, n) := forwardLoop flagN lineNum (read.map cString)
  (out, n, st', rs')

/-! ## Arguments -/

/-- The variables `flag_n`, `flag_r` and `files`. -/
structure Args where
  flagN : Bool
  flagR : Bool
  files : List Str
  deriving DecidableEq, Repr

/-- The loop over the letters behind a `-`; `none` is a letter that is no flag. -/
def readFlags : Str → Args → Option Args
  | [], a => some a
  | c :: cs, a =>
    if c = 'n' then readFlags cs { a with flagN := true }
    else if c = 'r' then readFlags cs { a with flagR := true }
    else none

/-- The loop over the arguments. A `-` alone is a file. -/
def readArgs : List Token → Args → Option Args
  | [], a => some a
  | t :: ts, a =>
    match t.value with
    | '-' :: c :: cs => (readFlags (c :: cs) a).bind (readArgs ts)
    | file => readArgs ts { a with files := a.files ++ [file] }

/-- The arguments of a command whose first token is its name. -/
def parseArgs (tokens : List Token) : Option Args :=
  (readArgs tokens.tail ⟨false, false, []⟩).map fun a =>
    if a.files = [] then { a with files := [['-']] } else a

/-! ## Files -/

/-- What happens for `-`. The number is `offset` for `-rn` and `line_num` otherwise. -/
def readStdin (flagN flagR : Bool) (number : Int) (st : Stream Char) (rs : List Str) :
    Str × Int × Stream Char × List Str :=
  if flagR then
    if flagN then
      let (out, localTotal, st', rs') := printReverseBuffered true number st rs
      (out, number + localTotal, st', rs')
    else
      let (out, _, st', rs') := printReverseBuffered false 0 st rs
      (out, number, st', rs')
  else printForward flagN number st rs

/-- What happens for a regular file that can be opened. -/
def readFile (flagN flagR : Bool) (number : Int) (contents : Str) : Str × Int :=
  if flagR then
    if flagN then
      let start := number + countNonEmptyLines contents
      ((printReverseChunked contents true start).1, start)
    else printReverseChunked contents false number
  else
    let (out, n, _, _) := printForward flagN number (fopen contents).1 (fopen contents).2
    (out, n)

/-- `peek` on its way through the files. `number` is `offset` or `line_num`. What `getline` on
`stdin` has returned so far is in `taken`, where only the proofs read it. -/
structure Run where
  world  : World
  number : Int
  taken  : Str

/-- The body of the loops over the files. (Of a file that is written to while it is printed, what it
held at the beginning is printed.) -/
def visit (a : Args) (s : Run) (file : Str) : Run :=
  if file = ['-'] then
    let (out, number, st, rest) := readStdin a.flagN a.flagR s.number s.world.stdin s.world.reads
    { world := (s.world.setStdin st rest).print out
      number := number
      taken := s.taken ++ (readLines '\n' s.world.stdin s.world.reads).1.flatten }
  else
    let name := s.world.locate file
    -- `stat` finds files and directories
    if s.world.isDir name then { s with world := s.world.eprint "peek: is a directory\n".toList }
    else if s.world.fs.dir name = none then
      { s with world := s.world.eprint "peek: no such file or directory\n".toList }
    else
      match s.world.fs.openRead name with
      | none => { s with world := s.world.eprint "peek: Permission denied\n".toList }
      | some ino =>
        let (out, number) := readFile a.flagN a.flagR s.number (s.world.fs.data ino)
        { s with world := s.world.print out, number := number }

/-- The loops of `run_peek` over `files`. -/
def peekFiles (a : Args) (w : World) : Run :=
  a.files.foldl (visit a) ⟨w, if a.flagR && a.flagN then 0 else 1, []⟩

/-- `run_peek`. -/
def runPeek (tokens : List Token) (w : World) : World :=
  match parseArgs tokens with
  | none => w.eprint "peek: invalid syntax\n".toList
  | some a => (peekFiles a w).world

/-! ## What is taken from `stdin` -/

/-- All three ways of reading `stdin` read it to its end. -/
theorem readStdin_stream (flagN flagR : Bool) (number : Int) (st : Stream Char) (rs : List Str) :
    (readStdin flagN flagR number st rs).2.2.1 = .atEof := by
  unfold readStdin
  split
  · split <;> simp only [printReverseBuffered, readLines_eq]
  · simp only [printForward, readLines_eq]

section Visit

variable (a : Args)

/-- One file: the descriptors stay as they are, and what is read from `stdin` is what goes missing
there. -/
theorem visit_stdin (s : Run) (file : Str) (h : s.world.InputApart) :
    (visit a s file).world.fds = s.world.fds ∧
      (visit a s file).taken ++ (visit a s file).world.stdinLeft = s.taken ++ s.world.stdinLeft ∧
      (visit a s file).world.stdin = if file = ['-'] then .atEof else s.world.stdin := by
  unfold visit
  split
  · -- the stream is left at its end: nothing is left, and all that was there has been taken
    have hst := readStdin_stream a.flagN a.flagR s.number s.world.stdin s.world.reads
    rcases hread : readStdin a.flagN a.flagR s.number s.world.stdin s.world.reads with
      ⟨out, number, st, rest⟩
    rw [hread] at hst
    have hend : ((s.world.setStdin st rest).print out).stdin = .atEof := by
      rw [World.print_stdin, World.setStdin_stdin]
      exact hst
    refine ⟨by simp, ?_, hend⟩
    dsimp only
    rw [World.stdinLeft_of_atEof hend, readLines_eq, flatten_splitLines, List.append_nil,
      World.stdinLeft]
  · dsimp only
    split
    · exact ⟨rfl, rfl, rfl⟩
    · split
      · exact ⟨rfl, rfl, rfl⟩
      · split
        · exact ⟨rfl, rfl, rfl⟩
        · exact ⟨World.print_fds _ _, by rw [h.print_stdinLeft], World.print_stdin _ _⟩

/-- All files. -/
theorem foldl_visit_stdin (files : List Str) (s : Run) (h : s.world.InputApart) :
    (files.foldl (visit a) s).world.fds = s.world.fds ∧
      (files.foldl (visit a) s).taken ++ (files.foldl (visit a) s).world.stdinLeft =
        s.taken ++ s.world.stdinLeft ∧
      (files.foldl (visit a) s).world.stdin = if ['-'] ∈ files then .atEof else s.world.stdin := by
  induction files generalizing s with
  | nil => exact ⟨rfl, rfl, rfl⟩
  | cons file files ih =>
    obtain ⟨hfds, htaken, hstdin⟩ := visit_stdin a s file h
    have h' : (visit a s file).world.InputApart := by
      unfold World.InputApart
      rw [hfds]
      exact h
    obtain ⟨hfds', htaken', hstdin'⟩ := ih (visit a s file) h'
    refine ⟨hfds'.trans hfds, htaken'.trans htaken, ?_⟩
    rw [List.foldl_cons, hstdin', hstdin]
    by_cases hmem : ['-'] ∈ files
    · rw [if_pos hmem, if_pos (List.mem_cons_of_mem _ hmem)]
    · by_cases hfile : file = ['-']
      · rw [if_neg hmem, if_pos hfile, if_pos (hfile ▸ List.mem_cons_self)]
      · rw [if_neg hmem, if_neg hfile, if_neg]
        exact fun hcons => hmem ((List.mem_cons.mp hcons).resolve_left (Ne.symm hfile))

/-- If `-` is among its files, `peek` takes all that is left of `stdin`. -/
theorem peekFiles_stdin {a : Args} (hdash : ['-'] ∈ a.files) {w : World} (h : w.InputApart) :
    (peekFiles a w).world.fds = w.fds ∧ (peekFiles a w).taken = w.stdinLeft ∧
      (peekFiles a w).world.stdin = .atEof := by
  obtain ⟨hfds, htaken, hstdin⟩ :=
    foldl_visit_stdin a a.files ⟨w, if a.flagR && a.flagN then 0 else 1, []⟩ h
  rw [if_pos hdash] at hstdin
  rw [World.stdinLeft_of_atEof hstdin, List.append_nil, List.nil_append] at htaken
  exact ⟨hfds, htaken, hstdin⟩

end Visit

end UnixCShell.Peek
