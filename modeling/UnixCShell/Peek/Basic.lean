import Mathlib.Algebra.GroupWithZero.Nat
import UnixCShell.Lexer.Basic
import UnixCShell.Lib.Stdio

/-!
# Printing files backwards

`peek -r` (`peek.c`) has two ways of printing the lines of its input in reverse order. A stream is
read to its end and its lines are kept (`printReverseBuffered`); a seekable file is scanned
backwards in blocks of `CHUNK_SIZE` bytes, and every line is read again when its beginning has been
found (`printReverseChunked`). This file holds both and the helpers they share; `off_t` positions
are natural numbers, `int` line numbers are integers.
-/

namespace UnixCShell.Peek

open Lib

/-- `CHUNK_SIZE`. -/
def chunkSize : Nat := 4096

/-- `is_non_empty`: the first byte of the line (NUL for an empty string) does not end a line. -/
def isNonEmpty (line : Str) : Bool := line.headD nul != '\n' && line.headD nul != '\r'

/-- The string that starts at the first byte of `line`: what `strdup` copies and `printf("%s")`
prints. -/
def cString (line : Str) : Str := line.takeWhile (· != nul)

/-- What `printf("%d ", n)` prints. -/
def lineNumber (n : Int) : Str := (toString n).toList ++ [' ']

/-- The body of all printing loops: the number if one is wanted, the line, and the newline that a
last line may lack. (Where a string is empty the source looks at the byte before it; here that byte
is no newline.) -/
def printLine (flagN : Bool) (n : Int) (line : Str) : Str :=
  (if flagN && isNonEmpty line then lineNumber n else []) ++ cString line ++
    (if line.getLast? = some '\n' then [] else ['\n'])

/-- `(*line_num)--`, which happens only where a number is printed. -/
def nextNumber (flagN : Bool) (n : Int) (line : Str) : Int :=
  if flagN && isNonEmpty line then n - 1 else n

/-- The number of lines for which `is_non_empty` holds. -/
def countNonEmpty (lines : List Str) : Nat := lines.countP isNonEmpty

/-! ## Streams -/

/-- The loop over `lines` from the last to the first, with `total_lines` as counter; the argument
is the list in the order of printing. -/
def reverseLoop (flagN : Bool) (offset : Int) : Int → List Str → Str
  | _, [] => []
  | total, line :: lines =>
    printLine flagN (offset + total) line ++
      reverseLoop flagN offset (nextNumber flagN total line) lines

/-- `print_reverse_buffered` on a stream `st` over the reads `rs`: what it prints, `local_total`,
and the stream it leaves. -/
def printReverseBuffered (flagN : Bool) (offset : Int) (st : Stream Char) (rs : List Str) :
    Str × Int × Stream Char × List Str :=
  let (read, st', rs') := readLines '\n' st rs
  let lines := read.map cString
  let total : Int := countNonEmpty lines
  (reverseLoop flagN offset total lines.reverse, total, st', rs')

/-- `fopen` on a regular file: an empty buffer over the blocks of the file. -/
def fopen (contents : Str) : Stream Char × List Str := (.ahead [], blocks chunkSize contents)

/-- `count_non_empty_lines` on a file that can be opened. -/
def countNonEmptyLines (contents : Str) : Nat :=
  countNonEmpty (readLines '\n' (fopen contents).1 (fopen contents).2).1

/-! ## Seekable files -/

/-- `lseek(fd, start, SEEK_SET); read(fd, buf, len)` on a regular file. -/
def pread (contents : Str) (start len : Nat) : Str := (contents.drop start).take len

/-- The variables of the backward scan: `line_end`, `*line_num`, and what has been printed. -/
structure Scan where
  lineEnd : Nat
  lineNum : Int
  out     : Str
  deriving DecidableEq, Repr

section Chunked

variable (contents : Str) (flagN : Bool)

/-- Print the bytes from `lineStart` up to `line_end` as one line. -/
def printRange (lineStart : Nat) (s : Scan) : Scan :=
  let line := pread contents lineStart (s.lineEnd - lineStart)
  { s with
    lineNum := nextNumber flagN s.lineNum line
    out := s.out ++ printLine flagN s.lineNum line }

/-- The code behind `if (buf[i] == '\n')`, where `lineStart` is `pos + i + 1`. -/
def newlineFound (lineStart : Nat) (s : Scan) : Scan :=
  let s' := if 0 < s.lineEnd - lineStart then printRange contents flagN lineStart s
    else { s with out := s.out ++ ['\n'] }
  { s' with lineEnd := lineStart }

/-- The inner loop: the first `i` bytes of `buf`, which was read at `pos`, from the last to the
first. -/
def scanBlock (buf : Str) (pos : Nat) : Nat → Scan → Scan
  | 0, s => s
  | i + 1, s =>
    scanBlock buf pos i
      (if buf[i]? = some '\n' then newlineFound contents flagN (pos + i + 1) s else s)

/-- The outer loop `while (pos > 0)`, for blocks of `chunk` bytes. -/
def blockLoop (chunk : Nat) [NeZero chunk] (pos : Nat) (s : Scan) : Scan :=
  if 0 < pos then
    let readSize := if pos < chunk then pos else chunk
    let pos' := pos - readSize
    blockLoop chunk pos' (scanBlock contents flagN (pread contents pos' readSize) pos' readSize s)
  else s
termination_by pos
decreasing_by
  have := Nat.pos_of_ne_zero (NeZero.ne chunk)
  split <;> omega

/-- `filesize` after the adjustment for a last newline. -/
def scanSize : Nat :=
  if contents.getLast? = some '\n' then contents.length - 1 else contents.length

/-- `print_reverse_chunked` with blocks of `chunk` bytes: what it prints, and `*line_num`. -/
def printReverseIn (chunk : Nat) [NeZero chunk] (lineNum : Int) : Str × Int :=
  if contents.length = 0 then ([], lineNum)
  else if scanSize contents = 0 then ([], lineNum)
  else
    let s := blockLoop contents flagN chunk (scanSize contents) ⟨scanSize contents, lineNum, []⟩
    let s' := if 0 < s.lineEnd then printRange contents flagN 0 s else s
    (s'.out, s'.lineNum)

instance : NeZero chunkSize := ⟨by decide⟩

/-- `print_reverse_chunked`. -/
def printReverseChunked (lineNum : Int) : Str × Int :=
  printReverseIn contents flagN chunkSize lineNum

end Chunked

end UnixCShell.Peek
