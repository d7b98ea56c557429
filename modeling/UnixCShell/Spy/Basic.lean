import UnixCShell.Jobs.Resume
import UnixCShell.Lib.ExchangeSort
import UnixCShell.Lib.Firsts
import UnixCShell.Lib.Lines

/-!
# The command `spy`

`spy.c`: the open files of a process, as `/proc/<pid>` shows them. There is a row for the working
directory, one for the program, one for each mapped file and one for each descriptor.

The links of `/proc` are read into a buffer of 512 bytes, and the lines of `maps` into one of 1024;
the mapped files that have been printed are remembered in a table with 256 places, and the
descriptors are collected in one with 1024.
-/

namespace UnixCShell

open Lib

namespace Spy

/-- The kinds of files that `type_of` tells apart. -/
inductive FileType where
  | dir | chr | blk | fifo | sock | other
  deriving DecidableEq, Repr

/-- `type_of`, on the answer of `stat`. -/
def typeOf : Option FileType → Str
  | some .dir => "DIR".toList
  | some .chr => "CHR".toList
  | some .blk => "BLK".toList
  | some .fifo => "FIFO".toList
  | some .sock => "SOCK".toList
  | some .other | none => "REG".toList

/-- A link of `/proc`: its target, or why it cannot be read. -/
inductive Link where
  | target (path : Str)
  | denied
  | missing
  deriving DecidableEq, Repr

/-- `readlink(linkpath, target, sizeof(target) - 1)`, if it reads anything. -/
def Link.read : Link → Option Str
  | .target path => if path = [] then none else some (path.take 511)
  | .denied | .missing => none

/-- What `/proc/<pid>` shows. -/
structure ProcDir where
  cwd    : Link
  exe    : Link
  /-- The contents of `maps`, if it can be opened. -/
  maps   : Option Str
  /-- The names in `fd`, in the order of `readdir`, if it can be opened. -/
  fd     : Option (List Str)
  fdLink : Int → Link

/-- One row of the output. -/
structure Row where
  fd   : Str
  type : Str
  path : Str
  deriving DecidableEq, Repr

/-- `print_row`. -/
def Row.text (pid : Int) (r : Row) : Str :=
  (toString pid).toList ++ "    ".toList ++ r.fd ++ "    ".toList ++ r.type ++ "    ".toList ++
    r.path ++ ['\n']

variable (stat : Str → Option FileType)

/-- The row for a link, if it can be read. -/
def linkRow (label : Str) (l : Link) : List Row :=
  (l.read.map fun path => ⟨label, typeOf (stat path), path⟩).toList

/-- The path in a line of `maps`: what follows its first `/`, up to 511 bytes. -/
def mapsPath (line : Str) : Option Str :=
  if '/' ∈ line then some (((line.dropWhile (· ≠ '/')).takeWhile (· ≠ '\n')).take 511) else none

/-- The paths for which the loop over `maps` prints a row. -/
def memPaths (maps : Str) : List Str :=
  reported 256 ((linePieces '\n' 1023 maps).filterMap mapsPath)

/-- The rows for the mapped files. -/
def memRows (d : ProcDir) : List Row :=
  (d.maps.elim [] memPaths).map fun path => ⟨"mem".toList, typeOf (stat path), path⟩

/-- The number that is the name of an entry of `fd`. -/
def fdNumber (name : Str) : Option Int :=
  if name.head? = some '.' then none
  else
    match strtol name with
    | (v, []) => some (v.bmod (2 ^ 32))
    | _ => none

/-- `nums`, sorted. -/
def fdNumbers (names : List Str) : List Int := exchangeSort ((names.filterMap fdNumber).take 1024)

/-- The rows for the descriptors. -/
def fdRows (d : ProcDir) : List Row :=
  (d.fd.elim [] fdNumbers).flatMap fun n => linkRow stat (toString n).toList (d.fdLink n)

/-- All rows. -/
def rows (d : ProcDir) : List Row :=
  linkRow stat "cwd".toList d.cwd ++ linkRow stat "txt".toList d.exe ++
    memRows stat d ++ fdRows stat d

end Spy

/-- `run_spy` for a pid; `proc` is `/proc`. -/
def spyProcess (proc : Int → Option Spy.ProcDir) (stat : Str → Option Spy.FileType)
    (pid : Int) (w : World) :
    World :=
  match proc pid with
  | none => w.eprint "spy: no such process\n".toList
  | some d =>
    if d.cwd = .denied then w.eprint "spy: permission denied\n".toList
    else
      w.print ("PID    FD    TYPE   PATH\n".toList ++ (Spy.rows stat d).flatMap (Spy.Row.text pid))

/-- `run_spy`. -/
def runSpy (proc : Int → Option Spy.ProcDir) (stat : Str → Option Spy.FileType) (w : World) :
    List Str → World
  | [] => spyProcess proc stat w.shellPid w
  | [arg] =>
    match strtol arg with
    | (v, []) =>
      if arg = [] ∨ v < 0 then w.eprint "spy: no such process\n".toList
      else spyProcess proc stat (v.bmod (2 ^ 32)) w
    | _ => w.eprint "spy: no such process\n".toList
  | _ :: _ :: _ => w.eprint "spy: invalid syntax\n".toList

end UnixCShell
