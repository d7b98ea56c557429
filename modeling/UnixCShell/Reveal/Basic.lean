import Mathlib.Data.Char
import Mathlib.Data.List.Lex
import Mathlib.Data.List.Sort
import UnixCShell.Shell.Prompt

/-!
# The command `reveal`

`reveal.c`: `reveal_dir` prints the entries of a directory in the order of their names, and with the
flag `-t` those of its subdirectories, each behind the subdirectory. It names the entries by paths
that it puts together in two buffers of `PATH_MAX` bytes, one for the path that is printed and one
for the path that `lstat` and `opendir` get.

The file system is what these calls answer. A directory may be entered again and again, so
`revealDir` has a fuel.
-/

namespace UnixCShell

namespace Reveal

/-- What a file is to `stat` and `lstat`. -/
inductive Kind where
  | dir | link | other
  deriving DecidableEq, Repr

/-- The answers of the file system. -/
structure Fs where
  lstat   : Str → Option Kind
  stat    : Str → Option Kind
  /-- `opendir`, with all that `readdir` will give. -/
  opendir : Str → Option (List Str)

/-- A line of the output, or the message that a directory cannot be opened. -/
inductive Line where
  | entry (rel : Str) (slash : Bool)
  | noSuchDirectory
  deriving DecidableEq, Repr

variable (fs : Fs) (flagA flagT : Bool)

/-- `read_sorted_entries`. -/
def readSortedEntries (path : Str) : Option (List Str) :=
  (fs.opendir path).map fun names =>
    (names.filter fun name => name ≠ ".".toList && name ≠ "..".toList &&
      (flagA || name.head? ≠ some '.')).insertionSort (· ≤ ·)

/-- `rel`. -/
def childRel (relPrefix name : Str) : Str :=
  snprintf pathMax (if relPrefix = [] then name else relPrefix ++ '/' :: name)

/-- `child_abs`. -/
def childAbs (absPath name : Str) : Str := snprintf pathMax (absPath ++ '/' :: name)

/-- The loop of `reveal_dir`; `enter` is the call for a subdirectory. -/
def revealLoop (enter : Str → Str → Option (List Line)) (absPath relPrefix : Str) :
    List Str → Option (List Line)
  | [] => some []
  | name :: names => do
    let isDir := fs.lstat (childAbs absPath name) = some .dir
    let inside ←
      (if isDir && flagT then enter (childAbs absPath name) (childRel relPrefix name) else some [])
    let rest ← revealLoop enter absPath relPrefix names
    return .entry (childRel relPrefix name) (isDir && flagT) :: (inside ++ rest)

/-- `reveal_dir`. -/
def revealDir : Nat → Str → Str → Option (List Line)
  | 0, _, _ => none
  | fuel + 1, absPath, relPrefix =>
    match readSortedEntries fs flagA absPath with
    | none => some [.noSuchDirectory]
    | some names => revealLoop fs flagT (revealDir fuel) absPath relPrefix names

/-- `print_entry_name`. -/
def printEntryName (name : Str) : Str := if ' ' ∈ name then '\'' :: name ++ ['\''] else name

/-- What `reveal_dir` prints for one line. -/
def Line.printTo (w : World) : Line → World
  | .entry rel slash => w.print (printEntryName rel ++ (if slash then "/\n" else "\n").toList)
  | .noSuchDirectory => w.eprint "reveal: no such directory\n".toList

/-! ## The arguments -/

/-- The variables of `run_reveal`. -/
structure Args where
  flagA    : Bool := false
  flagT    : Bool := false
  arg      : Option Str := none
  argCount : Nat := 0
  seenArg  : Bool := false
  deriving DecidableEq, Repr

/-- The loop over the letters of a flag. -/
def flagLoop (args : Args) : Str → Option Args
  | [] => some args
  | c :: cs =>
    if c = 'a' then flagLoop { args with flagA := true } cs
    else if c = 't' then flagLoop { args with flagT := true } cs
    else none

/-- The loop over the arguments; where it gives up the syntax is invalid. -/
def argLoop (args : Args) : List Str → Option Args
  | [] => some args
  | value :: values =>
    if value.head? = some '-' ∧ 1 < value.length then
      if args.seenArg then none
      else (flagLoop args (value.drop 1)).bind fun args => argLoop args values
    else
      argLoop { args with arg := some value, argCount := args.argCount + 1, seenArg := true } values

/-- `path`; `home` and `prev` are those of `prompt.c` and `hop.c`. -/
def pathOf (home prev : Str) : Option Str → Option Str
  | none => some ".".toList
  | some arg =>
    if arg = "~".toList then some home
    else if arg = "-".toList then if prev = [] then none else some prev
    else some arg

end Reveal

open Reveal in
/-- `run_reveal`. -/
def runReveal (fs : Fs) (home prev : Str) (fuel : Nat) (w : World) (values : List Str) :
    Option World :=
  match argLoop {} values with
  | none => some (w.eprint "reveal: invalid syntax\n".toList)
  | some args =>
    if 1 < args.argCount then some (w.eprint "reveal: invalid syntax\n".toList)
    else
      match pathOf home prev args.arg with
      | none => some (w.eprint "reveal: no such directory\n".toList)
      | some path =>
        if fs.stat path ≠ some .dir then some (w.eprint "reveal: no such directory\n".toList)
        else (revealDir fs args.flagA args.flagT fuel path []).map fun lines =>
          lines.foldl Line.printTo w

end UnixCShell
