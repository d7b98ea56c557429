import UnixCShell.Hop.Frecency

/-!
# The command `hop`

`hop.c`: `do_chdir`, `hop_one` and `run_hop`. The arguments are taken from left to right, up to the
first one that leads nowhere. Every change of the directory is recorded in the frecency database,
and the directory that was left is kept for `hop -`.

What the directories are is not the shell's to say: the answers of `chdir`, `realpath` and `stat`
are parameters, and so is the search in the database.
-/

namespace UnixCShell

/-- What `hop` asks for. -/
structure HopEnv where
  /-- `get_shell_home`. -/
  home    : Str
  /-- `chdir` from a directory to a name: the directory it leads to, as `getcwd` will tell it. -/
  chdir   : Str → Str → Option Str
  /-- `resolve_direct`: what the name is in the directory, if it is a directory there. -/
  resolve : Str → Str → Option Str
  /-- `frecency_lookup` in the database, at a time. -/
  lookup  : Option Str → Int64 → Str → Option Str

/-- What `hop` works on: the shell, `prev_dir` and the file of the database. -/
structure HopState where
  world   : World
  prevDir : Str
  db      : Option Str

/-- `getcwd` with a buffer of `PATH_MAX` bytes. -/
def getcwd (cwd : Str) : Option Str := if cwd.length < pathMax then some cwd else none

variable (env : HopEnv)

/-- `do_chdir` at the time `now`; the result says whether the directory has changed. -/
def doChdir (now : Int64) (s : HopState) (target : Str) : HopState × Bool :=
  match env.chdir s.world.cwd target with
  | none => ({ s with world := s.world.eprint "hop: no such directory\n".toList }, false)
  | some cwd =>
    ({ world := { s.world with cwd := cwd }
       prevDir := (getcwd s.world.cwd).getD s.prevDir
       db := (getcwd cwd).elim s.db fun path => recordVisit s.db path now }, true)

/-- `hop_one`; the result says whether the next argument is looked at. -/
def hopOne (now : Int64) (s : HopState) (arg : Str) : HopState × Bool :=
  if arg = ".".toList then (s, true)
  else if arg = "~".toList then doChdir env now s env.home
  else if arg = "..".toList then
    match getcwd s.world.cwd with
    | none => (s, true)
    | some cwd => if cwd = "/".toList then (s, true) else doChdir env now s "..".toList
  else if arg = "-".toList then
    if s.prevDir = [] then (s, true) else doChdir env now s s.prevDir
  else
    match env.resolve s.world.cwd arg with
    | some resolved => doChdir env now s resolved
    | none =>
      match env.lookup s.db now arg with
      | some resolved => doChdir env now s resolved
      | none => ({ s with world := s.world.eprint "hop: no such directory\n".toList }, false)

/-- The loop of `run_hop`; the clock tells the time for every argument. -/
def hopLoop : (Nat → Int64) → List Str → HopState → HopState
  | _, [], s => s
  | clock, arg :: args, s =>
    match hopOne env (clock 0) s arg with
    | (s, false) => s
    | (s, true) => hopLoop (fun n => clock (n + 1)) args s

/-- `run_hop`. -/
def runHop (clock : Nat → Int64) (s : HopState) (args : List Str) : HopState :=
  if args = [] then (hopOne env (clock 0) s "~".toList).1 else hopLoop env clock args s

/-! ## Where an argument leads

Whatever kind of argument it is, `hop_one` does one of three things: nothing, `do_chdir`, or a
message. -/

/-- Where an argument leads. -/
inductive Leads where
  | stays
  | goes (target : Str)
  | nowhere
  deriving DecidableEq, Repr

/-- Where `hop_one` goes for an argument, if it goes. -/
def leadsTo (now : Int64) (s : HopState) (arg : Str) : Leads :=
  if arg = ".".toList then .stays
  else if arg = "~".toList then .goes env.home
  else if arg = "..".toList then
    if getcwd s.world.cwd = none ∨ s.world.cwd = "/".toList then .stays else .goes "..".toList
  else if arg = "-".toList then
    if s.prevDir = [] then .stays else .goes s.prevDir
  else
    match (env.resolve s.world.cwd arg).or (env.lookup s.db now arg) with
    | some resolved => .goes resolved
    | none => .nowhere

/-- The message of `hop`. -/
def HopState.complain (s : HopState) : HopState :=
  { s with world := s.world.eprint "hop: no such directory\n".toList }

variable {env}

theorem getcwd_cases (cwd : Str) : getcwd cwd = none ∨ getcwd cwd = some cwd := by
  unfold getcwd
  split
  · exact .inr rfl
  · exact .inl rfl

theorem hopOne_eq (now : Int64) (s : HopState) (arg : Str) :
    hopOne env now s arg =
      match leadsTo env now s arg with
      | .stays => (s, true)
      | .goes target => doChdir env now s target
      | .nowhere => (s.complain, false) := by
  unfold hopOne leadsTo
  split
  · rfl
  · split
    · rfl
    · split
      · -- `..`
        rcases getcwd_cases s.world.cwd with hcwd | hcwd
        · simp only [hcwd, true_or, if_true]
        · simp only [hcwd, reduceCtorEq, false_or]
          split <;> rfl
      · split
        · -- `-`
          split <;> rfl
        · cases env.resolve s.world.cwd arg with
          | some resolved => rfl
          | none =>
            rw [Option.none_or]
            cases env.lookup s.db now arg <;> rfl

/-! ## What `hop` leaves alone -/

/-- Nothing but the working directory and the error messages has changed. -/
def World.MovedTo (w w' : World) : Prop := ∃ cwd err, w' = { w with cwd := cwd, err := err }

theorem World.MovedTo.refl (w : World) : w.MovedTo w := ⟨_, _, rfl⟩

theorem World.MovedTo.trans {w₁ w₂ w₃ : World} (h : w₁.MovedTo w₂) (h' : w₂.MovedTo w₃) :
    w₁.MovedTo w₃ := by
  obtain ⟨cwd, err, rfl⟩ := h
  obtain ⟨cwd', err', rfl⟩ := h'
  exact ⟨cwd', err', rfl⟩

theorem doChdir_movedTo (now : Int64) (s : HopState) (target : Str) :
    s.world.MovedTo (doChdir env now s target).1.world := by
  unfold doChdir
  split <;> exact ⟨_, _, rfl⟩

theorem hopOne_movedTo (now : Int64) (s : HopState) (arg : Str) :
    s.world.MovedTo (hopOne env now s arg).1.world := by
  rw [hopOne_eq]
  split
  · exact .refl _
  · exact doChdir_movedTo ..
  · exact ⟨_, _, rfl⟩

theorem hopLoop_movedTo (clock : Nat → Int64) (args : List Str) (s : HopState) :
    s.world.MovedTo (hopLoop env clock args s).world := by
  induction args generalizing clock s with
  | nil => exact .refl _
  | cons arg args ih =>
    have hone := @hopOne_movedTo env (clock 0) s arg
    rw [hopLoop]
    split
    · next h => rwa [h] at hone
    · next h =>
      rw [h] at hone
      exact hone.trans (ih _ _)

theorem runHop_movedTo (clock : Nat → Int64) (s : HopState) (args : List Str) :
    s.world.MovedTo (runHop env clock s args).world := by
  unfold runHop
  split
  · exact hopOne_movedTo ..
  · exact hopLoop_movedTo ..

end UnixCShell
