import Mathlib.Algebra.Group.Int.Defs
import Mathlib.Algebra.GroupWithZero.Nat
import UnixCShell.Jobs.Resume

/-!
# The command `ping`

`ping.c`: a signal for the process group of a job (`ping %n sig`) or for a process of a job
(`ping pid sig`). The number of the signal is taken modulo 64, the numbers of jobs and processes are
cut to 32 bits.
-/

namespace UnixCShell

/-- The number of the signal; `none` is `ping: invalid syntax`. -/
def pingSignal (sigStr : Str) : Option Nat :=
  match sigStr, strtol sigStr with
  | [], _ => none
  | _, (sigVal, []) => if sigVal < 0 then none else some (sigVal.toNat % 64)
  | _, _ => none

namespace World

/-- What `kill` is called for; `none` is `ping: no such process found`. -/
def pingTarget (w : World) : Str → Option Int
  | '%' :: number =>
    match number, strtol number with
    | [], _ => none
    | _, (jn, []) => ((w.jobsFindByNumber (jn.bmod (2 ^ 32))).bind w.jobs.cell).map fun j => -j.pgid
    | _, _ => none
  | target =>
    match strtol target with
    | (pidval, []) =>
      let pid := pidval.bmod (2 ^ 32)
      (w.jobsFindByPid pid).map fun _ => pid
    | _ => none

/-- `run_ping`. -/
def runPing (w : World) (args : List Str) : World :=
  match args with
  | [target, sigStr] =>
    match pingSignal sigStr with
    | none => w.eprint "ping: invalid syntax\n".toList
    | some sig =>
      match w.pingTarget target with
      | none => w.eprint "ping: no such process found\n".toList
      | some pid =>
        (w.kill pid sig).print
          ("Sent signal ".toList ++ sigStr ++ " to ".toList ++ target ++ "\n".toList)
  | _ => w.eprint "ping: invalid syntax\n".toList

theorem kills_print (w : World) (s : Str) : (w.print s).kills = w.kills := by
  unfold print
  split <;> rfl

/-- `ping` signals nothing but its target, and that once. -/
theorem runPing_kills (w : World) (args : List Str) :
    (w.runPing args).kills = w.kills ∨
      ∃ target sigStr pid sig, args = [target, sigStr] ∧ w.pingTarget target = some pid ∧
        pingSignal sigStr = some sig ∧ (w.runPing args).kills = w.kills ++ [(pid, sig)] := by
  unfold runPing
  split
  · rename_i target sigStr
    cases hsig : pingSignal sigStr with
    | none => exact .inl rfl
    | some sig =>
      cases htarget : w.pingTarget target with
      | none => exact .inl rfl
      | some pid => exact .inr ⟨target, sigStr, pid, sig, rfl, htarget, hsig, kills_print ..⟩
  · exact .inl rfl

/-- A target without `%` is a process that `jobs_find_by_pid` finds. -/
theorem pingTarget_pid {w : World} {target : Str} {pid : Int} (hpid : target.head? ≠ some '%')
    (h : w.pingTarget target = some pid) : ∃ slot, w.jobsFindByPid pid = some slot := by
  unfold pingTarget at h
  split at h
  · exact absurd rfl hpid
  · split at h
    · obtain ⟨slot, hfind, rfl⟩ := Option.map_eq_some_iff.mp h
      exact ⟨slot, hfind⟩
    · cases h

end World

end UnixCShell
