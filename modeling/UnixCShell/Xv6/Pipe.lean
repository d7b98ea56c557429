import Mathlib.Data.List.FinRange
import UnixCShell.Lib.Monitor
import UnixCShell.Lib.Ring
import UnixCShell.Xv6.Proc

/-!
# Pipes

`pipe.c`: a ring buffer of 512 bytes that any number of processes write to and read from, under the
lock of the pipe. A writer that finds the buffer full, and a reader that finds it empty, waits;
whoever makes room or puts a byte in wakes the others before it releases the lock. `pipewrite`,
`piperead` and `pipeclose` are programs of a monitor, one instruction for each step between two
calls of `acquire`, `release`, `killed`, `sleep_prepare`, `sleep` and `wakeup`; a turn of a loop is
at least one instruction.

The bytes come out in the order in which they were put in, none is lost and none comes twice,
however many there are (`pipe_fifo`); a process is asleep only as long as it has to be
(`pipe_wakeups`).
-/

namespace UnixCShell.Xv6

open Lib

/-- `PIPESIZE`. -/
def pipeSize : Nat := 512

instance : NeZero pipeSize := ⟨by decide⟩

/-- `struct pipe`, without its lock. -/
structure Pipe where
  data      : Fin pipeSize → UInt8
  nread     : BitVec 32
  nwrite    : BitVec 32
  readopen  : Bool
  writeopen : Bool

namespace Pipe

/-- A pipe as `pipealloc` makes it; the page holds what `kalloc` has put there. -/
def alloc (data : Fin pipeSize → UInt8) : Pipe := ⟨data, 0, 0, true, true⟩

/-- `pi->nwrite == pi->nread + PIPESIZE`. -/
def full (p : Pipe) : Bool := p.nwrite = p.nread + BitVec.ofNat 32 pipeSize

/-- `pi->nread == pi->nwrite`. -/
def empty (p : Pipe) : Bool := p.nread = p.nwrite

/-- `pi->data[pi->nwrite++ % PIPESIZE] = ch`. -/
def push (p : Pipe) (ch : UInt8) : Pipe :=
  { p with data := Function.update p.data (Ring.cell pipeSize p.nwrite) ch, nwrite := p.nwrite + 1 }

/-- `pi->data[pi->nread % PIPESIZE]`. -/
def first (p : Pipe) : UInt8 := p.data (Ring.cell pipeSize p.nread)

/-- `pi->nread++`. -/
def pop (p : Pipe) : Pipe := { p with nread := p.nread + 1 }

/-- The bytes in the buffer. -/
def contents (p : Pipe) : List UInt8 := Ring.contents p.data p.nread p.nwrite

theorem contents_alloc (data : Fin pipeSize → UInt8) : (alloc data).contents = [] :=
  Ring.contents_self _ _

theorem empty_iff {p : Pipe} : p.empty = true ↔ p.contents = [] := by
  rw [contents, Ring.contents_eq_nil_iff]
  exact decide_eq_true_iff

theorem full_iff {p : Pipe} : p.full = true ↔ p.contents.length = pipeSize := by
  rw [contents, Ring.length_contents, ← Ring.eq_add_iff (by decide : pipeSize < 2 ^ 32)]
  exact decide_eq_true_iff

theorem contents_push {p : Pipe} (h : p.contents.length < pipeSize) (ch : UInt8) :
    (p.push ch).contents = p.contents ++ [ch] := by
  rw [contents, Ring.length_contents] at h
  exact Ring.contents_push (by decide) (by decide) h ch

theorem contents_pop {p : Pipe} (h : p.empty = false) : p.contents = p.first :: p.pop.contents := by
  apply Ring.contents_pop
  simpa [empty] using h

/-! ## The programs -/

/-- What a process sleeps on: `&pi->nread` or `&pi->nwrite`. -/
inductive Chan where
  | nread
  | nwrite
  deriving DecidableEq, Repr

/-- The pipe, and a record of the bytes that went through it: who put them in, who took them out. -/
structure Flow where
  pipe : Pipe
  put  : List (Fin nproc × UInt8)
  got  : List (Fin nproc × UInt8)

/-- Where a process is. The buffer of a writer is given by the bytes that `copyin` will find there,
`none` where it fails; that of a reader by the results of `copyout`. -/
inductive Pc where
  /-- Not in a call; `r` is the result of the last one. -/
  | returned (r : Int)
  /-- `while (i < n)`; `put` says that the process has put a byte in since it acquired the lock. -/
  | write (buf : List (Option UInt8)) (i : Nat) (put : Bool)
  /-- Behind `killed(pr)`. -/
  | writeByte (buf : List (Option UInt8)) (i : Nat) (put : Bool)
  /-- Behind `wakeup(&pi->nread)`, with a full buffer. -/
  | writeFull (buf : List (Option UInt8)) (i : Nat)
  /-- `while (pi->nread == pi->nwrite && pi->writeopen)`. -/
  | read (oks : List Bool)
  /-- Behind `killed(pr)`. -/
  | readEmpty (oks : List Bool)
  /-- `for (i = 0; i < n; i++)`. -/
  | readCopy (oks : List Bool) (i : Nat)
  /-- Behind `wakeup(&pi->nwrite)`. -/
  | readDone (oks : List Bool) (r : Int)
  /-- `pipeclose`. -/
  | close (writable : Bool)
  | closeWake (writable : Bool)
  /-- Before the last `release`. -/
  | leave (r : Int)
  deriving DecidableEq, Repr

/-- What the process `t` does next, with the lock. -/
def inside (t : Fin nproc) (k : Pc) (s : Flow) : Instr Flow Pc Chan :=
  match k with
  | .returned r | .leave r | .readDone _ r => .release (.returned r)
  | .write buf i put =>
    if i < buf.length then
      if s.pipe.readopen = false then .release (.returned (-1))
      else .ifKilled (.leave (-1)) (.writeByte buf i put)
    else .wakeup .nread (.leave i)
  | .writeByte buf i _ =>
    if s.pipe.full then .wakeup .nread (.writeFull buf i)
    else
      match (buf[i]?).join with
      | none => .wakeup .nread (.leave (if i = 0 then -1 else i))
      | some ch =>
        .update { s with pipe := s.pipe.push ch, put := s.put ++ [(t, ch)] }
          (.write buf (i + 1) true)
  | .writeFull buf i => .wait .nwrite (.write buf i false)
  | .read oks =>
    if s.pipe.empty ∧ s.pipe.writeopen then .ifKilled (.leave (-1)) (.readEmpty oks)
    else .update s (.readCopy oks 0)
  | .readEmpty oks => .wait .nread (.read oks)
  | .readCopy oks i =>
    match oks[i]? with
    | none => .wakeup .nwrite (.readDone oks i)
    | some ok =>
      if s.pipe.empty then .wakeup .nwrite (.readDone oks i)
      else if ok then
        .update { s with pipe := s.pipe.pop, got := s.got ++ [(t, s.pipe.first)] }
          (.readCopy oks (i + 1))
      else .wakeup .nwrite (.readDone oks (if i = 0 then -1 else i))
  | .close writable =>
    .update { s with
      pipe := if writable then { s.pipe with writeopen := false }
        else { s.pipe with readopen := false } } (.closeWake writable)
  | .closeWake writable => .wakeup (if writable then .nread else .nwrite) (.leave 0)

/-- `inside` as a relation, with one rule for each way through it. -/
inductive Inside (t : Fin nproc) (s : Flow) : Pc → Instr Flow Pc Chan → Prop where
  | returned (r : Int) : Inside t s (.returned r) (.release (.returned r))
  | leave (r : Int) : Inside t s (.leave r) (.release (.returned r))
  | readDone (oks : List Bool) (r : Int) : Inside t s (.readDone oks r) (.release (.returned r))
  | writeClosed (buf : List (Option UInt8)) (i : Nat) (put : Bool) : i < buf.length →
      s.pipe.readopen = false →
      Inside t s (.write buf i put) (.release (.returned (-1)))
  | writeNext (buf : List (Option UInt8)) (i : Nat) (put : Bool) : i < buf.length →
      s.pipe.readopen = true →
      Inside t s (.write buf i put) (.ifKilled (.leave (-1)) (.writeByte buf i put))
  | writeEnd (buf : List (Option UInt8)) (i : Nat) (put : Bool) : buf.length ≤ i →
      Inside t s (.write buf i put) (.wakeup .nread (.leave i))
  | writeFull (buf : List (Option UInt8)) (i : Nat) (put : Bool) : s.pipe.full = true →
      Inside t s (.writeByte buf i put) (.wakeup .nread (.writeFull buf i))
  | writeFault (buf : List (Option UInt8)) (i : Nat) (put : Bool) : s.pipe.full = false →
      (buf[i]?).join = none →
      Inside t s (.writeByte buf i put) (.wakeup .nread (.leave (if i = 0 then -1 else i)))
  | push (buf : List (Option UInt8)) (i : Nat) (put : Bool) (ch : UInt8) : s.pipe.full = false →
      buf[i]? = some (some ch) →
      Inside t s (.writeByte buf i put)
        (.update { s with pipe := s.pipe.push ch, put := s.put ++ [(t, ch)] }
          (.write buf (i + 1) true))
  | writeWait (buf : List (Option UInt8)) (i : Nat) :
      Inside t s (.writeFull buf i) (.wait .nwrite (.write buf i false))
  | readNone (oks : List Bool) : s.pipe.empty = true → s.pipe.writeopen = true →
      Inside t s (.read oks) (.ifKilled (.leave (-1)) (.readEmpty oks))
  | readReady (oks : List Bool) : (s.pipe.empty = true → s.pipe.writeopen = false) →
      Inside t s (.read oks) (.update s (.readCopy oks 0))
  | readWait (oks : List Bool) : Inside t s (.readEmpty oks) (.wait .nread (.read oks))
  | readEnd (oks : List Bool) (i : Nat) : oks.length ≤ i ∨ s.pipe.empty = true →
      Inside t s (.readCopy oks i) (.wakeup .nwrite (.readDone oks i))
  | pop (oks : List Bool) (i : Nat) : oks[i]? = some true → s.pipe.empty = false →
      Inside t s (.readCopy oks i)
        (.update { s with pipe := s.pipe.pop, got := s.got ++ [(t, s.pipe.first)] }
          (.readCopy oks (i + 1)))
  | readFault (oks : List Bool) (i : Nat) : oks[i]? = some false → s.pipe.empty = false →
      Inside t s (.readCopy oks i) (.wakeup .nwrite (.readDone oks (if i = 0 then -1 else i)))
  | close (writable : Bool) :
      Inside t s (.close writable) (.update { s with pipe :=
        if writable then { s.pipe with writeopen := false } else { s.pipe with readopen := false } }
        (.closeWake writable))
  | closeWake (writable : Bool) :
      Inside t s (.closeWake writable) (.wakeup (if writable then .nread else .nwrite) (.leave 0))

theorem Inside.of (t : Fin nproc) (k : Pc) (s : Flow) : Inside t s k (inside t k s) := by
  cases k with
  | returned r => exact .returned r
  | leave r => exact .leave r
  | readDone oks r => exact .readDone oks r
  | write buf i put =>
    simp only [inside]
    split
    · next hi =>
      split
      · next hclosed => exact .writeClosed buf i put hi hclosed
      · next hopen => exact .writeNext buf i put hi (by simpa using hopen)
    · next hi => exact .writeEnd buf i put (Nat.not_lt.mp hi)
  | writeByte buf i put =>
    simp only [inside]
    split
    · next hfull => exact .writeFull buf i put hfull
    · next hfull =>
      have hfull : s.pipe.full = false := by simpa using hfull
      split
      · next hnone => exact .writeFault buf i put hfull hnone
      · next ch hch => exact .push buf i put ch hfull (Option.join_eq_some_iff.mp hch)
  | writeFull buf i => exact .writeWait buf i
  | read oks =>
    simp only [inside]
    split
    · next hboth => exact .readNone oks hboth.1 hboth.2
    · next hne =>
      refine .readReady oks fun hempty => ?_
      simpa [hempty] using hne
  | readEmpty oks => exact .readWait oks
  | readCopy oks i =>
    simp only [inside]
    split
    · next hi => exact .readEnd oks i (.inl (List.getElem?_eq_none_iff.mp hi))
    · next ok hi =>
      split
      · next hempty => exact .readEnd oks i (.inr hempty)
      · next hempty =>
        have hempty : s.pipe.empty = false := by simpa using hempty
        split
        · next hok => exact .pop oks i (by rw [hi, hok]) hempty
        · next hok => exact .readFault oks i (by rw [hi, Bool.eq_false_iff.mpr hok]) hempty
  | close writable => exact .close writable
  | closeWake writable => exact .closeWake writable

theorem Inside.of_eq {t : Fin nproc} {k : Pc} {s : Flow} {i : Instr Flow Pc Chan}
    (h : inside t k s = i) : Inside t s k i :=
  h ▸ .of t k s

/-- The calls. -/
inductive Call where
  | write (buf : List (Option UInt8))
  | read (oks : List Bool)
  | close (writable : Bool)
  deriving DecidableEq, Repr

/-- A process that is in no call may make one. -/
def outside (_ : Fin nproc) (k : Pc) (_ : Flow) (c : Call) : Option (Outer Flow Pc) :=
  match k, c with
  | .returned _, .write buf => some (.enter (.write buf 0 false))
  | .returned _, .read oks => some (.enter (.read oks))
  | .returned _, .close writable => some (.enter (.close writable))
  | _, _ => none

def program : Program (Fin nproc) Flow Pc Chan Call := ⟨inside, outside⟩

/-- The processes and the pipe. -/
abbrev System := Monitor (Fin nproc) Flow Pc Chan

/-- A new pipe. -/
def System.init (data : Fin pipeSize → UInt8) : System :=
  Monitor.init ⟨alloc data, [], []⟩ fun _ => .returned 0

def System.step : System → Monitor.Act (Fin nproc) Call → Option System :=
  Monitor.step program (List.finRange nproc)

/-! ## What comes out -/

/-- What was put in has come out, or is in the buffer. -/
structure Flow.Ok (s : Flow) : Prop where
  fifo     : s.put.map Prod.snd = s.got.map Prod.snd ++ s.pipe.contents
  capacity : s.pipe.contents.length ≤ pipeSize

theorem Flow.Ok.push {s : Flow} (h : s.Ok) (hfull : s.pipe.full = false)
    (t : Fin nproc) (ch : UInt8) :
    Flow.Ok { s with pipe := s.pipe.push ch, put := s.put ++ [(t, ch)] } := by
  have hlt : s.pipe.contents.length < pipeSize := by
    refine lt_of_le_of_ne h.capacity fun heq => ?_
    rw [full_iff.mpr heq] at hfull
    cases hfull
  constructor
  · simp [contents_push hlt, h.fifo]
  · rw [contents_push hlt, List.length_append]
    exact hlt

theorem Flow.Ok.pop {s : Flow} (h : s.Ok) (hempty : s.pipe.empty = false) (t : Fin nproc) :
    Flow.Ok { s with pipe := s.pipe.pop, got := s.got ++ [(t, s.pipe.first)] } := by
  have hpop := contents_pop hempty
  constructor
  · simp [h.fifo, hpop]
  · have := h.capacity
    rw [hpop, List.length_cons] at this
    exact Nat.le_of_succ_le this

theorem Flow.Ok.update {t : Fin nproc} {k k' : Pc} {s s' : Flow} (hs : s.Ok)
    (h : inside t k s = .update s' k') :
    s'.Ok := by
  cases Inside.of_eq h with
  | push buf i put ch hfull hch => exact hs.push hfull t ch
  | pop oks i hi hempty => exact hs.pop hempty t
  | close writable => cases writable <;> exact ⟨hs.fifo, hs.capacity⟩
  | readReady => exact hs

theorem not_outside_update {t : Fin nproc} {k k' : Pc} {s s' : Flow} {c : Call}
    (h : program.outside t k s c = some (.update s' k')) : False := by
  simp only [program, outside] at h
  split at h <;> cases h

theorem keeps_ok : Monitor.Keeps program (fun _ _ _ => True) fun s _ => s.Ok where
  update hs h := hs.update h
  ifKilled hs _ := ⟨hs, hs⟩
  wakeup hs _ := hs
  wait hs _ := hs
  release hs _ := hs
  enter hs _ _ := hs
  change _ _ h := (not_outside_update h).elim

/-- The bytes that come out are the bytes that went in, in the same order; those that are missing
are in the buffer, which never holds more than it can. -/
theorem pipe_fifo (data : Fin pipeSize → UInt8)
    {acts : List (Monitor.Act (Fin nproc) Call)} {m : System}
    (hrun : run System.step (System.init data) acts = some m) :
    m.shared.put.map Prod.snd = m.shared.got.map Prod.snd ++ m.shared.pipe.contents ∧
      m.shared.pipe.contents.length ≤ pipeSize := by
  have hinit : Flow.Ok (System.init data).shared := by
    constructor
    · show [] = [] ++ (alloc data).contents
      rw [contents_alloc]
      rfl
    · show (alloc data).contents.length ≤ pipeSize
      rw [contents_alloc]
      exact Nat.zero_le _
  have hok :=
    Monitor.run_keeps keeps_ok (Monitor.allSteps_chooses (fun _ _ _ => trivial) _) hinit hrun
  exact ⟨hok.fifo, hok.capacity⟩

/-- A process calls `c` and takes `n` steps. -/
def callActs (t : Fin nproc) (c : Call) (n : Nat) : List (Monitor.Act (Fin nproc) Call) :=
  .outside t c :: List.replicate n (.next t)

/-- One process writes a byte, and another one takes it out. -/
theorem pipe_fifo_one_byte :
    ∃ m, run System.step (System.init fun _ => 0)
      (callActs 0 (.write [some 7]) 70 ++ callActs 1 (.read [true]) 3) = some m ∧
      m.shared.got = [(1, 7)] ∧ m.shared.put.map Prod.snd =
        m.shared.got.map Prod.snd ++ m.shared.pipe.contents := by
  obtain ⟨m, hrun, hgot⟩ : ∃ m, run System.step (System.init fun _ => 0)
      (callActs 0 (.write [some 7]) 70 ++ callActs 1 (.read [true]) 3) = some m ∧
        m.shared.got = [(1, 7)] :=
    exists_run_of_any (by decide +kernel)
  exact ⟨m, hrun, hgot, (pipe_fifo _ hrun).1⟩

/-! ## Wakeups -/

/-- Why it waits: the buffer is empty, or it is full. -/
def reason (c : Chan) (_ : Fin nproc) (_ : Pc) (s : Flow) : Prop :=
  match c with
  | .nread => s.pipe.readopen = true → s.pipe.empty = true ∧ s.pipe.writeopen = true
  | .nwrite => s.pipe.full = true ∧ s.pipe.readopen = true

/-- The wakeups that a process at `k` still has to make. -/
def owes (k : Pc) (c : Chan) : Prop :=
  match k with
  | .write _ _ put | .writeByte _ _ put => put = true ∧ c = .nread
  | .readCopy .. => c = .nwrite
  | .closeWake writable => c = if writable then .nread else .nwrite
  | _ => False

/-- What a process with the lock knows. A writer that has put a byte in has not been killed before
that. -/
def At (_ : Fin nproc) (k : Pc) (s : Flow) (killed : Bool) : Prop :=
  match k with
  | .write _ _ put => put = true → killed = false
  | .writeByte .. => s.pipe.readopen = true ∧ killed = false
  | .writeFull .. => s.pipe.full = true ∧ s.pipe.readopen = true
  | .readEmpty _ => s.pipe.empty = true ∧ s.pipe.writeopen = true
  | _ => True

theorem annotates : Monitor.Annotates program At where
  enter {t k s c k'} h := by
    simp only [program, outside] at h
    split at h <;> cases h
    · exact fun _ _ => nofun
    · exact fun _ _ => trivial
    · exact fun _ _ => trivial
  wait {t k s b c k'} _ h := by
    cases Inside.of_eq h with
    | writeWait => exact fun _ _ => nofun
    | readWait => exact fun _ _ => trivial
  update {t k s b s' k'} hat h := by
    cases Inside.of_eq h with
    | push => exact fun _ => hat.2
    | pop | close | readReady => trivial
  ifKilled {t k s b yes no} _ h := by
    cases Inside.of_eq h with
    | writeNext buf i put hi hopen =>
      cases b with
      | true => trivial
      | false => exact ⟨hopen, rfl⟩
    | readNone oks hempty hopen =>
      cases b with
      | true => trivial
      | false => exact ⟨hempty, hopen⟩
  wakeup {t k s b c k'} hat h := by
    cases Inside.of_eq h with
    | writeFull buf i put hfull => exact ⟨hfull, hat.1⟩
    | writeEnd | writeFault | readEnd | readFault | closeWake => trivial
  change _ h := (not_outside_update h).elim

theorem fair : Monitor.Fair program (Monitor.Annot At) reason owes where
  update {m t k s' k'} hJ hpc h := by
    cases Inside.of_eq h with
    | push buf i put ch hfull hch =>
      refine ⟨fun c ho => ⟨rfl, ho.2⟩, fun {c u} _ _ hr => ?_⟩
      cases c with
      | nread => exact .inr ⟨rfl, rfl⟩
      | nwrite => cases hr.1.symm.trans hfull
    | pop oks i hi hempty =>
      refine ⟨fun c ho => ho, fun {c u} _ _ hr => ?_⟩
      cases c with
      | nread => exact .inl fun hopen => absurd ((hr hopen).1.symm.trans hempty) nofun
      | nwrite => exact .inr rfl
    | close writable =>
      refine ⟨fun c ho => ho.elim, fun {c u} _ _ hr => ?_⟩
      cases c with
      | nread =>
        cases writable with
        | true => exact .inr rfl
        | false => exact .inl nofun
      | nwrite =>
        cases writable with
        | true => exact .inl hr
        | false => exact .inr rfl
    | readReady => exact ⟨fun c ho => ho.elim, fun _ _ hr => .inl hr⟩
  ifKilled {m t k yes no} hJ hpc h c ho := by
    have hknows := hJ t
    rw [hpc] at hknows
    cases Inside.of_eq h with
    | writeNext buf i put hi hopen =>
      rw [hknows ho.1]
      exact ho
    | readNone => exact ho.elim
  wakeup {m t k c k'} hJ hpc h c' ho := by
    cases Inside.of_eq h with
    | writeEnd | writeFull | writeFault => exact .inl ho.2
    | readEnd | readFault | closeWake => exact .inl ho
  wait {m t k c k'} hJ hpc h := by
    have hknows := hJ t
    rw [hpc] at hknows
    cases Inside.of_eq h with
    | writeWait => exact ⟨hknows, fun ho => ho.elim⟩
    | readWait => exact ⟨fun _ => hknows, fun ho => ho.elim⟩
  release {m t k k'} hJ hpc h c u ho _ := by
    cases Inside.of_eq h with
    | returned | leave | readDone => exact ho.elim
    | writeClosed buf i put hi hclosed =>
      -- with the read end closed no reader has to be woken
      obtain rfl := ho.2
      exact fun hopen => absurd (hopen.symm.trans hclosed) nofun
  change _ _ h := (not_outside_update h).elim

/-- The process that holds the lock is not killed. -/
def SparesHolder (m : System) (a : Monitor.Act (Fin nproc) Call) : Prop :=
  ∀ t, a = .kill t → m.locks.lock () ≠ some t

theorem System.annot_step {m m' : System} {a : Monitor.Act (Fin nproc) Call} (hheld : m.Held)
    (h : Monitor.Annot At m) (ha : SparesHolder m a)
    (hstep : Monitor.Step program (List.finRange nproc) m a m') : Monitor.Annot At m' :=
  h.step annotates hheld (fun t hkill hholds => absurd ((hheld t ()).mpr hholds) (ha t hkill)) hstep

/-- No wakeup is lost, unless a writer is killed while it holds the lock. Whenever the lock is free,
a process is asleep on `&pi->nread` only if there is nothing to read and the write end is open (or
the read end is closed), and on `&pi->nwrite` only if there is no room and the read end is open. So
a reader and a writer are never both asleep. -/
theorem pipe_wakeups (data : Fin pipeSize → UInt8)
    {acts : List (Monitor.Act (Fin nproc) Call)} {m : System}
    (hkill : AllSteps System.step SparesHolder (System.init data) acts)
    (hrun : run System.step (System.init data) acts = some m) (hfree : m.locks.lock () = none)
    {t : Fin nproc} (hasleep : m.sleepers.asleep t = true) :
    (m.sleepers.chan t = some .nread ∧
      (m.shared.pipe.readopen = true → m.shared.pipe.contents = [] ∧
        m.shared.pipe.writeopen = true)) ∨
    (m.sleepers.chan t = some .nwrite ∧
      m.shared.pipe.contents.length = pipeSize ∧ m.shared.pipe.readopen = true) := by
  have hwaits :=
    (Monitor.run_waits List.mem_finRange fair System.annot_step hkill (Monitor.held_init _ _)
    (Monitor.annot_init _ _) (Monitor.waits_init _ _) hrun).2
  obtain ⟨c, hc, hreason⟩ :=
    hwaits.asleep (Monitor.run_rests (Monitor.rests_init _ _) hrun) hfree hasleep
  cases c with
  | nread => exact .inl ⟨hc, fun hopen => (hreason hopen).imp_left empty_iff.mp⟩
  | nwrite => exact .inr ⟨hc, full_iff.mp hreason.1, hreason.2⟩

/-- A reader that has nothing to read. -/
theorem pipe_wakeups_reader :
    ∃ m, run System.step (System.init fun _ => 0) (callActs 0 (.read [true]) 5) = some m ∧
    m.sleepers.asleep 0 = true ∧ m.shared.pipe.contents = [] := by
  have hkill : AllSteps System.step SparesHolder (System.init fun _ => 0)
      (callActs 0 (.read [true]) 5) := by
    refine allSteps_of_forall_mem (fun a ha m => ?_) _
    rintro t rfl
    simp [callActs] at ha
  refine ⟨_, rfl, rfl, ?_⟩
  obtain h | h := pipe_wakeups (fun _ => 0) hkill rfl rfl (t := 0) rfl
  · exact (h.2 rfl).1
  · cases h.1

/-! ## Calls -/

/-- The bytes that the process `t` has put in. -/
def Flow.putBy (s : Flow) (t : Fin nproc) : List UInt8 := (s.put.filter (·.1 = t)).map Prod.snd

/-- The bytes that the process `t` has taken out. -/
def Flow.gotBy (s : Flow) (t : Fin nproc) : List UInt8 := (s.got.filter (·.1 = t)).map Prod.snd

/-- The result `r` of `pipewrite`: the number of bytes that it has put in, all of them or those up
to one that cannot be read; or `-1`. -/
def WriteResult (buf : List (Option UInt8)) (bytes : List UInt8) (r : Int) : Prop :=
  r = -1 ∨ r = bytes.length ∧ (bytes.length = buf.length ∨ buf[bytes.length]? = some none)

/-- Where a process is in a call, and what it has put in (`bytes`) and taken out (`taken`) in this
call. -/
def InCall (bytes taken : List UInt8) : Call → Pc → Prop
  | .write buf, .write b i _ | .write buf, .writeFull b i =>
    b = buf ∧ bytes.length = i ∧ bytes.map some <+: buf ∧ taken = []
  | .write buf, .writeByte b i _ => b = buf ∧ bytes.length = i ∧ bytes.map some <+: buf ∧
      taken = [] ∧ i < buf.length
  | .write buf, .leave r
  | .write buf, .returned r => WriteResult buf bytes r ∧ bytes.map some <+: buf ∧ taken = []
  | .read oks, .read o | .read oks, .readEmpty o => o = oks ∧ bytes = [] ∧ taken = []
  | .read oks, .readCopy o i => o = oks ∧ i ≤ oks.length ∧ bytes = [] ∧ taken.length = i
  | .read oks, .readDone _ r | .read oks, .leave r | .read oks, .returned r =>
    bytes = [] ∧ taken.length ≤ oks.length ∧ (r = taken.length ∨ r = -1 ∧ taken = [])
  | .close _, .close _ | .close _, .closeWake _ => bytes = [] ∧ taken = []
  | .close _, .leave r | .close _, .returned r => r = 0 ∧ bytes = [] ∧ taken = []
  | _, _ => False

theorem inCall_start {t : Fin nproc} {c : Call} {s : Flow} {k k' : Pc}
    (h : program.outside t k s c = some (.enter k')) : InCall [] [] c k' := by
  simp only [program, outside] at h
  split at h <;> cases h <;> simp [InCall]

/-- `InCall`, where `put` and `got` are what the process had put in and taken out before the
call. -/
def Flow.InCall (s : Flow) (t : Fin nproc) (put got : List UInt8) (c : Call) (k : Pc) : Prop :=
  ∃ bytes taken, s.putBy t = put ++ bytes ∧ s.gotBy t = got ++ taken ∧ Pipe.InCall bytes taken c k

variable {t u : Fin nproc} {c : Call} {s s' : Flow} {k k' : Pc} {put got : List UInt8}

theorem Flow.update_of_ne (hu : u ≠ t) (h : inside u k s = .update s' k') :
    s'.putBy t = s.putBy t ∧ s'.gotBy t = s.gotBy t := by
  cases Inside.of_eq h with
  | push => simp [Flow.putBy, Flow.gotBy, hu]
  | pop => simp [Flow.putBy, Flow.gotBy, hu]
  | close | readReady => exact ⟨rfl, rfl⟩

theorem Flow.InCall.update (hin : s.InCall t put got c k) (h : inside t k s = .update s' k') :
    s'.InCall t put got c k' := by
  obtain ⟨bytes, taken, hput, hgot, hk⟩ := hin
  cases Inside.of_eq h with
  | push buf i w ch hfull hch =>
    cases c with
    | write buf' =>
      obtain ⟨rfl, rfl, ⟨rest, rfl⟩, hnone, -⟩ := hk
      refine ⟨bytes ++ [ch], taken, ?_, hgot, rfl, by simp, ?_, hnone⟩
      · simp only [Flow.putBy] at hput ⊢
        simp [hput]
      · -- the byte is the next one in the buffer of the writer
        cases rest with
        | nil => simp at hch
        | cons b rest =>
          obtain rfl : b = some ch := by simpa using hch
          exact ⟨rest, by simp⟩
    | read | close => exact hk.elim
  | pop oks i hi hempty =>
    cases c with
    | read oks' =>
      obtain ⟨rfl, hle, hnone, rfl⟩ := hk
      have hlt : taken.length < oks.length := (List.getElem?_eq_some_iff.mp hi).1
      refine ⟨bytes, taken ++ [s.pipe.first], hput, ?_, rfl, hlt, hnone, by simp⟩
      simp only [Flow.gotBy] at hgot ⊢
      simp [hgot]
    | write | close => exact hk.elim
  | close writable =>
    cases c with
    | close => exact ⟨bytes, taken, hput, hgot, hk⟩
    | write | read => exact hk.elim
  | readReady oks hready =>
    cases c with
    | read oks' =>
      exact ⟨bytes, taken, hput, hgot, hk.1, Nat.zero_le _, hk.2.1, by rw [hk.2.2]; rfl⟩
    | write | close => exact hk.elim

theorem Flow.InCall.ifKilled {yes no : Pc} (hin : s.InCall t put got c k)
    (h : inside t k s = .ifKilled yes no) :
    s.InCall t put got c yes ∧ s.InCall t put got c no := by
  obtain ⟨bytes, taken, hput, hgot, hk⟩ := hin
  cases Inside.of_eq h with
  | writeNext buf i w hi hopen =>
    cases c with
    | write buf' =>
      obtain ⟨rfl, rfl, hpre, hnone⟩ := hk
      exact ⟨⟨bytes, taken, hput, hgot, .inl rfl, hpre, hnone⟩, bytes, taken, hput, hgot, rfl, rfl,
        hpre, hnone, hi⟩
    | read | close => exact hk.elim
  | readNone oks hempty hopen =>
    cases c with
    | read oks' =>
      obtain ⟨rfl, hnone, rfl⟩ := hk
      exact ⟨⟨bytes, [], hput, hgot, hnone, Nat.zero_le _, .inr ⟨rfl, rfl⟩⟩, bytes, [], hput, hgot,
        rfl, hnone, rfl⟩
    | write | close => exact hk.elim

theorem Flow.InCall.wakeup {ch : Chan} (hin : s.InCall t put got c k)
    (h : inside t k s = .wakeup ch k') :
    s.InCall t put got c k' := by
  obtain ⟨bytes, taken, hput, hgot, hk⟩ := hin
  refine ⟨bytes, taken, hput, hgot, ?_⟩
  cases Inside.of_eq h with
  | writeEnd buf i w hi =>
    cases c with
    | write buf' =>
      obtain ⟨rfl, rfl, hpre, hnone⟩ := hk
      refine ⟨.inr ⟨rfl, .inl (le_antisymm ?_ hi)⟩, hpre, hnone⟩
      simpa using hpre.length_le
    | read | close => exact hk.elim
  | writeFull buf i w hfull =>
    cases c with
    | write buf' => exact ⟨hk.1, hk.2.1, hk.2.2.1, hk.2.2.2.1⟩
    | read | close => exact hk.elim
  | writeFault buf i w hfull hfault =>
    cases c with
    | write buf' =>
      obtain ⟨rfl, rfl, hpre, hnone, hlt⟩ := hk
      refine ⟨?_, hpre, hnone⟩
      split
      · exact .inl rfl
      · refine .inr ⟨rfl, .inr ?_⟩
        rw [List.getElem?_eq_getElem hlt] at hfault ⊢
        exact congrArg some hfault
    | read | close => exact hk.elim
  | readEnd oks i hend =>
    cases c with
    | read oks' =>
      obtain ⟨rfl, hle, hnone, rfl⟩ := hk
      exact ⟨hnone, hle, .inl rfl⟩
    | write | close => exact hk.elim
  | readFault oks i hi hempty =>
    cases c with
    | read oks' =>
      obtain ⟨rfl, hle, hnone, rfl⟩ := hk
      refine ⟨hnone, hle, ?_⟩
      split
      · next hzero => exact .inr ⟨rfl, List.length_eq_zero_iff.mp hzero⟩
      · exact .inl rfl
    | write | close => exact hk.elim
  | closeWake writable =>
    cases c with
    | close => exact ⟨rfl, hk⟩
    | write | read => exact hk.elim

theorem Flow.InCall.wait {ch : Chan} (hin : s.InCall t put got c k)
    (h : inside t k s = .wait ch k') :
    s.InCall t put got c k' := by
  obtain ⟨bytes, taken, hput, hgot, hk⟩ := hin
  refine ⟨bytes, taken, hput, hgot, ?_⟩
  cases Inside.of_eq h with
  | writeWait =>
    cases c with
    | write => exact hk
    | read | close => exact hk.elim
  | readWait =>
    cases c with
    | read => exact hk
    | write | close => exact hk.elim

theorem Flow.InCall.release (hin : s.InCall t put got c k) (h : inside t k s = .release k') :
    s.InCall t put got c k' := by
  obtain ⟨bytes, taken, hput, hgot, hk⟩ := hin
  refine ⟨bytes, taken, hput, hgot, ?_⟩
  cases Inside.of_eq h with
  | returned | leave => cases c <;> exact hk
  | readDone =>
    cases c with
    | read => exact hk
    | write | close => exact hk.elim
  | writeClosed buf i w hi hclosed =>
    cases c with
    | write => exact ⟨.inl rfl, hk.2.2⟩
    | read | close => exact hk.elim

theorem follows_inCall (t : Fin nproc) (c : Call) (put got : List UInt8) :
    Monitor.Follows program t fun s k => s.InCall t put got c k where
  update hin h := hin.update h
  ifKilled hin h := hin.ifKilled h
  wakeup hin h := hin.wakeup h
  wait hin h := hin.wait h
  release hin h := hin.release h
  others {u s k ku s' ku'} hu hin h := by
    obtain ⟨hput, hgot⟩ := Flow.update_of_ne hu h
    rw [Flow.InCall, hput, hgot]
    exact hin
  change _ _ h := (not_outside_update h).elim

/-- What a call does, from its beginning in any state to its return, while the other processes do
what they like: `pipewrite` puts the first bytes of its buffer in and returns their number, which is
smaller than asked for only where the next byte cannot be read; `piperead` takes out as many bytes
as it returns, and none if it returns `-1`. -/
theorem pipe_results {m m' : System} {acts : List (Monitor.Act (Fin nproc) Call)} {r : Int}
    (hrun : run System.step m (.outside t c :: acts) = some m') (hone : ∀ c', .outside t c' ∉ acts)
    (hback : m'.locks.pc t = .outside (.returned r)) :
    ∃ bytes taken, m'.shared.putBy t = m.shared.putBy t ++ bytes ∧
      m'.shared.gotBy t = m.shared.gotBy t ++ taken ∧
      match c with
      | .write buf => WriteResult buf bytes r ∧ bytes.map some <+: buf ∧ taken = []
      | .read oks => bytes = [] ∧ taken.length ≤ oks.length ∧
          (r = taken.length ∨ r = -1 ∧ taken = [])
      | .close _ => r = 0 ∧ bytes = [] ∧ taken = [] := by
  obtain ⟨m₁, hstep, hrest⟩ := run_cons hrun
  have hstart : m₁.shared.InCall t (m.shared.putBy t) (m.shared.gotBy t) c (m₁.ks t) := by
    cases Monitor.Step.of_step hstep with
    | enter _ k k' _ hpc hcall =>
      refine ⟨[], [], (List.append_nil _).symm, (List.append_nil _).symm, ?_⟩
      rw [Monitor.ks_goto_self]
      exact inCall_start hcall
    | change _ k s' k' _ hpc hcall => exact (not_outside_update hcall).elim
  have hchoose : AllSteps System.step (Monitor.Chooses fun u _ _ => u ≠ t) m₁ acts := by
    refine Monitor.allSteps_chooses (fun u c' hmem => ?_) m₁
    rintro rfl
    exact hone c' hmem
  have hend := Monitor.run_keeps (follows_inCall t c _ _).keeps hchoose hstart hrest
  rw [Monitor.ks, hback] at hend
  obtain ⟨bytes, taken, hput, hgot, hk⟩ := hend
  refine ⟨bytes, taken, hput, hgot, ?_⟩
  cases c <;> exact hk

/-- A write of a byte. -/
theorem pipe_results_one_byte :
    ∃ m, run System.step (System.init fun _ => 0) (callActs 0 (.write [some 7]) 70) = some m ∧
      m.locks.pc 0 = .outside (.returned 1) ∧ ∃ bytes, m.shared.putBy 0 = bytes ∧
        WriteResult [some 7] bytes 1 := by
  obtain ⟨m, hrun, hpc⟩ : ∃ m, run System.step (System.init fun _ => 0)
    (callActs 0 (.write [some 7]) 70) = some m ∧
      m.locks.pc 0 = .outside (.returned 1) := exists_run_of_any (by decide +kernel)
  obtain ⟨bytes, taken, hput, -, hres, -⟩ := pipe_results (c := .write [some 7]) hrun (by simp) hpc
  exact ⟨m, hrun, hpc, bytes, hput, hres⟩

/-! ## The end -/

/-- What a reader knows about the end of the stream. -/
def AtEnd (_ : Fin nproc) (k : Pc) (s : Flow) : Prop :=
  match k with
  | .readCopy _ i => i = 0 → s.pipe.empty = true → s.pipe.writeopen = false
  | .readDone oks r => r = 0 → oks ≠ [] → s.pipe.empty = true ∧ s.pipe.writeopen = false
  | _ => True

theorem annotates_end : Monitor.Annotates program fun t k s _ => AtEnd t k s where
  enter {t k s c k'} h := by
    simp only [program, outside] at h
    split at h <;> cases h <;> exact fun _ _ => trivial
  wait {t k s b c k'} _ h := by
    cases Inside.of_eq h with
    | writeWait | readWait => exact fun _ _ => trivial
  update {t k s b s' k'} hat h := by
    cases Inside.of_eq h with
    | pop => exact nofun
    | readReady oks hready => exact fun _ => hready
    | push | close => trivial
  ifKilled {t k s b yes no} _ h := by
    cases Inside.of_eq h with
    | writeNext | readNone => cases b <;> trivial
  wakeup {t k s b c k'} hat h := by
    cases Inside.of_eq h with
    | readEnd oks i hend =>
      intro hzero hne
      obtain rfl : i = 0 := by simpa using hzero
      have hempty := hend.resolve_left (by simpa using hne)
      exact ⟨hempty, hat rfl hempty⟩
    | readFault oks i =>
      intro hzero
      split at hzero
      · cases hzero
      · next hi => exact absurd (by simpa using hzero) hi
    | writeFull | writeEnd | writeFault | closeWake => trivial
  change _ h := (not_outside_update h).elim

/-- `piperead` is about to return 0 for a read of at least one byte only if nothing is left in the
pipe and the write end is closed. -/
theorem pipe_eof (data : Fin pipeSize → UInt8)
    {acts : List (Monitor.Act (Fin nproc) Call)} {m : System}
    (hrun : run System.step (System.init data) acts = some m) {oks : List Bool} (hoks : oks ≠ [])
    (ht : m.locks.pc t = .inside (.readDone oks 0)) :
    m.shared.pipe.contents = [] ∧ m.shared.pipe.writeopen = false := by
  have hannot := Monitor.run_annot annotates_end (Monitor.held_init _ _)
    (Monitor.annot_init _ _) hrun t
  rw [ht] at hannot
  obtain ⟨hempty, hclosed⟩ := hannot rfl hoks
  exact ⟨empty_iff.mp hempty, hclosed⟩

/-- The write end is closed before anything has been written. -/
theorem pipe_eof_nothing_written :
    ∃ m, run System.step (System.init fun _ => 0)
      (callActs 0 (.close true) 69 ++ callActs 1 (.read [true]) 68) = some m ∧
      m.locks.pc 1 = .inside (.readDone [true] 0) ∧ m.shared.pipe.contents = [] ∧
        m.shared.pipe.writeopen = false := by
  obtain ⟨m, hrun, hpc⟩ : ∃ m, run System.step (System.init fun _ => 0)
      (callActs 0 (.close true) 69 ++ callActs 1 (.read [true]) 68) = some m ∧
      m.locks.pc 1 = .inside (.readDone [true] 0) := exists_run_of_any (by decide +kernel)
  exact ⟨m, hrun, hpc, pipe_eof _ hrun (by decide) hpc⟩

end Pipe

end UnixCShell.Xv6
