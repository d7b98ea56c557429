import Mathlib.Data.List.FinRange
import UnixCShell.Lib.Monitor
import UnixCShell.Xv6.Proc

/-!
# The log of the file system

`log.c`: system calls of the file system write blocks in the buffer cache, between `begin_op` and
`end_op`, and tell the log about them (`log_write`). The last one that ends commits: it writes the
blocks to the log on the disk, then the header of the log, then the blocks to their places, and
clears the header.

The processes are threads of a monitor with the lock of the log; `commit` runs without it. A step of
`commit` is at most one write to the disk. `bread` is modelled by what it returns: the block in the
cache, where a block that somebody has changed is pinned until it has been installed; the blocks of
the log itself are written through. `cache` is that view.

The fields `writes`, `durable` and `ops`, and the arguments `op` and `mine` of the program counters,
only record what happens; no instruction looks at them.
-/

namespace UnixCShell.Xv6

open Lib

/-- `MAXOPBLOCKS`. -/
def maxOpBlocks : Nat := 10

/-- `LOGBLOCKS`. -/
def logBlocks : Nat := maxOpBlocks * 3

/-- A block of `BSIZE` bytes, as words. -/
abbrev Block := Fin 256 → BitVec 32

/-- The disk, from block numbers to blocks. -/
abbrev Disk := Nat → Block

/-! ## The header -/

/-- A word of a block. -/
def Block.word (b : Block) (i : Nat) : BitVec 32 := if h : i < 256 then b ⟨i, h⟩ else 0

/-- `read_head`, on the header block: `lh->n`, and the entries of `lh->block`. -/
def readHead (hb : Block) : List Nat :=
  (List.range (hb.word 0).toInt.toNat).map fun i => (hb.word (i + 1)).toNat

/-- `write_head`, on the header block; what is behind the last entry stays. -/
def writeHead (hb : Block) (lh : List Nat) : Block := fun i =>
  if i.val = 0 then BitVec.ofNat 32 lh.length else (lh[i.val - 1]?).elim (hb i) (BitVec.ofNat 32)

theorem readHead_writeHead (hb : Block) {lh : List Nat} (hlen : lh.length ≤ logBlocks)
    (hlt : ∀ b ∈ lh, b < 2 ^ 32) :
    readHead (writeHead hb lh) = lh := by
  have hn : ((writeHead hb lh).word 0).toInt.toNat = lh.length := by
    have : lh.length ≤ 30 := hlen
    have hmod : lh.length % 2 ^ 32 = lh.length := Nat.mod_eq_of_lt (by omega)
    simp only [Block.word, writeHead, Nat.zero_lt_succ, dif_pos, if_true]
    rw [BitVec.toInt_eq_toNat_of_lt] <;> rw [BitVec.toNat_ofNat, hmod]
    · rfl
    · omega
  rw [readHead, hn]
  refine List.ext_getElem (by simp) fun i hi hi' => ?_
  have hi256 : i + 1 < 256 := by
    have : lh.length ≤ 30 := hlen
    omega
  simp only [List.getElem_map, List.getElem_range, Block.word, writeHead, dif_pos hi256]
  simp only [Nat.add_eq_zero_iff, Nat.one_ne_zero, and_false, if_false, Nat.add_sub_cancel,
    List.getElem?_eq_getElem hi', Option.elim_some, BitVec.toNat_ofNat]
  exact Nat.mod_eq_of_lt (hlt _ (List.getElem_mem hi'))

/-! ## The state -/

/-- A write of a block by an operation; operations are numbered. -/
structure Write where
  op    : Nat
  block : Nat
  data  : Block

/-- `struct log`, the blocks as `bread` returns them, and the disk. -/
structure Log where
  /-- `log.lh`: the blocks that have been logged. -/
  lh          : List Nat
  outstanding : Nat
  committing  : Bool
  /-- `log.ncommit`, an `int` that is never reset. It stays below `2 ^ 31` here: the overflow of the
  counter is not modelled. -/
  ncommit     : Nat
  cache       : Disk
  disk        : Disk
  /-- All writes so far. -/
  writes      : List Write
  /-- The number of writes that a commit has made durable. -/
  durable     : Nat
  /-- The number of operations that have begun. -/
  ops         : Nat

/-- The loop in `log_write`: the block is new, or it is absorbed. -/
def record (lh : List Nat) (b : Nat) : List Nat := if b ∈ lh then lh else lh ++ [b]

namespace Log

/-- Where a process is. -/
inductive Pc where
  /-- Not in an operation; the first `mark` writes are those that the last `sync` has waited for. -/
  | idle (mark : Nat)
  | begin
  | begun (op : Nat)
  /-- In an operation, with the blocks that it has logged. -/
  | inOp (op : Nat) (mine : List Nat)
  /-- The buffer has been changed, and `log_write` comes next. -/
  | dirty (op : Nat) (mine : List Nat) (b : Nat)
  | logWrite (op : Nat) (mine : List Nat) (b : Nat)
  | logged (op : Nat) (mine : List Nat)
  | endOp
  /-- Before `wakeup(&log)` at the end of `end_op`. -/
  | wake
  | leave
  | endCommit
  | commit
  | writeLog (i : Nat)
  | install (i : Nat)
  | clear
  | done
  | committed
  | sync (mark : Nat)
  | syncWait (n mark : Nat)
  | synced (mark : Nat)
  | panic
  deriving DecidableEq, Repr

/-- Is this a place without the lock? -/
def Pc.isOut : Pc → Bool
  | .idle _ | .inOp .. | .dirty .. | .commit | .writeLog _ | .install _ | .clear | .done => true
  | _ => false

/-- What a process does next, with `log.lock`. -/
def inside (_ : Fin nproc) (k : Pc) (s : Log) : Instr Log Pc Unit :=
  match k with
  | .begin =>
    if s.committing then .wait () .begin
    else if s.lh.length + (s.outstanding + 1) * maxOpBlocks > logBlocks then .wait () .begin
    else .update { s with outstanding := s.outstanding + 1, ops := s.ops + 1 } (.begun s.ops)
  | .begun op => .release (.inOp op [])
  | .logWrite op mine b =>
    if s.lh.length ≥ logBlocks then .update s .panic
    else if s.outstanding < 1 then .update s .panic
    else .update { s with lh := record s.lh b } (.logged op (record mine b))
  | .logged op mine => .release (.inOp op mine)
  | .endOp =>
    let s := { s with outstanding := s.outstanding - 1 }
    if s.committing then .update s .panic
    else if s.outstanding = 0 then .update { s with committing := true } .endCommit
    else .update s .wake
  | .wake => .wakeup () .leave
  | .leave => .release (.idle 0)
  | .endCommit => .release .commit
  | .committed => .update { s with committing := false, ncommit := s.ncommit + 1 } .wake
  | .sync mark =>
    if s.committing ∨ s.outstanding > 0 then .update s (.syncWait (s.ncommit + 1) mark)
    else .update s (.synced mark)
  | .syncWait n mark =>
    if s.ncommit < n then .wait () (.syncWait n mark) else .update s (.synced mark)
  | .synced mark => .release (.idle mark)
  | .panic => .update s .panic
  | k => .release k

/-- `inside` as a relation, with one rule for each way through it. -/
inductive Inside (s : Log) : Pc → Instr Log Pc Unit → Prop where
  | beginWait : s.committing = true ∨ s.lh.length + (s.outstanding + 1) * maxOpBlocks > logBlocks →
      Inside s .begin (.wait () .begin)
  | begin : s.committing = false → s.lh.length + (s.outstanding + 1) * maxOpBlocks ≤ logBlocks →
      Inside s .begin
        (.update { s with outstanding := s.outstanding + 1, ops := s.ops + 1 } (.begun s.ops))
  | begun (op : Nat) : Inside s (.begun op) (.release (.inOp op []))
  | logFull (op : Nat) (mine : List Nat) (b : Nat) : s.lh.length ≥ logBlocks →
      Inside s (.logWrite op mine b) (.update s .panic)
  | logOutside (op : Nat) (mine : List Nat) (b : Nat) : s.outstanding < 1 →
      Inside s (.logWrite op mine b) (.update s .panic)
  | logWrite (op : Nat) (mine : List Nat) (b : Nat) : s.lh.length < logBlocks → 1 ≤ s.outstanding →
      Inside s (.logWrite op mine b)
        (.update { s with lh := record s.lh b } (.logged op (record mine b)))
  | logged (op : Nat) (mine : List Nat) : Inside s (.logged op mine) (.release (.inOp op mine))
  | endPanic : s.committing = true →
      Inside s .endOp (.update { s with outstanding := s.outstanding - 1 } .panic)
  | endLast : s.committing = false → s.outstanding - 1 = 0 →
      Inside s .endOp
        (.update { s with outstanding := s.outstanding - 1, committing := true } .endCommit)
  | endOp : s.committing = false → s.outstanding - 1 ≠ 0 →
      Inside s .endOp (.update { s with outstanding := s.outstanding - 1 } .wake)
  | wake : Inside s .wake (.wakeup () .leave)
  | leave : Inside s .leave (.release (.idle 0))
  | endCommit : Inside s .endCommit (.release .commit)
  | committed : Inside s .committed
      (.update { s with committing := false, ncommit := s.ncommit + 1 } .wake)
  | syncBusy (mark : Nat) : s.committing = true ∨ s.outstanding > 0 →
      Inside s (.sync mark) (.update s (.syncWait (s.ncommit + 1) mark))
  | syncIdle (mark : Nat) : s.committing = false → s.outstanding = 0 →
      Inside s (.sync mark) (.update s (.synced mark))
  | syncWait (n mark : Nat) : s.ncommit < n →
      Inside s (.syncWait n mark) (.wait () (.syncWait n mark))
  | syncEnd (n mark : Nat) : n ≤ s.ncommit → Inside s (.syncWait n mark) (.update s (.synced mark))
  | synced (mark : Nat) : Inside s (.synced mark) (.release (.idle mark))
  | panic : Inside s .panic (.update s .panic)
  | out (k : Pc) : k.isOut = true → Inside s k (.release k)

/-- What a process may do without the lock: the calls, and what comes next in an operation or in
`commit`. -/
inductive Call where
  | beginOp
  /-- Change a buffer. -/
  | write (b : Nat) (data : Block)
  | endOp
  | sync
  | go

variable (start : Nat)

/-- A step without the lock. `start` is `log.start`, the block number of the header; the blocks of
the log follow. -/
def outside (_ : Fin nproc) (k : Pc) (s : Log) (c : Call) : Option (Outer Log Pc) :=
  match k, c with
  | .idle _, .beginOp => some (.enter .begin)
  | .idle _, .sync => some (.enter (.sync s.writes.length))
  | .inOp op mine, .write b data =>
    some (.update { s with
      cache := Function.update s.cache b data
      writes := s.writes ++ [⟨op, b, data⟩] } (.dirty op mine b))
  | .dirty op mine b, .go => some (.enter (.logWrite op mine b))
  | .inOp _ _, .endOp => some (.enter .endOp)
  | .commit, .go => some (.update s (if s.lh.length > 0 then .writeLog 0 else .done))
  | .writeLog i, .go =>
    match s.lh[i]? with
    | some b =>
      some (.update { s with disk := Function.update s.disk (start + i + 1) (s.cache b) }
        (.writeLog (i + 1)))
    | none =>
      -- `write_head`: from here on the transaction is durable
      some (.update { s with
        disk := Function.update s.disk start (writeHead (s.disk start) s.lh)
        durable := s.writes.length } (.install 0))
  | .install i, .go =>
    match s.lh[i]? with
    | some b =>
      let data := s.disk (start + i + 1)
      some (.update { s with
        cache := Function.update s.cache b data
        disk := Function.update s.disk b data } (.install (i + 1)))
    | none => some (.update { s with lh := [] } .clear)
  | .clear, .go =>
    some (.update { s with
      disk := Function.update s.disk start (writeHead (s.disk start) s.lh) } .done)
  | .done, .go => some (.enter .committed)
  | _, _ => none

/-- `outside` as a relation, with one rule for each way through it. -/
inductive Outside (s : Log) : Pc → Call → Outer Log Pc → Prop where
  | beginOp (mark : Nat) : Outside s (.idle mark) .beginOp (.enter .begin)
  | sync (mark : Nat) : Outside s (.idle mark) .sync (.enter (.sync s.writes.length))
  | write (op : Nat) (mine : List Nat) (b : Nat) (data : Block) :
      Outside s (.inOp op mine) (.write b data) (.update { s with
        cache := Function.update s.cache b data
        writes := s.writes ++ [⟨op, b, data⟩] } (.dirty op mine b))
  | logWrite (op : Nat) (mine : List Nat) (b : Nat) :
      Outside s (.dirty op mine b) .go (.enter (.logWrite op mine b))
  | endOp (op : Nat) (mine : List Nat) : Outside s (.inOp op mine) .endOp (.enter .endOp)
  | commit : s.lh ≠ [] → Outside s .commit .go (.update s (.writeLog 0))
  | commitNothing : s.lh = [] → Outside s .commit .go (.update s .done)
  | writeLog (i b : Nat) : s.lh[i]? = some b → Outside s (.writeLog i) .go
      (.update { s with disk := Function.update s.disk (start + i + 1) (s.cache b) }
        (.writeLog (i + 1)))
  | writeHead (i : Nat) : s.lh.length ≤ i → Outside s (.writeLog i) .go
      (.update { s with
        disk := Function.update s.disk start (Xv6.writeHead (s.disk start) s.lh)
        durable := s.writes.length } (.install 0))
  | install (i b : Nat) : s.lh[i]? = some b → Outside s (.install i) .go
      (.update { s with
        cache := Function.update s.cache b (s.disk (start + i + 1))
        disk := Function.update s.disk b (s.disk (start + i + 1)) } (.install (i + 1)))
  | installed (i : Nat) : s.lh.length ≤ i →
      Outside s (.install i) .go (.update { s with lh := [] } .clear)
  | clear : Outside s .clear .go
      (.update { s with
        disk := Function.update s.disk start (Xv6.writeHead (s.disk start) s.lh) } .done)
  | done : Outside s .done .go (.enter .committed)

def program : Program (Fin nproc) Log Pc Unit Call := ⟨inside, outside start⟩

section

variable {start} {t : Fin nproc} {k : Pc} {s : Log} {i : Instr Log Pc Unit} {c : Call}
    {o : Outer Log Pc}

theorem Inside.of_eq (h : (program start).inside t k s = i) : Inside s k i := by
  subst h
  show Inside s k (inside t k s)
  cases k with
  | begin =>
    simp only [inside]
    split
    · next hc => exact .beginWait (.inl hc)
    · next hc =>
      split
      · next hfull => exact .beginWait (.inr hfull)
      · next hroom => exact .begin (Bool.eq_false_iff.mpr hc) (Nat.not_lt.mp hroom)
  | logWrite op mine b =>
    simp only [inside]
    split
    · next hfull => exact .logFull op mine b hfull
    · next hroom =>
      split
      · next hout => exact .logOutside op mine b hout
      · next hin => exact .logWrite op mine b (Nat.not_le.mp hroom) (Nat.not_lt.mp hin)
  | endOp =>
    simp only [inside]
    split
    · next hc => exact .endPanic hc
    · next hc =>
      split
      · next hlast => exact .endLast (Bool.eq_false_iff.mpr hc) hlast
      · next hmore => exact .endOp (Bool.eq_false_iff.mpr hc) hmore
  | sync mark =>
    simp only [inside]
    split
    · next hbusy => exact .syncBusy mark hbusy
    · next hidle =>
      rw [not_or] at hidle
      exact .syncIdle mark (Bool.eq_false_iff.mpr hidle.1) (Nat.eq_zero_of_not_pos hidle.2)
  | syncWait n mark =>
    simp only [inside]
    split
    · next hlt => exact .syncWait n mark hlt
    · next hle => exact .syncEnd n mark (Nat.not_lt.mp hle)
  | begun | logged | wake | leave | endCommit | committed | synced | panic => constructor
  | idle | inOp | dirty | commit | writeLog | install | clear | done => exact .out _ rfl

theorem Outside.of_eq (h : (program start).outside t k s c = some o) : Outside start s k c o := by
  simp only [program, outside] at h
  split at h
  · cases h
    exact .beginOp _
  · cases h
    exact .sync _
  · cases h
    exact .write ..
  · cases h
    exact .logWrite ..
  · cases h
    exact .endOp ..
  · cases h
    split
    · next hpos => exact .commit (List.length_pos_iff.mp hpos)
    · next hzero => exact .commitNothing (List.length_eq_zero_iff.mp (Nat.eq_zero_of_not_pos hzero))
  · split at h <;> cases h
    · next b hb => exact .writeLog _ b hb
    · next hnone => exact .writeHead _ (List.getElem?_eq_none_iff.mp hnone)
  · split at h <;> cases h
    · next b hb => exact .install _ b hb
    · next hnone => exact .installed _ (List.getElem?_eq_none_iff.mp hnone)
  · cases h
    exact .clear
  · cases h
    exact .done
  · cases h

end

/-- The processes and the log. -/
abbrev System := Monitor (Fin nproc) Log Pc Unit

def System.step : System → Monitor.Act (Fin nproc) Call → Option System :=
  Monitor.step (program start) (List.finRange nproc)

/-- The log behind `initlog`, with the disk that `recover_from_log` leaves. -/
def boot (disk : Disk) (writes : List Write) (ops : Nat) : Log where
  lh := []
  outstanding := 0
  committing := false
  ncommit := 0
  cache := disk
  disk := disk
  writes := writes
  durable := writes.length
  ops := ops

/-- The steps of an operation that writes one block, up to its call of `end_op`. -/
def opActs (t : Fin nproc) (b : Nat) (data : Block) : List (Monitor.Act (Fin nproc) Call) :=
  [.outside t .beginOp, .next t, .next t, .next t, .outside t (.write b data), .outside t .go,
    .next t, .next t, .next t,
    .outside t .endOp]

def System.boot (disk : Disk) (writes : List Write) (ops : Nat) : System :=
  Monitor.init (Log.boot disk writes ops) fun _ => .idle 0

end Log

end UnixCShell.Xv6
