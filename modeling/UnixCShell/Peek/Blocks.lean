import UnixCShell.Peek.Verified

/-!
# The blocks of the backward scan

`print_reverse_chunked` jumps back and forth in its file: it reads a block, finds a newline in it,
and reads the line behind the newline before it goes on with the block. `Trace` is the scan together
with its calls of `lseek` and `read`. None of them leaves the file, the number of blocks is the size
of the text divided by that of a block, and what is printed does not depend on it
(`printReverseIn_blocks`).
-/

namespace UnixCShell.Peek

open Lib

/-- An `lseek` and the `read` behind it. The number of bytes is a difference of two offsets. -/
structure Access where
  offset : Nat
  len    : Int
  deriving DecidableEq, Repr

/-- The access stays inside a file of `size` bytes, and reads something. -/
def Access.Within (size : Nat) (a : Access) : Prop := 0 < a.len ∧ a.offset + a.len ≤ size

/-- The scan, its accesses so far, and the number of blocks it has read. -/
structure Trace where
  scan     : Scan
  accesses : List Access
  blocks   : Nat
  deriving DecidableEq, Repr

section Traced

variable (contents : Str) (flagN : Bool)

/-- `newlineFound`. The unsigned `len` is zero only if both offsets are the same. -/
def newlineTraced (lineStart : Nat) (t : Trace) : Trace :=
  let len : Int := t.scan.lineEnd - lineStart
  if len ≠ 0 then
    { t with
      scan := { printRange contents flagN lineStart t.scan with lineEnd := lineStart }
      accesses := t.accesses ++ [⟨lineStart, len⟩] }
  else { t with scan := { t.scan with out := t.scan.out ++ ['\n'], lineEnd := lineStart } }

/-- `scanBlock`. -/
def scanBlockTraced (buf : Str) (pos : Nat) : Nat → Trace → Trace
  | 0, t => t
  | i + 1, t =>
    scanBlockTraced buf pos i
      (if buf[i]? = some '\n' then newlineTraced contents flagN (pos + i + 1) t else t)

/-- `blockLoop`. -/
def blockLoopTraced (chunk : Nat) [NeZero chunk] (pos : Nat) (t : Trace) : Trace :=
  if 0 < pos then
    let readSize := if pos < chunk then pos else chunk
    let pos' := pos - readSize
    let t := { t with accesses := t.accesses ++ [⟨pos', readSize⟩], blocks := t.blocks + 1 }
    blockLoopTraced chunk pos'
      (scanBlockTraced contents flagN (pread contents pos' readSize) pos' readSize t)
  else t
termination_by pos
decreasing_by
  have := Nat.pos_of_ne_zero (NeZero.ne chunk)
  split <;> omega

/-- `printReverseIn`, which looks at the last byte first. -/
def printReverseTraced (chunk : Nat) [NeZero chunk] (lineNum : Int) : Trace :=
  if contents.length = 0 then ⟨⟨0, lineNum, []⟩, [], 0⟩
  else
    let lastByte : Access := ⟨contents.length - 1, 1⟩
    if scanSize contents = 0 then ⟨⟨0, lineNum, []⟩, [lastByte], 0⟩
    else
      let t := blockLoopTraced contents flagN chunk (scanSize contents)
        ⟨⟨scanSize contents, lineNum, []⟩, [lastByte], 0⟩
      if 0 < t.scan.lineEnd then
        { t with
          scan := printRange contents flagN 0 t.scan
          accesses := t.accesses ++ [⟨0, t.scan.lineEnd⟩] }
      else t

end Traced

/-! ## What a scan keeps to -/

/-- The scan has come down to `pos`, and has not left a file of `size` bytes. -/
structure Trace.Inside (size pos : Nat) (t : Trace) : Prop where
  above  : pos ≤ t.scan.lineEnd
  below  : t.scan.lineEnd ≤ size
  within : ∀ a ∈ t.accesses, a.Within size

theorem Trace.Inside.mono {size pos pos' : Nat} {t : Trace} (h : t.Inside size pos)
    (hle : pos' ≤ pos) :
    t.Inside size pos' :=
  ⟨Nat.le_trans hle h.above, h.below, h.within⟩

theorem Access.within_append {size : Nat} {as : List Access} {a : Access}
    (h : ∀ a ∈ as, a.Within size) (ha : a.Within size) : ∀ b ∈ as ++ [a], b.Within size := by
  intro b hb
  rcases List.mem_append.mp hb with hb | hb
  · exact h b hb
  · rw [List.mem_singleton.mp hb]
    exact ha

/-- The blocks that are needed behind the first one. -/
theorem blocks_succ {pos chunk : Nat} (hpos : 0 < pos) (hchunk : 0 < chunk) :
    (pos + (chunk - 1)) / chunk = (pos - min pos chunk + (chunk - 1)) / chunk + 1 := by
  have hceil : pos + (chunk - 1) = pos - 1 + chunk := by omega
  rw [hceil, Nat.add_div_right _ hchunk]
  rcases Nat.le_total chunk pos with hle | hle
  · congr 2
    omega
  · rw [Nat.div_eq_of_lt (by omega), Nat.div_eq_of_lt (by omega)]

section Inside

variable (contents : Str) (flagN : Bool) {size : Nat}

theorem newlineTraced_inside {lineStart : Nat} {t : Trace} (h : t.Inside size lineStart) :
    (newlineTraced contents flagN lineStart t).scan = newlineFound contents flagN lineStart t.scan ∧
      (newlineTraced contents flagN lineStart t).Inside size lineStart ∧
      (newlineTraced contents flagN lineStart t).blocks = t.blocks := by
  have habove := h.above
  have hbelow := h.below
  have hstart : lineStart ≤ size := Nat.le_trans habove hbelow
  unfold newlineTraced newlineFound
  by_cases hlen : t.scan.lineEnd = lineStart
  · have hzero : (t.scan.lineEnd : Int) - lineStart = 0 := by omega
    have hempty : ¬ 0 < t.scan.lineEnd - lineStart := by omega
    simp only [hzero, ne_eq, not_true_eq_false, if_false, hempty, true_and, and_true]
    exact ⟨Nat.le_refl _, hstart, h.within⟩
  · have hne : (t.scan.lineEnd : Int) - lineStart ≠ 0 := by omega
    have hpos : 0 < t.scan.lineEnd - lineStart := by omega
    have hwithin : Access.Within size ⟨lineStart, t.scan.lineEnd - lineStart⟩ := by
      constructor <;> dsimp only <;> omega
    simp only [if_pos hne, if_pos hpos, true_and, and_true]
    exact ⟨Nat.le_refl _, hstart, Access.within_append h.within hwithin⟩

/-- One block. -/
theorem scanBlockTraced_inside (buf : Str) {pos i : Nat} {t : Trace} (h : t.Inside size (pos + i)) :
    (scanBlockTraced contents flagN buf pos i t).scan = scanBlock contents flagN buf pos i t.scan ∧
      (scanBlockTraced contents flagN buf pos i t).Inside size pos ∧
      (scanBlockTraced contents flagN buf pos i t).blocks = t.blocks := by
  induction i generalizing t with
  | zero => exact ⟨rfl, h, rfl⟩
  | succ i ih =>
    rw [scanBlockTraced, scanBlock]
    split
    · obtain ⟨hscan, hinside, hblocks⟩ := newlineTraced_inside contents flagN h
      rw [Nat.add_assoc, ← hscan, ← hblocks]
      exact ih (hinside.mono (Nat.le_succ _))
    · exact ih (h.mono (Nat.le_succ _))

/-- All blocks. -/
theorem blockLoopTraced_inside (chunk : Nat) [NeZero chunk] {pos : Nat} {t : Trace}
    (h : t.Inside size pos) :
    (blockLoopTraced contents flagN chunk pos t).scan = blockLoop contents flagN chunk pos t.scan ∧
      (blockLoopTraced contents flagN chunk pos t).Inside size 0 ∧
      (blockLoopTraced contents flagN chunk pos t).blocks =
        t.blocks + (pos + (chunk - 1)) / chunk := by
  have hchunk := Nat.pos_of_ne_zero (NeZero.ne chunk)
  induction pos using Nat.strongRecOn generalizing t with
  | _ pos ih =>
    rw [blockLoopTraced, blockLoop]
    split
    · next hpos =>
      have hsize : (if pos < chunk then pos else chunk) = min pos chunk := by
        split <;> omega
      rw [hsize]
      have hblocks := blocks_succ hpos hchunk
      dsimp only
      generalize hread : min pos chunk = readSize at hblocks ⊢
      have hle : readSize ≤ pos := by omega
      have habove := h.above
      have hbelow := h.below
      have hwithin : Access.Within size ⟨pos - readSize, readSize⟩ := by
        constructor <;> dsimp only <;> omega
      have hstart : Trace.Inside size (pos - readSize + readSize)
          { t with
            accesses := t.accesses ++ [⟨pos - readSize, readSize⟩]
            blocks := t.blocks + 1 } := by
        rw [Nat.sub_add_cancel hle]
        exact ⟨habove, hbelow, Access.within_append h.within hwithin⟩
      obtain ⟨hscan, hinside, hcount⟩ :=
        scanBlockTraced_inside contents flagN (pread contents (pos - readSize) readSize) hstart
      obtain ⟨hscan', hinside', hcount'⟩ := ih (pos - readSize) (by omega) hinside
      refine ⟨hscan'.trans (by rw [hscan]), hinside', ?_⟩
      rw [hcount', hcount, hblocks]
      show t.blocks + 1 + _ = t.blocks + (_ + 1)
      omega
    · next hpos =>
      obtain rfl : pos = 0 := by omega
      have hzero : (0 + (chunk - 1)) / chunk = 0 := Nat.div_eq_of_lt (by omega)
      exact ⟨rfl, h, by rw [hzero, Nat.add_zero]⟩

end Inside

/-- **Blocks.** What `print_reverse_chunked` prints and the counter it leaves are the same for
blocks of any size. It reads the text in as many blocks as it takes, and none of its accesses leaves
the file. -/
theorem printReverseIn_blocks (contents : Str) (flagN : Bool) (chunk : Nat) [NeZero chunk]
    (lineNum : Int) :
    (∀ (big : Nat) [NeZero big],
      printReverseIn contents flagN chunk lineNum = printReverseIn contents flagN big lineNum) ∧
    let t := printReverseTraced contents flagN chunk lineNum
    (t.scan.out, t.scan.lineNum) = printReverseIn contents flagN chunk lineNum ∧
      t.blocks = (scanSize contents + (chunk - 1)) / chunk ∧
      ∀ a ∈ t.accesses, a.Within contents.length := by
  constructor
  · intro big _
    simp only [printReverseIn, blockLoop_eq_scanFrom]
  intro t
  have hchunk := Nat.pos_of_ne_zero (NeZero.ne chunk)
  have hsize : scanSize contents ≤ contents.length := by
    unfold scanSize
    split <;> omega
  have hblocks : scanSize contents = 0 → (scanSize contents + (chunk - 1)) / chunk = 0 := by
    intro hzero
    rw [hzero]
    exact Nat.div_eq_of_lt (by omega)
  by_cases hempty : contents.length = 0
  · simp only [t, printReverseTraced, printReverseIn, if_pos hempty]
    exact ⟨trivial, (hblocks (by omega)).symm, by simp⟩
  have hlast : Access.Within contents.length ⟨contents.length - 1, 1⟩ := by
    constructor <;> dsimp only <;> omega
  by_cases hzero : scanSize contents = 0
  · simp only [t, printReverseTraced, printReverseIn, if_neg hempty, if_pos hzero]
    exact ⟨trivial, (hblocks hzero).symm, by simpa using hlast⟩
  have hstart : Trace.Inside contents.length (scanSize contents)
      ⟨⟨scanSize contents, lineNum, []⟩, [⟨contents.length - 1, 1⟩], 0⟩ :=
    ⟨Nat.le_refl _, hsize, by simpa using hlast⟩
  obtain ⟨hscan, hinside, hcount⟩ := blockLoopTraced_inside contents flagN chunk hstart
  simp only [t, printReverseTraced, printReverseIn, if_neg hempty, if_neg hzero, ← hscan]
  split
  · next hend =>
    have hfirst : Access.Within contents.length
        ⟨0, (blockLoopTraced contents flagN chunk (scanSize contents)
          ⟨⟨scanSize contents, lineNum, []⟩, [⟨contents.length - 1, 1⟩], 0⟩).scan.lineEnd⟩ := by
      have hbelow := hinside.below
      constructor <;> dsimp only <;> omega
    exact ⟨rfl, hcount.trans (Nat.zero_add _), Access.within_append hinside.within hfirst⟩
  · exact ⟨rfl, hcount.trans (Nat.zero_add _), hinside.within⟩

theorem printReverseIn_blocks_two :
    printReverseIn "a\n\nbc".toList true 2 3 = printReverseIn "a\n\nbc".toList true 4096 3 ∧
    (printReverseTraced "a\n\nbc".toList true 2 3).blocks = 3 := by
  obtain ⟨hsame, -, hblocks, -⟩ := printReverseIn_blocks "a\n\nbc".toList true 2 3
  exact ⟨hsame 4096, hblocks⟩

end UnixCShell.Peek
