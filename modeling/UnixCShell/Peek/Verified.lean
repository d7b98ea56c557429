import Mathlib.Data.List.TakeWhile
import UnixCShell.Peek.Basic

/-!
# The two reverse paths

`print_reverse_chunked` on a file and `print_reverse_buffered` on a stream with the same contents
print the same bytes, except for the file that consists of a single newline: there the backward
scan returns before it prints anything (`printReverseChunked_eq_buffered_iff`).

The backward scan is freed of its blocks first (`blockLoop_eq_scanFrom`), then of its offsets: the
induction runs down the position, and the text between the position and `line_end` is the line
under construction. Behind the first newline that the scan meets, that line carries its own
newline; before, it is the last line of the file without it.
-/

namespace UnixCShell.Peek

open Lib

/-! ## Printing a list of lines -/

/-- Both paths print lines one after the other and count down. -/
def printLines (flagN : Bool) : Int → List Str → Str
  | _, [] => []
  | n, line :: lines => printLine flagN n line ++ printLines flagN (nextNumber flagN n line) lines

theorem reverseLoop_eq_printLines (flagN : Bool) (offset total : Int) (lines : List Str) :
    reverseLoop flagN offset total lines = printLines flagN (offset + total) lines := by
  induction lines generalizing total with
  | nil => rfl
  | cons line lines ih =>
    have hnext : offset + nextNumber flagN total line = nextNumber flagN (offset + total) line := by
      unfold nextNumber
      split <;> omega
    rw [reverseLoop, printLines, ih, hnext]

theorem cString_eq_self {line : Str} (h : nul ∉ line) : cString line = line := by
  rw [cString, List.takeWhile_eq_self_iff]
  intro c hc
  have : c ≠ nul := fun e => h (e ▸ hc)
  simpa using this

/-- A line is printed with a newline whether or not it has one. -/
theorem printLine_append_newline (flagN : Bool) (n : Int) {line : Str} (hne : line ≠ [])
    (hnul : nul ∉ line) (hlast : line.getLast? ≠ some '\n') :
    printLine flagN n (line ++ ['\n']) = printLine flagN n line := by
  have hnum : isNonEmpty (line ++ ['\n']) = isNonEmpty line := by
    obtain ⟨c, cs, rfl⟩ := List.exists_cons_of_ne_nil hne
    rfl
  have hnul' : nul ∉ line ++ ['\n'] := by
    simp only [List.mem_append, List.mem_singleton, not_or]
    exact ⟨hnul, by decide⟩
  simp [printLine, hnum, hlast, cString_eq_self hnul, cString_eq_self hnul']

theorem printLine_newline (flagN : Bool) (n : Int) : printLine flagN n ['\n'] = ['\n'] := by
  simp [printLine, isNonEmpty, cString_eq_self (by decide : nul ∉ ['\n'])]

theorem nextNumber_append (flagN : Bool) (n : Int) {line : Str} (t : Str) (hne : line ≠ []) :
    nextNumber flagN n (line ++ t) = nextNumber flagN n line := by
  obtain ⟨c, cs, rfl⟩ := List.exists_cons_of_ne_nil hne
  simp [nextNumber, isNonEmpty]

theorem nextNumber_newline (flagN : Bool) (n : Int) : nextNumber flagN n ['\n'] = n := by
  simp [nextNumber, isNonEmpty]

/-! ## The scan without blocks -/

section Scan

variable (contents : Str) (flagN : Bool)

/-- The backward scan over the first `k` bytes of the file. -/
def scanFrom : Nat → Scan → Scan
  | 0, s => s
  | k + 1, s =>
    scanFrom k (if contents[k]? = some '\n' then newlineFound contents flagN (k + 1) s else s)

theorem pread_getElem? {pos len i : Nat} (hi : i < len) :
    (pread contents pos len)[i]? = contents[pos + i]? := by
  rw [pread, List.getElem?_take_of_lt hi, List.getElem?_drop]

/-- Scanning a block and then everything before it is scanning everything up to its end. -/
theorem scanFrom_scanBlock {pos len : Nat} : ∀ {i : Nat} (s : Scan), i ≤ len →
    scanFrom contents flagN pos (scanBlock contents flagN (pread contents pos len) pos i s) =
      scanFrom contents flagN (pos + i) s
  | 0, s, _ => rfl
  | i + 1, s, hi => by
    rw [scanBlock, scanFrom_scanBlock _ (Nat.le_of_succ_le hi), pread_getElem? contents hi]
    rfl

/-- The block size does not matter. -/
theorem blockLoop_eq_scanFrom (chunk : Nat) [NeZero chunk] (pos : Nat) (s : Scan) :
    blockLoop contents flagN chunk pos s = scanFrom contents flagN pos s := by
  induction pos using Nat.strongRecOn generalizing s with
  | _ pos ih =>
    rw [blockLoop]
    split
    · next hpos =>
      have hchunk := Nat.pos_of_ne_zero (NeZero.ne chunk)
      have hsize : 0 < (if pos < chunk then pos else chunk) ∧
          (if pos < chunk then pos else chunk) ≤ pos := by
        split <;> omega
      generalize (if pos < chunk then pos else chunk) = readSize at hsize ⊢
      rw [ih _ (by omega), scanFrom_scanBlock _ _ _ le_rfl]
      congr 1
      omega
    · next hpos =>
      obtain rfl : pos = 0 := by omega
      rfl

/-! ## The lines the scan prints -/

/-- The code behind the loops, which prints the first line. -/
def finish (s : Scan) : Scan := if 0 < s.lineEnd then printRange contents flagN 0 s else s

end Scan

variable {contents : Str} {flagN : Bool}

theorem pread_zero {e : Nat} : pread contents 0 e = contents.take e := rfl

theorem take_eq_append_pread {k e : Nat} (h : k ≤ e) :
    contents.take e = contents.take k ++ pread contents k (e - k) := by
  obtain ⟨d, rfl⟩ := Nat.exists_eq_add_of_le h
  rw [pread, List.take_add]
  simp

theorem take_succ_of_newline {k : Nat} (h : contents[k]? = some '\n') :
    contents.take (k + 1) = contents.take k ++ ['\n'] := by
  simp [List.take_add_one, h]

/-- There is no newline from `k` up to `e`. -/
def NoNewline (contents : Str) (k e : Nat) : Prop :=
  ∀ j, k ≤ j → j < e → contents[j]? ≠ some '\n'

theorem NoNewline.pread {k e : Nat} (h : NoNewline contents k e) :
    '\n' ∉ pread contents k (e - k) := by
  intro hmem
  obtain ⟨i, hi⟩ := List.mem_iff_getElem?.mp hmem
  have hlt : i < e - k := by
    by_contra hge
    rw [Peek.pread, List.getElem?_take_eq_none (by omega)] at hi
    cases hi
  rw [pread_getElem? contents hlt] at hi
  exact h (k + i) (by omega) (by omega) hi

/-- Behind a newline at `k`, the next line starts. -/
theorem splitLines_take {k e : Nat} (h : contents[k]? = some '\n') (hk : k + 1 ≤ e) (t : Str) :
    splitLines '\n' (contents.take e ++ t) =
      splitLines '\n' (contents.take (k + 1)) ++
        splitLines '\n' (pread contents (k + 1) (e - (k + 1)) ++ t) := by
  have hlong : contents.take e ++ t =
      contents.take k ++ '\n' :: (pread contents (k + 1) (e - (k + 1)) ++ t) := by
    rw [take_eq_append_pread hk, take_succ_of_newline h]
    simp
  rw [hlong, take_succ_of_newline h, splitLines_append_of_nl]

/-- The scan below a newline at `e`: there is none between the position and that one, so what is
printed are the lines of the first `e + 1` bytes, in reverse. -/
theorem finish_scanFrom_below {k e : Nat} (n : Int) (out : Str) (hk : k ≤ e)
    (hnl : contents[e]? = some '\n') (hno : NoNewline contents k e) :
    (finish contents flagN (scanFrom contents flagN k ⟨e + 1, n, out⟩)).out =
      out ++ printLines flagN n (splitLines '\n' (contents.take (e + 1))).reverse := by
  induction k generalizing e n out with
  | zero =>
    have hline : contents.take (e + 1) = contents.take e ++ ['\n'] := take_succ_of_newline hnl
    have hmem : '\n' ∉ contents.take e := hno.pread
    rw [hline, splitLines_append_nl_cons hmem]
    simp [scanFrom, finish, printRange, printLines, pread_zero, hline]
  | succ k ih =>
    rw [scanFrom]
    split
    · next hnl' =>
      -- the line from `k + 1` to the newline at `e` is complete
      have hline : pread contents (k + 1) (e + 1 - (k + 1)) =
          pread contents (k + 1) (e - (k + 1)) ++ ['\n'] := by
        have h1 : contents.take (e + 1) = _ := take_eq_append_pread (Nat.le_succ_of_le hk)
        rw [take_succ_of_newline hnl, take_eq_append_pread hk, List.append_assoc] at h1
        exact (List.append_cancel_left h1).symm
      have hstep : newlineFound contents flagN (k + 1) ⟨e + 1, n, out⟩ =
          ⟨k + 1, nextNumber flagN n (pread contents (k + 1) (e + 1 - (k + 1))),
            out ++ printLine flagN n (pread contents (k + 1) (e + 1 - (k + 1)))⟩ := by
        have : 0 < e + 1 - (k + 1) := by omega
        simp only [newlineFound, printRange, this, if_true]
      have hlines := splitLines_take hnl' (Nat.le_succ_of_le hk) []
      rw [List.append_nil, List.append_nil, hline, splitLines_append_nl_cons hno.pread,
        ← hline] at hlines
      rw [hstep, ih _ _ le_rfl hnl' (by intro j _ _; omega), hlines]
      simp [printLines]
    · next hne =>
      refine ih n out (Nat.le_of_succ_le hk) hnl ?_
      intro j hj hje
      rcases Nat.eq_or_lt_of_le hj with rfl | hlt
      · exact hne
      · exact hno j hlt hje

/-- The scan above all newlines: `e` is where it started, behind the last line without its
newline. -/
theorem finish_scanFrom_above {k e : Nat} (n : Int) (out : Str) (hk : k ≤ e) (he : 0 < e)
    (hle : e ≤ contents.length) (hnul : nul ∉ contents) (hno : NoNewline contents k e) :
    (finish contents flagN (scanFrom contents flagN k ⟨e, n, out⟩)).out =
      out ++ printLines flagN n (splitLines '\n' (contents.take e ++ ['\n'])).reverse := by
  induction k generalizing n out with
  | zero =>
    have hmem : '\n' ∉ contents.take e := hno.pread
    have hne : contents.take e ≠ [] := by
      intro h
      have := congrArg List.length h
      simp only [List.length_take, List.length_nil] at this
      omega
    have hlast : (contents.take e).getLast? ≠ some '\n' :=
      fun h => hmem (List.mem_of_getLast? h)
    rw [splitLines_append_nl_cons hmem]
    simp [scanFrom, finish, printRange, printLines, pread_zero, he,
      printLine_append_newline _ _ hne (fun h => hnul (List.mem_of_mem_take h)) hlast]
  | succ k ih =>
    rw [scanFrom]
    split
    · next hnl =>
      have hmem : '\n' ∉ pread contents (k + 1) (e - (k + 1)) := hno.pread
      have hlines := splitLines_take hnl hk ['\n']
      rw [splitLines_append_nl_cons hmem] at hlines
      obtain ⟨n', hstep, hnum⟩ : ∃ n', newlineFound contents flagN (k + 1) ⟨e, n, out⟩ =
          ⟨k + 1, n', out ++ printLine flagN n (pread contents (k + 1) (e - (k + 1)) ++ ['\n'])⟩ ∧
          n' = nextNumber flagN n (pread contents (k + 1) (e - (k + 1)) ++ ['\n']) := by
        by_cases hlen : 0 < e - (k + 1)
        · have hne : pread contents (k + 1) (e - (k + 1)) ≠ [] := by
            intro h
            have := congrArg List.length h
            simp only [pread, List.length_take, List.length_drop, List.length_nil] at this
            omega
          have hlast : (pread contents (k + 1) (e - (k + 1))).getLast? ≠ some '\n' :=
            fun h => hmem (List.mem_of_getLast? h)
          have hnul' : nul ∉ pread contents (k + 1) (e - (k + 1)) :=
            fun h => hnul (List.mem_of_mem_drop (List.mem_of_mem_take h))
          refine ⟨_, ?_, rfl⟩
          rw [printLine_append_newline _ _ hne hnul' hlast, nextNumber_append _ _ _ hne]
          simp [newlineFound, printRange, hlen]
        · have hnil : pread contents (k + 1) (e - (k + 1)) = [] := by
            simp [pread, show e - (k + 1) = 0 by omega]
          refine ⟨n, ?_, ?_⟩
          · rw [hnil, List.nil_append, printLine_newline]
            simp [newlineFound, hlen]
          · rw [hnil, List.nil_append, nextNumber_newline]
      rw [hstep, finish_scanFrom_below _ _ le_rfl hnl (by intro j _ _; omega), hlines, hnum]
      simp [printLines]
    · next hne =>
      refine ih n out (Nat.le_of_succ_le hk) ?_
      intro j hj hje
      rcases Nat.eq_or_lt_of_le hj with rfl | hlt
      · exact hne
      · exact hno j hlt hje


/-! ## Both paths -/

/-- The lines of a text that lacks its last newline are printed as if it were there. -/
theorem printLines_append_newline (n : Int) {t : Str} (hne : t ≠ []) (hnul : nul ∉ t)
    (hlast : t.getLast? ≠ some '\n') :
    printLines flagN n (splitLines '\n' (t ++ ['\n'])).reverse =
      printLines flagN n (splitLines '\n' t).reverse := by
  obtain ⟨ls, l, hl, hnl, h1, h2⟩ := exists_splitLines_append_nl hne hlast
  have hnul' : nul ∉ l :=
    fun h => hnul (mem_of_mem_splitLines (h1 ▸ List.mem_append_right _ (by simp)) h)
  have hlast' : l.getLast? ≠ some '\n' := fun h => hnl (List.mem_of_getLast? h)
  rw [h1, h2, List.reverse_append, List.reverse_append]
  simp only [List.reverse_singleton, List.singleton_append, printLines]
  rw [printLine_append_newline _ _ hl hnul' hlast', nextNumber_append _ _ _ hl]

/-- The scan, where it gets past its two early returns. -/
theorem printReverseChunked_of_scanSize (n : Int) (hpos : 0 < scanSize contents)
    (hnul : nul ∉ contents) :
    (printReverseChunked contents flagN n).1 =
      printLines flagN n
        (splitLines '\n' (contents.take (scanSize contents) ++ ['\n'])).reverse := by
  have hle : scanSize contents ≤ contents.length := by
    unfold scanSize
    split <;> omega
  have h0 : contents.length ≠ 0 := by omega
  have h1 : scanSize contents ≠ 0 := by omega
  rw [printReverseChunked, printReverseIn, if_neg h0, if_neg h1, blockLoop_eq_scanFrom]
  exact finish_scanFrom_above n [] le_rfl hpos hle hnul (by intro j _ _; omega)

/-- What `print_reverse_chunked` prints: the lines of the file in reverse, unless the file is a
single newline. -/
theorem printReverseChunked_eq (n : Int) (hnul : nul ∉ contents) (hne : contents ≠ ['\n']) :
    (printReverseChunked contents flagN n).1 =
      printLines flagN n (splitLines '\n' contents).reverse := by
  by_cases hnil : contents = []
  · subst hnil
    rfl
  by_cases hlast : contents.getLast? = some '\n'
  · obtain ⟨t, rfl⟩ := List.getLast?_eq_some_iff.mp hlast
    have ht : t ≠ [] := by
      rintro rfl
      exact hne rfl
    have hsize : scanSize (t ++ ['\n']) = t.length := by simp [scanSize]
    have hpos := List.length_pos_iff.mpr ht
    rw [printReverseChunked_of_scanSize n (hsize ▸ hpos) hnul, hsize, List.take_left]
  · have hsize : scanSize contents = contents.length := by simp [scanSize, hlast]
    have hpos := List.length_pos_iff.mpr hnil
    rw [printReverseChunked_of_scanSize n (hsize ▸ hpos) hnul, hsize, List.take_length,
      printLines_append_newline n hnil hnul hlast]

/-- The file for which the second `if (filesize <= 0) return` is one too many. -/
theorem printReverseChunked_newline (n : Int) : (printReverseChunked ['\n'] flagN n).1 = [] := rfl

theorem map_cString {s : Str} (hnul : nul ∉ s) :
    (splitLines '\n' s).map cString = splitLines '\n' s := by
  have heach : ∀ line ∈ splitLines '\n' s, cString line = id line := by
    intro line hline
    exact cString_eq_self (fun h => hnul (mem_of_mem_splitLines hline h))
  rw [List.map_congr_left heach, List.map_id]

/-- What `print_reverse_buffered` prints, for a stream without NUL bytes. -/
theorem printReverseBuffered_eq (offset : Int) {st : Stream Char} {rs : List Str}
    (hnul : nul ∉ st.pending rs) :
    (printReverseBuffered flagN offset st rs).1 =
      printLines flagN (offset + countNonEmpty (splitLines '\n' (st.pending rs)))
        (splitLines '\n' (st.pending rs)).reverse := by
  rw [printReverseBuffered, readLines_eq]
  simp only [map_cString hnul, reverseLoop_eq_printLines]

theorem fopen_pending (contents : Str) :
    (fopen contents).1.pending (fopen contents).2 = contents := by
  have hchunk : 0 < chunkSize := by decide
  simp [fopen, upToEof_of_not_mem (not_mem_blocks hchunk contents), flatten_blocks hchunk]

theorem countNonEmptyLines_eq (contents : Str) :
    countNonEmptyLines contents = countNonEmpty (splitLines '\n' contents) := by
  rw [countNonEmptyLines, readLines_eq, fopen_pending]

/-- Without `-n` the counter plays no role. -/
theorem printLines_false (m n : Int) (lines : List Str) :
    printLines false m lines = printLines false n lines := by
  induction lines generalizing m n with
  | nil => rfl
  | cons line lines ih =>
    rw [printLines, printLines, ih _ (nextNumber false n line)]
    rfl

/-- A file and a stream with the same contents are printed alike, unless they hold a single
newline. The counter `start` is as `run_peek` sets it: the `offset` of the file plus the number
of its non-empty lines if lines are numbered, and anything otherwise. -/
theorem printReverseChunked_eq_buffered_iff (contents : Str) (flagN : Bool) (offset start : Int)
    (st : Stream Char) (rs : List Str) (hnul : nul ∉ contents) (hst : st.pending rs = contents)
    (hstart : flagN = true → start = offset + countNonEmptyLines contents) :
    (printReverseChunked contents flagN start).1 = (printReverseBuffered flagN offset st rs).1 ↔
      contents ≠ ['\n'] := by
  rw [printReverseBuffered_eq offset (hst ▸ hnul), hst]
  constructor
  · rintro h rfl
    rw [printReverseChunked_newline] at h
    simp [splitLines, printLines, printLine_newline] at h
  · intro hne
    rw [printReverseChunked_eq start hnul hne]
    cases flagN with
    | false => exact printLines_false _ _ _
    | true => rw [hstart rfl, countNonEmptyLines_eq]

theorem printReverseChunked_eq_buffered_example :
    (printReverseChunked "a\n\nb".toList true 7).1 =
      (printReverseBuffered true 5 (.ahead "a\n".toList) ["\nb".toList]).1 :=
  (printReverseChunked_eq_buffered_iff "a\n\nb".toList true 5 7 (.ahead "a\n".toList) ["\nb".toList]
    (by decide) (by decide) (by rw [countNonEmptyLines_eq]; decide)).mpr (by decide)

/-- `printf '\n' > f`: `peek -r f` prints nothing, `peek -r < f` prints the line. -/
theorem printReverseChunked_ne_buffered :
    (printReverseChunked ['\n'] false 1).1 = [] ∧
      (printReverseBuffered false 0 (.ahead []) [['\n']]).1 = ['\n'] := by
  decide

end UnixCShell.Peek
