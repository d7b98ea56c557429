import UnixCShell.Lib.Lines

/-!
# Buffered input streams

A `FILE *` opened for reading is a read-ahead buffer and a sticky end-of-file indicator over a
file descriptor. What the descriptor gives is a list of `read` results: an empty result is an
end-of-file condition (which on a terminal need not be the last word), and behind the end of the
list there are only end-of-file conditions.

`readLines` is the loop `while (getline(..) != -1)`. Its specification `readLines_eq` says that it
delivers the lines of everything up to the end-of-file condition, and that it leaves the stream
empty with the indicator set.
-/

namespace Lib

variable {α : Type*}

/-- The state of an input stream: bytes read ahead, and the end-of-file indicator. The indicator is
only ever set when there is nothing left in the buffer. -/
structure Stream (α : Type*) where
  buf : List α
  eof : Bool
  buf_of_eof : eof = true → buf = []

namespace Stream

@[ext] theorem ext {s t : Stream α} (hbuf : s.buf = t.buf) (heof : s.eof = t.eof) : s = t := by
  cases s
  cases t
  cases hbuf
  cases heof
  rfl

/-- A stream with `buf` read ahead. -/
def ahead (buf : List α) : Stream α := ⟨buf, false, by simp⟩

/-- A stream whose end-of-file indicator is set. -/
def atEof : Stream α := ⟨[], true, fun _ => rfl⟩

@[simp] theorem ahead_buf (buf : List α) : (ahead buf).buf = buf := rfl
@[simp] theorem ahead_eof (buf : List α) : (ahead buf).eof = false := rfl
@[simp] theorem atEof_buf : (atEof : Stream α).buf = [] := rfl
@[simp] theorem atEof_eof : (atEof : Stream α).eof = true := rfl

theorem eq_atEof {s : Stream α} (h : s.eof = true) : s = atEof := Stream.ext (s.buf_of_eof h) h

end Stream

/-! ## The descriptor -/

/-- What `read` gives up to the next end-of-file condition. -/
def upToEof : List (List α) → List α
  | [] => []
  | [] :: _ => []
  | (c :: cs) :: rs => (c :: cs) ++ upToEof rs

/-- What `read` gives behind the next end-of-file condition. -/
def behindEof : List (List α) → List (List α)
  | [] => []
  | [] :: rs => rs
  | (_ :: _) :: rs => behindEof rs

theorem upToEof_of_not_mem {rs : List (List α)} (h : [] ∉ rs) : upToEof rs = rs.flatten := by
  induction rs with
  | nil => rfl
  | cons r rs ih =>
    cases r with
    | nil => simp at h
    | cons c cs =>
      rw [upToEof, ih (fun hm => h (List.mem_cons_of_mem _ hm)), List.flatten_cons]

/-- What is still to be read before the end-of-file condition. -/
def Stream.pending (st : Stream α) (rs : List (List α)) : List α :=
  if st.eof then [] else st.buf ++ upToEof rs

@[simp] theorem Stream.pending_ahead (buf : List α) (rs : List (List α)) :
    (Stream.ahead buf).pending rs = buf ++ upToEof rs := rfl

@[simp] theorem Stream.pending_atEof (rs : List (List α)) : (Stream.atEof).pending rs = [] := rfl

/-! ## `getline` -/

section Getline

variable [DecidableEq α] (nl : α)

/-- `getline` with an empty buffer, after it has already taken `acc`. At the end of the input it
returns what it has, if anything, and sets the indicator. -/
def fillLine (acc : List α) : List (List α) → Option (List α) × Stream α × List (List α)
  | [] => (if acc = [] then none else some acc, .atEof, [])
  | [] :: rs => (if acc = [] then none else some acc, .atEof, rs)
  | (c :: cs) :: rs =>
    match cutLine nl (c :: cs) with
    | some (line, rest) => (some (acc ++ line), .ahead rest, rs)
    | none => fillLine (acc ++ (c :: cs)) rs

/-- `getline`: the next line with its terminator, `none` for the result `-1`. -/
def getline (st : Stream α) (rs : List (List α)) : Option (List α) × Stream α × List (List α) :=
  if st.eof then (none, st, rs)
  else match cutLine nl st.buf with
    | some (line, rest) => (some line, .ahead rest, rs)
    | none => fillLine nl st.buf rs

/-- At most `fuel` rounds of `while (getline(..) != -1)`: the lines, and what is left. -/
def readLinesAux : Nat → Stream α → List (List α) → List (List α) × Stream α × List (List α)
  | 0, st, rs => ([], st, rs)
  | fuel + 1, st, rs =>
    match getline nl st rs with
    | (none, st', rs') => ([], st', rs')
    | (some line, st', rs') =>
      let (lines, st'', rs'') := readLinesAux fuel st' rs'
      (line :: lines, st'', rs'')

/-- `while (getline(..) != -1)`. Every round takes at least one byte, so the number of bytes bounds
the number of rounds. -/
def readLines (st : Stream α) (rs : List (List α)) : List (List α) × Stream α × List (List α) :=
  readLinesAux nl ((st.pending rs).length + 1) st rs

variable {nl}

@[simp] theorem getline_atEof (rs : List (List α)) : getline nl .atEof rs = (none, .atEof, rs) :=
  rfl

/-- What `fillLine` returns, by the first line of `acc` and the pending input. -/
theorem fillLine_eq {acc : List α} (hacc : nl ∉ acc) (rs : List (List α)) :
    (acc ++ upToEof rs = [] ∧ fillLine nl acc rs = (none, .atEof, behindEof rs)) ∨
    (nl ∉ acc ++ upToEof rs ∧ acc ++ upToEof rs ≠ [] ∧
      fillLine nl acc rs = (some (acc ++ upToEof rs), .atEof, behindEof rs)) ∨
    (∃ l rest rs', nl ∉ l ∧ acc ++ upToEof rs = l ++ nl :: (rest ++ upToEof rs') ∧
      behindEof rs' = behindEof rs ∧
      fillLine nl acc rs = (some (l ++ [nl]), .ahead rest, rs')) := by
  fun_induction fillLine nl acc rs with
  | case1 acc =>
    by_cases h : acc = []
    · exact .inl (by simp [h, upToEof, behindEof])
    · exact .inr (.inl (by simp [h, hacc, upToEof, behindEof]))
  | case2 acc rs =>
    by_cases h : acc = []
    · exact .inl (by simp [h, upToEof, behindEof])
    · exact .inr (.inl (by simp [h, hacc, upToEof, behindEof]))
  | case3 acc c cs rs line rest hcut =>
    obtain ⟨l, hl, rfl, hs⟩ := cutLine_eq_some hcut
    refine .inr (.inr ⟨acc ++ l, rest, rs, by simp [hacc, hl], ?_, rfl, by simp⟩)
    rw [upToEof, hs]
    simp
  | case4 acc c cs rs hcut ih =>
    have hcs := cutLine_eq_none.mp hcut
    have hacc' : nl ∉ acc ++ (c :: cs) := by
      rw [List.mem_append, not_or]
      exact ⟨hacc, hcs⟩
    have hassoc : acc ++ upToEof ((c :: cs) :: rs) = (acc ++ (c :: cs)) ++ upToEof rs := by
      rw [upToEof, List.append_assoc]
    rw [hassoc]
    exact ih hacc'

variable (nl) in
/-- The specification of `getline`: the first line of the pending input. -/
theorem getline_eq {st : Stream α} (hst : st.eof = false) (rs : List (List α)) :
    (st.pending rs = [] ∧ getline nl st rs = (none, .atEof, behindEof rs)) ∨
    (nl ∉ st.pending rs ∧ st.pending rs ≠ [] ∧
      getline nl st rs = (some (st.pending rs), .atEof, behindEof rs)) ∨
    (∃ l rest rs', nl ∉ l ∧ st.pending rs = l ++ nl :: (rest ++ upToEof rs') ∧
      behindEof rs' = behindEof rs ∧
      getline nl st rs = (some (l ++ [nl]), .ahead rest, rs')) := by
  have hpending : st.pending rs = st.buf ++ upToEof rs := by simp [Stream.pending, hst]
  rw [hpending]
  cases hcut : cutLine nl st.buf with
  | none =>
    have : getline nl st rs = fillLine nl st.buf rs := by simp [getline, hst, hcut]
    rw [this]
    exact fillLine_eq (cutLine_eq_none.mp hcut) rs
  | some p =>
    obtain ⟨line, rest⟩ := p
    obtain ⟨l, hl, rfl, hs⟩ := cutLine_eq_some hcut
    exact .inr (.inr ⟨l, rest, rs, hl, by simp [hs], rfl, by simp [getline, hst, hcut]⟩)

theorem readLinesAux_eq (fuel : Nat) {st : Stream α} {rs : List (List α)} (hst : st.eof = false)
    (hfuel : (st.pending rs).length < fuel) :
    readLinesAux nl fuel st rs = (splitLines nl (st.pending rs), .atEof, behindEof rs) := by
  induction fuel generalizing st rs with
  | zero => omega
  | succ fuel ih =>
    rw [readLinesAux]
    rcases getline_eq nl hst rs with ⟨hp, h⟩ | ⟨hnl, hne, h⟩ | ⟨l, rest, rs', hl, hp, hb, h⟩
    · rw [h, hp]
      rfl
    · -- a last line without terminator: the next round sees the end-of-file indicator
      rw [h, splitLines_of_not_mem hnl hne]
      cases fuel with
      | zero =>
        have := List.length_pos_iff.mpr hne
        omega
      | succ fuel => simp [readLinesAux]
    · have hlen : ((Stream.ahead rest).pending rs').length < fuel := by
        have := congrArg List.length hp
        simp only [List.length_append, List.length_cons] at this
        simp only [Stream.pending_ahead, List.length_append]
        omega
      rw [h, hp, splitLines_append_nl_cons hl]
      simp only [ih rfl hlen, Stream.pending_ahead, hb]

/-- **The specification of the reading loop.** -/
theorem readLines_eq (st : Stream α) (rs : List (List α)) :
    readLines nl st rs =
      (splitLines nl (st.pending rs), .atEof, if st.eof then rs else behindEof rs) := by
  cases hst : st.eof with
  | true =>
    rw [Stream.eq_atEof hst]
    simp [readLines, readLinesAux]
  | false =>
    rw [readLines, readLinesAux_eq _ hst (Nat.lt_succ_self _)]
    rfl

end Getline

end Lib
