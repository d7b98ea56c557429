import UnixCShell.Lib.Decimal
import UnixCShell.Peek.Run
import UnixCShell.Peek.Verified

/-!
# The numbers of lines

`peek -n` counts the lines that are not empty up, from file to file. `peek -rn` counts the lines of
each file first and then down, with two different readers and two different ways of printing
backwards. Both print the same number in front of the same line: argument by argument, the numbered
lines of the one output are those of the other in reverse (`peek_numbered`).

What is compared are the bytes that are printed. A line of an output bears a number if it does not
begin like an empty one, and the number is what stands before the first blank (`numbered`).
-/

namespace UnixCShell.Peek

open Lib

/-! ## Numbered lines -/

/-- The line as it is printed, with the newline that a last line may lack. -/
def completed (line : Str) : Str := if line.getLast? = some '\n' then line else line ++ ['\n']

/-- The numbered lines of an output: the number and the line. -/
def numbered (out : Str) : List (Str × Str) :=
  (splitLines '\n' out).filterMap fun l =>
    if isNonEmpty l then some (l.takeWhile (· != ' '), (l.dropWhile (· != ' ')).tail) else none

/-- The lines that are not empty, with the numbers from `n` on. -/
def number : Int → List Str → List (Str × Str)
  | _, [] => []
  | n, line :: lines =>
    if isNonEmpty line then ((toString n).toList, completed line) :: number (n + 1) lines
    else number n lines

theorem number_append (n : Int) (ls ls' : List Str) :
    number n (ls ++ ls') = number n ls ++ number (n + countNonEmpty ls) ls' := by
  induction ls generalizing n with
  | nil => simp [number, countNonEmpty]
  | cons line ls ih =>
    rw [List.cons_append, number, number]
    split
    · next hline =>
      have hcount : n + (countNonEmpty (line :: ls) : Nat) = n + 1 + countNonEmpty ls := by
        rw [countNonEmpty, List.countP_cons_of_pos hline, countNonEmpty]
        omega
      rw [ih, hcount, List.cons_append]
    · next hline =>
      rw [ih, countNonEmpty, countNonEmpty, List.countP_cons_of_neg hline]

/-- What `getline` returns, without NUL bytes. -/
def IsLine (line : Str) : Prop :=
  nul ∉ line ∧ ∃ l, '\n' ∉ l ∧ (line = l ++ ['\n'] ∨ line = l ∧ l ≠ [])

theorem isLine_of_mem_splitLines {s line : Str} (hnul : nul ∉ s) (h : line ∈ splitLines '\n' s) :
    IsLine line :=
  ⟨fun hc => hnul (mem_of_mem_splitLines h hc), eq_or_of_mem_splitLines h⟩

/-- A numbered line in an output. -/
theorem numbered_cons (n : Int) {l : Str} (hl : '\n' ∉ l) (rest : Str) :
    numbered (lineNumber n ++ (l ++ ['\n']) ++ rest) =
      ((toString n).toList, l ++ ['\n']) :: numbered rest := by
  have hblank : ∀ c ∈ (toString n).toList, (c != ' ') = true := by
    intro c hc
    have hne : c ≠ ' ' := fun heq => not_mem_toString n (by decide) (by decide) (heq ▸ hc)
    simpa using hne
  have hnl : '\n' ∉ (toString n).toList ++ ' ' :: l := by
    rw [List.mem_append, not_or]
    exact ⟨not_mem_toString n (by decide) (by decide), by simpa using hl⟩
  have hsplit : lineNumber n ++ (l ++ ['\n']) ++ rest =
      (toString n).toList ++ ' ' :: l ++ '\n' :: rest := by
    simp [lineNumber]
  have hnonempty : isNonEmpty ((toString n).toList ++ ' ' :: l ++ ['\n']) = true := by
    obtain ⟨c, cs, htext⟩ := List.exists_cons_of_ne_nil (toString_ne_nil n)
    have hc : c ∈ (toString n).toList := htext ▸ List.mem_cons_self
    have hnl : c ≠ '\n' := fun heq => not_mem_toString n (by decide) (by decide) (heq ▸ hc)
    have hcr : c ≠ '\r' := fun heq => not_mem_toString n (by decide) (by decide) (heq ▸ hc)
    rw [htext]
    simp [isNonEmpty, hnl, hcr]
  rw [hsplit, numbered, splitLines_append_nl_cons hnl, List.filterMap_cons, if_pos hnonempty]
  simp only [List.append_assoc, List.takeWhile_append_of_pos hblank,
    List.dropWhile_append_of_pos hblank]
  simp [numbered]

/-- A line is printed with its number, and read off with it again. -/
theorem numbered_printLine {line : Str} (h : IsLine line) (n : Int) (rest : Str) :
    numbered (printLine true n line ++ rest) = number n [line] ++ numbered rest := by
  obtain ⟨hnul, l, hl, hline⟩ := h
  have hcompleted : completed line = l ++ ['\n'] := by
    rcases hline with rfl | ⟨rfl, hne⟩
    · simp [completed]
    · have hlast : line.getLast? ≠ some '\n' := fun hc => hl (List.mem_of_getLast? hc)
      simp [completed, hlast]
  have hprint : printLine true n line =
      (if isNonEmpty line then lineNumber n else []) ++ (l ++ ['\n']) := by
    rw [← hcompleted, printLine, cString_eq_self hnul, completed, Bool.true_and, List.append_assoc]
    congr 1
    split <;> simp
  have hempty : isNonEmpty line = isNonEmpty (l ++ ['\n']) := by
    rcases hline with rfl | ⟨rfl, hne⟩
    · rfl
    · obtain ⟨c, cs, rfl⟩ := List.exists_cons_of_ne_nil hne
      rfl
  rw [hprint, number]
  by_cases hnonempty : isNonEmpty line = true
  · rw [if_pos hnonempty, if_pos hnonempty, numbered_cons n hl, hcompleted]
    rfl
  · rw [if_neg hnonempty, if_neg hnonempty]
    rw [hempty] at hnonempty
    have hsplit : [] ++ (l ++ ['\n']) ++ rest = l ++ '\n' :: rest := by simp
    rw [hsplit, numbered, splitLines_append_nl_cons hl, List.filterMap_cons, if_neg hnonempty]
    rfl

/-! ## Printing forwards and backwards -/

theorem number_cons (n : Int) (line : Str) (lines : List Str) :
    number n (line :: lines) = number n [line] ++ number (n + countNonEmpty [line]) lines :=
  number_append n [line] lines

theorem countNonEmpty_cons (line : Str) (lines : List Str) :
    countNonEmpty (line :: lines) = countNonEmpty [line] + countNonEmpty lines := by
  rw [countNonEmpty, countNonEmpty, countNonEmpty, ← List.countP_append]
  rfl

/-- Forwards, with the counter behind. -/
theorem numbered_forwardLoop {lines : List Str} (h : ∀ line ∈ lines, IsLine line) (n : Int) :
    numbered (forwardLoop true n lines).1 = number n lines ∧
      (forwardLoop true n lines).2 = n + countNonEmpty lines := by
  induction lines generalizing n with
  | nil => exact ⟨rfl, by simp [forwardLoop, countNonEmpty]⟩
  | cons line lines ih =>
    obtain ⟨hline, hlines⟩ := List.forall_mem_cons.mp h
    have hnext : (if true && isNonEmpty line then n + 1 else n) = n + countNonEmpty [line] := by
      cases hempty : isNonEmpty line <;> simp [countNonEmpty, hempty]
    obtain ⟨hout, hcount⟩ := ih hlines (n + countNonEmpty [line])
    rw [forwardLoop, hnext]
    refine ⟨?_, ?_⟩
    · rw [numbered_printLine hline, hout, ← number_cons]
    · have hcons := countNonEmpty_cons line lines
      rw [hcount]
      omega

/-- Backwards, from the number of the last line on. -/
theorem numbered_printLines {lines : List Str} (h : ∀ line ∈ lines, IsLine line) (n : Int) :
    numbered (printLines true (n + countNonEmpty lines) lines.reverse) =
      (number (n + 1) lines).reverse := by
  induction lines using List.reverseRecOn with
  | nil => rfl
  | append_singleton lines line ih =>
    have hline : IsLine line := h line (by simp)
    have hcount : countNonEmpty (lines ++ [line]) = countNonEmpty lines + countNonEmpty [line] :=
      List.countP_append
    rw [List.reverse_append, List.reverse_singleton, List.singleton_append, printLines,
      numbered_printLine hline, number_append, List.reverse_append, hcount]
    rw [← ih fun l hl => h l (by simp [hl])]
    cases hempty : isNonEmpty line with
    | true =>
      have hone : countNonEmpty [line] = 1 := by simp [countNonEmpty, hempty]
      have hnumber : n + (countNonEmpty lines + 1 : Nat) = n + 1 + countNonEmpty lines := by omega
      have hnext : nextNumber true (n + 1 + countNonEmpty lines) line =
          n + countNonEmpty lines := by
        rw [nextNumber, hempty, Bool.true_and, if_pos rfl]
        omega
      rw [hone, hnumber, hnext, number, if_pos hempty]
      rfl
    | false =>
      have hzero : countNonEmpty [line] = 0 := by simp [countNonEmpty, hempty]
      have hnone : ∀ m, number m [line] = [] := by
        intro m
        rw [number, if_neg (by simp [hempty])]
        rfl
      rw [hzero, Nat.add_zero, hnone, hnone, nextNumber, hempty]
      rfl

/-! ## Files and `stdin` -/

/-- What is printed for the lines of one argument. -/
def order (flagR : Bool) (lines : List (Str × Str)) : List (Str × Str) :=
  if flagR then lines.reverse else lines

/-- The number of the next line: the counter forwards, and one more than the counter backwards. -/
def firstNumber (flagR : Bool) (number : Int) : Int := if flagR then number + 1 else number

theorem numbered_printForward {st : Stream Char} {rs : List Str}
    (hnul : nul ∉ st.pending rs) (n : Int) :
    numbered (printForward true n st rs).1 = number n (splitLines '\n' (st.pending rs)) ∧
      (printForward true n st rs).2.1 = n + countNonEmpty (splitLines '\n' (st.pending rs)) := by
  rw [printForward, readLines_eq]
  dsimp only
  rw [map_cString hnul]
  exact numbered_forwardLoop (fun line => isLine_of_mem_splitLines hnul) n

theorem numbered_readStdin (flagR : Bool) {st : Stream Char} {rs : List Str}
    (hnul : nul ∉ st.pending rs) (n : Int) :
    numbered (readStdin true flagR n st rs).1 =
        order flagR (number (firstNumber flagR n) (splitLines '\n' (st.pending rs))) ∧
      (readStdin true flagR n st rs).2.1 = n + countNonEmpty (splitLines '\n' (st.pending rs)) := by
  cases flagR with
  | false => exact numbered_printForward hnul n
  | true =>
    refine ⟨?_, ?_⟩
    · show numbered (printReverseBuffered true n st rs).1 = _
      rw [printReverseBuffered_eq n hnul]
      exact numbered_printLines (fun line => isLine_of_mem_splitLines hnul) n
    · show n + (printReverseBuffered true n st rs).2.1 = _
      rw [printReverseBuffered, readLines_eq]
      dsimp only
      rw [map_cString hnul]

theorem numbered_readFile (flagR : Bool) {contents : Str} (hnul : nul ∉ contents) (n : Int) :
    numbered (readFile true flagR n contents).1 =
        order flagR (number (firstNumber flagR n) (splitLines '\n' contents)) ∧
      (readFile true flagR n contents).2 = n + countNonEmpty (splitLines '\n' contents) := by
  cases flagR with
  | false =>
    have hpending := fopen_pending contents
    have hforward := numbered_printForward (hpending.symm ▸ hnul) n
    rw [hpending] at hforward
    exact hforward
  | true =>
    refine ⟨?_, congrArg (fun k : Nat => n + (k : Int)) (countNonEmptyLines_eq contents)⟩
    show numbered (printReverseChunked contents true (n + countNonEmptyLines contents)).1 = _
    by_cases hne : contents = ['\n']
    · -- nothing is printed, and there is nothing to number
      subst hne
      rw [printReverseChunked_newline]
      rfl
    · rw [printReverseChunked_eq _ hnul hne, countNonEmptyLines_eq]
      exact numbered_printLines (fun line => isLine_of_mem_splitLines hnul) n

/-! ## All arguments -/

/-- The file that is opened for an argument, if there is one. -/
def source (w : World) (file : Str) : Option Nat :=
  if w.isDir (w.locate file) then none else w.fs.openRead (w.locate file)

/-- What is printed for one argument. -/
def printed (a : Args) (s : Run) (file : Str) : Str :=
  if file = ['-'] then (readStdin a.flagN a.flagR s.number s.world.stdin s.world.reads).1
  else match source s.world file with
    | none => []
    | some ino => (readFile a.flagN a.flagR s.number (s.world.fs.data ino)).1

/-- What is printed for each argument. -/
def outputs (a : Args) : Run → List Str → List Str
  | _, [] => []
  | s, file :: files => printed a s file :: outputs a (visit a s file) files

/-- What `run_peek` prints for each of its files. -/
def peekOutputs (a : Args) (w : World) : List Str :=
  outputs a ⟨w, if a.flagR && a.flagN then 0 else 1, []⟩ a.files

/-- For an argument that is not `-`. -/
theorem visit_file (a : Args) (s : Run) {file : Str} (h : file ≠ ['-']) :
    match source s.world file with
    | none => ∃ text, visit a s file = { s with world := s.world.eprint text }
    | some ino => visit a s file =
      { s with
        world := s.world.print (readFile a.flagN a.flagR s.number (s.world.fs.data ino)).1
        number := (readFile a.flagN a.flagR s.number (s.world.fs.data ino)).2 } := by
  unfold source visit
  rw [if_neg h]
  dsimp only
  by_cases hdir : s.world.isDir (s.world.locate file) = true
  · rw [if_pos hdir, if_pos hdir]
    exact ⟨_, rfl⟩
  rw [if_neg hdir, if_neg hdir]
  by_cases hnone : s.world.fs.dir (s.world.locate file) = none
  · have hread : s.world.fs.openRead (s.world.locate file) = none := by
      rw [Files.openRead, hnone]
      split <;> rfl
    rw [if_pos hnone, hread]
    exact ⟨_, rfl⟩
  rw [if_neg hnone]
  cases s.world.fs.openRead (s.world.locate file) with
  | none => exact ⟨_, rfl⟩
  | some ino => rfl

/-- Printing changes nothing that is read, unless it is the file that is printed to. -/
structure SameFiles (w w' : World) : Prop where
  fds      : w'.fds = w.fds
  cwd      : w'.cwd = w.cwd
  isDir    : w'.isDir = w.isDir
  dir      : w'.fs.dir = w.fs.dir
  readable : w'.fs.readable = w.fs.readable
  data     : ∀ ino, w.fds.get 1 ≠ some (.file ino) → w'.fs.data ino = w.fs.data ino

namespace SameFiles

variable {u v w : World}

theorem of_eq (hfs : v.fs = u.fs) (hfds : v.fds = u.fds) (hcwd : v.cwd = u.cwd)
    (hdir : v.isDir = u.isDir) :
    SameFiles u v :=
  ⟨hfds, hcwd, hdir, by rw [hfs], by rw [hfs], fun _ _ => by rw [hfs]⟩

theorem trans (h : SameFiles u v) (h' : SameFiles v w) : SameFiles u w where
  fds := h'.fds.trans h.fds
  cwd := h'.cwd.trans h.cwd
  isDir := h'.isDir.trans h.isDir
  dir := h'.dir.trans h.dir
  readable := h'.readable.trans h.readable
  data := fun ino hino => (h'.data ino (h.fds ▸ hino)).trans (h.data ino hino)

theorem print (w : World) (text : Str) : SameFiles w (w.print text) := by
  unfold World.print
  split
  · exact of_eq rfl rfl rfl rfl
  · next ino hout =>
    refine ⟨rfl, rfl, rfl, rfl, rfl, fun ino' hino' => Files.append_data_of_ne _ _ ?_⟩
    rintro rfl
    exact hino' hout
  · exact of_eq rfl rfl rfl rfl

theorem setStdin (w : World) (st : Stream Char) (rest : List Str) :
    SameFiles w (w.setStdin st rest) := by
  unfold World.setStdin
  split <;> exact of_eq rfl rfl rfl rfl

theorem source_eq (h : SameFiles v w) (file : Str) : source w file = source v file := by
  unfold source World.locate Files.openRead
  rw [h.cwd, h.isDir, h.dir, h.readable]

theorem inputApart (h : SameFiles v w) (hv : v.InputApart) : w.InputApart := by
  unfold World.InputApart
  rw [h.fds]
  exact hv

end SameFiles

theorem visit_sameFiles (a : Args) (s : Run) (file : Str) :
    SameFiles s.world (visit a s file).world := by
  by_cases hfile : file = ['-']
  · unfold visit
    rw [if_pos hfile]
    exact (SameFiles.setStdin ..).trans (SameFiles.print ..)
  · have hvisit := visit_file a s hfile
    cases hsource : source s.world file with
    | none =>
      rw [hsource] at hvisit
      obtain ⟨text, hvisit⟩ := hvisit
      rw [hvisit]
      exact SameFiles.of_eq rfl rfl rfl rfl
    | some ino =>
      rw [hsource] at hvisit
      rw [hvisit]
      exact SameFiles.print ..

/-- Everything that is printed is printed for some argument. -/
theorem visit_out (a : Args) {s : Run} (hout : s.world.fds.get 1 = some .output) (file : Str) :
    (visit a s file).world.out = s.world.out ++ printed a s file := by
  have hprint : ∀ w : World, w.fds.get 1 = some .output →
      ∀ text, (w.print text).out = w.out ++ text := by
    intro w hw text
    rw [World.print, hw]
  by_cases hfile : file = ['-']
  · unfold visit printed
    rw [if_pos hfile, if_pos hfile]
    refine (hprint _ (by rw [World.setStdin_fds, hout]) _).trans ?_
    congr 1
    unfold World.setStdin
    split <;> rfl
  · have hvisit := visit_file a s hfile
    unfold printed
    rw [if_neg hfile]
    cases hsource : source s.world file with
    | none =>
      rw [hsource] at hvisit
      obtain ⟨text, hvisit⟩ := hvisit
      rw [hvisit]
      exact (List.append_nil _).symm
    | some ino =>
      rw [hsource] at hvisit
      rw [hvisit]
      exact hprint _ hout _

theorem peekFiles_out (a : Args) {w : World} (hout : w.fds.get 1 = some .output) :
    (peekFiles a w).world.out = w.out ++ (peekOutputs a w).flatten := by
  have hrun : ∀ (files : List Str) (s : Run), s.world.fds.get 1 = some .output →
      (files.foldl (visit a) s).world.out = s.world.out ++ (outputs a s files).flatten := by
    intro files
    induction files with
    | nil => exact fun s _ => (List.append_nil _).symm
    | cons file files ih =>
      intro s hs
      have hs' : (visit a s file).world.fds.get 1 = some .output := by
        rw [(visit_sameFiles a s file).fds, hs]
      rw [List.foldl_cons, ih _ hs', visit_out a hs, outputs, List.flatten_cons, List.append_assoc]
  exact hrun a.files _ hout

/-! ## The texts that are read -/

/-- The text that is printed for an argument, if `left` is what is left of `stdin`. -/
def text (w : World) (left : Str) (file : Str) : Str :=
  if file = ['-'] then left else (source w file).elim [] w.fs.data

/-- The texts for all arguments. What is left of `stdin` is printed at the first `-`. -/
def texts (w : World) : Str → List Str → List Str
  | _, [] => []
  | left, file :: files => text w left file :: texts w (if file = ['-'] then [] else left) files

/-- The lines of texts that are not empty, numbered from one text to the next. -/
def numberTexts : Int → List Str → List (List (Str × Str))
  | _, [] => []
  | n, t :: ts => number n (splitLines '\n' t) :: numberTexts
      (n + countNonEmpty (splitLines '\n' t)) ts

/-- What is printed does not go to a file that is read. -/
structure ReadsApart (w : World) (files : List Str) : Prop where
  input : w.InputApart
  files : ∀ file ∈ files, ∀ ino, source w file = some ino → w.fds.get 1 ≠ some (.file ino)

/-- `peek` has come from `w` to `s`, where `left` is left of `stdin`. -/
structure Reached (w : World) (left : Str) (s : Run) : Prop where
  files : SameFiles w s.world
  left  : s.world.stdinLeft = left

variable {w : World} {left : Str} {s : Run}

/-- Only `-` takes something from `stdin`, and it takes all that is left. -/
theorem Reached.next (h : Reached w left s) (a : Args) (hinput : w.InputApart) (file : Str) :
    Reached w (if file = ['-'] then [] else left) (Peek.visit a s file) := by
  obtain ⟨-, htaken, hstdin⟩ := visit_stdin a s file (h.files.inputApart hinput)
  refine ⟨h.files.trans (visit_sameFiles a s file), ?_⟩
  by_cases hfile : file = ['-']
  · rw [if_pos hfile] at hstdin ⊢
    exact World.stdinLeft_of_atEof hstdin
  · have hkept : (Peek.visit a s file).taken = s.taken := by
      have hvisit := visit_file a s hfile
      cases hsource : source s.world file with
      | none =>
        rw [hsource] at hvisit
        obtain ⟨message, hvisit⟩ := hvisit
        rw [hvisit]
      | some ino =>
        rw [hsource] at hvisit
        rw [hvisit]
    rw [hkept] at htaken
    rw [if_neg hfile]
    exact (List.append_cancel_left htaken).trans h.left

/-- One argument. -/
theorem Reached.visit (h : Reached w left s) (flagR : Bool) (names : List Str) {file : Str}
    (hfiles : ∀ ino, source w file = some ino → w.fds.get 1 ≠ some (.file ino))
    (hnul : nul ∉ text w left file) :
    let a : Args := ⟨true, flagR, names⟩
    let lines := splitLines '\n' (text w left file)
    numbered (printed a s file) = order flagR (number (firstNumber flagR s.number) lines) ∧
      (Peek.visit a s file).number = s.number + countNonEmpty lines := by
  intro a lines
  by_cases hfile : file = ['-']
  · have htext : text w left file = s.world.stdinLeft := by rw [text, if_pos hfile, h.left]
    rw [htext] at hnul
    unfold Peek.visit
    simp only [lines, htext, printed, if_pos hfile]
    exact numbered_readStdin flagR hnul s.number
  · have htext : text w left file = (source w file).elim [] w.fs.data := by rw [text, if_neg hfile]
    have hvisit := visit_file a s hfile
    simp only [lines, htext, if_neg hfile, printed]
    rw [h.files.source_eq file] at hvisit ⊢
    cases hino : source w file with
    | none =>
      rw [hino] at hvisit
      obtain ⟨message, hvisit⟩ := hvisit
      refine ⟨?_, ?_⟩
      · cases flagR <;> rfl
      · rw [hvisit]
        exact (Int.add_zero _).symm
    | some ino =>
      rw [hino] at hvisit
      rw [htext, hino] at hnul
      have hdata : s.world.fs.data ino = w.fs.data ino := h.files.data ino (hfiles ino hino)
      obtain ⟨hout, hnumber⟩ := numbered_readFile flagR hnul s.number
      refine ⟨?_, ?_⟩
      · dsimp only
        rw [hdata]
        exact hout
      · rw [hvisit, hdata]
        exact hnumber

/-- All arguments. -/
theorem Reached.outputs (h : Reached w left s) (flagR : Bool) (names : List Str) {files : List Str}
    (hapart : ReadsApart w files) (hnul : ∀ t ∈ texts w left files, nul ∉ t) :
    (Peek.outputs ⟨true, flagR, names⟩ s files).map numbered =
      (numberTexts (firstNumber flagR s.number) (texts w left files)).map (order flagR) := by
  induction files generalizing left s with
  | nil => rfl
  | cons file files ih =>
    obtain ⟨hfirst, hrest⟩ := List.forall_mem_cons.mp hnul
    obtain ⟨hfile, hfiles⟩ := List.forall_mem_cons.mp hapart.files
    have hreached := h.next ⟨true, flagR, names⟩ hapart.input file
    obtain ⟨hout, hnumber⟩ := h.visit flagR names hfile hfirst
    have hnext : ∀ k : Nat, firstNumber flagR (s.number + k) = firstNumber flagR s.number + k := by
      intro k
      unfold firstNumber
      split <;> omega
    rw [Peek.outputs, List.map_cons, hout, ih hreached ⟨hapart.input, hfiles⟩ hrest, hnumber, hnext]
    rfl

/-- **The same numbers.** Argument by argument, the numbered lines that `peek -rn` prints are those
that `peek -n` prints, in reverse; and those are the lines that are not empty, numbered from 1 on
and from one text to the next. -/
theorem peek_numbered {files : List Str} {w : World} (hapart : ReadsApart w files)
    (hnul : ∀ t ∈ texts w w.stdinLeft files, nul ∉ t) :
    let forward := (peekOutputs ⟨true, false, files⟩ w).map numbered
    (peekOutputs ⟨true, true, files⟩ w).map numbered = forward.map List.reverse ∧
      forward = numberTexts 1 (texts w w.stdinLeft files) := by
  intro forward
  have hstart : ∀ number, Reached w w.stdinLeft ⟨w, number, []⟩ :=
    fun number => ⟨SameFiles.of_eq rfl rfl rfl rfl, rfl⟩
  have hforward : forward = numberTexts 1 (texts w w.stdinLeft files) :=
    ((hstart 1).outputs false files hapart hnul).trans (List.map_id _)
  refine ⟨?_, hforward⟩
  rw [hforward]
  exact (hstart 0).outputs true files hapart hnul

/-- A shell that has read ahead two lines and an empty one between them. -/
def twoLines : World := { World.init with stdin := .ahead "a\n\nb".toList }

/-- `peek -rn - -`, where nothing is left for the second `-`. -/
theorem peek_numbered_stdin :
    (peekOutputs ⟨true, true, [['-'], ['-']]⟩ twoLines).map numbered =
      [[("2".toList, "b\n".toList), ("1".toList, "a\n".toList)], []] := by
  have hapart : ReadsApart twoLines [['-'], ['-']] := by
    refine ⟨fun ino hino => ?_, fun file hfile ino hino hout => ?_⟩
    · cases hino
    · cases hout
  have hnul : ∀ t ∈ texts twoLines twoLines.stdinLeft [['-'], ['-']], nul ∉ t := by decide
  obtain ⟨hreverse, hforward⟩ := peek_numbered hapart hnul
  rw [hreverse, hforward]
  decide

end UnixCShell.Peek
