import Mathlib.Data.List.TakeWhile
import UnixCShell.Jobs.Resume
import UnixCShell.Lib.Decimal
import UnixCShell.Lib.Lines

/-!
# The frecency database

`hop.c`. The directories that were visited are kept in a text file, one line for each, with the
number of visits and the time of the last one. Every visit reads the whole file and writes it again.
-/

namespace UnixCShell

open Lib

/-- `MAX_ENTRIES`. -/
def maxEntries : Nat := 256

/-- `PATH_MAX`. -/
def pathMax : Nat := 4096

/-- `FrecencyEntry`; `long` and `time_t` have 64 bits. -/
structure FrecencyEntry where
  path       : Str
  visits     : Int64
  lastAccess : Int64
  deriving DecidableEq

/-! ## Reading and writing -/

/-- The conversion `%ld` of `sscanf`: the number and what is behind it. -/
def scanLong (s : Str) : Option (Int64 × Str) :=
  let (n, rest) := strtol s
  if rest = s then none else some (.ofInt n, rest)

/-- `sscanf(line, "%ld %ld %[^\n]", &visits, &last, path) == 3`, and the new entry. -/
def scanEntry (line : Str) : Option FrecencyEntry := do
  let (visits, s) ← scanLong line
  let (last, s) ← scanLong s
  match (s.dropWhile isSpace).takeWhile (· ≠ '\n') with
  | [] => none
  | path => some ⟨path.take (pathMax - 1), visits, last⟩

/-- The loop of `load_entries`. A line is read into a buffer of `PATH_MAX + 64` bytes; a longer one
would be read in pieces. -/
def loadLoop : Nat → Str → List FrecencyEntry → List FrecencyEntry
  | 0, _, entries => entries
  | _ + 1, [], entries => entries
  | fuel + 1, c :: s, entries =>
    if entries.length < maxEntries then
      let (line, rest) := takeLine '\n' (pathMax + 63) (c :: s)
      match scanEntry line with
      | some e => loadLoop fuel rest (entries ++ [e])
      | none => loadLoop fuel rest entries
    else entries

/-- `load_entries`; there may be no file. Each round of the loop takes something from the file. -/
def loadEntries : Option Str → List FrecencyEntry
  | none => []
  | some s => loadLoop s.length s []

/-- `fprintf(fp, "%ld %ld %s\n", ..)`. -/
def FrecencyEntry.line (e : FrecencyEntry) : Str :=
  (toString e.visits.toInt).toList ++
    ' ' :: ((toString e.lastAccess.toInt).toList ++ ' ' :: (e.path ++ ['\n']))

/-- `save_entries`. -/
def saveEntries (entries : List FrecencyEntry) : Str := entries.flatMap FrecencyEntry.line

/-- `record_visit` on the loaded entries. -/
def visit (entries : List FrecencyEntry) (abspath : Str) (now : Int64) : List FrecencyEntry :=
  match entries.findIdx? (·.path = abspath) with
  | some found => entries.modify found fun e => { e with visits := e.visits + 1, lastAccess := now }
  | none =>
    if entries.length < maxEntries then entries ++ [⟨abspath.take (pathMax - 1), 1, now⟩]
    else entries

/-- `record_visit` at the time `now`. The static array is read only where `load_entries` has written
before. -/
def recordVisit (db : Option Str) (abspath : Str) (now : Int64) : Option Str :=
  some (saveEntries (visit (loadEntries db) abspath now))

/-! ## The text of a number -/

theorem isSpace_of_isDigit {c : Char} (h : c.isDigit = true) : isSpace c = false := by
  rw [Char.isDigit, Bool.and_eq_true, decide_eq_true_eq, decide_eq_true_eq] at h
  have hge : 48 ≤ c.toNat := h.1
  simp only [isSpace, Bool.or_eq_false_iff, Bool.and_eq_false_iff, decide_eq_false_iff_not]
  omega

/-- A row of digits ends where the next character is not a digit. -/
theorem takeWhile_digits {digits rest : Str} (hdigits : ∀ c ∈ digits, c.isDigit = true)
    (hrest : ∀ c ∈ rest.head?, c.isDigit = false) :
    (digits ++ rest).takeWhile Char.isDigit = digits ∧
      (digits ++ rest).dropWhile Char.isDigit = rest := by
  rw [List.takeWhile_append_of_pos hdigits, List.dropWhile_append_of_pos hdigits]
  cases rest with
  | nil => simp
  | cons c rest =>
    have hc : c.isDigit = false := hrest c rfl
    simp [hc]

/-- `strtol` reads back what `%ld` has printed. -/
theorem strtol_toString {n : Int} (hmin : -2 ^ 63 ≤ n) (hmax : n < 2 ^ 63) {blanks rest : Str}
    (hblanks : ∀ c ∈ blanks, isSpace c = true) (hrest : ∀ c ∈ rest.head?, c.isDigit = false) :
    strtol (blanks ++ ((toString n).toList ++ rest)) = (n, rest) := by
  have hdigit : ∀ c ∈ Nat.toDigits 10 n.natAbs, c.isDigit = true :=
    fun c hc => Nat.isDigit_of_mem_toDigits (by decide) (by decide) hc
  obtain ⟨d, ds, hds⟩ := List.exists_cons_of_ne_nil (Nat.toDigits_ne_nil (n := n.natAbs) (b := 10))
  obtain ⟨htake, hdrop⟩ := takeWhile_digits hdigit hrest
  have hvalue := foldl_toDigits n.natAbs
  unfold strtol
  rw [List.dropWhile_append_of_pos hblanks, toList_toString]
  by_cases hneg : n < 0
  · have hskip : (['-'] ++ Nat.toDigits 10 n.natAbs ++ rest).dropWhile isSpace =
        '-' :: (Nat.toDigits 10 n.natAbs ++ rest) := rfl
    rw [if_pos hneg, hskip]
    simp only [htake, hdrop]
    rw [hds] at hvalue ⊢
    simp only [hvalue, if_true]
    congr 1
    omega
  · have hd : d.isDigit = true := hdigit d (by rw [hds]; exact List.mem_cons_self)
    have hskip : (Nat.toDigits 10 n.natAbs ++ rest).dropWhile isSpace =
        Nat.toDigits 10 n.natAbs ++ rest := by
      rw [hds, List.cons_append, List.dropWhile_cons, isSpace_of_isDigit hd]
      rfl
    rw [if_neg hneg, List.nil_append, hskip]
    rw [hds] at htake hdrop hvalue ⊢
    rw [List.cons_append] at htake hdrop ⊢
    split
    · -- a digit is no sign
      next heq =>
      split at heq
      · next hsign =>
        cases hsign
        exact absurd hd (by decide)
      · next hsign =>
        cases hsign
        exact absurd hd (by decide)
      · cases heq
        simp only [htake, hdrop, hvalue, Bool.false_eq_true, if_false]
        congr 1
        omega

theorem scanLong_toString (x : Int64) (blanks rest : Str) (hblanks : ∀ c ∈ blanks, isSpace c = true)
    (hrest : ∀ c ∈ rest.head?, c.isDigit = false) :
    scanLong (blanks ++ ((toString x.toInt).toList ++ rest)) = some (x, rest) := by
  have hne : rest ≠ blanks ++ ((toString x.toInt).toList ++ rest) := by
    intro heq
    have hlength := congrArg List.length heq
    have hdigits := List.length_pos_iff.mpr (toString_ne_nil x.toInt)
    rw [List.length_append, List.length_append] at hlength
    omega
  rw [scanLong, strtol_toString x.le_toInt x.toInt_lt hblanks hrest]
  simp only [if_neg hne, Int64.ofInt_toInt]

/-! ## Lines -/

/-- A path that is read back as it is written: it is not empty and on one line, it does not begin
with a blank, and it is short enough for the buffers. -/
structure Storable (path : Str) : Prop where
  head    : ∃ c cs, path = c :: cs ∧ isSpace c = false
  oneLine : '\n' ∉ path
  short   : path.length < pathMax

namespace Storable

variable {e : FrecencyEntry}

/-- What is written for an entry is read as the entry. -/
theorem scanEntry_line (h : Storable e.path) : scanEntry e.line = some e := by
  obtain ⟨c, cs, hpath, hc⟩ := h.head
  have hvisits := scanLong_toString e.visits []
    (' ' :: ((toString e.lastAccess.toInt).toList ++ ' ' :: (e.path ++ ['\n']))) (by simp) (by simp)
  have hlast := scanLong_toString e.lastAccess [' '] (' ' :: (e.path ++ ['\n']))
    (by simp; decide) (by simp)
  have hskip : (' ' :: (e.path ++ ['\n'])).dropWhile isSpace = e.path ++ ['\n'] := by
    have hblank : isSpace ' ' = true := by decide
    rw [List.dropWhile_cons, if_pos hblank, hpath, List.cons_append, List.dropWhile_cons, hc]
    rfl
  have hline : ∀ c ∈ e.path, decide (c ≠ '\n') = true := by
    intro c hc
    rw [decide_eq_true_eq]
    rintro rfl
    exact h.oneLine hc
  have htake : (e.path ++ ['\n']).takeWhile (fun c => decide (c ≠ '\n')) = e.path := by
    rw [List.takeWhile_append_of_pos hline]
    simp
  have hshort : e.path.take (pathMax - 1) = e.path :=
    List.take_of_length_le (Nat.le_pred_of_lt h.short)
  rw [List.nil_append] at hvisits
  rw [List.singleton_append] at hlast
  unfold scanEntry FrecencyEntry.line
  simp only [Option.bind_eq_bind, hvisits, Option.bind_some, hlast, hskip, htake]
  rw [hpath] at hshort
  simp only [hpath, hshort]
  rw [← hpath]

theorem length_toString_int64 (x : Int64) : (toString x.toInt).toList.length ≤ 20 := by
  have hmin := x.le_toInt
  have hmax := x.toInt_lt
  apply length_toString_le (by decide)
  omega

/-- The line of an entry, which fits into the buffer. -/
theorem line_eq (h : Storable e.path) :
    ∃ text, e.line = text ++ ['\n'] ∧ '\n' ∉ text ∧ text ≠ [] ∧ text.length < pathMax + 63 := by
  have hnumber : ∀ n : Int, '\n' ∉ (toString n).toList :=
    fun n => not_mem_toString n (by decide) (by decide)
  refine ⟨(toString e.visits.toInt).toList ++
    ' ' :: ((toString e.lastAccess.toInt).toList ++ ' ' :: e.path),
    by simp [FrecencyEntry.line], ?_, by simp, ?_⟩
  · have hvisits := hnumber e.visits.toInt
    have hlast := hnumber e.lastAccess.toInt
    simp only [List.mem_append, List.mem_cons, not_or]
    exact ⟨hvisits, by decide, hlast, by decide, h.oneLine⟩
  · have hvisits := length_toString_int64 e.visits
    have hlast := length_toString_int64 e.lastAccess
    have hshort := h.short
    rw [List.length_append, List.length_cons, List.length_append, List.length_cons]
    omega

end Storable

/-- A path that `hop` can record: an absolute one on one line, short enough for the buffers. -/
structure AbsPath where
  str      : Str
  absolute : str.head? = some '/'
  oneLine  : '\n' ∉ str
  noNul    : '\x00' ∉ str
  short    : str.length < pathMax
  deriving DecidableEq

namespace AbsPath

theorem ext {p q : AbsPath} (h : p.str = q.str) : p = q := by
  cases p
  cases q
  cases h
  rfl

/-- The entry for a path. -/
def entry (p : AbsPath) (visits lastAccess : Int64) : FrecencyEntry := ⟨p.str, visits, lastAccess⟩

end AbsPath

/-- An absolute path does not begin with a blank. -/
theorem storable_of_absolute {path : Str} (habsolute : path.head? = some '/') (hline : '\n' ∉ path)
    (hshort : path.length < pathMax) : Storable path := by
  obtain ⟨cs, rfl⟩ := List.head?_eq_some_iff.mp habsolute
  exact ⟨⟨'/', cs, rfl, by decide⟩, hline, hshort⟩

/-! ## The whole file -/

/-- One round of the loop. -/
theorem loadLoop_line {e : FrecencyEntry} (h : Storable e.path) {entries : List FrecencyEntry}
    (hroom : entries.length < maxEntries) (fuel : Nat) (s : Str) :
    loadLoop (fuel + 1) (e.line ++ s) entries = loadLoop fuel s (entries ++ [e]) := by
  obtain ⟨text, hline, hnl, hne, hlength⟩ := h.line_eq
  obtain ⟨c, cs, rfl⟩ := List.exists_cons_of_ne_nil hne
  have htake := takeLine_append_nl_cons hnl hlength s
  have hscan := h.scanEntry_line
  rw [hline] at hscan ⊢
  rw [List.append_assoc]
  change loadLoop (fuel + 1) (c :: (cs ++ '\n' :: s)) entries = _
  rw [List.cons_append] at htake
  rw [loadLoop, if_pos hroom, htake]
  simp only [hscan]

/-- The entries are entries for paths, and not too many. -/
structure Recordable (entries : List FrecencyEntry) : Prop where
  length : entries.length ≤ maxEntries
  path   : ∀ e ∈ entries, ∃ p : AbsPath, e.path = p.str

theorem loadLoop_save {entries : List FrecencyEntry} (hpath : ∀ e ∈ entries, Storable e.path)
    {fuel : Nat} (hfuel : (saveEntries entries).length ≤ fuel) {before : List FrecencyEntry}
    (hlength : before.length + entries.length ≤ maxEntries) :
    loadLoop fuel (saveEntries entries) before = before ++ entries := by
  induction entries generalizing fuel before with
  | nil =>
    rw [List.append_nil]
    cases fuel <;> rfl
  | cons e entries ih =>
    obtain ⟨he, hrest⟩ := List.forall_mem_cons.mp hpath
    have hsave : saveEntries (e :: entries) = e.line ++ saveEntries entries := rfl
    obtain ⟨text, hline, -⟩ := he.line_eq
    rw [List.length_cons] at hlength
    -- the line takes at least one round's worth of fuel
    rw [hsave, List.length_append, hline, List.length_append, List.length_singleton] at hfuel
    obtain ⟨fuel, rfl⟩ := Nat.exists_eq_succ_of_ne_zero (show fuel ≠ 0 by omega)
    have hbefore : (before ++ [e]).length + entries.length ≤ maxEntries := by
      rw [List.length_append, List.length_singleton]
      omega
    rw [hsave, loadLoop_line he (by omega) fuel, ih hrest (by omega) hbefore, List.append_assoc]
    rfl

/-- What has been saved is loaded again. -/
theorem loadEntries_saveEntries {entries : List FrecencyEntry}
    (hlength : entries.length ≤ maxEntries) (hpath : ∀ e ∈ entries, Storable e.path) :
    loadEntries (some (saveEntries entries)) = entries :=
  loadLoop_save hpath (Nat.le_refl _) (by simpa using hlength)

theorem Recordable.load_save {entries : List FrecencyEntry} (h : Recordable entries) :
    loadEntries (some (saveEntries entries)) = entries := by
  refine loadEntries_saveEntries h.length fun e he => ?_
  obtain ⟨p, hp⟩ := h.path e he
  rw [hp]
  exact storable_of_absolute p.absolute p.oneLine p.short

/-! ## What can be loaded -/

/-- Whatever the file holds, the paths that are read can be stored. -/
theorem scanEntry_storable {line : Str} {e : FrecencyEntry} (h : scanEntry line = some e) :
    Storable e.path := by
  simp only [scanEntry, Option.bind_eq_bind, Option.bind_eq_some_iff] at h
  obtain ⟨⟨visits, s₁⟩, -, ⟨last, s⟩, -, h⟩ := h
  split at h
  · cases h
  next path hne =>
  cases h
  obtain ⟨c, cs, hpath⟩ := List.exists_cons_of_ne_nil hne
  have hmem : ∀ d ∈ (c :: cs).take (pathMax - 1), d ≠ '\n' := by
    intro d hd
    rw [← hpath] at hd
    simpa using List.mem_takeWhile_imp (List.mem_of_mem_take hd)
  have hhead : isSpace c = false := by
    obtain ⟨rest, hrest⟩ :=
      List.takeWhile_prefix (l := s.dropWhile isSpace) (fun c => decide (c ≠ '\n'))
    have hnot := List.head?_dropWhile_not isSpace s
    rw [← hrest, hpath] at hnot
    exact hnot
  rw [hpath]
  refine ⟨⟨c, cs.take (pathMax - 2), rfl, hhead⟩, fun hnl => hmem _ hnl rfl, ?_⟩
  have hle := List.length_take_le (pathMax - 1) (c :: cs)
  have hpos : pathMax - 1 < pathMax := by decide
  exact Nat.lt_of_le_of_lt hle hpos

theorem loadLoop_storable (fuel : Nat) {s : Str} {entries : List FrecencyEntry}
    (hlength : entries.length ≤ maxEntries) (hpath : ∀ e ∈ entries, Storable e.path) :
    (loadLoop fuel s entries).length ≤ maxEntries ∧
      ∀ e ∈ loadLoop fuel s entries, Storable e.path := by
  induction fuel generalizing s entries with
  | zero => exact ⟨hlength, hpath⟩
  | succ fuel ih =>
    cases s with
    | nil => exact ⟨hlength, hpath⟩
    | cons c s =>
      rw [loadLoop]
      split
      · next hroom =>
        dsimp only
        split
        · next e hscan =>
          refine ih (by simpa using Nat.succ_le_of_lt hroom) fun e' he' => ?_
          rcases List.mem_append.mp he' with he' | he'
          · exact hpath e' he'
          · rw [List.mem_singleton.mp he']
            exact scanEntry_storable hscan
        · exact ih hlength hpath
      · exact ⟨hlength, hpath⟩

theorem loadEntries_storable (db : Option Str) :
    (loadEntries db).length ≤ maxEntries ∧ ∀ e ∈ loadEntries db, Storable e.path := by
  cases db with
  | none => exact ⟨by decide, by simp [loadEntries]⟩
  | some s => exact loadLoop_storable _ (by decide) (by simp)

/-- A path that `getcwd` may return into a buffer of `PATH_MAX` bytes. -/
structure GetcwdPath (path : Str) : Prop where
  absolute : path.head? = some '/'
  noNul    : '\x00' ∉ path
  short    : path.length < pathMax

/-- **The round trip of the database.** Entries for paths that `getcwd` may return are read back as
they were written, if and only if none of the paths holds a newline. -/
theorem load_save_iff {entries : List FrecencyEntry} (hlength : entries.length ≤ maxEntries)
    (hpath : ∀ e ∈ entries, GetcwdPath e.path) :
    loadEntries (some (saveEntries entries)) = entries ↔ ∀ e ∈ entries, '\n' ∉ e.path := by
  constructor
  · intro hload e he
    rw [← hload] at he
    exact ((loadEntries_storable _).2 e he).oneLine
  · intro hline
    refine loadEntries_saveEntries hlength fun e he => ?_
    exact storable_of_absolute (hpath e he).absolute (hline e he) (hpath e he).short

theorem load_save_blank :
    loadEntries (some (saveEntries [⟨"/my dir".toList, 3, -7⟩])) = [⟨"/my dir".toList, 3, -7⟩] := by
  refine (load_save_iff (by decide) ?_).mpr (by decide)
  intro e he
  rw [List.mem_singleton.mp he]
  exact ⟨by decide, by decide, by decide⟩

/-- A directory `/a<newline>7 9 /etc` is read back as two other directories. -/
theorem load_save_newline :
    GetcwdPath "/a\n7 9 /etc".toList ∧
      loadEntries (some (saveEntries [⟨"/a\n7 9 /etc".toList, 1, 5⟩])) =
        [⟨"/a".toList, 1, 5⟩, ⟨"/etc".toList, 7, 9⟩] :=
  ⟨⟨by decide, by decide, by decide⟩, by decide +kernel⟩

end UnixCShell
