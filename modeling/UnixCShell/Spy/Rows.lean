import UnixCShell.Hop.Frecency
import UnixCShell.Spy.Basic

/-!
# The rows of `spy`

What `spy` should list are the mapped files, each once and in the order in which they come first in
`maps`, and the descriptors in ascending order. Its buffers and tables are of a fixed size, so it
does as long as the paths and the tables fit, and not beyond (`spy_rows_iff`).
-/

namespace UnixCShell.Spy

open Lib

/-! ## The text of `maps` -/

/-- A mapping, as a line of `maps` shows it: five columns, filled up with blanks, and a name. The
name is a path if the mapping is one of a file; there are others, like `[heap]` and `[anon:arena]`,
but they are short. -/
structure Mapping where
  columns       : Str
  name          : Str
  columns_slash : '/' ∉ columns
  columns_nl    : '\n' ∉ columns
  columns_short : columns.length < 512
  name_nl       : '\n' ∉ name
  name_short    : name.head? ≠ some '/' → name.length < 512

namespace Mapping

/-- The line without its end. -/
def line (m : Mapping) : Str := m.columns ++ m.name

/-- The file that is mapped. -/
def path? (m : Mapping) : Option Str := if m.name.head? = some '/' then some m.name else none

/-- What follows the first `/` of the name. -/
def slashText (m : Mapping) : Option Str :=
  if '/' ∈ m.name then some (m.name.dropWhile (· ≠ '/')) else none

variable {m : Mapping}

theorem nl_not_mem_line (m : Mapping) : '\n' ∉ m.line :=
  fun h => (List.mem_append.mp h).elim m.columns_nl m.name_nl

theorem mapsPath_line (hshort : m.name.length < 512) :
    mapsPath (m.line ++ ['\n']) = m.slashText := by
  have hslash : '/' ∈ m.line ++ ['\n'] ↔ '/' ∈ m.name := by simp [line, m.columns_slash]
  unfold mapsPath slashText
  by_cases hmem : '/' ∈ m.name
  · rw [if_pos (hslash.mpr hmem), if_pos hmem]
    have hcolumns : ∀ c ∈ m.columns, decide (c ≠ '/') = true :=
      fun c hc => decide_eq_true fun heq => m.columns_slash (heq ▸ hc)
    have hdrop : (m.line ++ ['\n']).dropWhile (· ≠ '/') = m.name.dropWhile (· ≠ '/') ++ ['\n'] := by
      rw [line, List.append_assoc, List.dropWhile_append_of_pos hcolumns, List.dropWhile_append]
      simp [hmem]
    have hnl : ∀ c ∈ m.name.dropWhile (· ≠ '/'), decide (c ≠ '\n') = true := by
      intro c hc
      exact decide_eq_true fun heq => m.name_nl (heq ▸ (List.dropWhile_sublist _).mem hc)
    have hlength := (List.dropWhile_sublist (l := m.name) (· ≠ '/')).length_le
    rw [hdrop, List.takeWhile_append_of_pos hnl]
    have htake : (m.name.dropWhile (· ≠ '/') ++ ['\n'].takeWhile (· ≠ '\n')) =
      m.name.dropWhile (· ≠ '/') :=
      List.append_nil _
    rw [htake, List.take_of_length_le (by omega)]
  · rw [if_neg (mt hslash.mp hmem), if_neg hmem]

end Mapping

/-- The contents of `maps`. -/
def mapsText (ms : List Mapping) : Str := (ms.map Mapping.line).flatMap (· ++ ['\n'])

/-- The mapped files. -/
def files (ms : List Mapping) : List Str := ms.filterMap Mapping.path?

/-- The names with a `/`, from there on. -/
def slashTexts (ms : List Mapping) : List Str := ms.filterMap Mapping.slashText

/-- `maps` is listed as it should be. -/
structure MapsFit (ms : List Mapping) : Prop where
  /-- The paths fit into their buffer. -/
  short  : ∀ p ∈ files ms, p.length < 512
  /-- No `/` in the name of something that is not a file makes a difference. -/
  named  : distinct (slashTexts ms) = distinct (files ms)
  /-- What comes twice has a place in the table. -/
  places : ∀ p, List.Duplicate p (slashTexts ms) → p ∈ firsts 256 (slashTexts ms)

variable {ms : List Mapping}

theorem memPaths_eq_reported (hshort : ∀ p ∈ files ms, p.length < 512) :
    memPaths (mapsText ms) = reported 256 (slashTexts ms) := by
  have hname : ∀ m ∈ ms, m.name.length < 512 := by
    intro m hm
    by_cases hpath : m.name.head? = some '/'
    · exact hshort m.name (List.mem_filterMap.mpr ⟨m, hm, if_pos hpath⟩)
    · exact m.name_short hpath
  have hlines : ∀ l ∈ ms.map Mapping.line, '\n' ∉ l ∧ l.length < 1023 := by
    intro l hl
    obtain ⟨m, hm, rfl⟩ := List.mem_map.mp hl
    refine ⟨m.nl_not_mem_line, ?_⟩
    have hcolumns := m.columns_short
    have hm := hname m hm
    rw [Mapping.line, List.length_append]
    omega
  unfold memPaths mapsText
  rw [linePieces_flatMap hlines, List.map_map, List.filterMap_map]
  congr 1
  exact List.filterMap_congr fun m hm => Mapping.mapsPath_line (hname m hm)

theorem length_of_mem_memPaths {maps p : Str} (h : p ∈ memPaths maps) : p.length < 512 := by
  obtain ⟨line, -, hline⟩ := List.mem_filterMap.mp (mem_of_mem_reported h)
  unfold mapsPath at hline
  split at hline
  · cases hline
    exact Nat.lt_succ_of_le (List.length_take_le ..)
  · cases hline

theorem memPaths_iff : memPaths (mapsText ms) = distinct (files ms) ↔ MapsFit ms := by
  constructor
  · intro h
    have hshort : ∀ p ∈ files ms, p.length < 512 := by
      intro p hp
      have hmem : p ∈ memPaths (mapsText ms) := by
        rw [h]
        exact mem_distinct.mpr hp
      exact length_of_mem_memPaths hmem
    rw [memPaths_eq_reported hshort] at h
    have hnodup : (reported 256 (slashTexts ms)).Nodup := by
      rw [h]
      exact nodup_distinct _
    exact ⟨hshort, (reported_eq_distinct hnodup).symm.trans h, nodup_reported_iff.mp hnodup⟩
  · rintro ⟨hshort, hnamed, hplaces⟩
    rw [memPaths_eq_reported hshort, reported_eq_distinct (nodup_reported_iff.mpr hplaces), hnamed]

/-! ## The descriptors -/

/-- The names in `fd`: the descriptors, in any order, and names that begin with a dot. -/
structure ListsFds (names : List Str) (fds : List Int) : Prop where
  numbers : names.filter (·.head? ≠ some '.') = fds.map fun n => (toString n).toList
  nodup   : fds.Nodup
  range   : ∀ n ∈ fds, 0 ≤ n ∧ n < 2 ^ 31

variable {names : List Str} {fds : List Int}

theorem fdNumber_toString {n : Int} (hn : 0 ≤ n ∧ n < 2 ^ 31)
    (hhead : (toString n).toList.head? ≠ some '.') :
    fdNumber (toString n).toList = some n := by
  have hstrtol : strtol (toString n).toList = (n, []) := by
    have h : strtol ([] ++ ((toString n).toList ++ [])) = (n, []) :=
      strtol_toString (by omega) (by omega) (by simp) (by simp)
    rwa [List.nil_append, List.append_nil] at h
  rw [fdNumber, if_neg hhead, hstrtol]
  exact congrArg some (Int.bmod_eq_of_le (by omega) (by omega))

theorem ListsFds.filterMap_fdNumber (h : ListsFds names fds) : names.filterMap fdNumber = fds := by
  have hdots : (names.filter (·.head? ≠ some '.')).filterMap fdNumber =
      names.filterMap fdNumber := by
    rw [List.filterMap_filter]
    refine List.filterMap_congr fun name _ => ?_
    by_cases hname : name.head? = some '.'
    · simp [fdNumber, hname]
    · simp [hname]
  have hnumber : ∀ n ∈ fds, fdNumber (toString n).toList = some n := by
    intro n hn
    have hmem : (toString n).toList ∈ names.filter (·.head? ≠ some '.') := by
      rw [h.numbers]
      exact List.mem_map_of_mem hn
    exact fdNumber_toString (h.range n hn) (of_decide_eq_true (List.mem_filter.mp hmem).2)
  rw [← hdots, h.numbers, List.filterMap_map]
  exact (List.filterMap_congr hnumber).trans List.filterMap_some

/-- The descriptors of the rows. -/
def Ascending (fds : List Int) (rs : List Row) : Prop :=
  ∃ ns : List Int, rs.map (·.fd) = ns.map (fun n => (toString n).toList) ∧ ns.Perm fds ∧
    ns.Pairwise (· < ·)

variable (stat : Str → Option FileType) {d : ProcDir}

theorem fdRows_labels (hfd : d.fd = some names) (h : ListsFds names fds)
    (hlinks : ∀ n ∈ fds, (d.fdLink n).read.isSome) :
    (fdRows stat d).map (·.fd) = (exchangeSort (fds.take 1024)).map fun n =>
      (toString n).toList := by
  have hrow : ∀ n ∈ exchangeSort (fds.take 1024),
      (linkRow stat (toString n).toList (d.fdLink n)).map (·.fd) = [(toString n).toList] := by
    intro n hn
    have hmem : n ∈ fds := List.mem_of_mem_take ((exchangeSort_perm _).mem_iff.mp hn)
    obtain ⟨path, hpath⟩ := Option.isSome_iff_exists.mp (hlinks n hmem)
    simp [linkRow, hpath]
  have hnumbers : d.fd.elim [] fdNumbers = exchangeSort (fds.take 1024) := by
    rw [hfd]
    exact congrArg (fun ns => exchangeSort (ns.take 1024)) h.filterMap_fdNumber
  rw [fdRows, hnumbers, List.map_flatMap, List.flatMap_congr hrow, List.map_eq_flatMap]

theorem fdRows_iff (hfd : d.fd = some names) (h : ListsFds names fds)
    (hlinks : ∀ n ∈ fds, (d.fdLink n).read.isSome) :
    Ascending fds (fdRows stat d) ↔ fds.length ≤ 1024 := by
  have hlabels := fdRows_labels stat hfd h hlinks
  constructor
  · rintro ⟨ns, hns, hperm, -⟩
    have hlength := congrArg List.length (hns.symm.trans hlabels)
    rw [List.length_map, List.length_map, (exchangeSort_perm _).length_eq, List.length_take,
      hperm.length_eq]
      at hlength
    omega
  · intro hle
    rw [List.take_of_length_le hle] at hlabels
    refine ⟨exchangeSort fds, hlabels, exchangeSort_perm fds, ?_⟩
    have hnodup : (exchangeSort fds).Nodup := (exchangeSort_perm fds).nodup_iff.mpr h.nodup
    exact ((exchangeSort_sorted fds).and hnodup).imp fun hpair => lt_of_le_of_ne hpair.1 hpair.2

/-! ## The rows that are printed -/

/-- A row for a mapped file. -/
def Row.isMem (r : Row) : Bool := r.fd = "mem".toList

/-- A row for a descriptor. -/
def Row.isDescriptor (r : Row) : Bool := r.fd ∉ ["cwd".toList, "txt".toList, "mem".toList]

theorem label_of_mem_linkRow {label : Str} {l : Link} {r : Row} (h : r ∈ linkRow stat label l) :
    r.fd = label := by
  obtain ⟨path, -, rfl⟩ := Option.map_eq_some_iff.mp (Option.mem_toList.mp h)
  rfl

theorem filter_linkRow {label : Str} {l : Link} {p : Row → Bool}
    (hp : ∀ r : Row, r.fd = label → p r = false) :
    (linkRow stat label l).filter p = [] :=
  List.filter_eq_nil_iff.mpr fun r hr => Bool.eq_false_iff.mp (hp r (label_of_mem_linkRow stat hr))

theorem isDescriptor_of_mem_fdRows {r : Row} (h : r ∈ fdRows stat d) : r.isDescriptor = true := by
  obtain ⟨n, -, hr⟩ := List.mem_flatMap.mp h
  have hlabel := label_of_mem_linkRow stat hr
  have hchars : ∀ c ∈ r.fd, c = '-' ∨ c.isDigit = true := by
    rw [hlabel, toList_toString]
    intro c hc
    rcases List.mem_append.mp hc with hc | hc
    · split at hc
      · exact .inl (List.mem_singleton.mp hc)
      · cases hc
    · exact .inr (Nat.isDigit_of_mem_toDigits (by decide) (by decide) hc)
  refine decide_eq_true fun hmem => ?_
  simp only [List.mem_cons, List.not_mem_nil, or_false] at hmem
  rcases hmem with hfd | hfd | hfd
  · exact absurd (hchars 'c' (by rw [hfd]; decide)) (by decide)
  · exact absurd (hchars 't' (by rw [hfd]; decide)) (by decide)
  · exact absurd (hchars 'm' (by rw [hfd]; decide)) (by decide)

/-- Among the rows are those for the mapped files, and no others with this label. -/
theorem filter_isMem_rows (d : ProcDir) : (rows stat d).filter Row.isMem = memRows stat d := by
  have hcwd : (linkRow stat "cwd".toList d.cwd).filter Row.isMem = [] :=
    filter_linkRow stat fun r hr => by rw [Row.isMem, hr]; decide
  have htxt : (linkRow stat "txt".toList d.exe).filter Row.isMem = [] :=
    filter_linkRow stat fun r hr => by rw [Row.isMem, hr]; decide
  have hmem : (memRows stat d).filter Row.isMem = memRows stat d := by
    refine List.filter_eq_self.mpr fun r hr => ?_
    obtain ⟨path, -, rfl⟩ := List.mem_map.mp hr
    rfl
  have hfd : (fdRows stat d).filter Row.isMem = [] := by
    refine List.filter_eq_nil_iff.mpr fun r hr hlabel => ?_
    have hnumber := isDescriptor_of_mem_fdRows stat hr
    rw [Row.isDescriptor, of_decide_eq_true hlabel] at hnumber
    exact absurd hnumber (by decide)
  simp only [rows, List.filter_append, hcwd, htxt, hmem, hfd, List.nil_append, List.append_nil]

/-- The same for the descriptors. -/
theorem filter_isDescriptor_rows (d : ProcDir) :
    (rows stat d).filter Row.isDescriptor = fdRows stat d := by
  have hcwd : (linkRow stat "cwd".toList d.cwd).filter Row.isDescriptor = [] :=
    filter_linkRow stat fun r hr => by rw [Row.isDescriptor, hr]; decide
  have htxt : (linkRow stat "txt".toList d.exe).filter Row.isDescriptor = [] :=
    filter_linkRow stat fun r hr => by rw [Row.isDescriptor, hr]; decide
  have hmem : (memRows stat d).filter Row.isDescriptor = [] := by
    refine List.filter_eq_nil_iff.mpr fun r hr => ?_
    obtain ⟨path, -, rfl⟩ := List.mem_map.mp hr
    exact Bool.false_ne_true
  have hfd : (fdRows stat d).filter Row.isDescriptor = fdRows stat d :=
    List.filter_eq_self.mpr fun r hr => isDescriptor_of_mem_fdRows stat hr
  simp only [rows, List.filter_append, hcwd, htxt, hmem, hfd, List.nil_append]

theorem map_path_memRows {maps : Str} (hmaps : d.maps = some maps) :
    (memRows stat d).map (·.path) = memPaths maps := by
  rw [memRows, hmaps, List.map_map]
  exact List.map_id _

/-- The mapped files are listed once each, in the order in which they come first, if and only if
their paths are short enough and the table holds those that come twice; and the descriptors are
listed once each and in ascending order if and only if they fit into the array. -/
theorem spy_rows_iff (hmaps : d.maps = some (mapsText ms)) (hfd : d.fd = some names)
    (h : ListsFds names fds) (hlinks : ∀ n ∈ fds, (d.fdLink n).read.isSome) :
    (((rows stat d).filter Row.isMem).map (·.path) = distinct (files ms) ↔ MapsFit ms) ∧
      (Ascending fds ((rows stat d).filter Row.isDescriptor) ↔ fds.length ≤ 1024) := by
  rw [filter_isMem_rows, map_path_memRows stat hmaps, filter_isDescriptor_rows]
  exact ⟨memPaths_iff, fdRows_iff stat hfd h hlinks⟩

/-- The mapping of a file at address 0. -/
def fileMapping (path : Str) (hnl : '\n' ∉ path) (hhead : path.head? = some '/') : Mapping where
  columns       := "0-1000 r--p 0 08:01 7 ".toList
  name          := path
  columns_slash := by decide
  columns_nl    := by decide
  columns_short := by decide
  name_nl       := hnl
  name_short    := fun h => absurd hhead h

/-- A library that is mapped twice. -/
def libcMaps : List Mapping :=
  List.replicate 2 (fileMapping "/lib/c".toList (by decide) (by decide))

/-- A process with this library and the descriptors 10, 2 and 0. -/
def libcDir : ProcDir where
  cwd    := .target "/".toList
  exe    := .target "/bin/a".toList
  maps   := some (mapsText libcMaps)
  fd     := some [".".toList, "..".toList, "10".toList, "2".toList, "0".toList]
  fdLink := fun _ => .target "/dev/null".toList

theorem mapsFit_libcMaps : MapsFit libcMaps := by
  refine ⟨by decide, by decide, fun p hp => ?_⟩
  have hfirsts : firsts 256 (slashTexts libcMaps) = ["/lib/c".toList] := by decide
  rw [hfirsts, List.mem_singleton]
  exact List.eq_of_mem_replicate (n := 2) hp.mem

theorem spy_rows_libcDir :
    ((rows (fun _ => none) libcDir).filter Row.isMem).map (·.path) = distinct (files libcMaps) ∧
      Ascending [10, 2, 0] ((rows (fun _ => none) libcDir).filter Row.isDescriptor) := by
  have hmaps : libcDir.maps = some (mapsText libcMaps) := rfl
  have hdir : ListsFds [".".toList, "..".toList, "10".toList, "2".toList, "0".toList] [10, 2, 0] :=
    ⟨by decide, by decide, by decide⟩
  have h := spy_rows_iff (fun _ => none) hmaps rfl hdir (fun _ _ => rfl)
  exact ⟨h.1.mpr mapsFit_libcMaps, h.2.mpr (by decide)⟩

/-- A path of 512 bytes. -/
def longPath : Str := '/' :: List.replicate 511 'a'

theorem nl_not_mem_longPath : '\n' ∉ longPath := by
  intro h
  rcases List.mem_cons.mp h with h | h
  · exact absurd h (by decide)
  · exact absurd (List.eq_of_mem_replicate h) (by decide)

/-- The mapping of a file with this path. -/
def longMapping : Mapping := fileMapping longPath nl_not_mem_longPath rfl

/-- The file is not listed. -/
theorem spy_longPath :
    ((rows (fun _ => none) { libcDir with maps := some (mapsText [longMapping]) }).filter
      Row.isMem).map (·.path) ≠
      distinct (files [longMapping]) := by
  intro heq
  rw [filter_isMem_rows, map_path_memRows _ rfl] at heq
  have hmem : longPath ∈ distinct (files [longMapping]) :=
    mem_distinct.mpr (List.mem_singleton_self _)
  rw [← heq] at hmem
  have hlength := length_of_mem_memPaths hmem
  rw [longPath, List.length_cons, List.length_replicate] at hlength
  omega

end UnixCShell.Spy
