import UnixCShell.Hop.Frecency
import UnixCShell.Lib.Firsts

/-!
# What the frecency database remembers

The database is meant to be a summary of all visits: for each of the first `MAX_ENTRIES`
directories, how often and when last it was visited. `history` says what the summary is, without a
file; the database that `record_visit` writes is read as the summary of all visits so far.
-/

namespace UnixCShell

open Lib

/-- A call of `record_visit`. -/
structure Visit where
  path : AbsPath
  time : Int64
  deriving DecidableEq

/-- The calls of `record_visit` in one session of the shell. -/
def recordVisits (db : Option Str) (visits : List Visit) : Option Str :=
  visits.foldl (fun db v => recordVisit db v.path.str v.time) db

/-! ## The summary -/

def visitsOf (visits : List Visit) (p : AbsPath) : Nat := visits.countP fun v => v.path = p

/-- The time of the last visit. -/
def lastVisit (visits : List Visit) (p : AbsPath) : Int64 :=
  ((visits.reverse.find? fun v => v.path = p).map (·.time)).getD 0

def summary (visits : List Visit) (p : AbsPath) : FrecencyEntry :=
  p.entry (.ofNat (visitsOf visits p)) (lastVisit visits p)

/-- The summary of all visits. -/
def history (visits : List Visit) : List FrecencyEntry :=
  (firsts maxEntries (visits.map (·.path))).map (summary visits)

/-- One more visit, of this directory or of another one. -/
theorem summary_concat (visits : List Visit) (v : Visit) (p : AbsPath) :
    summary (visits ++ [v]) p =
      if p = v.path then
        { summary visits p with visits := (summary visits p).visits + 1, lastAccess := v.time }
      else summary visits p := by
  unfold summary visitsOf lastVisit
  rw [List.countP_append, List.reverse_append, List.reverse_singleton, List.singleton_append,
    List.find?_cons]
  by_cases hp : p = v.path
  · subst hp
    simp [AbsPath.entry, Int64.ofNat_add]
  · simp [hp, Ne.symm hp]

/-- A directory that has never been visited. -/
theorem summary_of_new {visits : List Visit} {v : Visit} (h : v.path ∉ visits.map (·.path)) :
    summary (visits ++ [v]) v.path = v.path.entry 1 v.time := by
  have hcount : visitsOf visits v.path = 0 := by
    rw [visitsOf, List.countP_eq_zero]
    intro u hu heq
    exact h (List.mem_map.mpr ⟨u, hu, of_decide_eq_true heq⟩)
  rw [summary_concat, if_pos rfl]
  simp [summary, hcount, AbsPath.entry]

/-- Nothing changes for other directories. -/
theorem map_summary_of_not_mem (visits : List Visit) {v : Visit} {ps : List AbsPath}
    (h : v.path ∉ ps) :
    ps.map (summary (visits ++ [v])) = ps.map (summary visits) := by
  apply List.map_congr_left
  intro p hp
  rw [summary_concat, if_neg]
  rintro rfl
  exact h hp

theorem history_recordable (visits : List Visit) : Recordable (history visits) := by
  constructor
  · rw [history, List.length_map]
    exact length_firsts_le ..
  · intro e he
    obtain ⟨p, -, rfl⟩ := List.mem_map.mp he
    exact ⟨p, rfl⟩

/-- `record_visit` on the summary. -/
theorem visit_history (visits : List Visit) (v : Visit) :
    visit (history visits) v.path.str v.time = history (visits ++ [v]) := by
  have hpaths : (visits ++ [v]).map (·.path) = visits.map (·.path) ++ [v.path] := List.map_append
  unfold visit
  cases hfind : (history visits).findIdx? fun e => e.path = v.path.str with
  | some found =>
    obtain ⟨hlt, heq, -⟩ := List.findIdx?_eq_some_iff_getElem.mp hfind
    have hlt' : found < (firsts maxEntries (visits.map (·.path))).length := by
      rwa [history, List.length_map] at hlt
    have hfound : (firsts maxEntries (visits.map (·.path)))[found]? = some v.path := by
      rw [List.getElem?_eq_getElem hlt']
      simp only [history, List.getElem_map, decide_eq_true_eq] at heq
      exact congrArg some (AbsPath.ext heq)
    have hsame : firsts maxEntries ((visits ++ [v]).map (·.path)) =
        firsts maxEntries (visits.map (·.path)) := by
      rw [hpaths, firsts_concat, if_pos (Or.inl (List.mem_of_getElem? hfound))]
    change (history visits).modify found _ = _
    rw [history, history, hsame, modify_map (nodup_firsts ..) hfound]
    apply List.map_congr_left
    intro p _
    rw [summary_concat]
  | none =>
    have hnot : v.path ∉ firsts maxEntries (visits.map (·.path)) := by
      intro hmem
      have := List.findIdx?_eq_none_iff.mp hfind _ (List.mem_map_of_mem hmem)
      simp [summary, AbsPath.entry] at this
    have hlength : (history visits).length = (firsts maxEntries (visits.map (·.path))).length :=
      List.length_map ..
    dsimp only
    rw [hlength]
    split
    · next hroom =>
      -- there is room, so that all directories that were visited have an entry
      have hnew : v.path ∉ visits.map (·.path) := fun hmem => hnot (mem_firsts hroom hmem)
      have hadd : firsts maxEntries ((visits ++ [v]).map (·.path)) =
          firsts maxEntries (visits.map (·.path)) ++ [v.path] := by
        rw [hpaths, firsts_concat, if_neg (not_or.mpr ⟨hnot, by omega⟩)]
      have hshort : v.path.str.take (pathMax - 1) = v.path.str :=
        List.take_of_length_le (Nat.le_pred_of_lt v.path.short)
      rw [hshort, history, history, hadd, List.map_append, map_summary_of_not_mem visits hnot,
        List.map_singleton, summary_of_new hnew]
      rfl
    · next hfull =>
      have hsame : firsts maxEntries ((visits ++ [v]).map (·.path)) =
          firsts maxEntries (visits.map (·.path)) := by
        rw [hpaths, firsts_concat, if_pos (Or.inr (by omega))]
      rw [history, history, hsame, map_summary_of_not_mem visits hnot]

/-! ## The database -/

theorem recordVisits_append (db : Option Str) (visits visits' : List Visit) :
    recordVisits db (visits ++ visits') = recordVisits (recordVisits db visits) visits' :=
      List.foldl_append

/-- Where one session ends and the next begins does not matter. -/
theorem foldl_recordVisits (sessions : List (List Visit)) (db : Option Str) :
    sessions.foldl recordVisits db = recordVisits db sessions.flatten := by
  induction sessions generalizing db with
  | nil => rfl
  | cons visits sessions ih => rw [List.foldl_cons, ih, List.flatten_cons, recordVisits_append]

/-- The database is read as the summary of all visits. -/
theorem loadEntries_recordVisits (visits : List Visit) :
    loadEntries (recordVisits none visits) = history visits := by
  induction visits using List.reverseRecOn with
  | nil => rfl
  | append_singleton visits v ih =>
    rw [recordVisits_append]
    change loadEntries (some (saveEntries (visit (loadEntries (recordVisits none visits)) _ _))) = _
    rw [ih, visit_history]
    exact (history_recordable _).load_save

/-- After any number of sessions, the database holds the first directories that were visited,
without duplicates and in the order of their first visits, with the number of their visits and the
time of the last one. -/
theorem frecency_records_history (sessions : List (List Visit)) :
    let visits := sessions.flatten
    let entries := loadEntries (sessions.foldl recordVisits none)
    entries = (firsts 256 (visits.map (·.path))).map
        (fun p => ⟨p.str, .ofNat (visitsOf visits p), lastVisit visits p⟩) ∧
      (entries.map (·.path)).Nodup ∧
      ∀ e ∈ entries, ∀ p : AbsPath, e.path = p.str → visitsOf visits p < 2 ^ 63 →
        e.visits.toInt = visitsOf visits p := by
  intro visits entries
  have hentries : entries = history visits := by
    rw [show entries = _ from congrArg loadEntries (foldl_recordVisits sessions none)]
    exact loadEntries_recordVisits visits
  refine ⟨hentries, ?_, ?_⟩
  · rw [hentries, history, List.map_map]
    apply (nodup_firsts ..).map
    intro p q hpq
    exact AbsPath.ext hpq
  · intro e he p hpath hlt
    rw [hentries] at he
    obtain ⟨q, -, rfl⟩ := List.mem_map.mp he
    obtain rfl : q = p := AbsPath.ext hpath
    exact Int64.toInt_ofNat_of_lt hlt

/-- A directory `/c`. -/
def AbsPath.single (c : Char) (h : c ≠ '\n' ∧ c ≠ '\x00') : AbsPath where
  str := ['/', c]
  absolute := rfl
  oneLine := by simp [Ne.symm h.1]
  noNul := by simp [Ne.symm h.2]
  short := by simp [pathMax]

example :
    let a : AbsPath := .single 'a' (by decide)
    let b : AbsPath := .single 'b' (by decide)
    recordVisits none [⟨a, 5⟩, ⟨b, -6⟩, ⟨a, 9⟩] =
      some "2 9 /a\n1 -6 /b\n".toList := by decide +kernel

end UnixCShell
