import Mathlib.Algebra.Order.Ring.Rat
import Mathlib.Tactic.Linarith
import Mathlib.Tactic.NormNum
import UnixCShell.Hop.Run
import UnixCShell.Lib.Doubles
import UnixCShell.Lib.FirstMax

/-!
# The search in the frecency database

`score_of` and `frecency_lookup` (`hop.c`). The directory that was visited most often and most
lately is looked for among those whose paths contain a string. The scores are doubles, whose values
are rational numbers; for numbers of visits that occur they are exact.

The search finds the first of the directories with the highest score, and finds it again when the
visit to it has been recorded (`frecencyLookup_correct`).
-/

namespace UnixCShell

open Lib

/-- `difftime`. -/
def difftime (time1 time0 : Int64) : Int := toDouble (time1.toInt - time0.toInt)

/-- `score_of`. The multipliers are powers of two, so that the product is exact. -/
def scoreOf (visits lastAccess now : Int64) : ℚ :=
  let ageSecs := difftime now lastAccess
  let multiplier : ℚ :=
    if ageSecs < 3600 then 4
    else if ageSecs < 86400 then 2
    else if ageSecs < 604800 then 1 / 2
    else 1 / 4
  toDouble visits.toInt * multiplier

/-- The loop of `frecency_lookup`, with the entry at `best`. `strstr` looks for a part of the path,
and `stat` tells the directories. -/
def lookupLoop (isDir : Str → Bool) (now : Int64) (name : Str) :
    List FrecencyEntry → Option FrecencyEntry → ℚ → Option FrecencyEntry
  | [], best, _ => best
  | e :: entries, best, bestScore =>
    if ¬ name <:+: e.path then lookupLoop isDir now name entries best bestScore
    else if ¬ isDir e.path then lookupLoop isDir now name entries best bestScore
    else
      let s := scoreOf e.visits e.lastAccess now
      if s > bestScore then lookupLoop isDir now name entries (some e) s
      else lookupLoop isDir now name entries best bestScore

/-- `frecency_lookup` at the time `now`. -/
def frecencyLookup (isDir : Str → Bool) (db : Option Str) (now : Int64) (name : Str) : Option Str :=
  (lookupLoop isDir now name (loadEntries db) none (-1)).map fun e => e.path.take (pathMax - 1)

/-! ## Scores -/

/-- How much a visit of a certain age counts. -/
def weight (age : Int) : ℚ :=
  if age < 3600 then 4 else if age < 86400 then 2 else if age < 604800 then 1 / 2 else 1 / 4

/-- The exact score of an entry. -/
def FrecencyEntry.score (e : FrecencyEntry) (now : Int64) : ℚ :=
  e.visits.toInt * weight (now.toInt - e.lastAccess.toInt)

theorem weight_pos (age : Int) : 0 < weight age := by
  unfold weight
  split_ifs <;> norm_num

theorem weight_anti {age age' : Int} (h : age ≤ age') : weight age' ≤ weight age := by
  unfold weight
  split_ifs <;> first | omega | norm_num

theorem weight_le (age : Int) : weight age ≤ 4 := by
  unfold weight
  split_ifs <;> norm_num

/-- The directory has been visited, and the number of visits is exact as a double. -/
structure Counted (e : FrecencyEntry) : Prop where
  pos   : 0 < e.visits.toInt
  exact : e.visits.toInt < 2 ^ 53

namespace Counted

variable {e : FrecencyEntry}

/-- The score is exact, since the ages are compared with small numbers. -/
theorem score_eq (h : Counted e) (now : Int64) :
    scoreOf e.visits e.lastAccess now = e.score now := by
  have hpos := h.pos
  have hexact := h.exact
  have hvisits : toDouble e.visits.toInt = e.visits.toInt := toDouble_of_lt (by omega)
  unfold scoreOf FrecencyEntry.score weight difftime
  simp only [toDouble_lt_iff (t := 3600) (by decide) (by decide),
    toDouble_lt_iff (t := 86400) (by decide) (by decide),
    toDouble_lt_iff (t := 604800) (by decide) (by decide), hvisits]

theorem score_pos (h : Counted e) (now : Int64) : 0 < e.score now := by
  have hvisits : (0 : ℚ) < e.visits.toInt := by exact_mod_cast h.pos
  exact mul_pos hvisits (weight_pos _)

end Counted

/-- A score grows with the number of visits and with the weight of the last one. -/
theorem score_le_score {e e' : FrecencyEntry} (h : Counted e)
    (hvisits : e.visits.toInt ≤ e'.visits.toInt) {now : Int64}
    (hweight : weight (now.toInt - e.lastAccess.toInt) ≤ weight (now.toInt - e'.lastAccess.toInt)) :
    e.score now ≤ e'.score now := by
  have hpos : (0 : ℚ) < e.visits.toInt := by exact_mod_cast h.pos
  have hcast : (e.visits.toInt : ℚ) ≤ e'.visits.toInt := by exact_mod_cast hvisits
  exact mul_le_mul hcast hweight (le_of_lt (weight_pos _)) (le_trans (le_of_lt hpos) hcast)

/-! ## The search -/

/-- The entries that are considered. -/
def Candidate (isDir : Str → Bool) (name : Str) (e : FrecencyEntry) : Prop :=
  name <:+: e.path ∧ isDir e.path = true

section Search

variable (isDir : Str → Bool) (now : Int64) (name : Str)

instance (e : FrecencyEntry) : Decidable (Candidate isDir name e) :=
  inferInstanceAs (Decidable (_ ∧ _))

/-- The score of an entry that is considered. -/
def candidateScore (e : FrecencyEntry) : Option ℚ :=
  if Candidate isDir name e then some (e.score now) else none

variable {isDir now name}

theorem mem_candidateScore {e : FrecencyEntry} {v : ℚ} :
    v ∈ candidateScore isDir now name e ↔ Candidate isDir name e ∧ v = e.score now := by
  unfold candidateScore
  split <;> simp_all [eq_comm]

variable (isDir now name) in
/-- The loop behind the entries `done`: it has found nothing yet, or the best of them. -/
inductive Found : List FrecencyEntry → Option FrecencyEntry → ℚ → Prop
  | nothing {done : List FrecencyEntry} (h : ∀ e ∈ done, ¬ Candidate isDir name e) :
      Found done none (-1)
  | best {done : List FrecencyEntry} {e : FrecencyEntry} {s : ℚ}
      (h : IsFirstMax (candidateScore isDir now name) done e s) : Found done (some e) s

namespace Found

variable {done : List FrecencyEntry} {best : Option FrecencyEntry} {bestScore : ℚ}
    {e : FrecencyEntry}

theorem skip (h : Found isDir now name done best bestScore) (he : ¬ Candidate isDir name e) :
    Found isDir now name (done ++ [e]) best bestScore := by
  cases h with
  | nothing h =>
    refine .nothing fun d hd => ?_
    rcases List.mem_append.mp hd with hd | hd
    · exact h d hd
    · rw [List.mem_singleton.mp hd]
      exact he
  | best h => exact .best (h.concat_of_le fun v hv => absurd (mem_candidateScore.mp hv).1 he)

theorem keep (h : Found isDir now name done best bestScore) (hcounted : Counted e)
    (hle : e.score now ≤ bestScore) : Found isDir now name (done ++ [e]) best bestScore := by
  cases h with
  | nothing h =>
    -- no score is as low as the first one
    have hpos := hcounted.score_pos now
    linarith
  | best h =>
    refine .best (h.concat_of_le fun v hv => ?_)
    rw [(mem_candidateScore.mp hv).2]
    exact hle

theorem take (h : Found isDir now name done best bestScore) (he : Candidate isDir name e)
    (hlt : bestScore < e.score now) :
    Found isDir now name (done ++ [e]) (some e) (e.score now) := by
  refine .best (IsFirstMax.of_lt_concat (fun d hd v hv => ?_) (mem_candidateScore.mpr ⟨he, rfl⟩))
  cases h with
  | nothing h => exact absurd (mem_candidateScore.mp hv).1 (h d hd)
  | best h => exact lt_of_le_of_lt (h.le hd hv) hlt

end Found

/-- The whole loop. -/
theorem lookupLoop_found {entries : List FrecencyEntry} (hcounted : ∀ e ∈ entries, Counted e)
    {done : List FrecencyEntry} {best : Option FrecencyEntry} {bestScore : ℚ}
    (h : Found isDir now name done best bestScore) :
    ∃ s, Found isDir now name (done ++ entries)
      (lookupLoop isDir now name entries best bestScore) s := by
  induction entries generalizing done best bestScore with
  | nil => exact ⟨bestScore, by rwa [List.append_nil]⟩
  | cons e entries ih =>
    obtain ⟨he, hrest⟩ := List.forall_mem_cons.mp hcounted
    have hdone : done ++ e :: entries = done ++ [e] ++ entries := by simp
    rw [lookupLoop, hdone, he.score_eq]
    by_cases hname : name <:+: e.path
    · rw [if_neg (not_not_intro hname)]
      by_cases hdir : isDir e.path = true
      · rw [if_neg (not_not_intro hdir)]
        dsimp only
        split
        · next hlt => exact ih hrest (h.take ⟨hname, hdir⟩ hlt)
        · next hge => exact ih hrest (h.keep he (le_of_not_gt hge))
      · rw [if_pos hdir]
        exact ih hrest (h.skip fun hc => hdir hc.2)
    · rw [if_pos hname]
      exact ih hrest (h.skip fun hc => hname hc.1)

variable {db : Option Str}

/-- The search finds the first of the best entries. -/
theorem frecencyLookup_cases (hdb : ∀ e ∈ loadEntries db, Counted e) :
    (frecencyLookup isDir db now name = none ∧ ∀ e ∈ loadEntries db, ¬ Candidate isDir name e) ∨
      ∃ e s, frecencyLookup isDir db now name = some e.path ∧
        IsFirstMax (candidateScore isDir now name) (loadEntries db) e s := by
  have hstart : Found isDir now name [] none (-1) := .nothing (by simp)
  obtain ⟨s, hfound⟩ := lookupLoop_found hdb hstart
  rw [List.nil_append] at hfound
  unfold frecencyLookup
  generalize lookupLoop isDir now name (loadEntries db) none (-1) = best at hfound ⊢
  cases hfound with
  | nothing h => exact .inl ⟨rfl, h⟩
  | best h =>
    refine .inr ⟨_, s, ?_, h⟩
    have hshort := ((loadEntries_storable db).2 _ h.mem).short
    exact congrArg some (List.take_of_length_le (Nat.le_pred_of_lt hshort))

end Search

/-! ## Another visit -/

/-- The entry behind another visit. -/
def FrecencyEntry.visited (e : FrecencyEntry) (now : Int64) : FrecencyEntry :=
  { e with visits := e.visits + 1, lastAccess := now }

theorem Counted.visited {e : FrecencyEntry} (h : Counted e) (now : Int64) :
    (e.visited now).visits.toInt = e.visits.toInt + 1 := by
  have hpos := h.pos
  have hexact := h.exact
  show (e.visits + 1).toInt = _
  rw [Int64.toInt_add, Int64.toInt_one]
  exact Int.bmod_eq_of_le (by omega) (by omega)

theorem forall_mem_replace {P : FrecencyEntry → Prop} {u v : List FrecencyEntry}
    {e e' : FrecencyEntry} (h : ∀ d ∈ u ++ e :: v, P d) (he' : P e') : ∀ d ∈ u ++ e' :: v, P d := by
  intro d hd
  rcases List.mem_append.mp hd with hd | hd
  · exact h d (by simp [hd])
  · rcases List.mem_cons.mp hd with rfl | hd
    · exact he'
    · exact h d (by simp [hd])

section Visited

variable {db : Option Str} {p : Str} {e : FrecencyEntry}

/-- A visit to a directory that has an entry changes the first one, and nothing else. -/
theorem loadEntries_recordVisit (h : (loadEntries db).find? (·.path = p) = some e) (now : Int64) :
    ∃ u v, loadEntries db = u ++ e :: v ∧ e.path = p ∧ (∀ d ∈ u, d.path ≠ p) ∧
      loadEntries (recordVisit db p now) = u ++ e.visited now :: v := by
  obtain ⟨hlength, hstorable⟩ := loadEntries_storable db
  obtain ⟨hpath, u, v, hentries, hu⟩ := List.find?_eq_some_iff_append.mp h
  have hpath : e.path = p := of_decide_eq_true hpath
  have hu : ∀ d ∈ u, d.path ≠ p := fun d hd => by simpa using hu d hd
  refine ⟨u, v, hentries, hpath, hu, ?_⟩
  rw [hentries] at hlength hstorable
  have hvisit : visit (loadEntries db) p now = u ++ e.visited now :: v := by
    have hfind : (u ++ e :: v).findIdx? (fun d => decide (d.path = p)) = some u.length := by
      have hnone : u.findIdx? (fun d => decide (d.path = p)) = none := by
        rw [List.findIdx?_eq_none_iff]
        intro d hd
        simpa using hu d hd
      rw [List.findIdx?_append, hnone, List.findIdx?_cons, if_pos (by simpa using hpath)]
      simp
    rw [visit, hentries, hfind]
    dsimp only
    rw [List.modify_eq_take_cons_drop (by simp)]
    simp [FrecencyEntry.visited]
  rw [recordVisit, hvisit]
  exact loadEntries_saveEntries (by simpa using hlength)
    (forall_mem_replace hstorable (hstorable e (by simp)))

/-- Later on, the score of the entry is not lower than it would have been. -/
theorem Counted.score_le_visited (h : Counted e) {t : Int64} (ht : e.lastAccess ≤ t) (now : Int64) :
    e.score now ≤ (e.visited t).score now := by
  have hvisited := h.visited t
  have hlast : e.lastAccess.toInt ≤ t.toInt := Int64.le_iff_toInt_le.mp ht
  apply score_le_score h (by omega)
  apply weight_anti
  show now.toInt - t.toInt ≤ now.toInt - e.lastAccess.toInt
  omega

/-- At the time of the visit this is so even if the last one seems to be in the future. -/
theorem Counted.score_le_visited_now (h : Counted e) (now : Int64) :
    e.score now ≤ (e.visited now).score now := by
  have hvisited := h.visited now
  apply score_le_score h (by omega)
  have hnow : weight (now.toInt - (e.visited now).lastAccess.toInt) = 4 := by
    show weight (now.toInt - now.toInt) = 4
    rw [Int.sub_self]
    rfl
  rw [hnow]
  exact weight_le _

variable {isDir : Str → Bool} {now : Int64} {name : Str}

/-- What is found is found again when the visit to it has been recorded. -/
theorem frecencyLookup_recordVisit
    (hdb : ∀ e ∈ loadEntries db, Counted e ∧ e.visits.toInt + 1 < 2 ^ 53)
    (h : frecencyLookup isDir db now name = some p) :
    frecencyLookup isDir (recordVisit db p now) now name = some p := by
  obtain ⟨e, s, hlookup, hmax⟩ :=
    (frecencyLookup_cases (fun e he => (hdb e he).1)).resolve_left
      fun hnone => by rw [hnone.1] at h; cases h
  obtain rfl : e.path = p := Option.some.inj (hlookup.symm.trans h)
  -- the entry that is counted up may be an earlier one for the same directory
  have hfind : ((loadEntries db).find? (·.path = e.path)).isSome :=
    List.find?_isSome.mpr ⟨e, hmax.mem, by simp⟩
  obtain ⟨x, hx⟩ := Option.isSome_iff_exists.mp hfind
  obtain ⟨u, v, hentries, hpath, hu, hload⟩ := loadEntries_recordVisit hx now
  have hxdb := hdb x (by rw [hentries]; simp)
  have hcandidate : Candidate isDir name (x.visited now) := by
    have he := (mem_candidateScore.mp hmax.value).1
    show name <:+: x.path ∧ isDir x.path = true
    rw [hpath]
    exact he
  have hvisited : Counted (x.visited now) := by
    have hsucc := hxdb.1.visited now
    have hpos := hxdb.1.pos
    exact ⟨by omega, by omega⟩
  have hdb' : ∀ d ∈ loadEntries (recordVisit db e.path now), Counted d := by
    rw [hload]
    exact forall_mem_replace (fun d hd => (hdb d (hentries ▸ hd)).1) hvisited
  have hraise : ∀ w ∈ candidateScore isDir now name x, w ≤ (x.visited now).score now := by
    intro w hw
    rw [(mem_candidateScore.mp hw).2]
    exact hxdb.1.score_le_visited_now now
  rw [hentries] at hmax
  have hbest :=
    hmax.raise (fun hmem => hu e hmem rfl) (mem_candidateScore.mpr ⟨hcandidate, rfl⟩) hraise
  rw [← hload] at hbest
  rcases frecencyLookup_cases hdb' with ⟨-, hnot⟩ | ⟨e', s', hlookup', hmax'⟩
  · exact absurd hcandidate (hnot _ (by rw [hload]; simp))
  · rw [hlookup']
    rcases hbest with hbest | hbest
    · rw [hmax'.unique hbest]
      exact congrArg some hpath
    · rw [hmax'.unique hbest]

end Visited

/-- **The search is right and stable.** For a database with numbers of visits that occur, it fails
if and only if no entry is considered. Otherwise it finds the first of those with the highest score,
and it finds the same directory when the visit to it has been recorded. And whenever a visit is
recorded, not before the last one, the score of the entry is at no later time lower than it would
have been. -/
theorem frecencyLookup_correct {db : Option Str}
    (hdb : ∀ e ∈ loadEntries db, 0 < e.visits.toInt ∧ e.visits.toInt < 2 ^ 50)
    (isDir : Str → Bool) (now : Int64) (name : Str) :
    (frecencyLookup isDir db now name = none ↔ ∀ e ∈ loadEntries db, ¬ Candidate isDir name e) ∧
    (∀ p, frecencyLookup isDir db now name = some p →
      (∃ before e after, loadEntries db = before ++ e :: after ∧ e.path = p ∧
        Candidate isDir name e ∧
        (∀ d ∈ before, Candidate isDir name d → d.score now < e.score now) ∧
        ∀ d ∈ after, Candidate isDir name d → d.score now ≤ e.score now) ∧
      frecencyLookup isDir (recordVisit db p now) now name = some p) ∧
    ∀ p e t, (loadEntries db).find? (·.path = p) = some e → e.lastAccess ≤ t →
      ∃ e', (loadEntries (recordVisit db p t)).find? (·.path = p) = some e' ∧
        ∀ t', t ≤ t' → scoreOf e.visits e.lastAccess t' ≤ scoreOf e'.visits e'.lastAccess t' := by
  have hcounted : ∀ e ∈ loadEntries db, Counted e := by
    intro e he
    obtain ⟨hpos, hmax⟩ := hdb e he
    exact ⟨hpos, by omega⟩
  refine ⟨?_, ?_, ?_⟩
  · rcases @frecencyLookup_cases isDir now name db hcounted with ⟨hnone, hnot⟩ | ⟨e, s, hsome, hmax⟩
    · exact iff_of_true hnone hnot
    · rw [hsome]
      refine iff_of_false (by simp) fun hnot => ?_
      exact hnot e hmax.mem (mem_candidateScore.mp hmax.value).1
  · intro p hp
    refine ⟨?_, frecencyLookup_recordVisit (fun e he => ⟨hcounted e he, ?_⟩) hp⟩
    · obtain ⟨e, s, hlookup, before, after, hentries, hvalue, hbefore, hafter⟩ :=
        (frecencyLookup_cases hcounted).resolve_left fun hnone => by rw [hnone.1] at hp; cases hp
      obtain ⟨hcandidate, rfl⟩ := mem_candidateScore.mp hvalue
      refine ⟨before, e, after, hentries, Option.some.inj (hlookup.symm.trans hp),
        hcandidate, ?_, ?_⟩
      · exact fun d hd hc => hbefore d hd _ (mem_candidateScore.mpr ⟨hc, rfl⟩)
      · exact fun d hd hc => hafter d hd _ (mem_candidateScore.mpr ⟨hc, rfl⟩)
    · obtain ⟨-, hmax⟩ := hdb e he
      omega
  · intro p e t hfind ht
    have he := List.mem_of_find?_eq_some hfind
    obtain ⟨u, v, -, hpath, hu, hload⟩ := loadEntries_recordVisit hfind t
    have hvisited : Counted (e.visited t) := by
      have hsucc := (hcounted e he).visited t
      obtain ⟨hpos, hmax⟩ := hdb e he
      exact ⟨by omega, by omega⟩
    refine ⟨e.visited t, ?_, fun t' _ => ?_⟩
    · rw [hload, List.find?_eq_some_iff_append]
      exact ⟨decide_eq_true hpath, u, v, rfl, fun d hd => by simpa using hu d hd⟩
    · rw [(hcounted e he).score_eq, hvisited.score_eq]
      exact (hcounted e he).score_le_visited ht t'

/-- Two directories of the same name. -/
def srcDb : Option Str := some "2 100 /a/src\n3 90 /b/src\n".toList

theorem frecencyLookup_src :
    frecencyLookup (fun _ => true) srcDb 120 "src".toList = some "/b/src".toList ∧
      frecencyLookup (fun _ => true) (recordVisit srcDb "/b/src".toList 120) 120 "src".toList =
        some "/b/src".toList := by
  have hlookup : frecencyLookup (fun _ => true) srcDb 120 "src".toList = some "/b/src".toList := by
    decide +kernel
  have hdb : ∀ e ∈ loadEntries srcDb, 0 < e.visits.toInt ∧ e.visits.toInt < 2 ^ 50 := by
    decide +kernel
  exact ⟨hlookup, ((frecencyLookup_correct hdb (fun _ => true) 120 "src".toList).2.1 _ hlookup).2⟩

/-! ## The command -/

/-- `hop` to a directory that the search has found: the visit is recorded, and the next `hop` with
the same argument would lead there again. -/
theorem hopOne_found {env : HopEnv} {isDir : Str → Bool}
    (henv : env.lookup = frecencyLookup isDir) {now : Int64} {s : HopState} {arg p : Str}
    (hdb : ∀ e ∈ loadEntries s.db, Counted e ∧ e.visits.toInt + 1 < 2 ^ 53)
    (harg : arg ∉ [".".toList, "~".toList, "..".toList, "-".toList])
    (hresolve : env.resolve s.world.cwd arg = none) (hfound : env.lookup s.db now arg = some p)
    (hchdir : env.chdir s.world.cwd p = some p) :
    (hopOne env now s arg).1.world.cwd = p ∧
      env.lookup (hopOne env now s arg).1.db now arg = some p := by
  simp only [List.mem_cons, List.not_mem_nil, or_false, not_or] at harg
  obtain ⟨hdot, htilde, hdotdot, hdash⟩ := harg
  have hhop : hopOne env now s arg = doChdir env now s p := by
    rw [hopOne, if_neg hdot, if_neg htilde, if_neg hdotdot, if_neg hdash, hresolve]
    dsimp only
    rw [hfound]
  rw [henv] at hfound ⊢
  have hshort : p.length < pathMax := by
    rcases @frecencyLookup_cases isDir now arg s.db fun e he => (hdb e he).1 with ⟨hnone, -⟩ |
      ⟨e, best, hsome, hmax⟩
    · rw [hnone] at hfound
      cases hfound
    · obtain rfl : e.path = p := Option.some.inj (hsome.symm.trans hfound)
      exact ((loadEntries_storable s.db).2 e hmax.mem).short
  have hcwd : getcwd p = some p := if_pos hshort
  rw [hhop, doChdir, hchdir]
  refine ⟨rfl, ?_⟩
  dsimp only
  rw [hcwd]
  exact frecencyLookup_recordVisit hdb hfound

end UnixCShell
