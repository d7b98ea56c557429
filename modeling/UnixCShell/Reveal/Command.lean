import UnixCShell.Reveal.Traversal
import UnixCShell.Shell.Descriptors

/-!
# `reveal -t` from the command line

The flags may come in any number of words, with their letters in any combination: it matters only
whether there is an `a` or a `t` in one of them (`argLoop_flags`). With a `t` the text of the
traversal gets to the standard output (`runReveal_out`).
-/

namespace UnixCShell.Reveal

open Lib Forest

/-! ## The flags -/

/-- A word with flags. -/
structure IsFlags (value : Str) : Prop where
  dash    : value.head? = some '-'
  some    : 1 < value.length
  letters : ∀ c ∈ value.drop 1, c = 'a' ∨ c = 't'

theorem flagLoop_eq (args : Args) {cs : Str} (h : ∀ c ∈ cs, c = 'a' ∨ c = 't') :
    flagLoop args cs =
      some { args with flagA := args.flagA || 'a' ∈ cs, flagT := args.flagT || 't' ∈ cs } := by
  induction cs generalizing args with
  | nil => simp [flagLoop]
  | cons c cs ih =>
    obtain ⟨hc, hcs⟩ := List.forall_mem_cons.mp h
    rcases hc with rfl | rfl
    · rw [flagLoop, if_pos rfl, ih _ hcs]
      simp
    · rw [flagLoop, if_neg (by decide), if_pos rfl, ih _ hcs]
      simp

/-- The words with flags in front of the others. -/
theorem argLoop_flags {args : Args} (hseen : args.seenArg = false) {flags : List Str}
    (hflags : ∀ value ∈ flags, IsFlags value) (values : List Str) :
    argLoop args (flags ++ values) =
      argLoop { args with
        flagA := args.flagA || flags.any ('a' ∈ ·)
        flagT := args.flagT || flags.any ('t' ∈ ·) } values := by
  induction flags generalizing args with
  | nil => simp
  | cons value flags ih =>
    obtain ⟨hvalue, hflags⟩ := List.forall_mem_cons.mp hflags
    have hletter : ∀ c : Char, c ≠ '-' → (c ∈ value.tail ↔ c ∈ value) := by
      intro c hc
      obtain ⟨rest, rfl⟩ : ∃ rest, value = '-' :: rest := List.head?_eq_some_iff.mp hvalue.dash
      simp [hc]
    have hnot : ¬ args.seenArg = true := Bool.eq_false_iff.mp hseen
    rw [List.cons_append, argLoop, if_pos ⟨hvalue.dash, hvalue.some⟩, if_neg hnot,
      flagLoop_eq _ hvalue.letters,
      Option.bind_some]
    refine Eq.trans (ih ?_ hflags) ?_
    · exact hseen
    · simp [hletter, Bool.or_assoc]

/-! ## The output -/

/-- The text for an entry. -/
def rowText (r : Str × Bool) : Str := printEntryName r.1 ++ (if r.2 then "/\n" else "\n").toList

theorem out_printTo {w : World} (hout : w.fds.get 1 = some .output) (lines : List Line) :
    (lines.foldl Line.printTo w).out = w.out ++ (rows lines).flatMap rowText := by
  induction lines generalizing w with
  | nil => exact (List.append_nil _).symm
  | cons line lines ih =>
    cases line with
    | entry rel slash =>
      have hprint : (w.print (rowText (rel, slash))).out = w.out ++ rowText (rel, slash) := by
        simp only [World.print, hout]
      have hnext := @ih (w.print (rowText (rel, slash))) (by rw [World.print_fds]; exact hout)
      rw [hprint, List.append_assoc] at hnext
      exact hnext
    | noSuchDirectory => exact @ih (w.eprint "reveal: no such directory\n".toList) hout

/-- A path that is meant as it is. -/
structure IsPlain (path : Str) : Prop where
  notFlags : ¬ (path.head? = some '-' ∧ 1 < path.length)
  notHome  : path ≠ "~".toList
  notPrev  : path ≠ "-".toList

variable {fs : Fs} {path : Str} {flags : List Str} {t : Tree} {w : World}

/-- `reveal` with a `t` in its flags prints the text of the traversal. -/
theorem runReveal_out (home prev : Str) (hflags : ∀ value ∈ flags, IsFlags value)
    (ht : flags.any ('t' ∈ ·) = true) (hpath : IsPlain path) (hstat : fs.stat path = some .dir)
    (hout : w.fds.get 1 = some .output) (htree : IsTree t) (hlists : Lists fs path t)
    (hshows : Shows fs path t) (hfine : ∀ e ∈ t.walk (visible (flags.any ('a' ∈ ·))) [],
      Fine fs (flags.any ('a' ∈ ·)) path e) :
    ∃ fuel w', runReveal fs home prev fuel w (flags ++ [path]) = some w' ∧
      w'.out = w.out ++ ((t.walk (visible (flags.any ('a' ∈ ·))) []).map row).flatMap rowText := by
  obtain ⟨lines, ⟨fuel, hrun⟩, hrows⟩ := (exact_tree htree hlists hshows).iff.mpr hfine
  refine ⟨fuel, lines.foldl Line.printTo w, ?_, ?_⟩
  · have hargs : argLoop {} (flags ++ [path]) =
        some ⟨flags.any ('a' ∈ ·), true, some path, 1, true⟩ := by
      rw [argLoop_flags rfl hflags, argLoop, if_neg hpath.notFlags, argLoop, ht]
      simp
    have hpathOf : pathOf home prev (some path) = some path := by
      rw [pathOf, if_neg hpath.notHome, if_neg hpath.notPrev]
    simp only [runReveal, hargs, hpathOf, hstat, Nat.lt_irrefl, if_false, ne_eq, not_true_eq_false]
    rw [hrun]
    rfl
  · rw [out_printTo hout, hrows]

end UnixCShell.Reveal
