import UnixCShell.Hop.Run
import UnixCShell.Lib.Paths

/-!
# The prompt

`prompt.c`. The directory in which the shell is started is its home; `display_prompt` shows the
working directory, and writes `~` for the home directory. Which paths begin at the home directory is
decided on their texts.

On the level of names a directory is the sequence of names that lead to it from the root
(`NormPath`), and the home subtree are the sequences that continue that of the home directory. The
two agree unless the home directory is the root, whose text ends in a `/` already
(`prompt_exact_iff`).
-/

namespace UnixCShell

open Lib

/-- `snprintf` into a buffer of the given size. -/
def snprintf (size : Nat) (text : Str) : Str := text.take (size - 1)

/-- `init_homedir`; where `getcwd` fails the shell exits. -/
def initHomedir (w : World) : Option Str := getcwd w.cwd

namespace Prompt

/-- The text that `display_prompt` prints into `path`. -/
def pathText (home cwd : Str) : Str :=
  if cwd = home then "~".toList
  else if cwd.take home.length = home ∧ cwd[home.length]? = some '/' then
    '~' :: cwd.drop home.length
  else cwd

/-- `path`. -/
def path (home cwd : Str) : Str := snprintf pathMax (pathText home cwd)

/-- The prompt. -/
def text (username hostname path : Str) : Str :=
  '<' :: username ++ '@' :: hostname ++ ':' :: path ++ "> ".toList

end Prompt

/-- `display_prompt`; `pw` and `name` are the answers of `getpwuid` and `gethostname`. (`perror`
also prints the reason.) -/
def displayPrompt (home : Str) (pw name : Option Str) (w : World) : World :=
  let username := pw.getD "not_found".toList
  let hostname := name.getD "not_found".toList
  match getcwd w.cwd with
  | none => w.eprint "getcwd failed\n".toList
  | some cwd => w.print (Prompt.text username hostname (Prompt.path home cwd))

/-! ## Directories -/

/-- An absolute normalised path. -/
structure NormPath where
  names    : List Str
  nonempty : ∀ n ∈ names, n ≠ []
  slash    : Names '/' names
  nul      : ∀ n ∈ names, nul ∉ n
  dots     : ∀ n ∈ names, n ≠ ".".toList ∧ n ≠ "..".toList

namespace NormPath

/-- The text of a path; the root is `/`. -/
def text (p : NormPath) : Str := if p.names = [] then "/".toList else below '/' p.names

variable {p q : NormPath}

theorem ext (h : p.names = q.names) : p = q := by
  cases p
  cases q
  cases h
  rfl

theorem text_of_root (h : p.names = []) : p.text = "/".toList := if_pos h

theorem text_of_ne_root (h : p.names ≠ []) : p.text = below '/' p.names := if_neg h

theorem head?_text (p : NormPath) : p.text.head? = some '/' := by
  unfold text
  split
  · rfl
  · next h =>
    obtain ⟨n, ns, hnames⟩ := List.exists_cons_of_ne_nil h
    rw [hnames, below_cons, List.head?_cons]

/-- Only the root has a text that ends in a separator. -/
theorem root_of_below (h : below '/' p.names = "/".toList) : p.names = [] := by
  cases hnames : p.names with
  | nil => rfl
  | cons n ns =>
    rw [hnames, below_cons] at h
    have hn : n = [] := (List.append_eq_nil_iff.mp (List.cons.inj h).2).1
    exact absurd hn (p.nonempty n (by rw [hnames]; exact List.mem_cons_self))

theorem text_inj (h : p.text = q.text) : p = q := by
  apply ext
  by_cases hp : p.names = []
  · by_cases hq : q.names = []
    · rw [hp, hq]
    · rw [text_of_root hp, text_of_ne_root hq] at h
      exact absurd (root_of_below h.symm) hq
  · by_cases hq : q.names = []
    · rw [text_of_ne_root hp, text_of_root hq] at h
      exact absurd (root_of_below h) hp
    · rw [text_of_ne_root hp, text_of_ne_root hq] at h
      exact below_inj p.slash q.slash h

theorem text_append {rest : List Str} (hp : p.names ≠ []) (hq : q.names = p.names ++ rest) :
    q.text = p.text ++ below '/' rest := by
  have hne : q.names ≠ [] := by
    rw [hq]
    exact List.append_ne_nil_of_left_ne_nil hp _
  rw [text_of_ne_root hne, text_of_ne_root hp, hq, below_append]

/-- A text that goes on at a separator goes on with names, unless it is that of the root. -/
theorem exists_names_of_text {s : Str} (h : q.text = p.text ++ '/' :: s) :
    p.names ≠ [] ∧ ∃ rest, rest ≠ [] ∧ q.names = p.names ++ rest ∧ '/' :: s = below '/' rest := by
  have hq : q.names ≠ [] := by
    intro hq
    rw [text_of_root hq] at h
    have hlength := congrArg List.length h
    have hpos : 0 < p.text.length := List.length_pos_of_mem (List.mem_of_mem_head? p.head?_text)
    simp only [List.length_append, List.length_cons] at hlength
    have : "/".toList.length = 1 := rfl
    omega
  rw [text_of_ne_root hq] at h
  have hp : p.names ≠ [] := by
    intro hp
    obtain ⟨n, ns, hnames⟩ := List.exists_cons_of_ne_nil hq
    have hmem : n ∈ q.names := by simp [hnames]
    rw [text_of_root hp, hnames, below_cons] at h
    obtain ⟨c, n', rfl⟩ := List.exists_cons_of_ne_nil (q.nonempty n hmem)
    have hc : c = '/' := (List.cons.inj (List.cons.inj h).2).1
    exact q.slash _ hmem (by simp [hc])
  rw [text_of_ne_root hp] at h
  obtain ⟨rest, hrest, hs⟩ := below_append_eq p.slash q.slash (.inr rfl) h.symm
  refine ⟨hp, rest, ?_, hrest, hs⟩
  rintro rfl
  cases hs

end NormPath

/-! ## What is shown -/

namespace Prompt

variable {home cwd : NormPath}

/-- The three ways to show a directory. -/
inductive Shows (home cwd : NormPath) : Str → Prop where
  | home : cwd = home → Shows home cwd "~".toList
  | below (rest : List Str) : home.names ≠ [] → rest ≠ [] → cwd.names = home.names ++ rest →
      Shows home cwd ('~' :: below '/' rest)
  | whole : cwd ≠ home → (home.names ≠ [] → ¬ home.names <+: cwd.names) → Shows home cwd cwd.text

theorem shows_pathText (home cwd : NormPath) : Shows home cwd (pathText home.text cwd.text) := by
  unfold pathText
  split
  · next heq => exact .home (NormPath.text_inj heq)
  · next hne =>
    have hdiff : cwd ≠ home := fun heq => hne (heq ▸ rfl)
    split
    · next hcond =>
      obtain ⟨htake, hsep⟩ := hcond
      obtain ⟨hlt, hget⟩ := List.getElem?_eq_some_iff.mp hsep
      have hdrop : cwd.text.drop home.text.length =
          '/' :: cwd.text.drop (home.text.length + 1) := by
        rw [List.drop_eq_getElem_cons hlt, hget]
      have htext : cwd.text = home.text ++ '/' :: cwd.text.drop (home.text.length + 1) := by
        have hsplit := List.take_append_drop home.text.length cwd.text
        rw [htake, hdrop] at hsplit
        exact hsplit.symm
      obtain ⟨hroot, rest, hrest, hnames, hbelow⟩ := NormPath.exists_names_of_text htext
      rw [hdrop, hbelow]
      exact .below rest hroot hrest hnames
    · next hcond =>
      refine .whole hdiff fun hroot hpre => hcond ?_
      obtain ⟨rest, hrest⟩ := hpre
      have htext := NormPath.text_append hroot hrest.symm
      cases rest with
      | nil => exact absurd (NormPath.ext (by rw [← hrest, List.append_nil])) hdiff
      | cons n ns =>
        rw [htext, below_cons]
        simp

/-- A leading `~` stands for the home directory. -/
def expand (home : Str) : Str → Str
  | '~' :: rest => home ++ rest
  | shown => shown

theorem Shows.length_le {shown : Str} (h : Shows home cwd shown) :
    shown.length ≤ cwd.text.length := by
  have hpos : ∀ p : NormPath, 0 < p.text.length := fun p =>
    List.length_pos_of_mem (List.mem_of_mem_head? p.head?_text)
  cases h with
  | home => exact hpos cwd
  | below rest hroot hrest hnames =>
    have := hpos home
    rw [NormPath.text_append hroot hnames, List.length_append, List.length_cons]
    omega
  | whole => exact le_rfl

theorem Shows.expand {shown : Str} (h : Shows home cwd shown) :
    expand home.text shown = cwd.text := by
  cases h with
  | home heq =>
    rw [heq]
    exact List.append_nil _
  | below rest hroot hrest hnames => exact (NormPath.text_append hroot hnames).symm
  | whole =>
    have hhead := cwd.head?_text
    unfold Prompt.expand
    split
    · next heq =>
      rw [heq] at hhead
      cases hhead
    · rfl

/-- Distinct directories are shown differently. -/
theorem Shows.unique {cwd' : NormPath} {shown : Str} (h : Shows home cwd shown)
    (h' : Shows home cwd' shown) :
    cwd = cwd' :=
  NormPath.text_inj (h.expand.symm.trans h'.expand)

theorem Shows.head?_iff {shown : Str} (h : Shows home cwd shown) :
    (shown.head? = some '~' ↔ home.names <+: cwd.names) ↔ (home.names = [] → cwd.names = []) := by
  cases h with
  | home heq => simp [heq]
  | below rest hroot hrest hnames => simp [hroot, hnames]
  | whole hne hout =>
    rw [cwd.head?_text]
    by_cases hroot : home.names = []
    · have hcwd : cwd.names ≠ [] := fun heq => hne (NormPath.ext (heq.trans hroot.symm))
      simp [hroot, hcwd]
    · simp [hroot, hout hroot]

/-- The prompt shows the directory `cwd` as it should. -/
structure Exact (home cwd : NormPath) : Prop where
  /-- There is a `~` in front of the directories of the home subtree only. -/
  tilde   : (path home.text cwd.text).head? = some '~' ↔ home.names <+: cwd.names
  expands : expand home.text (path home.text cwd.text) = cwd.text
  /-- Nothing has been cut off. -/
  whole   : path home.text cwd.text = pathText home.text cwd.text
  unique  : ∀ cwd' : NormPath, cwd'.text.length < pathMax →
    path home.text cwd'.text = path home.text cwd.text → cwd' = cwd

theorem path_eq_pathText (home : NormPath) {cwd : NormPath} (hcwd : cwd.text.length < pathMax) :
    path home.text cwd.text = pathText home.text cwd.text := by
  have hle := (shows_pathText home cwd).length_le
  exact List.take_of_length_le (by omega)

theorem shows_path (home : NormPath) {cwd : NormPath} (hcwd : cwd.text.length < pathMax) :
    Shows home cwd (path home.text cwd.text) := by
  rw [path_eq_pathText home hcwd]
  exact shows_pathText home cwd

/-- **The prompt.** It shows a path, and that path is exact unless the home directory is the root
and the working directory is another one. -/
theorem prompt_exact_iff {w₀ w : World} {home cwd : NormPath} {shellHome : Str}
    (hhome : w₀.cwd = home.text) (hinit : initHomedir w₀ = some shellHome) (hcwd : w.cwd = cwd.text)
    (hlength : cwd.text.length < pathMax) (pw name : Option Str) :
    displayPrompt shellHome pw name w =
        w.print (text (pw.getD "not_found".toList) (name.getD "not_found".toList)
          (path home.text cwd.text)) ∧
      (Exact home cwd ↔ (home.names = [] → cwd.names = [])) := by
  have hshell : shellHome = home.text := by
    unfold initHomedir getcwd at hinit
    split at hinit
    · cases hinit
      exact hhome
    · cases hinit
  have hshows := shows_path home hlength
  refine ⟨?_, ?_⟩
  · have hgetcwd : getcwd w.cwd = some cwd.text := by
      rw [hcwd]
      exact if_pos hlength
    simp only [displayPrompt, hgetcwd, hshell]
  · rw [← hshows.head?_iff]
    constructor
    · exact fun hexact => hexact.tilde
    · intro htilde
      refine ⟨htilde, hshows.expand, path_eq_pathText home hlength, fun cwd' hlength' heq => ?_⟩
      have hshows' := shows_path home hlength'
      rw [heq] at hshows'
      exact hshows'.unique hshows

/-- The root. -/
def root : NormPath where
  names := []
  nonempty := by simp
  slash := by simp [Names]
  nul := by simp
  dots := by simp

/-- A directory with a name of one letter in the root, and one in that. -/
def inRoot : NormPath where
  names := ["a".toList]
  nonempty := by decide
  slash := by unfold Names; decide
  nul := by decide
  dots := by decide

def inHome : NormPath where
  names := ["a".toList, "b".toList]
  nonempty := by decide
  slash := by unfold Names; decide
  nul := by decide
  dots := by decide

/-- A shell in the directory `cwd`. -/
def inDir (cwd : Str) : World := { World.init with cwd := cwd }

/-- A shell that was started in `/a` is in `/a/b`. -/
theorem prompt_exact_inHome :
    displayPrompt "/a".toList (some "u".toList) (some "h".toList) (inDir "/a/b".toList) =
        (inDir "/a/b".toList).print "<u@h:~/b> ".toList ∧
      Exact inRoot inHome := by
  have hinit : initHomedir (inDir "/a".toList) = some "/a".toList := by decide
  have hhome : (inDir "/a".toList).cwd = inRoot.text := by decide
  have hcwd : (inDir "/a/b".toList).cwd = inHome.text := by decide
  obtain ⟨hprint, hexact⟩ := prompt_exact_iff hhome hinit hcwd (by decide) (some "u".toList)
    (some "h".toList)
  exact ⟨hprint, hexact.mpr (by decide)⟩

/-- A shell that was started in `/` is in `/a`, which lies below its home directory. -/
theorem prompt_root :
    displayPrompt "/".toList (some "u".toList) (some "h".toList) (inDir "/a".toList) =
        (inDir "/a".toList).print "<u@h:/a> ".toList ∧
      root.text = "/".toList ∧ inRoot.text = "/a".toList ∧ root.names <+: inRoot.names ∧
        ¬ Exact root inRoot := by
  refine ⟨rfl, rfl, rfl, List.nil_prefix, fun hexact => ?_⟩
  have hhead := hexact.tilde.mpr List.nil_prefix
  exact absurd hhead (by decide)

end Prompt

end UnixCShell
