import UnixCShell.Lib.Forest
import UnixCShell.Reveal.Runs

/-!
# `reveal -t` walks through a tree

What `reveal -t` should print are the visible entries of the directory tree in lexicographic order
of their paths, which is the sorted traversal that lists a directory before its contents. It does as
long as the paths fit into its buffers (`reveal_dir_iff`).
-/

namespace UnixCShell.Reveal

open Lib Forest

/-! ## Directory trees -/

/-- What is in a directory; for what is not a directory itself the tree tells whether it is a
symbolic link. -/
abbrev Tree := Forest Str Bool

/-- A name in a directory. -/
structure ValidName (name : Str) : Prop where
  nonempty : name ≠ []
  slash    : '/' ∉ name
  dots     : name ≠ ".".toList ∧ name ≠ "..".toList

/-- The tree of a directory: the names are such names, and sorted. -/
structure IsTree (t : Tree) : Prop where
  sorted : t.Sorted
  valid  : ∀ path x, t.Has path x → ∀ n ∈ path, ValidName n

/-- `opendir` lists the directory at the path, in any order; it may fail if there is nothing in
it. -/
def Lists (fs : Fs) (path : Str) (t : Tree) : Prop :=
  match fs.opendir path with
  | none => t = .nil
  | some names => (names.filter fun n => n ≠ ".".toList && n ≠ "..".toList).Perm t.names

/-- The file system shows the tree in the directory at the path, as far as its paths are not too
long. -/
def Shows (fs : Fs) (path : Str) : Tree → Prop
  | .nil => True
  | .leaf name link rest =>
    ((path ++ '/' :: name).length < pathMax →
      fs.lstat (path ++ '/' :: name) = some (if link then .link else .other)) ∧ Shows fs path rest
  | .node name inside rest =>
    ((path ++ '/' :: name).length < pathMax →
      fs.lstat (path ++ '/' :: name) = some .dir ∧ Lists fs (path ++ '/' :: name) inside ∧
        Shows fs (path ++ '/' :: name) inside) ∧ Shows fs path rest

/-- The names that are shown with or without `-a`. -/
def visible (flagA : Bool) (name : Str) : Bool := flagA || name.head? ≠ some '.'

/-- The path of an entry, from `start` on. -/
def absOf (start : Str) (path : List Str) : Str := start ++ below '/' path

/-- The path of an entry relative to `start`. -/
def relOf (path : List Str) : Str := (below '/' path).tail

/-- The line for an entry: its relative path, and whether it is a directory. -/
def row (e : Entry Str Bool) : Str × Bool := (relOf e.path, e.inside.isSome)

/-- The lines that `reveal_dir` prints to the standard output. -/
def rows (lines : List Line) : List (Str × Bool) :=
  lines.filterMap fun
    | .entry rel slash => some (rel, slash)
    | .noSuchDirectory => none

/-! ## Trees and paths -/

variable {fs : Fs} {flagA : Bool} {start absPath rel name : Str} {front : List Str}
  {t inside rest : Tree} {link : Bool} {lines : List Line}

theorem absOf_concat (start : Str) (front : List Str) (name : Str) :
    absOf start (front ++ [name]) = absOf start front ++ '/' :: name := by
  simp [absOf]

theorem relOf_concat (h : ∀ n ∈ front, n ≠ []) (name : Str) :
    relOf (front ++ [name]) = if relOf front = [] then name else relOf front ++ '/' :: name := by
  cases front with
  | nil => simp [relOf]
  | cons n front =>
    have hne : relOf (n :: front) ≠ [] := by
      simp [relOf, h n List.mem_cons_self]
    rw [if_neg hne]
    simp [relOf]

theorem length_relOf_le (start : Str) (path : List Str) :
    (relOf path).length ≤ (absOf start path).length := by
  rw [relOf, absOf, List.length_tail, List.length_append]
  omega

/-- The relative path determines the entry. -/
theorem relOf_inj {path path' : List Str} (hne : path ≠ []) (hne' : path' ≠ [])
    (hnames : Names '/' path) (hnames' : Names '/' path') (h : relOf path = relOf path') :
    path = path' := by
  obtain ⟨n, ns, rfl⟩ := List.exists_cons_of_ne_nil hne
  obtain ⟨n', ns', rfl⟩ := List.exists_cons_of_ne_nil hne'
  have htext : below '/' (n :: ns) = below '/' (n' :: ns') := congrArg (List.cons '/') h
  exact below_inj hnames hnames' htext

/-- No line comes twice. -/
theorem nodup_map_row (htree : IsTree t) {es : List (Entry Str Bool)}
    (hes : IsTraversal (visible flagA) t es) :
    (es.map row).Nodup := by
  have hentry : ∀ e ∈ es, e.path ≠ [] ∧ Names '/' e.path := by
    intro e he
    have hhas := ((hes.mem_iff e).mp he).1
    obtain ⟨n, path, hpath, -⟩ := hhas.exists_cons
    refine ⟨?_, fun n hn => (htree.valid _ _ hhas n hn).slash⟩
    rw [hpath]
    exact List.cons_ne_nil n path
  refine List.pairwise_map.mpr (hes.pairwise.imp_of_mem fun {e e'} he he' hlt heq => ?_)
  obtain ⟨hne, hnames⟩ := hentry e he
  obtain ⟨hne', hnames'⟩ := hentry e' he'
  have hpath := relOf_inj hne hne' hnames hnames' (congrArg Prod.fst heq)
  rw [hpath] at hlt
  exact lt_irrefl _ hlt

theorem childAbs_absOf (start : Str) (front : List Str) (name : Str) :
    childAbs (absOf start front) name = snprintf pathMax (absOf start (front ++ [name])) := by
  rw [absOf_concat]
  rfl

theorem childRel_relOf (h : ∀ n ∈ front, n ≠ []) (name : Str) :
    childRel (relOf front) name = snprintf pathMax (relOf (front ++ [name])) := by
  rw [relOf_concat h]
  rfl

theorem IsTree.of_leaf (h : IsTree (.leaf name link rest)) : ValidName name ∧ IsTree rest :=
  ⟨h.valid _ _ .leaf name List.mem_cons_self, h.sorted.2,
    fun path x hhas => h.valid path x (.afterLeaf hhas)⟩

theorem IsTree.of_node (h : IsTree (.node name inside rest)) :
    ValidName name ∧ IsTree inside ∧ IsTree rest := by
  refine ⟨h.valid _ _ .node name List.mem_cons_self, ⟨h.sorted.2.1, fun path x hhas => ?_⟩,
    h.sorted.2.2, fun path x hhas => h.valid path x (.afterNode hhas)⟩
  exact (List.forall_mem_cons.mp (h.valid _ _ (.within hhas))).2

/-- The visible names, in their order. -/
theorem readSortedEntries_of_lists (flagA : Bool) (h : IsTree t) (hlists : Lists fs absPath t) :
    readSortedEntries fs flagA absPath = none ∧ t = .nil ∨
      readSortedEntries fs flagA absPath = some (t.names.filter (visible flagA)) := by
  unfold Lists at hlists
  unfold readSortedEntries
  cases hopen : fs.opendir absPath with
  | none =>
    rw [hopen] at hlists
    exact .inl ⟨rfl, hlists⟩
  | some names =>
    rw [hopen] at hlists
    refine .inr (congrArg some ?_)
    have hfilter :
      names.filter (fun n => n ≠ ".".toList && n ≠ "..".toList && (flagA || n.head? ≠ some '.')) =
        (names.filter fun n => n ≠ ".".toList && n ≠ "..".toList).filter (visible flagA) := by
      rw [List.filter_filter]
      exact List.filter_congr fun n _ => Bool.and_comm ..
    have hsorted : (t.names.filter (visible flagA)).Pairwise (· ≤ ·) :=
      ((pairwise_names h.sorted).imp le_of_lt).sublist List.filter_sublist
    have hperm : (names.filter fun n => n ≠ ".".toList && n ≠ "..".toList &&
        (flagA || n.head? ≠ some '.')).insertionSort (· ≤ ·) |>.Perm
          (t.names.filter (visible flagA)) := by
      refine (List.perm_insertionSort _ _).trans ?_
      rw [hfilter]
      exact hlists.filter _
    exact hperm.eq_of_pairwise' (List.pairwise_insertionSort _ _) hsorted

/-! ## Outputs piece by piece -/

/-- Whatever the output with the property `P` is, it has at most as many lines as `xs`, and there is
one with the lines `xs` if and only if the condition `C` holds. -/
structure Exact (P : List Line → Prop) (xs : List (Str × Bool)) (C : Prop) : Prop where
  le  : ∀ lines, P lines → (rows lines).length ≤ xs.length
  iff : (∃ lines, P lines ∧ rows lines = xs) ↔ C

namespace Exact

variable {P Q : List Line → Prop} {xs ys : List (Str × Bool)} {C D : Prop}

theorem rows_append (lines lines' : List Line) :
    rows (lines ++ lines') = rows lines ++ rows lines' :=
  List.filterMap_append

/-- Since no piece is too long, the whole is right only if all pieces are. -/
theorem append (h : Exact P xs C) (h' : Exact Q ys D) :
    Exact (fun lines => ∃ first rest, P first ∧ Q rest ∧ lines = first ++ rest)
      (xs ++ ys) (C ∧ D) := by
  constructor
  · rintro lines ⟨first, rest, hfirst, hrest, rfl⟩
    rw [rows_append, List.length_append, List.length_append]
    exact Nat.add_le_add (h.le first hfirst) (h'.le rest hrest)
  · rw [← h.iff, ← h'.iff]
    constructor
    · rintro ⟨lines, ⟨first, rest, hfirst, hrest, rfl⟩, hrows⟩
      rw [rows_append] at hrows
      have hlength := congrArg List.length hrows
      have hle := h.le first hfirst
      have hle' := h'.le rest hrest
      rw [List.length_append, List.length_append] at hlength
      obtain ⟨hxs, hys⟩ := List.append_inj hrows (by omega)
      exact ⟨⟨first, hfirst, hxs⟩, ⟨rest, hrest, hys⟩⟩
    · rintro ⟨⟨first, hfirst, rfl⟩, ⟨rest, hrest, rfl⟩⟩
      exact ⟨first ++ rest, ⟨first, rest, hfirst, hrest, rfl⟩, rows_append ..⟩

theorem congr (h : Exact P xs C) (hP : ∀ lines, Q lines ↔ P lines) (hC : D ↔ C) : Exact Q xs D := by
  have hPQ : Q = P := funext fun lines => propext (hP lines)
  rw [hPQ, propext hC]
  exact h

/-- A line that is as it should be. -/
theorem cons (h : Exact P xs C) (rel : Str) (slash : Bool) :
    Exact (fun lines => ∃ inside, P inside ∧ lines = .entry rel slash :: inside)
      ((rel, slash) :: xs) C := by
  have hline : Exact (· = [.entry rel slash]) [(rel, slash)] True :=
    ⟨fun lines hlines => by rw [hlines]; exact Nat.le_refl 1, iff_true_intro ⟨_, rfl, rfl⟩⟩
  refine (hline.append h).congr (fun lines => ?_) ⟨fun hC => ⟨trivial, hC⟩, And.right⟩
  constructor
  · rintro ⟨inside, hinside, rfl⟩
    exact ⟨_, inside, rfl, hinside, rfl⟩
  · rintro ⟨_, inside, rfl, hinside, rfl⟩
    exact ⟨inside, hinside, rfl⟩

/-- Every output has the one line `x`. -/
theorem single {x y : Str × Bool} (hrows : ∀ lines, P lines → rows lines = [x])
    (hC : C ↔ (∃ lines, P lines) ∧ x = y ∧ ys = []) : Exact P (y :: ys) C := by
  constructor
  · intro lines hlines
    rw [hrows lines hlines]
    exact Nat.succ_le_succ (Nat.zero_le _)
  · rw [hC]
    constructor
    · rintro ⟨lines, hlines, heq⟩
      rw [hrows lines hlines, List.cons.injEq] at heq
      exact ⟨⟨lines, hlines⟩, heq.1, heq.2.symm⟩
    · rintro ⟨⟨lines, hlines⟩, rfl, rfl⟩
      exact ⟨lines, hlines, hrows lines hlines⟩

theorem nil : Exact (· = []) [] True :=
  ⟨fun lines hlines => by rw [hlines]; exact Nat.le_refl 0, iff_true_intro ⟨_, rfl, rfl⟩⟩

end Exact

/-! ## One entry -/

/-- `reveal_dir` finds nothing to print in the directory. -/
def Bare (fs : Fs) (flagA : Bool) (path : Str) : Prop :=
  ∀ names, readSortedEntries fs flagA path = some names → names = []

/-- The entry is printed as it should be, and so is what is inside: its path fits into the buffer;
or it is cut, but its relative path is not, the path that is left over names a directory if and only
if the entry is one, and nothing is to be found in either of the two. -/
def Fine (fs : Fs) (flagA : Bool) (start : Str) (e : Entry Str Bool) : Prop :=
  (absOf start e.path).length < pathMax ∨
    (relOf e.path).length < pathMax ∧
    (fs.lstat (snprintf pathMax (absOf start e.path)) = some .dir ↔ e.inside.isSome) ∧
    ∀ inside, e.inside = some inside →
      inside.names.filter (visible flagA) = [] ∧
        Bare fs flagA (snprintf pathMax (absOf start e.path))

/-- The entries inside of an entry. -/
def within (flagA : Bool) (e : Entry Str Bool) : List (Entry Str Bool) :=
  e.inside.elim [] (walk (visible flagA) e.path)

theorem walk_eq_nil_iff :
    t.walk (visible flagA) front = [] ↔ t.names.filter (visible flagA) = [] := by
  induction t with
  | nil => exact iff_of_true rfl rfl
  | leaf name link rest ih =>
    rw [walk, names, List.filter_cons]
    split
    · simp
    · rw [List.nil_append, ih]
  | node name inside rest _ ih =>
    rw [walk, names, List.filter_cons]
    split
    · simp
    · rw [List.nil_append, ih]

/-- From a directory whose path fills the buffer `reveal_dir` comes back if it finds nothing
there. -/
theorem exists_enters_of_full (hfull : absPath.length = pathMax - 1) (rel : Str) :
    (∃ ls, Enters fs flagA absPath rel ls) ↔
      (fs.lstat absPath = some .dir → Bare fs flagA absPath) := by
  constructor
  · rintro ⟨ls, henters⟩ hdir names hread
    exact readSortedEntries_of_prints hfull hdir ((enters_of_dir hdir).mp henters) hread
  · intro hbare
    by_cases hdir : fs.lstat absPath = some .dir
    · cases hread : readSortedEntries fs flagA absPath with
      | none =>
        refine ⟨[.noSuchDirectory], (enters_of_dir hdir).mpr (prints_iff.mpr ?_)⟩
        rw [hread]
      | some names =>
        refine ⟨[], (enters_of_dir hdir).mpr (prints_iff.mpr ?_)⟩
        rw [hread, hbare hdir names hread]
        exact loopPrints_nil.mpr rfl
    · exact ⟨[], (enters_of_not_dir hdir).mpr rfl⟩

/-- It prints no line then. -/
theorem rows_of_full (hfull : absPath.length = pathMax - 1)
    (h : Enters fs flagA absPath rel lines) :
    rows lines = [] := by
  by_cases hdir : fs.lstat absPath = some .dir
  · have hprints := (enters_of_dir hdir).mp h
    have hrun := prints_iff.mp hprints
    cases hread : readSortedEntries fs flagA absPath with
    | none =>
      rw [hread] at hrun
      rw [show lines = [.noSuchDirectory] from hrun]
      rfl
    | some names =>
      rw [hread, readSortedEntries_of_prints hfull hdir hprints hread] at hrun
      rw [loopPrints_nil.mp hrun]
      rfl
  · rw [(enters_of_not_dir hdir).mp h]
    rfl

theorem snprintf_eq_self_iff {text : Str} :
    snprintf pathMax text = text ↔ text.length < pathMax := by
  rw [snprintf, List.take_eq_self_iff]
  unfold pathMax
  omega

/-- What is printed for an entry whose path is cut: a line, and nothing for its inside. -/
theorem entryPrints_of_full (hfull : (childAbs absPath name).length = pathMax - 1)
    (h : EntryPrints fs flagA absPath rel name lines) :
    rows lines = [(childRel rel name, decide (fs.lstat (childAbs absPath name) = some .dir))] := by
  obtain ⟨inside, hinside, rfl⟩ := h
  exact congrArg (List.cons _) (rows_of_full hfull hinside)

theorem exists_entryPrints_of_full
    (hfull : (childAbs absPath name).length = pathMax - 1) (rel : Str) :
    (∃ ls, EntryPrints fs flagA absPath rel name ls) ↔
      (fs.lstat (childAbs absPath name) = some .dir → Bare fs flagA (childAbs absPath name)) := by
  rw [← exists_enters_of_full hfull (childRel rel name)]
  constructor
  · rintro ⟨_, inside, hinside, -⟩
    exact ⟨inside, hinside⟩
  · rintro ⟨inside, hinside⟩
    exact ⟨_, inside, hinside, rfl⟩

theorem within_eq_nil_iff {e : Entry Str Bool} :
    within flagA e = [] ↔ ∀ inside, e.inside = some inside →
      inside.names.filter (visible flagA) = [] := by
  unfold within
  cases e.inside with
  | none => simp
  | some inside => simp [walk_eq_nil_iff]

/-- When the line for such an entry is right, and nothing is missing. -/
theorem fine_of_long_iff {e : Entry Str Bool} (hlong : pathMax ≤ (absOf start e.path).length) :
    (Fine fs flagA start e ∧ ∀ e' ∈ within flagA e, Fine fs flagA start e') ↔
      (fs.lstat (snprintf pathMax (absOf start e.path)) = some .dir →
        Bare fs flagA (snprintf pathMax (absOf start e.path))) ∧
      (snprintf pathMax (relOf e.path),
        decide (fs.lstat (snprintf pathMax (absOf start e.path)) = some .dir)) = row e ∧
      (within flagA e).map row = [] := by
  have hslash : decide (fs.lstat (snprintf pathMax (absOf start e.path)) = some .dir) =
    e.inside.isSome ↔
      (fs.lstat (snprintf pathMax (absOf start e.path)) = some .dir ↔ e.inside.isSome) := by
    rw [Bool.eq_iff_iff, decide_eq_true_eq]
  rw [row, Prod.mk.injEq, snprintf_eq_self_iff, hslash, List.map_eq_nil_iff]
  constructor
  · rintro ⟨hfine, -⟩
    obtain ⟨hshort, hdir, hinside⟩ := hfine.resolve_left (Nat.not_lt.mpr hlong)
    refine ⟨fun hd => ?_, ⟨hshort, hdir⟩, within_eq_nil_iff.mpr fun inside hsome =>
      (hinside inside hsome).1⟩
    obtain ⟨inside, hsome⟩ := Option.isSome_iff_exists.mp (hdir.mp hd)
    exact (hinside inside hsome).2
  · rintro ⟨hbare, ⟨hshort, hdir⟩, hnil⟩
    refine ⟨.inr ⟨hshort, hdir, fun inside hsome =>
      ⟨within_eq_nil_iff.mp hnil inside hsome, hbare ?_⟩⟩, ?_⟩
    · rw [hdir, hsome]
      rfl
    · rw [hnil]
      exact fun e' he' => absurd he' List.not_mem_nil

/-- An entry whose path is cut. -/
theorem exact_cut {e : Entry Str Bool} (hfront : ∀ n ∈ front, n ≠ [])
    (hpath : e.path = front ++ [name]) (hlong : pathMax ≤ (absOf start e.path).length) :
    Exact (EntryPrints fs flagA (absOf start front) (relOf front) name)
      (row e :: (within flagA e).map row)
      (Fine fs flagA start e ∧ ∀ e' ∈ within flagA e, Fine fs flagA start e') := by
  have habs : childAbs (absOf start front) name = snprintf pathMax (absOf start e.path) := by
    rw [childAbs_absOf, hpath]
  have hrel : childRel (relOf front) name = snprintf pathMax (relOf e.path) := by
    rw [childRel_relOf hfront, hpath]
  have hfull : (childAbs (absOf start front) name).length = pathMax - 1 := by
    rw [habs]
    exact length_snprintf hlong
  refine .single (fun ls => entryPrints_of_full hfull) ?_
  rw [exists_entryPrints_of_full hfull, habs, hrel]
  exact fine_of_long_iff hlong

/-! ## The tree -/

/-- A directory whose path fits, and that is listed as the tree. -/
theorem exact_prints (htree : IsTree t) (hlists : Lists fs absPath t)
    {xs : List (Str × Bool)} {C : Prop}
    (hloop : Exact (LoopPrints fs flagA absPath rel (t.names.filter (visible flagA))) xs C)
    (hnil : t = .nil → xs = [] ∧ C) : Exact (Prints fs flagA absPath rel) xs C := by
  rcases readSortedEntries_of_lists flagA htree hlists with ⟨hread, ht⟩ | hread
  · obtain ⟨rfl, hC⟩ := hnil ht
    have hprints : ∀ ls, Prints fs flagA absPath rel ls ↔ ls = [.noSuchDirectory] := by
      intro ls
      rw [prints_iff, hread]
    refine ⟨fun ls hls => ?_, iff_of_true ⟨_, (hprints _).mpr rfl, rfl⟩ hC⟩
    rw [(hprints ls).mp hls]
    exact Nat.le_refl 0
  · refine hloop.congr (fun ls => ?_) Iff.rfl
    rw [prints_iff, hread]

/-- A path that fits is not cut. -/
theorem child_of_short (hfront : ∀ n ∈ front, n ≠ [])
    (hshort : (absOf start (front ++ [name])).length < pathMax) :
    childAbs (absOf start front) name = absOf start (front ++ [name]) ∧
      childRel (relOf front) name = relOf (front ++ [name]) := by
  have hrel := (length_relOf_le start (front ++ [name])).trans_lt hshort
  rw [childAbs_absOf, childRel_relOf hfront]
  exact ⟨snprintf_eq_self_iff.mpr hshort, snprintf_eq_self_iff.mpr hrel⟩

/-- An entry that is not a directory. -/
theorem exact_leaf (hfront : ∀ n ∈ front, n ≠ [])
    (hshows : (absOf start (front ++ [name])).length < pathMax →
      fs.lstat (absOf start (front ++ [name])) ≠ some .dir) :
    Exact (EntryPrints fs flagA (absOf start front) (relOf front) name)
      ([(⟨front ++ [name], none⟩ : Entry Str Bool)].map row)
      (∀ e ∈ [(⟨front ++ [name], none⟩ : Entry Str Bool)], Fine fs flagA start e) := by
  rw [List.forall_mem_singleton]
  by_cases hshort : (absOf start (front ++ [name])).length < pathMax
  · obtain ⟨habs, hrel⟩ := child_of_short hfront hshort
    refine (Exact.nil.cons (relOf (front ++ [name])) false).congr (fun ls => ?_)
      (iff_true_intro (.inl hshort))
    unfold EntryPrints
    rw [habs, hrel, decide_eq_false (hshows hshort)]
    simp only [enters_of_not_dir (hshows hshort)]
  · refine (exact_cut (e := ⟨front ++ [name], none⟩) hfront rfl (Nat.le_of_not_lt hshort)).congr
      (fun ls => Iff.rfl) ?_
    exact ⟨fun h => ⟨h, fun e' he' => absurd he' List.not_mem_nil⟩, And.left⟩

/-- A directory and what is inside. -/
theorem exact_node (hfront : ∀ n ∈ front, n ≠ [])
    (hshows : (absOf start (front ++ [name])).length < pathMax →
      fs.lstat (absOf start (front ++ [name])) = some .dir ∧
        Exact (Prints fs flagA (absOf start (front ++ [name])) (relOf (front ++ [name])))
          ((inside.walk (visible flagA) (front ++ [name])).map row)
          (∀ e ∈ inside.walk (visible flagA) (front ++ [name]), Fine fs flagA start e)) :
    Exact (EntryPrints fs flagA (absOf start front) (relOf front) name)
      ((⟨front ++ [name], some inside⟩ :: inside.walk (visible flagA) (front ++ [name])).map row)
      (∀ e ∈ ⟨front ++ [name], some inside⟩ :: inside.walk (visible flagA) (front ++ [name]),
        Fine fs flagA start e) := by
  rw [List.forall_mem_cons]
  by_cases hshort : (absOf start (front ++ [name])).length < pathMax
  · obtain ⟨hdir, hprints⟩ := hshows hshort
    obtain ⟨habs, hrel⟩ := child_of_short hfront hshort
    refine (hprints.cons (relOf (front ++ [name])) true).congr (fun ls => ?_)
      (and_iff_right (.inl hshort))
    unfold EntryPrints
    rw [habs, hrel, decide_eq_true hdir]
    simp only [enters_of_dir hdir]
  · exact exact_cut hfront rfl (Nat.le_of_not_lt hshort)

theorem forall_mem_concat_ne_nil (hfront : ∀ n ∈ front, n ≠ []) (hname : ValidName name) :
    ∀ n ∈ front ++ [name], n ≠ [] := by
  intro n hn
  rcases List.mem_append.mp hn with hn | hn
  · exact hfront n hn
  · rw [List.mem_singleton.mp hn]
    exact hname.nonempty

/-- One entry, and then the others. -/
theorem exact_cons {names : List Str} {es es' : List (Entry Str Bool)}
    (h : Exact (EntryPrints fs flagA absPath rel name) (es.map row)
      (∀ e ∈ es, Fine fs flagA start e))
    (h' : Exact (LoopPrints fs flagA absPath rel names) (es'.map row)
      (∀ e ∈ es', Fine fs flagA start e)) :
    Exact (LoopPrints fs flagA absPath rel (name :: names)) ((es ++ es').map row)
      (∀ e ∈ es ++ es', Fine fs flagA start e) := by
  rw [List.map_append]
  exact (h.append h').congr (fun ls => loopPrints_cons) List.forall_mem_append

/-- The loop over a directory, entry after entry. -/
theorem exact_walk (htree : IsTree t) (hfront : ∀ n ∈ front, n ≠ [])
    (hshows : Shows fs (absOf start front) t) :
    Exact (LoopPrints fs flagA (absOf start front) (relOf front) (t.names.filter (visible flagA)))
      ((t.walk (visible flagA) front).map row)
        (∀ e ∈ t.walk (visible flagA) front, Fine fs flagA start e) := by
  induction t generalizing front with
  | nil =>
    exact Exact.nil.congr (fun _ => loopPrints_nil)
      (iff_true_intro fun e he => absurd he List.not_mem_nil)
  | leaf name link rest ih =>
    obtain ⟨hname, hrest⟩ := htree.of_leaf
    obtain ⟨hleaf, hshows⟩ := hshows
    have htail := ih hrest hfront hshows
    rw [names, walk]
    by_cases hvisible : visible flagA name = true
    · rw [List.filter_cons_of_pos hvisible, if_pos hvisible]
      refine exact_cons (exact_leaf hfront fun hshort => ?_) htail
      rw [absOf_concat] at hshort ⊢
      rw [hleaf hshort]
      cases link <;> exact fun h => by cases h
    · rw [List.filter_cons_of_neg hvisible, if_neg hvisible]
      exact htail
  | node name inside rest ihInside ih =>
    obtain ⟨hname, hinside, hrest⟩ := htree.of_node
    obtain ⟨hnode, hshows⟩ := hshows
    have htail := ih hrest hfront hshows
    rw [names, walk]
    by_cases hvisible : visible flagA name = true
    · rw [List.filter_cons_of_pos hvisible, if_pos hvisible]
      refine exact_cons (exact_node hfront fun hshort => ?_) htail
      rw [← absOf_concat] at hnode
      obtain ⟨hdir, hlists, hbelow⟩ := hnode hshort
      refine ⟨hdir, exact_prints hinside hlists
        (ihInside hinside (forall_mem_concat_ne_nil hfront hname) hbelow) ?_⟩
      rintro rfl
      exact ⟨rfl, fun e he => absurd he List.not_mem_nil⟩
    · rw [List.filter_cons_of_neg hvisible, if_neg hvisible]
      exact htail

/-- A call of `reveal_dir` for a tree. -/
theorem exact_tree (htree : IsTree t) (hlists : Lists fs start t) (hshows : Shows fs start t) :
    Exact (Prints fs flagA start []) ((t.walk (visible flagA) []).map row)
      (∀ e ∈ t.walk (visible flagA) [], Fine fs flagA start e) := by
  have hstart : absOf start [] = start := List.append_nil start
  have hloop :
      Exact (LoopPrints fs flagA (absOf start []) (relOf []) (t.names.filter (visible flagA)))
        ((t.walk (visible flagA) []).map row)
        (∀ e ∈ t.walk (visible flagA) [], Fine fs flagA start e) :=
    exact_walk htree (fun n hn => absurd hn List.not_mem_nil) (hstart.symm ▸ hshows)
  rw [hstart] at hloop
  refine exact_prints htree hlists hloop ?_
  rintro rfl
  exact ⟨rfl, fun e he => absurd he List.not_mem_nil⟩

/-- `reveal -t` comes back and has printed the visible entries of the tree, once each, in
lexicographic order of their paths and with a `/` behind the directories, if and only if this holds
of every visible entry: its path fits into the buffer, or it is cut without doing harm. -/
theorem reveal_dir_iff (htree : IsTree t) (hlists : Lists fs start t) (hshows : Shows fs start t) :
    (∃ fuel lines es, revealDir fs flagA true fuel start [] = some lines ∧
        IsTraversal (visible flagA) t es ∧ rows lines = es.map row ∧ (rows lines).Nodup) ↔
      ∀ e : Entry Str Bool, t.Has e.path e.inside → (∀ n ∈ e.path, visible flagA n = true) →
        Fine fs flagA start e := by
  have hwalk := isTraversal_walk (visible flagA) htree.sorted
  have hcondition : (∀ e ∈ t.walk (visible flagA) [], Fine fs flagA start e) ↔
      ∀ e : Entry Str Bool, t.Has e.path e.inside → (∀ n ∈ e.path, visible flagA n = true) →
        Fine fs flagA start e :=
    forall_congr' fun e => by rw [hwalk.mem_iff, and_imp]
  rw [← hcondition, ← (exact_tree htree hlists hshows).iff]
  constructor
  · rintro ⟨fuel, lines, es, hrun, hes, hrows, -⟩
    rw [hes.unique hwalk] at hrows
    exact ⟨lines, ⟨fuel, hrun⟩, hrows⟩
  · rintro ⟨lines, ⟨fuel, hrun⟩, hrows⟩
    exact ⟨fuel, lines, _, hrun, hwalk, hrows, hrows ▸ nodup_map_row htree hwalk⟩

/-! ### A small tree -/

/-- A directory with a link to its parent, and a file. -/
def parentTree : Tree :=
  .node "d".toList (.leaf "up".toList true .nil) (.leaf "e f".toList false .nil)

/-- The file system that shows it in the working directory. -/
def parentFs : Fs where
  lstat path :=
    if path = "./d".toList then some .dir
    else if path = "./d/up".toList then some .link
    else if path = "./e f".toList then some .other
    else none
  stat path := if path = "./e f".toList then some .other else some .dir
  opendir path :=
    if path = "./d".toList then some ["..".toList, "up".toList, ".".toList]
    else some [".".toList, "e f".toList, "..".toList, "d".toList]

theorem isTree_parentTree : IsTree parentTree := by
  have hsorted : parentTree.Sorted := by decide
  refine ⟨hsorted, fun path x hhas => ?_⟩
  have hall : ∀ e ∈ parentTree.walk (fun _ => true) [], ∀ n ∈ e.path,
      n ≠ [] ∧ '/' ∉ n ∧ n ≠ ".".toList ∧ n ≠ "..".toList := by decide
  have hmem := ((isTraversal_walk (fun _ => true) hsorted).mem_iff ⟨path, x⟩).mpr
    ⟨hhas, fun _ _ => rfl⟩
  intro n hn
  obtain ⟨hne, hslash, hdots⟩ := hall _ hmem n hn
  exact ⟨hne, hslash, hdots⟩

theorem shows_parentTree : Shows parentFs ".".toList parentTree := by
  refine ⟨fun _ => ⟨by decide, ?_, ?_⟩, ?_⟩
  · exact List.Perm.refl ["up".toList]
  · exact ⟨fun _ => by decide, trivial⟩
  · exact ⟨fun _ => by decide, trivial⟩

/-- The link is not followed. -/
theorem reveal_dir_parentTree :
    ∃ fuel lines es, revealDir parentFs false true fuel ".".toList [] = some lines ∧
      IsTraversal (visible false) parentTree es ∧ rows lines = es.map row ∧ (rows lines).Nodup := by
  have hlists : Lists parentFs ".".toList parentTree := .swap "d".toList "e f".toList []
  refine (reveal_dir_iff isTree_parentTree hlists shows_parentTree).mpr
    fun e hhas hvisible => .inl ?_
  have hmem := ((isTraversal_walk (visible false) isTree_parentTree.sorted).mem_iff e).mpr
    ⟨hhas, hvisible⟩
  have hshort : ∀ e ∈ parentTree.walk (visible false) [], (absOf ".".toList e.path).length <
    pathMax := by decide
  exact hshort e hmem

example : (revealDir parentFs false true 3 ".".toList []).map rows =
    some [("d".toList, true), ("d/up".toList, false), ("e f".toList, false)] := by decide

/-! ### A path that fills the buffer -/

/-- The root directory holds a file. -/
def rootTree : Tree := .leaf "a".toList false .nil

def rootFs : Fs where
  lstat path := if path.all (· = '/') then some .dir else some .other
  stat path := if path.all (· = '/') then some .dir else some .other
  opendir path := if path.all (· = '/') then some [".".toList, "..".toList, "a".toList] else none

theorem revealDir_root {path : Str} (hpath : path.all (· = '/') = true)
    (hfull : path.length = pathMax - 1) :
    Lists rootFs path rootTree ∧ Shows rootFs path rootTree ∧
      ∀ flagA fuel, revealDir rootFs flagA true fuel path [] = none := by
  have hdir : rootFs.lstat path = some .dir := by
    simp only [rootFs, if_pos hpath]
  have hopen : rootFs.opendir path = some [".".toList, "..".toList, "a".toList] := by
    simp only [rootFs, if_pos hpath]
  refine ⟨?_, ⟨fun hshort => ?_, trivial⟩, fun flagA fuel => ?_⟩
  · unfold Lists
    rw [hopen]
    exact List.Perm.refl ["a".toList]
  · rw [List.length_append, hfull, List.length_cons] at hshort
    omega
  · by_contra hne
    obtain ⟨lines, hlines⟩ := Option.ne_none_iff_exists'.mp hne
    have hread : readSortedEntries rootFs flagA path = some ["a".toList] := by
      rw [readSortedEntries, hopen]
      cases flagA <;> rfl
    have hnil := readSortedEntries_of_prints hfull hdir ⟨fuel, hlines⟩ hread
    cases hnil

/-- The path of the root directory, in 4095 bytes. -/
def slashes : Str := List.replicate (pathMax - 1) '/'

/-- `reveal -t` with this path does not come back. -/
theorem reveal_dir_slashes :
    Lists rootFs slashes rootTree ∧ Shows rootFs slashes rootTree ∧
      ∀ flagA fuel, revealDir rootFs flagA true fuel slashes [] = none := by
  have hpath : slashes.all (· = '/') = true :=
    List.all_eq_true.mpr fun c hc => decide_eq_true (List.eq_of_mem_replicate hc)
  have hfull : slashes.length = pathMax - 1 := List.length_replicate
  exact revealDir_root hpath hfull

end UnixCShell.Reveal
