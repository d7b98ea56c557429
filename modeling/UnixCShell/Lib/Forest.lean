import Mathlib.Data.List.Lex
import Mathlib.Data.List.Sort
import Mathlib.Tactic.Common

/-!
# Trees of named entries

A `Forest` is what a directory holds: named leaves, which carry some data, and named nodes with a
forest inside. An entry has a path, the names from the top down to it. `walk` lists the entries
whose names are all wanted, every node before what is inside of it. In a forest whose names are
sorted on each level these come in lexicographic order of their paths (`pairwise_walk`), and this
order determines the list (`IsTraversal.unique`).
-/

namespace Lib

/-- Named entries, one after the other. -/
inductive Forest (α δ : Type*) where
  | nil
  | leaf (name : α) (data : δ) (rest : Forest α δ)
  | node (name : α) (inside rest : Forest α δ)
  deriving DecidableEq, Repr

namespace Forest

variable {α δ : Type*}

/-- The names on the top level. -/
def names : Forest α δ → List α
  | nil => []
  | leaf name _ rest => name :: rest.names
  | node name _ rest => name :: rest.names

/-- An entry: its path, and what is inside of it if it is a node. -/
@[ext] structure Entry (α δ : Type*) where
  path   : List α
  inside : Option (Forest α δ)

/-- There is an entry with this path. -/
inductive Has : Forest α δ → List α → Option (Forest α δ) → Prop
  | leaf {name : α} {data : δ} {rest : Forest α δ} : Has (leaf name data rest) [name] none
  | node {name : α} {inside rest : Forest α δ} : Has (node name inside rest) [name] (some inside)
  | within {name : α} {inside rest : Forest α δ} {path : List α} {x : Option (Forest α δ)} :
      Has inside path x → Has (node name inside rest) (name :: path) x
  | afterLeaf {name : α} {data : δ} {rest : Forest α δ} {path : List α} {x : Option (Forest α δ)} :
      Has rest path x → Has (leaf name data rest) path x
  | afterNode {name : α} {inside rest : Forest α δ} {path : List α} {x : Option (Forest α δ)} :
      Has rest path x → Has (node name inside rest) path x

/-- The entries whose names all satisfy `p`; `front` is the path to the forest. -/
def walk (p : α → Bool) (front : List α) : Forest α δ → List (Entry α δ)
  | nil => []
  | leaf name _ rest => (if p name then [⟨front ++ [name], none⟩] else []) ++ walk p front rest
  | node name inside rest =>
    (if p name then ⟨front ++ [name], some inside⟩ :: walk p (front ++ [name]) inside else []) ++
      walk p front rest

variable {p : α → Bool} {front : List α} {t : Forest α δ} {e : Entry α δ}

theorem has_leaf_iff {name : α} {data : δ} {rest : Forest α δ} {path : List α}
    {x : Option (Forest α δ)} :
    Has (leaf name data rest) path x ↔ path = [name] ∧ x = none ∨ Has rest path x := by
  constructor
  · intro h
    cases h with
    | leaf => exact .inl ⟨rfl, rfl⟩
    | afterLeaf h => exact .inr h
  · rintro (⟨rfl, rfl⟩ | h)
    · exact .leaf
    · exact .afterLeaf h

theorem has_node_iff {name : α} {inside rest : Forest α δ} {path : List α}
    {x : Option (Forest α δ)} :
    Has (node name inside rest) path x ↔
      path = [name] ∧ x = some inside ∨ (∃ path', path = name :: path' ∧ Has inside path' x) ∨
        Has rest path x := by
  constructor
  · intro h
    cases h with
    | node => exact .inl ⟨rfl, rfl⟩
    | within h => exact .inr (.inl ⟨_, rfl, h⟩)
    | afterNode h => exact .inr (.inr h)
  · rintro (⟨rfl, rfl⟩ | ⟨path', rfl, h⟩ | h)
    · exact .node
    · exact .within h
    · exact .afterNode h

theorem Has.exists_cons {path : List α} {x : Option (Forest α δ)} (h : t.Has path x) :
    ∃ n path', path = n :: path' ∧ n ∈ t.names := by
  induction h with
  | leaf | node | within => exact ⟨_, _, rfl, List.mem_cons_self⟩
  | afterLeaf _ ih | afterNode _ ih =>
    obtain ⟨n, path', heq, hn⟩ := ih
    exact ⟨n, path', heq, List.mem_cons_of_mem _ hn⟩

theorem mem_walk_leaf {name : α} {data : δ} {rest : Forest α δ} :
    e ∈ walk p front (leaf name data rest) ↔
    p name = true ∧ e = ⟨front ++ [name], none⟩ ∨ e ∈ walk p front rest := by
  rw [walk, List.mem_append]
  by_cases hname : p name = true
  · rw [if_pos hname, List.mem_singleton, and_iff_right hname]
  · simp [hname]

theorem mem_walk_node {name : α} {inside rest : Forest α δ} :
    e ∈ walk p front (node name inside rest) ↔
    p name = true ∧ (e = ⟨front ++ [name], some inside⟩ ∨ e ∈ walk p (front ++ [name]) inside) ∨
      e ∈ walk p front rest := by
  rw [walk, List.mem_append]
  by_cases hname : p name = true
  · rw [if_pos hname, List.mem_cons, and_iff_right hname]
  · simp [hname]

/-- What is listed, as paths behind `front`. -/
theorem mem_walk : e ∈ t.walk p front ↔
    ∃ path, e.path = front ++ path ∧ t.Has path e.inside ∧ ∀ n ∈ path, p n = true := by
  induction t generalizing front with
  | nil =>
    constructor
    · intro h
      cases h
    · rintro ⟨path, -, h, -⟩
      cases h
  | leaf name data rest ih =>
    rw [mem_walk_leaf, ih]
    constructor
    · rintro (⟨hname, rfl⟩ | ⟨path, hpath, hhas, hp⟩)
      · exact ⟨[name], rfl, .leaf, List.forall_mem_singleton.mpr hname⟩
      · exact ⟨path, hpath, .afterLeaf hhas, hp⟩
    · rintro ⟨path, hpath, hhas, hp⟩
      rcases has_leaf_iff.mp hhas with ⟨rfl, hinside⟩ | hhas
      · exact .inl ⟨hp name List.mem_cons_self, Entry.ext hpath hinside⟩
      · exact .inr ⟨path, hpath, hhas, hp⟩
  | node name inside rest ihInside ih =>
    have hpath_iff : ∀ path, (front ++ [name]) ++ path = front ++ name :: path :=
      fun path => List.append_cons front name path |>.symm
    rw [mem_walk_node, ih, ihInside]
    constructor
    · rintro (⟨hname, rfl | ⟨path, hpath, hhas, hp⟩⟩ | ⟨path, hpath, hhas, hp⟩)
      · exact ⟨[name], rfl, .node, List.forall_mem_singleton.mpr hname⟩
      · exact ⟨name :: path, hpath.trans (hpath_iff path), .within hhas,
          List.forall_mem_cons.mpr ⟨hname, hp⟩⟩
      · exact ⟨path, hpath, .afterNode hhas, hp⟩
    · rintro ⟨path, hpath, hhas, hp⟩
      rcases has_node_iff.mp hhas with ⟨rfl, hinside⟩ | ⟨path, rfl, hwithin⟩ | hhas
      · exact .inl ⟨hp name List.mem_cons_self, .inl (Entry.ext hpath hinside)⟩
      · obtain ⟨hname, hp⟩ := List.forall_mem_cons.mp hp
        exact .inl ⟨hname, .inr ⟨path, hpath.trans (hpath_iff path).symm, hwithin, hp⟩⟩
      · exact .inr ⟨path, hpath, hhas, hp⟩

variable [LinearOrder α]

/-- On every level the names are sorted. -/
def Sorted : Forest α δ → Prop
  | nil => True
  | leaf name _ rest => (∀ n ∈ rest.names, name < n) ∧ rest.Sorted
  | node name inside rest => (∀ n ∈ rest.names, name < n) ∧ inside.Sorted ∧ rest.Sorted

instance Sorted.instDecidable : ∀ t : Forest α δ, Decidable t.Sorted
  | nil => .isTrue trivial
  | leaf name _ rest =>
    have := Sorted.instDecidable rest
    inferInstanceAs (Decidable ((∀ n ∈ rest.names, name < n) ∧ rest.Sorted))
  | node name inside rest =>
    have := Sorted.instDecidable inside
    have := Sorted.instDecidable rest
    inferInstanceAs (Decidable ((∀ n ∈ rest.names, name < n) ∧ inside.Sorted ∧ rest.Sorted))

theorem pairwise_names (h : t.Sorted) : t.names.Pairwise (· < ·) := by
  induction t with
  | nil => exact .nil
  | leaf name data rest ih => exact .cons h.1 (ih h.2)
  | node name inside rest _ ih => exact .cons h.1 (ih h.2.2)

theorem append_lt_append {path path' : List α} (h : path < path') (front : List α) :
    front ++ path < front ++ path' := by
  induction front with
  | nil => exact h
  | cons n front ih => exact List.Lex.cons ih

/-- What comes later on the same level is larger. -/
theorem lt_of_mem_walk {name : α} {rest : Forest α δ} (hsorted : ∀ n ∈ rest.names, name < n)
    (he : e ∈ rest.walk p front) (path : List α) : front ++ name :: path < e.path := by
  obtain ⟨path', hpath, hhas, -⟩ := mem_walk.mp he
  obtain ⟨n, path'', rfl, hn⟩ := hhas.exists_cons
  rw [hpath]
  exact append_lt_append (List.Lex.rel (hsorted n hn)) front

/-- The entries come in lexicographic order. -/
theorem pairwise_walk (h : t.Sorted) : (t.walk p front).Pairwise fun e e' => e.path < e'.path := by
  induction t generalizing front with
  | nil => exact .nil
  | leaf name data rest ih =>
    rw [walk, List.pairwise_append]
    refine ⟨?_, ih h.2, ?_⟩
    · split
      · exact List.pairwise_singleton _ _
      · exact .nil
    · intro e he e' he'
      split at he
      · rw [List.mem_singleton.mp he]
        exact lt_of_mem_walk h.1 he' []
      · cases he
  | node name inside rest ihInside ih =>
    obtain ⟨hnames, hinside, hrest⟩ := h
    rw [walk, List.pairwise_append]
    refine ⟨?_, ih hrest, ?_⟩
    · split
      · refine List.pairwise_cons.mpr ⟨fun e he => ?_, ihInside hinside⟩
        -- a node comes before what is inside
        obtain ⟨path, hpath, hhas, -⟩ := mem_walk.mp he
        obtain ⟨n, path', rfl, -⟩ := hhas.exists_cons
        have hlt : (front ++ [name]) ++ [] < (front ++ [name]) ++ (n :: path') :=
          append_lt_append List.Lex.nil _
        rwa [List.append_nil, ← hpath] at hlt
      · exact .nil
    · intro e he e' he'
      split at he
      · rcases List.mem_cons.mp he with rfl | he
        · exact lt_of_mem_walk hnames he' []
        · obtain ⟨path, hpath, -, -⟩ := mem_walk.mp he
          rw [hpath, List.append_assoc]
          exact lt_of_mem_walk hnames he' path
      · cases he

/-- The entries whose names all satisfy `p`, in lexicographic order: a node comes before what is
inside of it, and that before the next entry on its level. -/
structure IsTraversal (p : α → Bool) (t : Forest α δ) (es : List (Entry α δ)) : Prop where
  pairwise : es.Pairwise fun e e' => e.path < e'.path
  mem_iff  : ∀ e, e ∈ es ↔ t.Has e.path e.inside ∧ ∀ n ∈ e.path, p n = true

theorem isTraversal_walk (p : α → Bool) (h : t.Sorted) : IsTraversal p t (t.walk p []) := by
  refine ⟨pairwise_walk h, fun e => ?_⟩
  rw [mem_walk]
  constructor
  · rintro ⟨path, rfl, hhas⟩
    exact hhas
  · intro hhas
    exact ⟨e.path, rfl, hhas⟩

/-- There is only one such list. -/
theorem IsTraversal.unique {es es' : List (Entry α δ)} (h : IsTraversal p t es)
    (h' : IsTraversal p t es') :
    es = es' := by
  have hirrefl : Std.Irrefl fun e e' : Entry α δ => e.path < e'.path := ⟨fun e => lt_irrefl e.path⟩
  have hantisymm : Std.Antisymm fun e e' : Entry α δ => e.path < e'.path :=
    ⟨fun e e' hlt hgt => absurd (hlt.trans hgt) (lt_irrefl e.path)⟩
  exact h.pairwise.eq_of_mem_iff h'.pairwise fun e => (h.mem_iff e).trans (h'.mem_iff e).symm

end Forest
end Lib
