import Mathlib.Order.Lattice

/-!
# Trees of files

A directory is a list of entries in the order of their names, each of them once. `trim`
takes away the leaves that are to go, and then the directories that are to go and have
become empty.

* `find_trim` — what is under a path after it is what was there, trimmed.
* `trim_directory_iff` — a directory goes when it is to go and everything in it goes.
-/

namespace FileTrees

variable {ν μ : Type}

inductive LeafKind where
  | file
  | link
  | special
deriving DecidableEq

mutual

/-- A leaf or a directory, with what is known of it. -/
inductive Tree (ν μ : Type) where
  | leaf (kind : LeafKind) (metadata : μ)
  | directory (metadata : μ) (inside : Entries ν μ)

inductive Entries (ν μ : Type) where
  | nil
  | cons (name : ν) (tree : Tree ν μ) (rest : Entries ν μ)

end

def Tree.metadata : Tree ν μ → μ
  | .leaf _ metadata => metadata
  | .directory metadata _ => metadata

def Tree.SameEntry : Tree ν μ → Tree ν μ → Prop
  | .leaf kind metadata, other => other = .leaf kind metadata
  | .directory metadata _, other => ∃ inside, other = .directory metadata inside

def Entries.names : Entries ν μ → List ν
  | .nil => []
  | .cons name _ rest => name :: rest.names

/-- What is left of an entry, in front of the others. -/
def Entries.put (name : ν) : Option (Tree ν μ) → Entries ν μ → Entries ν μ
  | none, rest => rest
  | some tree, rest => .cons name tree rest

-- Paths

section Find

variable [DecidableEq ν]

mutual

def Tree.find : Tree ν μ → List ν → Option (Tree ν μ)
  | tree, [] => some tree
  | .leaf _ _, _ :: _ => none
  | .directory _ inside, name :: path => inside.find name path

def Entries.find : Entries ν μ → ν → List ν → Option (Tree ν μ)
  | .nil, _, _ => none
  | .cons other tree rest, name, path => if other = name then tree.find path else rest.find name path

end

@[simp] theorem find_nil (tree : Tree ν μ) : tree.find [] = some tree := by
  cases tree <;> rfl

theorem Entries.find_append {name : ν} {path rest : List ν}
    (h : ∀ tree : Tree ν μ, tree.find (path ++ rest) = (tree.find path).bind (·.find rest)) :
    ∀ inside : Entries ν μ, inside.find name (path ++ rest) = (inside.find name path).bind (·.find rest)
  | .nil => rfl
  | .cons other tree inside => by
    rw [Entries.find, Entries.find]
    split
    · exact h tree
    · exact find_append h inside

theorem find_append (tree : Tree ν μ) (path rest : List ν) :
    tree.find (path ++ rest) = (tree.find path).bind (·.find rest) := by
  induction path generalizing tree with
  | nil => simp
  | cons name path ih =>
    cases tree with
    | leaf kind metadata => rfl
    | directory metadata inside => exact Entries.find_append ih inside

theorem Entries.find_eq_none {name : ν} {path : List ν} :
    ∀ inside : Entries ν μ, name ∉ inside.names → inside.find name path = none
  | .nil, _ => rfl
  | .cons other tree rest, h => by
    obtain ⟨hne, hrest⟩ := not_or.mp (mt List.mem_cons.mpr h)
    rw [Entries.find, if_neg (Ne.symm hne)]
    exact find_eq_none rest hrest

end Find

-- The order of the names

section Ordered

variable [LT ν]

mutual

def Tree.Ordered : Tree ν μ → Prop
  | .leaf _ _ => True
  | .directory _ inside => inside.Ordered

def Entries.Ordered : Entries ν μ → Prop
  | .nil => True
  | .cons name tree rest => (∀ other ∈ rest.names, name < other) ∧ tree.Ordered ∧ rest.Ordered

end

end Ordered

-- Trimming

section Trim

variable (leafGoes : LeafKind → μ → Bool) (directoryGoes : μ → Bool)

def Entries.isEmpty : Entries ν μ → Bool
  | .nil => true
  | .cons _ _ _ => false

mutual

/-- The tree without the leaves that go, and then without the directories that go and are
empty. -/
def Tree.trim : Tree ν μ → Option (Tree ν μ)
  | .leaf kind metadata => if leafGoes kind metadata then none else some (.leaf kind metadata)
  | .directory metadata inside =>
    if directoryGoes metadata && inside.trim.isEmpty then none else some (.directory metadata inside.trim)

def Entries.trim : Entries ν μ → Entries ν μ
  | .nil => .nil
  | .cons name tree rest => rest.trim.put name tree.trim

end

variable {leafGoes directoryGoes}

theorem Entries.names_put {name : ν} (left : Option (Tree ν μ)) (rest : Entries ν μ) :
    (rest.put name left).names = (if left.isSome then [name] else []) ++ rest.names := by
  cases left <;> rfl

theorem Entries.mem_names_trim {name : ν} : ∀ inside : Entries ν μ,
    name ∈ (inside.trim leafGoes directoryGoes).names → name ∈ inside.names
  | .nil, h => h
  | .cons other tree rest, h => by
    rw [Entries.trim, names_put, List.mem_append] at h
    obtain h | h := h
    · split at h
      · rw [List.mem_singleton.mp h]
        exact List.mem_cons_self
      · exact absurd h List.not_mem_nil
    · exact List.mem_cons_of_mem _ (mem_names_trim rest h)

theorem trim_isSome_of_metadata {tree : Tree ν μ} (hleaf : ∀ kind, leafGoes kind tree.metadata = false)
    (hdirectory : directoryGoes tree.metadata = false) : (tree.trim leafGoes directoryGoes).isSome := by
  cases tree with
  | leaf kind metadata =>
    rw [Tree.trim, if_neg (Bool.not_eq_true _ ▸ hleaf kind)]
    rfl
  | directory metadata inside =>
    have h : directoryGoes metadata = false := hdirectory
    rw [Tree.trim, h]
    rfl

section Find

variable [LinearOrder ν]

theorem Entries.find_trim (name : ν) {path : List ν}
    (h : ∀ tree : Tree ν μ, tree.Ordered →
      ((tree.trim leafGoes directoryGoes).bind (·.find path)) =
        (tree.find path).bind (·.trim leafGoes directoryGoes)) :
    ∀ inside : Entries ν μ, inside.Ordered → (inside.trim leafGoes directoryGoes).find name path =
      (inside.find name path).bind (·.trim leafGoes directoryGoes)
  | .nil, _ => rfl
  | .cons other tree rest, ⟨hfirst, htree, hrest⟩ => by
    have ih := find_trim name h rest hrest
    rw [Entries.trim, Entries.find]
    by_cases hname : other = name
    · subst hname
      rw [if_pos rfl, ← h tree htree]
      cases tree.trim leafGoes directoryGoes with
      | some left => exact if_pos rfl
      | none =>
        -- the name is not listed once more
        refine find_eq_none _ fun hmem => ?_
        exact lt_irrefl other (hfirst other (mem_names_trim rest hmem))
    · rw [if_neg hname, ← ih]
      cases tree.trim leafGoes directoryGoes with
      | some left => exact if_neg hname
      | none => rfl

/-- **What is under a path of the trimmed tree is what was there, trimmed.** -/
theorem find_trim (path : List ν) (tree : Tree ν μ) (hordered : tree.Ordered) :
    (tree.trim leafGoes directoryGoes).bind (·.find path) =
      (tree.find path).bind (·.trim leafGoes directoryGoes) := by
  induction path generalizing tree with
  | nil => simp
  | cons name path ih =>
    cases tree with
    | leaf kind metadata =>
      rw [Tree.trim]
      split <;> rfl
    | directory metadata inside =>
      have hinside := Entries.find_trim name ih inside hordered
      have hfind : (Tree.directory metadata inside).find (name :: path) = inside.find name path := rfl
      rw [hfind, ← hinside, Tree.trim]
      split
      · -- nothing is left inside, under no path
        rename_i hgoes
        cases hempty : inside.trim leafGoes directoryGoes with
        | nil => rfl
        | cons _ _ _ =>
          rw [hempty, Entries.isEmpty, Bool.and_false] at hgoes
          cases hgoes
      · rfl

theorem Entries.isEmpty_iff {inside : Entries ν μ} :
    inside.isEmpty = true ↔ ∀ name, inside.find name [] = none := by
  cases inside with
  | nil => exact ⟨fun _ _ => rfl, fun _ => rfl⟩
  | cons name tree rest =>
    refine ⟨fun h => (by cases h), fun h => ?_⟩
    have hfirst := h name
    rw [Entries.find, if_pos rfl, find_nil] at hfirst
    cases hfirst

theorem trim_directory_iff {metadata : μ} {inside : Entries ν μ} :
    (Tree.directory metadata inside).trim leafGoes directoryGoes = none ↔ directoryGoes metadata = true ∧
      ∀ name, ((Tree.directory metadata inside).trim leafGoes directoryGoes).bind (·.find [name]) = none := by
  rw [Tree.trim]
  split
  · rename_i h
    exact iff_of_true rfl ⟨(Bool.and_eq_true_iff.mp h).1, fun _ => rfl⟩
  · rename_i h
    refine iff_of_false (Option.some_ne_none _) ?_
    rintro ⟨hgoes, hnone⟩
    exact h (Bool.and_eq_true_iff.mpr ⟨hgoes, Entries.isEmpty_iff.mpr hnone⟩)

end Find

end Trim

end FileTrees
