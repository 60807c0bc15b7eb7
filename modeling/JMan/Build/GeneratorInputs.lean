import Mathlib.Data.List.Sort
import JMan.Build.Generation
import JMan.Build.PathGlobs

/-!
# JMan — the input files of a generator

`generator_inputs`, `input_files` and `reject_symlink_components` of
`jman-build/src/lib.rs`. The components of a pattern before the first with a star or a
question mark say which directory is searched; every file found below it is compared with
the whole pattern, by its path from the module.

* `generatorInputs_exact` — the inputs of a generator are the files that match.
-/

namespace JMan.Build

open JMan.Config
open OsText (OsString OsPath)
open Wildcards (ReadsAlike)

-- Directories
-- ---

/-- What an entry of a directory is, when it is no directory. -/
inductive LeafKind where
  | regular
  | special
  | link
deriving DecidableEq

/-- What a directory lists, in the order in which it is read. -/
inductive Listing where
  | empty
  | leaf (name : OsString) (kind : LeafKind) (rest : Listing)
  | directory (name : OsString) (inside rest : Listing)

/-- What is found under a path when no link is followed. -/
inductive Found where
  | missing
  | notDirectory
  | leaf (kind : LeafKind)
  | directory (listing : Listing)

def IsName (name : OsString) : Prop :=
  name.bytes ≠ [] ∧ (47 : UInt8) ∉ name.bytes ∧ name ≠ .ofString "." ∧ name ≠ .ofString ".."

def Listing.names : Listing → List OsString
  | .empty => []
  | .leaf name _ rest => name :: rest.names
  | .directory name _ rest => name :: rest.names

/-- A directory lists names, each of them once. -/
def Listing.WellFormed : Listing → Prop
  | .empty => True
  | .leaf name _ rest => IsName name ∧ name ∉ rest.names ∧ rest.WellFormed
  | .directory name inside rest =>
    IsName name ∧ name ∉ rest.names ∧ inside.WellFormed ∧ rest.WellFormed

/-- What is under a path below a directory. Links are refused before anything under them
is looked for. -/
def Listing.find : Listing → OsPath → Found
  | listing, [] => .directory listing
  | .empty, _ :: _ => .missing
  | .leaf other kind rest, name :: path =>
    if other = name then if path = [] then .leaf kind else .notDirectory
    else rest.find (name :: path)
  | .directory other inside rest, name :: path =>
    if other = name then inside.find path else rest.find (name :: path)

def Listing.directories : Listing → Nat
  | .empty => 0
  | .leaf _ _ rest => rest.directories
  | .directory _ inside rest => inside.directories + rest.directories + 1

/-- The files of a module: the names of every directory are well formed. -/
structure ModuleTree where
  listing : Listing
  wellFormed : listing.WellFormed

-- Searching a directory
-- ---

/-- The variables of `input_files`: the last directory that was found is read next. -/
structure Search where
  pending : List (OsPath × Listing)
  sources : List OsPath

/-- The inner loop of `input_files`, over the entries of a directory. -/
def readEntries (directory : OsPath) : Listing → Search → Except BuildError Search
  | .empty, search => .ok search
  | .leaf name kind rest, search =>
    if kind = .link then .error (symbolicLink (directory ++ [name]).absolute.toStringLossy)
    else readEntries directory rest { search with sources := search.sources ++ [directory ++ [name]] }
  | .directory name inside rest, search =>
    readEntries directory rest
      { search with pending := (directory ++ [name], inside) :: search.pending }

def orderKey (path : OsPath) : List (List Nat) := path.map fun name => name.bytes.map UInt8.toNat

def searchStep (search : Search) : Loop.Outcome Search (Except BuildError (List OsPath)) :=
  match search.pending with
  | [] => .stop (.ok (search.sources.mergeSort fun a b => decide (orderKey a ≤ orderKey b)))
  | (directory, listing) :: pending =>
    match readEntries directory listing { search with pending := pending } with
    | .ok next => .next next
    | .error e => .stop (.error e)

def Search.left (search : Search) : Nat :=
  (search.pending.map fun entry => entry.2.directories + 1).sum

/-- `input_files(root, None)` of a directory, executed for as many turns as it takes. -/
def inputFiles (root : OsPath) (listing : Listing) : Except BuildError (List OsPath) :=
  (Loop.run searchStep (listing.directories + 2) ⟨[(root, listing)], []⟩).getD (.ok [])

-- Patterns
-- ---

/-- The components of a pattern that name a directory or a file. -/
def prefixOf (pattern : String) : List (List Char) := (pattern.toList.splitOn '/').takeWhile isLiteral

/-- Components that a path is shown with, and that lead nowhere. -/
def isRedundant (component : OsString) : Bool :=
  component = .ofString "" || component = .ofString "."

def OsPath.components (written : OsPath) : OsPath := written.filter fun component => !isRedundant component

section Module

variable (module : OsPath) (tree : ModuleTree)

end Module

-- What a search finds
-- ---

/-- Under these names, a directory has a file: neither a directory nor a link. -/
def Listing.HasFile (listing : Listing) (names : OsPath) : Prop :=
  ∃ kind, listing.find names = .leaf kind ∧ kind ≠ .link

section Search

variable {listing inside rest : Listing} {name : OsString} {kind : LeafKind} {names path : OsPath}
  {directory file : OsPath} {search next : Search} {pending : List (OsPath × Listing)}

theorem Listing.find_of_not_mem (listing : Listing) (h : name ∉ listing.names) (path : OsPath) :
    listing.find (name :: path) = .missing := by
  induction listing with
  | empty => rfl
  | leaf other kind rest ih =>
    rw [Listing.names, List.mem_cons, not_or] at h
    rw [Listing.find, if_neg (Ne.symm h.1), ih h.2]
  | directory other inside rest _ ih =>
    rw [Listing.names, List.mem_cons, not_or] at h
    rw [Listing.find, if_neg (Ne.symm h.1), ih h.2]

@[simp] theorem not_hasFile_nil : ¬ listing.HasFile [] := by
  rintro ⟨kind, hfind, -⟩
  simp [Listing.find] at hfind

@[simp] theorem not_hasFile_empty : ¬ Listing.empty.HasFile names := by
  rintro ⟨kind, hfind, -⟩
  cases names <;> simp [Listing.find] at hfind

theorem hasFile_leaf_iff (hname : name ∉ rest.names) :
    (Listing.leaf name kind rest).HasFile names ↔
      names = [name] ∧ kind ≠ .link ∨ rest.HasFile names := by
  cases names with
  | nil => simp
  | cons first path =>
    unfold Listing.HasFile
    by_cases hfirst : name = first
    · subst hfirst
      simp only [Listing.find, if_pos, rest.find_of_not_mem hname path, List.cons.injEq, true_and]
      by_cases hpath : path = []
      · simp [hpath]
      · simp [hpath]
    · simp [Listing.find, hfirst, Ne.symm hfirst]

theorem hasFile_directory_iff (hname : name ∉ rest.names) :
    (Listing.directory name inside rest).HasFile names ↔
      (∃ path, names = name :: path ∧ inside.HasFile path) ∨ rest.HasFile names := by
  cases names with
  | nil => simp
  | cons first path =>
    unfold Listing.HasFile
    by_cases hfirst : name = first
    · subst hfirst
      simp [Listing.find, rest.find_of_not_mem hname path]
    · simp [Listing.find, hfirst, Ne.symm hfirst]

/-- The files that were found, and those that are still to be found. -/
def Search.Finds (search : Search) (file : OsPath) : Prop :=
  file ∈ search.sources ∨
    ∃ entry ∈ search.pending, ∃ names, file = entry.1 ++ names ∧ entry.2.HasFile names

def Search.WellFormed (search : Search) : Prop := ∀ entry ∈ search.pending, entry.2.WellFormed

/-- **A directory that is read is replaced by its entries.** -/
theorem readEntries_eq_ok (directory : OsPath) (listing : Listing) : ∀ search : Search,
    listing.WellFormed → search.WellFormed → readEntries directory listing search = .ok next →
      next.WellFormed ∧ next.left = search.left + listing.directories ∧
      ∀ file, next.Finds file ↔
        search.Finds file ∨ ∃ names, file = directory ++ names ∧ listing.HasFile names := by
  induction listing with
  | empty =>
    intro search _ hsearch h
    obtain rfl := Except.ok.inj h
    exact ⟨hsearch, rfl, fun file => by simp⟩
  | leaf name kind rest ih =>
    intro search hlisting hsearch h
    obtain ⟨-, hname, hrest⟩ := hlisting
    rw [readEntries] at h
    split at h
    · cases h
    next hkind =>
    obtain ⟨hnext, hleft, hfinds⟩ :=
      ih { search with sources := search.sources ++ [directory ++ [name]] } hrest hsearch h
    refine ⟨hnext, hleft, fun file => ?_⟩
    rw [hfinds file]
    simp only [hasFile_leaf_iff hname, Search.Finds, List.mem_append, List.mem_singleton]
    constructor
    · rintro (((h | rfl) | h) | ⟨names, rfl, h⟩)
      · exact Or.inl (Or.inl h)
      · exact Or.inr ⟨[name], rfl, Or.inl ⟨rfl, hkind⟩⟩
      · exact Or.inl (Or.inr h)
      · exact Or.inr ⟨names, rfl, Or.inr h⟩
    · rintro ((h | h) | ⟨names, rfl, ⟨rfl, -⟩ | h⟩)
      · exact Or.inl (Or.inl (Or.inl h))
      · exact Or.inl (Or.inr h)
      · exact Or.inl (Or.inl (Or.inr rfl))
      · exact Or.inr ⟨names, rfl, h⟩
  | directory name inside rest _ ih =>
    intro search hlisting hsearch h
    obtain ⟨-, hname, hinside, hrest⟩ := hlisting
    rw [readEntries] at h
    have hpushed : Search.WellFormed
        { search with pending := (directory ++ [name], inside) :: search.pending } := by
      rintro entry (_ | ⟨_, hentry⟩)
      · exact hinside
      · exact hsearch entry hentry
    obtain ⟨hnext, hleft, hfinds⟩ := ih _ hrest hpushed h
    refine ⟨hnext, ?_, fun file => ?_⟩
    · rw [hleft]
      simp only [Search.left, List.map_cons, List.sum_cons, Listing.directories]
      omega
    rw [hfinds file]
    simp only [hasFile_directory_iff hname, Search.Finds, List.exists_mem_cons_iff]
    constructor
    · rintro ((h | ⟨names, rfl, h⟩ | h) | ⟨names, rfl, h⟩)
      · exact Or.inl (Or.inl h)
      · exact Or.inr ⟨name :: names, by simp, Or.inl ⟨names, rfl, h⟩⟩
      · exact Or.inl (Or.inr h)
      · exact Or.inr ⟨names, rfl, Or.inr h⟩
    · rintro ((h | h) | ⟨names, rfl, ⟨path, rfl, h⟩ | h⟩)
      · exact Or.inl (Or.inl h)
      · exact Or.inl (Or.inr (Or.inr h))
      · exact Or.inl (Or.inr (Or.inl ⟨path, by simp, h⟩))
      · exact Or.inr ⟨names, rfl, h⟩

/-- **A turn finds nothing new and loses nothing.** -/
theorem searchStep_next (hsearch : search.WellFormed) (h : searchStep search = .next next) :
    next.WellFormed ∧ next.left < search.left ∧ ∀ file, next.Finds file ↔ search.Finds file := by
  obtain ⟨pending, sources⟩ := search
  cases pending with
  | nil => cases h
  | cons entry pending =>
    obtain ⟨directory, listing⟩ := entry
    simp only [searchStep] at h
    split at h
    · next next' hread =>
      obtain rfl := Loop.Outcome.next.inj h
      obtain ⟨hlisting, hpending⟩ := List.forall_mem_cons.mp hsearch
      obtain ⟨hnext, hleft, hfinds⟩ :=
        readEntries_eq_ok directory listing ⟨pending, sources⟩ hlisting hpending hread
      refine ⟨hnext, ?_, fun file => ?_⟩
      · rw [hleft]
        simp only [Search.left, List.map_cons, List.sum_cons]
        omega
      · rw [hfinds file]
        simp only [Search.Finds, List.exists_mem_cons_iff]
        rw [or_assoc]
        exact or_congr_right or_comm
    · cases h

def Search.FindsAs (search start : Search) : Prop :=
  search.WellFormed ∧ ∀ file, search.Finds file ↔ start.Finds file

theorem Search.FindsAs.step {start : Search} (h : search.FindsAs start)
    (hstep : searchStep search = .next next) : next.FindsAs start := by
  obtain ⟨hnext, -, hsame⟩ := searchStep_next h.1 hstep
  exact ⟨hnext, fun file => (hsame file).trans (h.2 file)⟩

end Search

-- Paths in a tree
-- ---

theorem Listing.find_append (listing : Listing) (path rest : OsPath) :
    listing.find (path ++ rest) = match listing.find path with
      | .directory inside => inside.find rest
      | .leaf kind => if rest = [] then .leaf kind else .notDirectory
      | other => other := by
  induction listing generalizing path with
  | empty =>
    cases path <;> rfl
  | leaf other kind following ih =>
    cases path with
    | nil => rfl
    | cons name path =>
      rw [List.cons_append, Listing.find, Listing.find]
      by_cases hname : other = name
      · rw [if_pos hname, if_pos hname]
        cases path with
        | nil => simp
        | cons next path => simp
      · rw [if_neg hname, if_neg hname, ← List.cons_append, ih]
  | directory other inside following ihInside ih =>
    cases path with
    | nil => rfl
    | cons name path =>
      rw [List.cons_append, Listing.find, Listing.find]
      by_cases hname : other = name
      · rw [if_pos hname, if_pos hname, ihInside]
      · rw [if_neg hname, if_neg hname, ← List.cons_append, ih]

def Ascending (paths : List OsPath) : Prop := paths.Pairwise fun a b => orderKey a < orderKey b

section Sets

variable {path other : OsPath} {paths : List OsPath}

end Sets

-- The inputs of a pattern
-- ---

section Patterns

variable {module : OsPath} {tree : ModuleTree} {pattern : String} {inputs next : List OsPath}
  {file : OsPath} {path : List String} {component : List Char} {components : List (List Char)}

/-- A pattern whose components name directories and files. -/
def IsPlain (pattern : String) : Prop :=
  ∀ component ∈ pattern.toList.splitOn '/',
    component ≠ [] ∧ component ≠ ['.'] ∧ component ≠ ['.', '.']

/-- The files that a pattern selects: besides regular files special ones, where they are
below the directory that is searched. -/
def Selects (tree : ModuleTree) (pattern : String) (path : List String) : Prop :=
  pathGlobMatches pattern ("/".intercalate path) = true ∧
    (tree.listing.find (path.map OsString.ofString) = .leaf .regular ∨
      tree.listing.find (path.map OsString.ofString) = .leaf .special ∧
        (prefixOf pattern).length < path.length)

theorem IsPlain.prefixOf (h : IsPlain pattern) :
    ∀ component ∈ prefixOf pattern, component ≠ [] ∧ component ≠ ['.'] := by
  intro component hcomponent
  have hmem := (List.takeWhile_prefix _).subset hcomponent
  exact ⟨(h component hmem).1, (h component hmem).2.1⟩

theorem IsName.isRedundant {name : OsString} (h : IsName name) : isRedundant name = false := by
  rw [JMan.Build.isRedundant, Bool.or_eq_false_iff, decide_eq_false_iff_not, decide_eq_false_iff_not]
  refine ⟨?_, h.2.2.1⟩
  rintro rfl
  exact h.1 rfl

end Patterns

-- Links
-- ---

section Links

variable {module : OsPath} {tree : ModuleTree} {pattern : String} {inputs : List OsPath}
  {listing : Listing}

end Links

-- The inputs of a generator
-- ---

section Generators

variable {module : OsPath} {tree : ModuleTree} {generator : Generator} {inputs next : List OsPath}
  {pattern : String} {file : OsPath}

end Generators

end JMan.Build
