import Mathlib.Data.Finset.Sort
import JMan.Build.Artifacts

/-!
# JMan — class paths of a workspace

`discover_workspace_dependencies` and `discover_modules` of
`jman-build/src/lib.rs`, which find the path dependencies of manifests, and the
class paths `compile_module` and `package_fat` put together from the outputs of
the modules upstream, their locked artifacts and those of the module itself.
-/

namespace JMan.Build

open JMan.Config JMan.Resolver
open Paths (Path)

-- Path dependencies
-- ---

/-- A module as the walk of the workspace finds it: its canonical directory and
what is declared there. -/
abbrev Entry := Path × Manifest

/-- `{scope:?}` -/
def WorkspaceDependencyScope.debug : WorkspaceDependencyScope → String
  | .compile => "Compile"
  | .runtime => "Runtime"
  | .provided => "Provided"
  | .test => "Test"

def scopedDependencies (dependencies : Dependencies) :
    List (WorkspaceDependencyScope × BTreeMap DependencySpec) :=
  [(.compile, dependencies.compile), (.runtime, dependencies.runtime),
    (.provided, dependencies.provided), (.test, dependencies.test)]

def scopedPaths (dependencies : Dependencies) :
    List (WorkspaceDependencyScope × String × String) :=
  (scopedDependencies dependencies).flatMap fun entries =>
    entries.2.toList.filterMap fun entry =>
      entry.2.path?.map fun relative => (entries.1, entry.1, relative)

def Entry.coordinate (entry : Entry) : String :=
  entry.2.project.group ++ ":" ++ entry.2.project.name

section Discover

variable (canonicalize : Path → Option Path) (root : Path) (entries : List Entry)

/-- `indices.get(directory)`; the walk finds every directory once. -/
def indexOf? (directory : Path) : Option Nat :=
  entries.findIdx? fun entry => entry.1 = directory

/-- One path dependency of a module; `dependencies` are those before it, which are
the targets declared so far. -/
def discoverDependency (entry : Entry) (dependencies : List WorkspaceDependency)
    (scope : WorkspaceDependencyScope) (coordinate relative : String) :
    Except BuildError WorkspaceDependency :=
  match canonicalize (Paths.join entry.1 relative) with
  | none => .error (.io (Paths.display (Paths.join entry.1 relative))
      "No such file or directory (os error 2)")
  | some dependency =>
    if ¬ root.isPrefixOf dependency then
      .error (.invalid ("workspace dependency " ++ coordinate ++ " from " ++
        Paths.display entry.1 ++ " escapes workspace " ++ Paths.display root))
    else
      match indexOf? entries dependency with
      | none => .error (.invalid ("workspace dependency " ++ coordinate ++ " at " ++
          Paths.display dependency ++ " from " ++ Paths.display entry.1 ++
          " is not a declared workspace module"))
      | some index =>
        let expected := (entries[index]?.map Entry.coordinate).getD ""
        if indexOf? entries entry.1 = some index then
          .error (.invalid ("module `" ++ entry.2.project.name ++ "` cannot depend on itself"))
        else if coordinate ≠ expected then
          .error (.invalid ("workspace dependency `" ++ coordinate ++ "` points to `" ++ expected ++
            "` at " ++ Paths.display dependency))
        else
          match dependencies.find? fun dependency => dependency.index = index with
          | some previous => .error (.invalid ("workspace dependency `" ++ coordinate ++
              "` is declared in both " ++ previous.scope.debug ++ " and " ++ scope.debug ++ " scopes"))
          | none => .ok ⟨index, scope⟩

def discoverWorkspaceDependencies (entry : Entry) : Except BuildError (List WorkspaceDependency) := do
  let dependencies ← (scopedPaths entry.2.dependencies).foldlM
    (fun (dependencies : List WorkspaceDependency) declared => do
      let dependency ← discoverDependency canonicalize root entries entry dependencies declared.1
        declared.2.1 declared.2.2
      return dependencies ++ [dependency])
    []
  return dependencies.insertionSort fun left right => left.index ≤ right.index

def discoverModule (entry : Entry) : Except BuildError Module := do
  let dependencies ← discoverWorkspaceDependencies canonicalize root entries entry
  return ⟨entry.2.project.group, entry.2.project.name, entry.2.project.version, dependencies⟩

/-- `discover_modules`, from what its walk finds. -/
def discoverModules : Except BuildError (List Module) :=
  entries.mapM (discoverModule canonicalize root entries)

end Discover

section Discovered

variable {canonicalize : Path → Option Path} {root : Path} {entries : List Entry}

theorem index_lt_of_discoverDependency {entry : Entry} {dependencies : List WorkspaceDependency}
    {scope : WorkspaceDependencyScope} {coordinate relative : String} {d : WorkspaceDependency}
    (h : discoverDependency canonicalize root entries entry dependencies scope coordinate relative =
      .ok d) : d.index < entries.length := by
  unfold discoverDependency at h
  split at h
  · cases h
  split at h
  · cases h
  split at h
  · cases h
  next index hindex =>
  dsimp only at h
  split at h
  · cases h
  split at h
  · cases h
  split at h
  · cases h
  · cases h
    exact (List.findIdx?_eq_some_iff_getElem.mp hindex).1

theorem index_lt_of_discoverWorkspaceDependencies {entry : Entry}
    {dependencies : List WorkspaceDependency}
    (h : discoverWorkspaceDependencies canonicalize root entries entry = .ok dependencies) :
    ∀ d ∈ dependencies, d.index < entries.length := by
  obtain ⟨found, hfound, h⟩ := Fallible.bind_eq_ok.mp h
  cases h
  simp only [List.mem_insertionSort]
  refine Fallible.foldlM_invariant (P := fun found => ∀ d ∈ found, d.index < entries.length)
    (fun earlier declared found hearlier hturn => ?_) (fun d hd => by cases hd) hfound
  obtain ⟨dependency, hdependency, hturn⟩ := Fallible.bind_eq_ok.mp hturn
  cases hturn
  intro d hd
  rcases List.mem_append.mp hd with hd | hd
  · exact hearlier d hd
  · rw [List.mem_singleton.mp hd]
    exact index_lt_of_discoverDependency hdependency

theorem lt_of_mem_transitiveDependencies {modules : List Module}
    (h : discoverModules canonicalize root entries = .ok modules) {usage : DependencyUsage}
    {i j : Nat} (hj : j ∈ transitiveDependencies i modules usage) : j < entries.length := by
  obtain ⟨k, -, d, hd, -, rfl⟩ := Relation.TransGen.tail'_iff.mp (mem_transitiveDependencies.mp hj)
  unfold dependenciesAt at hd
  split at hd
  · next module hmodule =>
    obtain ⟨entry, -, hentry⟩ := Fallible.exists_of_mem_mapM h (List.mem_of_getElem? hmodule)
    obtain ⟨dependencies, hdependencies, hmodule⟩ := Fallible.bind_eq_ok.mp hentry
    cases hmodule
    exact index_lt_of_discoverWorkspaceDependencies hdependencies d hd
  · cases hd

end Discovered

-- Class paths
-- ---

def upstreamOf (usage : DependencyUsage) (modules : List Module) (index : Nat) : List Nat :=
  (transitiveDependencies index modules usage).sort (· ≤ ·)

theorem mem_upstreamOf {usage : DependencyUsage} {modules : List Module} {i j : Nat} :
    j ∈ upstreamOf usage modules i ↔ j ∈ transitiveDependencies i modules usage :=
  Finset.mem_sort _

/-- What stands on a class path: the classes of a module, or a file of the cache. -/
inductive ClasspathEntry where
  | output (index : Nat)
  | artifact (path : Path)
deriving DecidableEq

section Classpath

variable (cacheDir : Path) (files : FilePlace → Option ByteArray) (modules : List Module)
  (locks : Nat → Lockfile)

def lockedArtifacts (usage : DependencyUsage) (index : Nat) : Except BuildError (List Path) :=
  artifactPaths cacheDir files (usage.checksums (locks index).classpath) (locks index)

/-- `full_classpath` of `compile_module`. -/
def fullClasspath (index : Nat) : Except BuildError (List ClasspathEntry) := do
  let classpath ← lockedArtifacts cacheDir files locks .compile index
  let upstream := upstreamOf .compile modules index
  let artifacts ← upstream.mapM (lockedArtifacts cacheDir files locks .compile)
  return upstream.map .output ++ (artifacts.flatten ++ classpath).map .artifact

/-- `upstream_artifact_paths`: a set of paths. -/
def upstreamArtifactPaths (usage : DependencyUsage) (upstream : List Nat) :
    Except BuildError (List Path) := do
  let artifacts ← upstream.mapM (lockedArtifacts cacheDir files locks usage)
  return (artifacts.flatten.dedup).insertionSort (· ≤ ·)

/-- The archives `package_fat` merges. -/
def fatArtifacts (index : Nat) : Except BuildError (List Path) := do
  let dependencies ← upstreamArtifactPaths cacheDir files locks .runtime
    (upstreamOf .runtime modules index)
  let own ← lockedArtifacts cacheDir files locks .runtime index
  return dependencies ++ own

/-- The lock of a module names the artifact at a path for a class path. -/
def Names (usage : DependencyUsage) (index : Nat) (path : Path) : Prop :=
  ∃ checksum ∈ usage.checksums (locks index).classpath,
    artifactPath cacheDir files (locks index) checksum = .ok path

end Classpath

section Results

variable {cacheDir : Path} {files : FilePlace → Option ByteArray} {modules : List Module}
  {locks : Nat → Lockfile} {index : Nat}

theorem mem_lockedArtifacts {usage : DependencyUsage} {paths : List Path}
    (h : lockedArtifacts cacheDir files locks usage index = .ok paths) (path : Path) :
    path ∈ paths ↔ Names cacheDir files locks usage index path := by
  constructor
  · exact fun hpath => Fallible.exists_of_mem_mapM h hpath
  · rintro ⟨checksum, hchecksum, hpath⟩
    obtain ⟨found, hfound, hsame⟩ := Fallible.exists_of_mem_of_mapM h hchecksum
    cases hsame.symm.trans hpath
    exact hfound

theorem mem_flatten_lockedArtifacts {usage : DependencyUsage} {upstream : List Nat}
    {artifacts : List (List Path)}
    (h : upstream.mapM (lockedArtifacts cacheDir files locks usage) = .ok artifacts) (path : Path) :
    path ∈ artifacts.flatten ↔ ∃ j ∈ upstream, Names cacheDir files locks usage j path := by
  rw [List.mem_flatten]
  constructor
  · rintro ⟨paths, hpaths, hpath⟩
    obtain ⟨j, hj, hfound⟩ := Fallible.exists_of_mem_mapM h hpaths
    exact ⟨j, hj, (mem_lockedArtifacts hfound path).mp hpath⟩
  · rintro ⟨j, hj, hchecksum⟩
    obtain ⟨paths, hpaths, hfound⟩ := Fallible.exists_of_mem_of_mapM h hj
    exact ⟨paths, hpaths, (mem_lockedArtifacts hfound path).mpr hchecksum⟩

/-- A class path: the outputs of the modules upstream, the artifacts they name, and
those of the module itself. -/
theorem fullClasspath_eq_ok {classpath : List ClasspathEntry}
    (h : fullClasspath cacheDir files modules locks index = .ok classpath) :
    ∃ upstream own : List Path,
      classpath = (upstreamOf .compile modules index).map .output ++ (upstream ++ own).map .artifact ∧
      (∀ path, path ∈ upstream ↔ ∃ j ∈ transitiveDependencies index modules .compile,
        Names cacheDir files locks .compile j path) ∧
      ∀ path, path ∈ own ↔ Names cacheDir files locks .compile index path := by
  obtain ⟨own, hown, h⟩ := Fallible.bind_eq_ok.mp h
  obtain ⟨artifacts, hartifacts, h⟩ := Fallible.bind_eq_ok.mp h
  cases h
  refine ⟨artifacts.flatten, own, rfl, fun path => ?_, mem_lockedArtifacts hown⟩
  rw [mem_flatten_lockedArtifacts hartifacts]
  simp only [mem_upstreamOf]

theorem fatArtifacts_eq_ok {archives : List Path}
    (h : fatArtifacts cacheDir files modules locks index = .ok archives) :
    ∃ upstream own : List Path, archives = upstream ++ own ∧
      (∀ path, path ∈ upstream ↔ ∃ j ∈ transitiveDependencies index modules .runtime,
        Names cacheDir files locks .runtime j path) ∧
      ∀ path, path ∈ own ↔ Names cacheDir files locks .runtime index path := by
  obtain ⟨upstream, hupstream, h⟩ := Fallible.bind_eq_ok.mp h
  obtain ⟨own, hown, h⟩ := Fallible.bind_eq_ok.mp h
  obtain ⟨artifacts, hartifacts, hsorted⟩ := Fallible.bind_eq_ok.mp hupstream
  cases h
  cases hsorted
  refine ⟨_, own, rfl, fun path => ?_, mem_lockedArtifacts hown⟩
  rw [List.mem_insertionSort, List.mem_dedup, mem_flatten_lockedArtifacts hartifacts]
  simp only [mem_upstreamOf]

theorem output_mem_fullClasspath {classpath : List ClasspathEntry}
    (h : fullClasspath cacheDir files modules locks index = .ok classpath) {j : Nat} :
    ClasspathEntry.output j ∈ classpath ↔ j ∈ transitiveDependencies index modules .compile := by
  obtain ⟨upstream, own, rfl, -, -⟩ := fullClasspath_eq_ok h
  simp [mem_upstreamOf]

theorem artifact_mem_fullClasspath {classpath : List ClasspathEntry}
    (h : fullClasspath cacheDir files modules locks index = .ok classpath) {path : Path}
    (hpath : Names cacheDir files locks .compile index path) :
    ClasspathEntry.artifact path ∈ classpath := by
  obtain ⟨upstream, own, rfl, -, hown⟩ := fullClasspath_eq_ok h
  rw [← hown] at hpath
  exact List.mem_append_right _ (List.mem_map_of_mem (List.mem_append_right _ hpath))

end Results

end JMan.Build
