import JMan.Resolver.Downloads
import JMan.Resolver.Identity
import JMan.Build.Discovery
import JMan.Cli.Sync

/-!
# JMan — class paths of synchronized workspaces

Synchronization resolves the modules of a workspace one by one, without their
path dependencies, and the build puts the locks of the modules upstream before
that of a module. So a class path has the versions each of these modules has
selected (`classpath_of_mediated`), and it has the modules of a graph that are
path dependencies as well (`classpath_covers_iff`).
-/

namespace JMan.Cli

open JMan.Config JMan.Resolver JMan.Build
open Paths (Path)

-- Synchronized workspaces
-- ---

def projectOf (entry : Build.Entry) : Except Failure MavenProject := do
  let effective ← effectiveFromManifest entry.2
  return ⟨pathOf entry.1 .manifest, effective⟩

/-- A workspace: what its walk finds, as the resolver and as the build see it. -/
structure Workspace where
  machine : Machine
  root : Path
  entries : List Build.Entry
  projects : List MavenProject
  modules : List Module
  translated : entries.mapM projectOf = .ok projects
  discovered : discoverModules machine.layout.canonicalize root entries = .ok modules

/-- What a synchronization of every module has resolved and locked. -/
structure Synchronization (workspace : Workspace) where
  /-- the repositories of a module -/
  resolvers : Nat → DependencyResolver
  order : CompletionOrder
  graphs : Nat → ResolvedGraph
  locks : Nat → Lockfile
  resolved : ∀ {i : Nat} {project : MavenProject}, workspace.projects[i]? = some project →
    Resolves (resolvers i) order project.effective workspace.projects (.ok (graphs i))
  locked : ∀ i < workspace.projects.length, ∃ manifest workspaceHash javaRelease dependencies,
    locks i = lockFromGraph workspace.machine manifest workspaceHash javaRelease dependencies
      (graphs i)

section Locked

variable {workspace : Workspace} (s : Synchronization workspace) {cacheDir : Path}
  {files : FilePlace → Option ByteArray} {i : Nat} {project : MavenProject}

theorem Synchronization.classpath_locks (hi : workspace.projects[i]? = some project) :
    (s.locks i).classpath = ⟨(s.graphs i).compileClasspath, (s.graphs i).runtimeClasspath,
      (s.graphs i).testClasspath, (s.graphs i).processorClasspath⟩ := by
  obtain ⟨hlt, -⟩ := List.getElem?_eq_some_iff.mp hi
  obtain ⟨manifest, workspaceHash, javaRelease, dependencies, hlock⟩ := s.locked i hlt
  rw [hlock]
  rfl

-- Covered packages
-- ---

/-- Main sources compile against the package: it is no POM. -/
def OnCompile (package : ResolvedPackage) : Prop :=
  package.coordinate.extension ≠ "pom" ∧
    ∃ scope ∈ package.effectiveScopes, scope = "compile" ∨ scope = "provided"

def HasCoordinate (workspace : Workspace) (j : Nat) (coordinate : Coordinate) : Prop :=
  ∃ module, workspace.modules[j]? = some module ∧ module.group = coordinate.group ∧
    module.name = coordinate.artifact ∧ module.version = coordinate.version

/-- The artifact of a package, as the lock of module `j` names it, is on a class path. -/
def Synchronization.ArtifactOn (cacheDir : Path) (files : FilePlace → Option ByteArray) (j : Nat)
    (classpath : List ClasspathEntry) (package : ResolvedPackage) : Prop :=
  ∃ checksum path, package.artifactChecksum = some checksum ∧
    artifactPath cacheDir files (s.locks j) checksum = .ok path ∧
    ClasspathEntry.artifact path ∈ classpath

/-- The package is on a class path: its locked artifact, or the classes of the
module with its coordinate. -/
def Synchronization.Covers (cacheDir : Path) (files : FilePlace → Option ByteArray) (i : Nat)
    (classpath : List ClasspathEntry) (package : ResolvedPackage) : Prop :=
  s.ArtifactOn cacheDir files i classpath package ∨
    ∃ j, HasCoordinate workspace j package.coordinate ∧ ClasspathEntry.output j ∈ classpath

theorem Synchronization.artifact_covered (hi : workspace.projects[i]? = some project)
    {classpath : List ClasspathEntry}
    (hbuild : fullClasspath cacheDir files workspace.modules s.locks i = .ok classpath)
    {package : ResolvedPackage} (hpackage : package ∈ (s.graphs i).packages)
    (hcompile : OnCompile package)
    (hexternal : findLocalModule workspace.projects package.coordinate = none) :
    s.Covers cacheDir files i classpath package := by
  obtain ⟨hextension, scope, hscope, hadmitted⟩ := hcompile
  obtain ⟨cached, -, hchecksum, -⟩ :=
    (artifact_of_resolved (s.resolved hi) hpackage).1 ⟨hexternal, hextension⟩
  have hlocked : cached.checksum ∈ (s.locks i).classpath.compile := by
    obtain ⟨core, packages, -, -, hgraph⟩ := resolves_ok (s.resolved hi)
    rw [s.classpath_locks hi]
    rw [hgraph, packages_buildClasspaths] at hpackage
    have hon := (mem_classpath_buildClasspaths packages .compile cached.checksum).mpr
      ⟨package, hpackage, hchecksum, scope, hscope, by simpa [Classpath.scopes] using hadmitted⟩
    rw [← hgraph] at hon
    exact hon
  -- the build has looked up every checksum of the module's own lock
  obtain ⟨own, hown, -⟩ := Fallible.bind_eq_ok.mp hbuild
  obtain ⟨path, -, hpath⟩ := Fallible.exists_of_mem_of_mapM hown hlocked
  exact Or.inl ⟨_, path, hchecksum, hpath,
    artifact_mem_fullClasspath hbuild ⟨_, hlocked, hpath⟩⟩

/-- **Where class paths have no holes.** Every package of a module's graph that main
sources compile against is on the class path exactly when each of them that is a
module of the workspace has its coordinate among the compile and provided path
dependencies, direct or transitive. -/
theorem classpath_covers_iff (hi : workspace.projects[i]? = some project)
    {classpath : List ClasspathEntry}
    (hbuild : fullClasspath cacheDir files workspace.modules s.locks i = .ok classpath) :
    (∀ package ∈ (s.graphs i).packages, OnCompile package →
      s.Covers cacheDir files i classpath package) ↔
    ∀ package ∈ (s.graphs i).packages, OnCompile package →
      findLocalModule workspace.projects package.coordinate ≠ none →
        ∃ j ∈ transitiveDependencies i workspace.modules .compile,
          HasCoordinate workspace j package.coordinate := by
  constructor
  · intro h package hpackage hcompile hlocal
    rcases h package hpackage hcompile with ⟨checksum, path, hchecksum, -⟩ | ⟨j, hj, houtput⟩
    · -- a module of the workspace is resolved without an artifact
      have hnone := ((artifact_of_resolved (s.resolved hi) hpackage).2
        fun hdown => hlocal hdown.1).1
      rw [hnone] at hchecksum
      cases hchecksum
    · exact ⟨j, (output_mem_fullClasspath hbuild).mp houtput, hj⟩
  · intro h package hpackage hcompile
    by_cases hlocal : findLocalModule workspace.projects package.coordinate = none
    · exact s.artifact_covered hi hbuild hpackage hcompile hlocal
    · obtain ⟨j, hj, hcoordinate⟩ := h package hpackage hcompile hlocal
      exact Or.inr ⟨j, hcoordinate, (output_mem_fullClasspath hbuild).mpr hj⟩

-- Selected versions
-- ---

/-- The module selects this version for a key, by the candidate tree of its own
project, and has it on a class path. -/
def Synchronization.Selects (j : Nat) (cp : Classpath) (k : String) (coordinate : Coordinate) :
    Prop :=
  ∃ project T, workspace.projects[j]? = some project ∧
    CandidateTree (s.resolvers j) project.effective T ∧
    OnClasspath (s.resolvers j) workspace.projects T cp k coordinate

/-- The file is the artifact of a version that the module selects. -/
def Synchronization.Supplies (cacheDir : Path) (files : FilePlace → Option ByteArray) (j : Nat)
    (cp : Classpath) (path : Path) : Prop :=
  ∃ k coordinate cached, s.Selects j cp k coordinate ∧
    (s.resolvers j).fetch coordinate = .ok cached ∧
    artifactPath cacheDir files (s.locks j) cached.checksum = .ok path

theorem Synchronization.selects_unique {j : Nat} {cp : Classpath} {k : String}
    {coordinate coordinate' : Coordinate} (h : s.Selects j cp k coordinate)
    (h' : s.Selects j cp k coordinate') : coordinate = coordinate' := by
  obtain ⟨project, T, hproject, hT, hon⟩ := h
  obtain ⟨project', T', hproject', hT', hon'⟩ := h'
  cases hproject.symm.trans hproject'
  obtain rfl := hT.unique hT'
  exact hon.unique (s.resolved hproject) hT hon'

def Synchronization.OneVersionOn (cacheDir : Path) (files : FilePlace → Option ByteArray)
    (classpath : List ClasspathEntry) : Prop :=
  ∀ j j' package package', package ∈ (s.graphs j).packages → package' ∈ (s.graphs j').packages →
    package.coordinate.identity = package'.coordinate.identity →
    s.ArtifactOn cacheDir files j classpath package →
    s.ArtifactOn cacheDir files j' classpath package' →
      package.coordinate.version = package'.coordinate.version

theorem Synchronization.supplies_iff (usage : DependencyUsage) {j : Nat}
    (hj : workspace.projects[j]? = some project) (path : Path) :
    s.Supplies cacheDir files j usage.classpath path ↔
      Names cacheDir files s.locks usage j path := by
  have hchecksums : usage.checksums (s.locks j).classpath = (s.graphs j).classpath usage.classpath := by
    rw [s.classpath_locks hj]
    cases usage <;> rfl
  have hresolved := s.resolved hj
  rw [Names, hchecksums]
  constructor
  · rintro ⟨k, coordinate, cached, ⟨project', T, hproject', hT, hon⟩, hcached, hpath⟩
    cases hj.symm.trans hproject'
    exact ⟨_, (mem_classpath_of_resolved hresolved hT).mpr ⟨k, coordinate, cached, hon, hcached,
      rfl⟩, hpath⟩
  · rintro ⟨checksum, hchecksum, hpath⟩
    obtain ⟨core, packages, hmed, -, -⟩ := resolves_ok hresolved
    obtain ⟨run, -, hrun, hq, -⟩ := mediated_history hmed
    have hT := candidateTree_of_run hrun hq
    obtain ⟨k, coordinate, cached, hon, hcached, rfl⟩ :=
      (mem_classpath_of_resolved hresolved hT).mp hchecksum
    exact ⟨k, coordinate, cached, ⟨project, _, hj, hT, hon⟩, hcached, hpath⟩

theorem Synchronization.supplies_upstream_iff (usage : DependencyUsage) (path : Path) :
    (∃ j ∈ transitiveDependencies i workspace.modules usage,
      s.Supplies cacheDir files j usage.classpath path) ↔
    ∃ j ∈ transitiveDependencies i workspace.modules usage,
      Names cacheDir files s.locks usage j path := by
  refine exists_congr fun j => and_congr_right fun hj => ?_
  have hlength := (Fallible.mapM_eq_ok.mp workspace.translated).length_eq
  have hlt := lt_of_mem_transitiveDependencies workspace.discovered hj
  exact s.supplies_iff usage (List.getElem?_eq_getElem (hlength ▸ hlt)) path

end Locked

/-- **Class paths have the versions that each module selects.** The artifacts that
`compile_module` gives to javac are those of the modules upstream, followed by the
module's own; so are the ones that `package_fat` merges. Each module selects one
version for a key, by nearest-wins mediation of its own graph. -/
theorem classpath_of_mediated {workspace : Workspace} (s : Synchronization workspace)
    (cacheDir : Path) (files : FilePlace → Option ByteArray) {i : Nat} {project : MavenProject}
    (hi : workspace.projects[i]? = some project) :
    (∀ classpath, fullClasspath cacheDir files workspace.modules s.locks i = .ok classpath →
      ∃ upstream own : List Path, classpath =
          (upstreamOf .compile workspace.modules i).map .output ++ (upstream ++ own).map .artifact ∧
        (∀ path, path ∈ upstream ↔ ∃ j ∈ transitiveDependencies i workspace.modules .compile,
          s.Supplies cacheDir files j .compile path) ∧
        ∀ path, path ∈ own ↔ s.Supplies cacheDir files i .compile path) ∧
    (∀ archives, fatArtifacts cacheDir files workspace.modules s.locks i = .ok archives →
      ∃ upstream own : List Path, archives = upstream ++ own ∧
        (∀ path, path ∈ upstream ↔ ∃ j ∈ transitiveDependencies i workspace.modules .runtime,
          s.Supplies cacheDir files j .runtime path) ∧
        ∀ path, path ∈ own ↔ s.Supplies cacheDir files i .runtime path) ∧
    ∀ j cp k coordinate coordinate', s.Selects j cp k coordinate → s.Selects j cp k coordinate' →
      coordinate = coordinate' := by
  refine ⟨fun classpath h => ?_, fun archives h => ?_, fun j cp k coordinate coordinate' => ?_⟩
  · obtain ⟨upstream, own, hclasspath, hupstream, hown⟩ := fullClasspath_eq_ok h
    refine ⟨upstream, own, hclasspath, fun path => ?_, fun path => ?_⟩
    · exact (hupstream path).trans (s.supplies_upstream_iff .compile path).symm
    · exact (hown path).trans (s.supplies_iff .compile hi path).symm
  · obtain ⟨upstream, own, harchives, hupstream, hown⟩ := fatArtifacts_eq_ok h
    refine ⟨upstream, own, harchives, fun path => ?_, fun path => ?_⟩
    · exact (hupstream path).trans (s.supplies_upstream_iff .runtime path).symm
    · exact (hown path).trans (s.supplies_iff .runtime hi path).symm
  · exact s.selects_unique

-- Two modules
-- ---

def Workspace.ofRun (machine : Machine) (root : Path) (entries : List Build.Entry)
    (ht : (entries.mapM projectOf).toOption.isSome)
    (hd : (discoverModules machine.layout.canonicalize root entries).toOption.isSome) :
    Workspace where
  machine := machine
  root := root
  entries := entries
  projects := (entries.mapM projectOf).toOption.get ht
  modules := (discoverModules machine.layout.canonicalize root entries).toOption.get hd
  translated := Fallible.eq_ok_of_toOption (Option.some_get ht).symm
  discovered := Fallible.eq_ok_of_toOption (Option.some_get hd).symm

def resolvedGraph (resolver : DependencyResolver) (workspace : Workspace) (fuel i : Nat) :
    Option ResolvedGraph :=
  workspace.projects[i]?.bind fun project =>
    (resolveInWorkspace resolver .spawned project.effective workspace.projects fuel).bind
      Except.toOption

def Synchronization.ofRun (resolver : DependencyResolver) (workspace : Workspace) (fuel : Nat)
    (h : ∀ i < workspace.projects.length, (resolvedGraph resolver workspace fuel i).isSome) :
    Synchronization workspace where
  resolvers _ := resolver
  order := .spawned
  graphs i := (resolvedGraph resolver workspace fuel i).getD ⟨[], [], [], [], []⟩
  locks i := lockFromGraph workspace.machine "" "" 21 []
    ((resolvedGraph resolver workspace fuel i).getD ⟨[], [], [], [], []⟩)
  resolved {i project} hi := by
    obtain ⟨hlt, -⟩ := List.getElem?_eq_some_iff.mp hi
    obtain ⟨graph, hgraph⟩ := Option.isSome_iff_exists.mp (h i hlt)
    have hrun := hgraph
    rw [resolvedGraph, hi, Option.bind_some] at hrun
    obtain ⟨found, hfound, hsame⟩ := resolves_of_run id fuel (congrArg (Option.map id) hrun)
    cases hsame
    rw [hgraph]
    exact hfound
  locked i _ := ⟨"", "", 21, [], rfl⟩

def compileManifest (name : String) (dependencies : List (String × DependencySpec)) : Manifest :=
  { sampleManifest name [] none with
    dependencies := ⟨Std.ExtTreeMap.ofList dependencies, ∅, ∅, ∅⟩ }

def twoModules (app lib : List (String × DependencySpec)) : List Build.Entry :=
  [(["ws"], sampleManifest "root" ["app", "lib"] none), (["ws", "app"], compileManifest "app" app),
    (["ws", "lib"], compileManifest "lib" lib)]

def twoModulesRepository : DependencyResolver :=
  { DependencyResolver.ofModels
      [EffectivePom.declare "org.example" "lib" "1" [],
        EffectivePom.declare "org.example" "base" "1" [],
        EffectivePom.declare "org.example" "base" "2" []] with
    read := fun _ => .ok [] }

def holeWorkspace : Workspace :=
  .ofRun sampleMachine ["ws"] (twoModules [("org.example:lib", .version "1")] [])
    (by decide +kernel) (by decide +kernel)

def holeSynchronization : Synchronization holeWorkspace :=
  .ofRun twoModulesRepository holeWorkspace 4 (by decide +kernel)

/-- `app` is compiled without `lib`. -/
theorem classpath_has_hole :
    fullClasspath ["cache"] (fun _ => none) holeWorkspace.modules holeSynchronization.locks 1 =
      .ok [] ∧
    ∃ package ∈ (holeSynchronization.graphs 1).packages, OnCompile package ∧
      package.coordinate = Coordinate.jar "org.example" "lib" "1" ∧
      ¬ holeSynchronization.Covers ["cache"] (fun _ => none) 1 [] package := by
  have hpackage : ∃ package ∈ (holeSynchronization.graphs 1).packages,
      package.coordinate.extension ≠ "pom" ∧
      (∃ scope ∈ package.effectiveScopes, scope = "compile" ∨ scope = "provided") ∧
      package.coordinate = Coordinate.jar "org.example" "lib" "1" := by decide +kernel
  obtain ⟨package, hmem, hextension, hscope, hname⟩ := hpackage
  refine ⟨Fallible.eq_ok_of_toOption (by decide +kernel), package, hmem, ⟨hextension, hscope⟩,
    hname, ?_⟩
  rintro (⟨checksum, path, -, -, hon⟩ | ⟨j, -, hon⟩)
  · cases hon
  · cases hon

def conflictWorkspace : Workspace :=
  .ofRun sampleMachine ["ws"]
    (twoModules [("org.example:base", .version "1"), ("org.example:lib", .path "../lib")]
      [("org.example:base", .version "2")])
    (by decide +kernel) (by decide +kernel)

def conflictSynchronization : Synchronization conflictWorkspace :=
  .ofRun twoModulesRepository conflictWorkspace 4 (by decide +kernel)

def cachedBase (version : String) : Path :=
  ["cache", "artifacts", "org.example:base:" ++ version ++ ".jar"]

def conflictClasspath : List ClasspathEntry :=
  [.output 2, .artifact (cachedBase "2"), .artifact (cachedBase "1")]

theorem fullClasspath_conflict :
    fullClasspath ["cache"] (fun _ => some .empty) conflictWorkspace.modules
      conflictSynchronization.locks 1 = .ok conflictClasspath :=
  Fallible.eq_ok_of_toOption (by decide +kernel)

theorem project_app : ∃ project, conflictWorkspace.projects[1]? = some project :=
  Option.isSome_iff_exists.mp (by decide +kernel)

/-- The packages of `app` are all external, and covered. -/
theorem conflict_is_covered : (conflictSynchronization.graphs 1).packages ≠ [] ∧
    ∀ package ∈ (conflictSynchronization.graphs 1).packages, OnCompile package →
      conflictSynchronization.Covers ["cache"] (fun _ => some .empty) 1 conflictClasspath package := by
  refine ⟨by decide +kernel, ?_⟩
  obtain ⟨project, hproject⟩ := project_app
  have hexternal : ∀ package ∈ (conflictSynchronization.graphs 1).packages,
      findLocalModule conflictWorkspace.projects package.coordinate = none := by decide +kernel
  refine (classpath_covers_iff conflictSynchronization hproject fullClasspath_conflict).mpr ?_
  exact fun package hpackage _ hlocal => absurd (hexternal package hpackage) hlocal

/-- The version that `lib` selects stands before the one `app` declares. -/
theorem classpath_has_two_versions :
    fullClasspath ["cache"] (fun _ => some .empty) conflictWorkspace.modules
      conflictSynchronization.locks 1 = .ok conflictClasspath ∧
    fatArtifacts ["cache"] (fun _ => some .empty) conflictWorkspace.modules
      conflictSynchronization.locks 1 = .ok [cachedBase "2", cachedBase "1"] ∧
    ¬ conflictSynchronization.OneVersionOn ["cache"] (fun _ => some .empty) conflictClasspath := by
  refine ⟨fullClasspath_conflict, Fallible.eq_ok_of_toOption (by decide +kernel), fun h => ?_⟩
  have hbase : ∀ j version, j = 1 ∧ version = "1" ∨ j = 2 ∧ version = "2" →
      ∃ package ∈ (conflictSynchronization.graphs j).packages,
        package.coordinate = Coordinate.jar "org.example" "base" version ∧
        package.artifactChecksum = some ("sha256:org.example:base:" ++ version) ∧
        (artifactPath ["cache"] (fun _ => some .empty) (conflictSynchronization.locks j)
          ("sha256:org.example:base:" ++ version)).toOption = some (cachedBase version) ∧
        ClasspathEntry.artifact (cachedBase version) ∈ conflictClasspath := by
    rintro j version (⟨rfl, rfl⟩ | ⟨rfl, rfl⟩) <;> decide +kernel
  obtain ⟨first, hfirst, hco, hchecksum, hpath, hon⟩ := hbase 1 "1" (Or.inl ⟨rfl, rfl⟩)
  obtain ⟨second, hsecond, hco', hchecksum', hpath', hon'⟩ := hbase 2 "2" (Or.inr ⟨rfl, rfl⟩)
  have hsame := h 1 2 first second hfirst hsecond (by rw [hco, hco']; rfl)
    ⟨_, _, hchecksum, Fallible.eq_ok_of_toOption hpath, hon⟩
    ⟨_, _, hchecksum', Fallible.eq_ok_of_toOption hpath', hon'⟩
  rw [hco, hco'] at hsame
  revert hsame
  decide +kernel

theorem conflicting_versions_are_selected : ∃ upstream own : List Path,
    conflictClasspath =
      (upstreamOf .compile conflictWorkspace.modules 1).map .output ++
        (upstream ++ own).map .artifact ∧
    (∀ path, path ∈ upstream ↔ ∃ j ∈ transitiveDependencies 1 conflictWorkspace.modules .compile,
      conflictSynchronization.Supplies ["cache"] (fun _ => some .empty) j .compile path) ∧
    ∀ path, path ∈ own ↔
      conflictSynchronization.Supplies ["cache"] (fun _ => some .empty) 1 .compile path := by
  obtain ⟨project, hproject⟩ := project_app
  exact (classpath_of_mediated conflictSynchronization ["cache"] (fun _ => some .empty) hproject).1 _
    fullClasspath_conflict

end JMan.Cli
