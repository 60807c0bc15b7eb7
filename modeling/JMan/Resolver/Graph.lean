import Mathlib.Data.List.Sort
import JMan.Lib.Worklist
import JMan.Resolver.Model

/-!
# JMan — dependency resolution and mediation

The embedding of `jman-resolver/src/graph.rs`: `resolve_in_workspace` with the
functions it calls. The candidate loop is a worklist machine (`mediation`);
its visit is the body of the `while let`, its housekeeping the POM prefetch at
the end of the body.

What lies outside the file is a parameter (`DependencyResolver`): the answers
of the `EffectiveModelBuilder` in which the workspace models were remembered,
the repository client's `fetch`, and reading a file. The artifact downloads
run concurrently, so the order in which they are joined is a parameter too
(`CompletionOrder`); any order of the scheduled downloads is possible.

The loop need not end (a relocation cycle keeps it going), so
`resolveInWorkspace` takes fuel, and `Resolves` says that some fuel is enough.
-/

namespace JMan.Resolver

open Worklist (Move)

/-! ## Data -/

structure CachedFile where
  path : String
  checksum : String
  bytes : List UInt8
  source : String
deriving DecidableEq

structure ResolvedPackage where
  coordinate : Coordinate
  source : String
  pomChecksum : String
  artifactChecksum : Option String
  artifactSize : Option Nat
  artifactPath : Option String
  dependencies : List String
  effectiveScopes : List String
  selectedParent : Option Nat
deriving DecidableEq, Repr, Inhabited

structure ResolvedGraph where
  packages : List ResolvedPackage
  compileClasspath : List String
  runtimeClasspath : List String
  testClasspath : List String
  processorClasspath : List String
deriving DecidableEq

structure Candidate where
  dependency : Dependency
  scope : String
  activeExclusions : List Exclusion
  descendantExclusions : List Exclusion
  parent : Option Nat
deriving DecidableEq

/-- What resolution asks of the model builder, the repository client and the
file system. -/
structure DependencyResolver where
  buildCoordinate : Coordinate → Except ResolverError EffectivePom
  fetch : Coordinate → Except ResolverError CachedFile
  read : String → Except ResolverError (List UInt8)
  sha256 : List UInt8 → String

/-- The local state of `resolve_in_workspace` besides the queue: the packages
of `graph`, `selected`, `prefetched_poms`, and the downloads spawned so far. -/
structure Mediation where
  packages : List ResolvedPackage
  selected : List (String × Nat)
  prefetched : List String
  downloads : List (Nat × Coordinate)
deriving DecidableEq

structure CompletionOrder where
  order : List (Nat × Coordinate) → List (Nat × Coordinate)
  perm : ∀ downloads, (order downloads).Perm downloads

def CompletionOrder.spawned : CompletionOrder := ⟨id, fun _ => List.Perm.refl _⟩

/-! ## Candidates -/

/-- `candidate.active_exclusions.iter().any(..)`. -/
def Candidate.excluded (c : Candidate) : Bool :=
  c.activeExclusions.any fun exclusion => exclusion.isMatch c.dependency

def rootCandidates (project : EffectivePom) : List Candidate :=
  project.dependencies.map (fun dependency =>
    { dependency := dependency
      scope := dependency.scope
      activeExclusions := []
      descendantExclusions := dependency.exclusions
      parent := none }) ++
  project.annotationProcessors.map fun processor =>
    { dependency := processor.dependency
      scope := "processor"
      activeExclusions := []
      descendantExclusions := processor.dependency.exclusions
      parent := none }

def relocationOf (coordinate : Coordinate) (effective : EffectivePom) : Option Coordinate :=
  match effective.relocation with
  | none => none
  | some relocation =>
    if relocation.group ≠ coordinate.group ∨ relocation.artifact ≠ coordinate.artifact ∨
        relocation.version ≠ coordinate.version then
      some relocation
    else
      none

def Candidate.relocate (c : Candidate) (relocation : Coordinate) : Candidate :=
  { c with
    dependency :=
      { c.dependency with
        group := relocation.group
        artifact := relocation.artifact
        version := some relocation.version } }

def mergeExclusions (own managed : List Exclusion) : List Exclusion :=
  managed.foldl (fun acc exclusion => if exclusion ∈ acc then acc else acc ++ [exclusion]) own

def applyRootManagement (dependency : Dependency) (management : List Dependency) : Dependency :=
  match management.find? fun managed => managed.managementKey == dependency.managementKey with
  | none => dependency
  | some managed =>
    { dependency with
      version := if managed.version.isSome then managed.version else dependency.version
      scope := if managed.scopeExplicit then managed.scope else dependency.scope
      dependencyType :=
        if managed.typeExplicit then managed.dependencyType else dependency.dependencyType
      exclusions := mergeExclusions dependency.exclusions managed.exclusions }

def deriveScope (parent child : String) : Option String :=
  match parent, child with
  | "compile", "compile" => some "compile"
  | "compile", "runtime" => some "runtime"
  | "runtime", "compile" => some "runtime"
  | "runtime", "runtime" => some "runtime"
  | "provided", "compile" => some "provided"
  | "provided", "runtime" => some "provided"
  | "test", "compile" => some "test"
  | "test", "runtime" => some "test"
  | "processor", "compile" => some "processor"
  | "processor", "runtime" => some "processor"
  | _, _ => none

/-- The candidates `enqueue_children` appends to the queue. -/
def enqueueChildren (effective : EffectivePom) (candidate : Candidate) (parent : Nat)
    (rootManagement : List Dependency) : List Candidate :=
  effective.dependencies.filterMap fun dependency =>
    if dependency.optional = some true then none
    else
      let dependency := applyRootManagement dependency rootManagement
      (deriveScope candidate.scope dependency.scope).map fun scope =>
        { dependency := dependency
          scope := scope
          activeExclusions := candidate.descendantExclusions
          descendantExclusions := candidate.descendantExclusions ++ dependency.exclusions
          parent := some parent }

/-! ## Packages -/

def packageAt (packages : List ResolvedPackage) (index : Nat) : ResolvedPackage :=
  packages.getD index default

def addEdge (packages : List ResolvedPackage) (parent : Option Nat) (child : Nat) :
    List ResolvedPackage :=
  match parent with
  | none => packages
  | some parent =>
    let coordinate := (packageAt packages child).coordinate.toString
    packages.modify parent fun package =>
      if coordinate ∈ package.dependencies then package
      else { package with dependencies := package.dependencies ++ [coordinate] }

/-- `BTreeSet::insert`: the scopes are kept in ascending order. -/
def insertScope (scope : String) : List String → List String
  | [] => [scope]
  | s :: rest =>
    if scope < s then scope :: s :: rest
    else if scope = s then s :: rest
    else s :: insertScope scope rest

def addScope (packages : List ResolvedPackage) (index : Nat) (scope : String) :
    List ResolvedPackage :=
  packages.modify index fun package =>
    { package with effectiveScopes := insertScope scope package.effectiveScopes }

/-! ## The loop body -/

section Mediate

variable (resolver : DependencyResolver) (project : EffectivePom) (workspace : List MavenProject)

def localPomFile (module : MavenProject) : Except ResolverError CachedFile := do
  let bytes ← resolver.read module.source
  return { path := module.source
           checksum := "sha256:" ++ resolver.sha256 bytes
           bytes := bytes
           source := "workspace:" ++ module.source }

def findLocalModule (coordinate : Coordinate) : Option MavenProject :=
  workspace.find? fun module =>
    module.effective.coordinate.group == coordinate.group &&
      module.effective.coordinate.artifact == coordinate.artifact &&
      module.effective.coordinate.version == coordinate.version

/-- `pom_file`: a workspace module's own POM, else the repository's. -/
def pomFile (coordinate : Coordinate) : Except ResolverError CachedFile :=
  match findLocalModule workspace coordinate with
  | some module => localPomFile resolver module
  | none => resolver.fetch coordinate.toPom

def scheduleArtifact (downloads : List (Nat × Coordinate)) (coordinate : Coordinate)
    (index : Nat) : List (Nat × Coordinate) :=
  if coordinate.extension = "pom" then downloads else downloads ++ [(index, coordinate)]

/-- The coordinates whose POMs are prefetched, and the grown `prefetched` set.
The fetches only warm the client's cache: their results and errors are dropped. -/
def prefetchCandidatePoms (queue : List Candidate) (prefetched : List String) :
    List Coordinate × List String :=
  queue.foldl
    (fun (coordinates, prefetched) candidate =>
      if candidate.excluded then (coordinates, prefetched)
      else
        match candidate.dependency.coordinate with
        | .error _ => (coordinates, prefetched)
        | .ok coordinate =>
          if coordinate.toPom.toString ∈ prefetched then (coordinates, prefetched)
          else (coordinates ++ [coordinate.toPom], coordinate.toPom.toString :: prefetched))
    ([], prefetched)

/-- The model a revisited package is expanded with: the candidate's own when its
version is the selected one, else that of the selected coordinate. -/
def mediatedModel (selected coordinate : Coordinate) (own : EffectivePom) :
    Except ResolverError EffectivePom :=
  if selected.version = coordinate.version then .ok own
  else resolver.buildCoordinate selected.toPom

/-- The branch of the loop body for a key that is selected already. -/
def Mediation.revisit (core : Mediation) (candidate : Candidate) (coordinate : Coordinate)
    (effective : EffectivePom) (index : Nat) :
    Except ResolverError (Mediation × Move Candidate) := do
  let packages := addEdge core.packages candidate.parent index
  if candidate.scope ∈ (packageAt packages index).effectiveScopes then
    return ({ core with packages := packages }, .skip)
  let effective ← mediatedModel resolver (packageAt packages index).coordinate coordinate effective
  return ({ core with packages := addScope packages index candidate.scope },
    .push (enqueueChildren effective candidate index project.dependencyManagement))

/-- The branch of the loop body for a key that is not selected yet. -/
def Mediation.select (core : Mediation) (candidate : Candidate) (coordinate : Coordinate)
    (effective : EffectivePom) : Except ResolverError (Mediation × Move Candidate) := do
  let pomFile ← pomFile resolver workspace coordinate
  let index := core.packages.length
  let package : ResolvedPackage :=
    { coordinate := coordinate
      source := pomFile.source
      pomChecksum := pomFile.checksum
      artifactChecksum := none
      artifactSize := none
      artifactPath := none
      dependencies := []
      effectiveScopes := [candidate.scope]
      selectedParent := candidate.parent }
  return ({ core with
      packages := addEdge (core.packages ++ [package]) candidate.parent index
      selected := (candidate.dependency.managementKey, index) :: core.selected
      downloads :=
        if (findLocalModule workspace coordinate).isNone then
          scheduleArtifact core.downloads coordinate index
        else core.downloads },
    .push (enqueueChildren effective candidate index project.dependencyManagement))

def Mediation.visit (core : Mediation) (candidate : Candidate) :
    Except ResolverError (Mediation × Move Candidate) := do
  if candidate.excluded then
    return (core, .skip)
  let coordinate ← candidate.dependency.coordinate
  let effective ← resolver.buildCoordinate coordinate.toPom
  match relocationOf coordinate effective with
  | some relocation => return (core, .replace (candidate.relocate relocation))
  | none =>
    match core.selected.lookup candidate.dependency.managementKey with
    | some index => core.revisit resolver project candidate coordinate effective index
    | none => core.select resolver project workspace candidate coordinate effective

def Mediation.prefetch (core : Mediation) (queue : List Candidate) : Mediation :=
  { core with prefetched := (prefetchCandidatePoms queue core.prefetched).2 }

/-- The candidate loop of `resolve_in_workspace`. -/
def mediation : Worklist.Machine Mediation Candidate ResolverError where
  visit := Mediation.visit resolver project workspace
  settle := Mediation.prefetch

def Mediation.start : Mediation :=
  Mediation.prefetch ⟨[], [], [], []⟩ (rootCandidates project)

end Mediate

/-! ## After the loop -/

def setArtifact (packages : List ResolvedPackage) (artifact : Nat × CachedFile) :
    List ResolvedPackage :=
  packages.modify artifact.1 fun package =>
    { package with
      artifactChecksum := some artifact.2.checksum
      artifactSize := some artifact.2.bytes.length
      artifactPath := some artifact.2.path }

/-- Join the downloads in the order they complete; the first error is returned. -/
def finishArtifacts (resolver : DependencyResolver) (order : CompletionOrder) (core : Mediation) :
    Except ResolverError (List ResolvedPackage) := do
  let artifacts ← (order.order core.downloads).mapM fun download => do
    let artifact ← resolver.fetch download.2
    return (download.1, artifact)
  -- every package has at most one download, so any sort by index gives this order
  return (artifacts.insertionSort fun a b => a.1 ≤ b.1).foldl setArtifact core.packages

/-- `push_unique`; the set of seen checksums is the set of those pushed. -/
def pushUnique (target : List String) (checksum : String) : List String :=
  if checksum ∈ target then target else target ++ [checksum]

def pushScope (checksum : String) (graph : ResolvedGraph) (scope : String) : ResolvedGraph :=
  match scope with
  | "compile" =>
    { graph with
      compileClasspath := pushUnique graph.compileClasspath checksum
      runtimeClasspath := pushUnique graph.runtimeClasspath checksum
      testClasspath := pushUnique graph.testClasspath checksum }
  | "runtime" =>
    { graph with
      runtimeClasspath := pushUnique graph.runtimeClasspath checksum
      testClasspath := pushUnique graph.testClasspath checksum }
  | "provided" =>
    { graph with
      compileClasspath := pushUnique graph.compileClasspath checksum
      testClasspath := pushUnique graph.testClasspath checksum }
  | "test" => { graph with testClasspath := pushUnique graph.testClasspath checksum }
  | "processor" =>
    { graph with processorClasspath := pushUnique graph.processorClasspath checksum }
  | _ => graph

def pushPackage (graph : ResolvedGraph) (package : ResolvedPackage) : ResolvedGraph :=
  match package.artifactChecksum with
  | none => graph
  | some checksum => package.effectiveScopes.foldl (pushScope checksum) graph

def buildClasspaths (packages : List ResolvedPackage) : ResolvedGraph :=
  packages.foldl pushPackage ⟨packages, [], [], [], []⟩

def finish (resolver : DependencyResolver) (order : CompletionOrder) (core : Mediation) :
    Except ResolverError ResolvedGraph := do
  let packages ← finishArtifacts resolver order core
  return buildClasspaths packages

/-! ## `resolve_in_workspace` -/

section Resolve

variable (resolver : DependencyResolver) (order : CompletionOrder) (project : EffectivePom)
  (workspace : List MavenProject)

def startState : Worklist.State Mediation Candidate :=
  ⟨Mediation.start project, rootCandidates project⟩

def resolveInWorkspace (fuel : Nat) : Option (Except ResolverError ResolvedGraph) :=
  (Loop.run (mediation resolver project workspace).step fuel (startState project)).map
    fun result => result.bind (finish resolver order)

/-- `resolve_in_workspace` returns `result`. -/
def Resolves (result : Except ResolverError ResolvedGraph) : Prop :=
  ∃ fuel, resolveInWorkspace resolver order project workspace fuel = some result

/-- The candidate loop ends with `core`. -/
def Mediates (core : Mediation) : Prop :=
  Loop.Returns (mediation resolver project workspace).step (startState project) (.ok core)

variable {resolver order project workspace}

theorem resolves_iff {result : Except ResolverError ResolvedGraph} :
    Resolves resolver order project workspace result ↔
      ∃ loop, Loop.Returns (mediation resolver project workspace).step (startState project) loop ∧
        loop.bind (finish resolver order) = result := by
  simp only [Resolves, resolveInWorkspace, Option.map_eq_some_iff, Loop.returns_iff_run]
  constructor
  · rintro ⟨fuel, loop, hrun, hres⟩
    exact ⟨loop, ⟨fuel, hrun⟩, hres⟩
  · rintro ⟨loop, ⟨fuel, hrun⟩, hres⟩
    exact ⟨fuel, loop, hrun, hres⟩

theorem resolves_ok {graph : ResolvedGraph}
    (h : Resolves resolver order project workspace (.ok graph)) :
    ∃ core packages, Mediates resolver project workspace core ∧
      finishArtifacts resolver order core = .ok packages ∧ graph = buildClasspaths packages := by
  obtain ⟨loop, hloop, hres⟩ := resolves_iff.mp h
  cases loop with
  | error e => cases hres
  | ok core =>
    refine ⟨core, ?_⟩
    change finish resolver order core = .ok graph at hres
    unfold finish at hres
    cases hfin : finishArtifacts resolver order core with
    | error e =>
      rw [hfin] at hres
      cases hres
    | ok packages =>
      rw [hfin] at hres
      cases hres
      exact ⟨packages, hloop, rfl, rfl⟩

theorem resolves_of_run {β : Type} (view : ResolvedGraph → β) (fuel : Nat) {b : β}
    (h : ((resolveInWorkspace resolver order project workspace fuel).bind Except.toOption).map view =
      some b) :
    ∃ graph, Resolves resolver order project workspace (.ok graph) ∧ view graph = b := by
  obtain ⟨graph, hgraph, hview⟩ := Option.map_eq_some_iff.mp h
  obtain ⟨result, hresult, hok⟩ := Option.bind_eq_some_iff.mp hgraph
  cases result with
  | error e => cases hok
  | ok g =>
    cases hok
    exact ⟨graph, ⟨fuel, hresult⟩, hview⟩

theorem mediates_of_run {β : Type} (view : Mediation → β) (fuel : Nat) {b : β}
    (h : ((Loop.run (mediation resolver project workspace).step fuel (startState project)).bind
      Except.toOption).map view = some b) {core : Mediation}
    (hcore : Mediates resolver project workspace core) : view core = b := by
  obtain ⟨core', hcore', rfl⟩ := Option.map_eq_some_iff.mp h
  obtain ⟨result, hresult, hok⟩ := Option.bind_eq_some_iff.mp hcore'
  cases result with
  | error e => cases hok
  | ok c =>
    cases hok
    cases hcore.unique (Loop.returns_iff_run.mpr ⟨fuel, hresult⟩)
    rfl

end Resolve

/-! ## Repositories given as lists

A finite repository is a list of effective models; it serves one file for
every coordinate whose POM it has. -/

def Dependency.declare (group artifact version scope : String) : Dependency :=
  { group := group
    artifact := artifact
    version := some version
    scope := scope
    scopeExplicit := false
    dependencyType := "jar"
    typeExplicit := false
    classifier := none
    optional := none
    exclusions := [] }

def EffectivePom.declare (group artifact version : String) (dependencies : List Dependency) :
    EffectivePom :=
  { coordinate := Coordinate.pom group artifact version
    parent := none
    packaging := "jar"
    modules := []
    propertyTemplates := []
    properties := []
    dependencies := dependencies
    dependencyManagement := []
    bomImports := []
    repositories := []
    annotationProcessors := []
    compilerArgs := []
    relocation := none }

def DependencyResolver.ofModels (models : List EffectivePom) : DependencyResolver where
  buildCoordinate coordinate :=
    match models.find? fun model => model.coordinate == coordinate with
    | some model => .ok model
    | none => .error (.httpStatus coordinate.toString 404)
  fetch coordinate :=
    match models.find? fun model => model.coordinate == coordinate.toPom with
    | some _ => .ok ⟨coordinate.toString, "sha256:" ++ coordinate.toString, [], "repository"⟩
    | none => .error (.httpStatus coordinate.toString 404)
  read path := .error (.cache path "not found")
  sha256 _ := ""

end JMan.Resolver
