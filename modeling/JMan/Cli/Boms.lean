import JMan.Lib.Overriding
import JMan.Resolver.Congruence
import JMan.Cli.Import

/-!
# JMan — BOM imports of manifests

In a POM the imports of BOMs are expanded into the dependency management. In a
manifest they are parsed and kept, but nothing is expanded: a graph does not
depend on them (`bomImports_are_provenance`). What constrains versions is the
dependency management of the manifest, into which an import has put that of the
effective POM, with the entries of its BOMs.
-/

namespace JMan.Resolver

def EffectivePom.withBomImports (effective : EffectivePom) (imports : List Coordinate) :
    EffectivePom :=
  { effective with bomImports := imports }

def DependencyResolver.withBomImports (resolver : DependencyResolver)
    (imports : Coordinate → List Coordinate) : DependencyResolver :=
  { resolver with
    buildCoordinate := fun c =>
      (resolver.buildCoordinate c).map fun effective => effective.withBomImports (imports c) }

def withBomImports (imports : Coordinate → List Coordinate) (workspace : List MavenProject) :
    List MavenProject :=
  workspace.map fun module =>
    ⟨module.source, module.effective.withBomImports (imports module.effective.coordinate)⟩

theorem agrees_withBomImports (resolver : DependencyResolver)
    (imports : Coordinate → List Coordinate) : resolver.Agrees (resolver.withBomImports imports) where
  buildCoordinate c := by
    simp only [DependencyResolver.withBomImports]
    cases resolver.buildCoordinate c <;> rfl
  fetch := rfl
  read := rfl
  sha256 := rfl

theorem agreesAsRoot_withBomImports (project : EffectivePom) (imports : List Coordinate) :
    project.AgreesAsRoot (project.withBomImports imports) :=
  ⟨rfl, fun _ => rfl⟩

theorem agreesOnSources_withBomImports (imports : Coordinate → List Coordinate)
    (workspace : List MavenProject) :
    AgreesOnSources workspace (withBomImports imports workspace) := by
  intro c
  induction workspace with
  | nil => rfl
  | cons module workspace ih =>
    simp only [findLocalModule, withBomImports, List.map_cons, List.find?_cons] at ih ⊢
    split
    · next h => simp [EffectivePom.withBomImports, h]
    · next h => simpa [EffectivePom.withBomImports, h] using ih

theorem version_applyRootManagement (dependency : Dependency) (management : List Dependency) :
    (applyRootManagement dependency management).version =
      (((management.find? fun managed =>
        managed.managementKey == dependency.managementKey).map (·.version)).join).or
          dependency.version := by
  unfold applyRootManagement
  cases management.find? fun managed => managed.managementKey == dependency.managementKey with
  | none => simp
  | some managed => cases h : managed.version <;> simp [h]

end JMan.Resolver

namespace JMan.Config

/-- The manifest with these BOM imports, in a table of their own if it has none. -/
def Manifest.withBomImports (manifest : Manifest) (boms : List String) : Manifest :=
  { manifest with maven := some { manifest.maven.getD ⟨none, ∅, [], []⟩ with bomImports := boms } }

end JMan.Config

namespace JMan.Cli

open JMan.Config JMan.Resolver

variable {format : Format} {manifest : Manifest} {project effective : EffectivePom}

-- Manifests with other BOM imports
-- ---

theorem metadataOf_withBomImports (boms : List String) (scope ga : String) :
    metadataOf (manifest.withBomImports boms).maven scope ga = metadataOf manifest.maven scope ga := by
  cases h : manifest.maven with
  | none => simp [metadataOf, Manifest.withBomImports, h]
  | some maven => simp [metadataOf, Manifest.withBomImports, h]

theorem managementOf_withBomImports (boms : List String) :
    managementOf (manifest.withBomImports boms).maven = managementOf manifest.maven := by
  cases h : manifest.maven with
  | none => simp [managementOf, Manifest.withBomImports, h]
  | some maven => simp [managementOf, Manifest.withBomImports, h]

theorem effectiveFromManifest_withBomImports {boms : List String} {imports : List Coordinate}
    (h : effectiveFromManifest manifest = .ok effective)
    (hboms : boms.mapM parseCoordinate = .ok imports) :
    effectiveFromManifest (manifest.withBomImports boms) =
      .ok (effective.withBomImports imports) := by
  have hparent : (manifest.withBomImports boms).maven.bind (·.parent) =
      manifest.maven.bind (·.parent) := by
    cases h : manifest.maven <;> simp [Manifest.withBomImports, h]
  have hnames : ((manifest.withBomImports boms).maven.map (·.bomImports)).getD [] = boms := rfl
  unfold effectiveFromManifest at h ⊢
  simp only [metadataOf_withBomImports, managementOf_withBomImports, hparent, hnames]
  simp only [Fallible.bind_eq_ok] at h ⊢
  obtain ⟨dependencies, hdependencies, management, hmanagement, processors, hprocessors, parent,
    hparse, old, -, h⟩ := h
  refine ⟨dependencies, hdependencies, management, hmanagement, processors, hprocessors, parent,
    hparse, imports, hboms, ?_⟩
  cases h
  rfl

-- The management an import writes
-- ---

theorem managedDependency_managedFromMaven {managed translated : Dependency}
    (h : managedDependency (managedFromMaven managed) = .ok translated) :
    translated.managementKey = managed.managementKey ∧ translated.version = managed.version := by
  unfold managedDependency at h
  obtain ⟨exclusions, -, h⟩ := Fallible.bind_eq_ok.mp h
  cases h
  exact ⟨rfl, rfl⟩

theorem find_translated {management translated : List Dependency}
    (h : (management.map managedFromMaven).mapM managedDependency = .ok translated) (key : String) :
    (translated.find? fun managed => managed.managementKey == key).map (·.version) =
      (management.find? fun managed => managed.managementKey == key).map (·.version) := by
  rw [Fallible.mapM_eq_ok, List.forall₂_map_left_iff] at h
  induction h with
  | nil => rfl
  | cons hfirst _ ih =>
    obtain ⟨hkey, hversion⟩ := managedDependency_managedFromMaven hfirst
    rw [List.find?_cons, List.find?_cons, hkey]
    split
    · exact congrArg some hversion
    · exact ih

theorem managementOf_manifestFromMaven {mavenAuthoritative : Bool}
    (h : manifestFromMaven format project mavenAuthoritative = .ok manifest) :
    managementOf manifest.maven = project.dependencyManagement.map managedFromMaven := by
  unfold manifestFromMaven at h
  simp only [Fallible.bind_eq_ok] at h
  obtain ⟨javaRelease, -, tables, -, processors, -, -, -, h⟩ := h
  cases h
  rfl

theorem version_of_imported {mavenAuthoritative : Bool}
    (h : manifestFromMaven format project mavenAuthoritative = .ok manifest)
    (heffective : effectiveFromManifest manifest = .ok effective) (dependency : Dependency) :
    (applyRootManagement dependency effective.dependencyManagement).version =
      (applyRootManagement dependency project.dependencyManagement).version := by
  unfold effectiveFromManifest at heffective
  simp only [Fallible.bind_eq_ok, managementOf_manifestFromMaven h] at heffective
  obtain ⟨dependencies, -, management, hmanagement, processors, -, parent, -, imports, -, heffective⟩ :=
    heffective
  cases heffective
  rw [version_applyRootManagement, version_applyRootManagement, find_translated hmanagement]

-- What constrains versions
-- ---

/-- **BOM imports of manifests are provenance.** Whatever they are, in the manifest
and in the modules around it, the graph is the same; and the management an import
writes constrains every version as the effective POM does. -/
theorem bomImports_are_provenance :
    (∀ {manifest : Manifest} {effective : EffectivePom} {boms : List String}
      {imports : List Coordinate}, effectiveFromManifest manifest = .ok effective →
      boms.mapM parseCoordinate = .ok imports →
      ∃ effective', effectiveFromManifest (manifest.withBomImports boms) = .ok effective' ∧
        ∀ (resolver : DependencyResolver) (order : CompletionOrder)
          (workspace : List MavenProject) (others : Coordinate → List Coordinate)
          (result : Except ResolverError ResolvedGraph),
          Resolves resolver order effective workspace result ↔
            Resolves (resolver.withBomImports others) order effective'
              (withBomImports others workspace) result) ∧
    ∀ {format : Format} {project effective : EffectivePom} {manifest : Manifest}
      {mavenAuthoritative : Bool},
      manifestFromMaven format project mavenAuthoritative = .ok manifest →
      effectiveFromManifest manifest = .ok effective → ∀ dependency : Dependency,
        (applyRootManagement dependency effective.dependencyManagement).version =
          (applyRootManagement dependency project.dependencyManagement).version := by
  refine ⟨?_, fun h heffective => version_of_imported h heffective⟩
  intro manifest effective boms imports h hboms
  refine ⟨_, effectiveFromManifest_withBomImports h hboms, ?_⟩
  intro resolver order workspace others result
  exact resolves_congr (agrees_withBomImports resolver others)
    (agreesAsRoot_withBomImports effective imports) (agreesOnSources_withBomImports others workspace)
    result

-- A BOM that would constrain a version
-- ---

/-- The project with the management of its BOMs, as a POM with these imports has
it: its own entries first, then for each key that of the first BOM that has it. -/
def expandedByBoms (resolver : DependencyResolver) (effective : EffectivePom) :
    Except ResolverError EffectivePom := do
  let boms ← effective.bomImports.mapM fun bom => resolver.buildCoordinate bom.toPom
  return { effective with
    dependencyManagement := Overriding.absorbAll Dependency.managementKey
      effective.dependencyManagement (boms.flatMap (·.dependencyManagement)) }

/-- `org.example:core` needs the first version of `org.example:base`, of which the
BOM wants the second. -/
def bomRepository : DependencyResolver := DependencyResolver.ofModels
  [EffectivePom.declare "org.example" "core" "1"
      [Dependency.declare "org.example" "base" "1" "compile"],
    EffectivePom.declare "org.example" "base" "1" [],
    EffectivePom.declare "org.example" "base" "2" [],
    { EffectivePom.declare "org.example" "bom" "1" [] with
      dependencyManagement := [Dependency.declare "org.example" "base" "2" "compile"] }]

def bomManifest : Manifest :=
  (sampleManifest "app" [] (some "1")).withBomImports ["org.example:bom:1"]

def bomProject (management : List Dependency) : EffectivePom :=
  { EffectivePom.declare "org.example" "app" "1"
      [Dependency.declare "org.example" "core" "1" "compile"] with
    dependencyManagement := management
    bomImports := [Coordinate.jar "org.example" "bom" "1"] }

theorem effectiveFromManifest_bomManifest :
    effectiveFromManifest bomManifest = .ok (bomProject []) :=
  Fallible.eq_ok_of_toOption (by decide +kernel)

theorem resolves_bomProject : ∃ graph,
    Resolves bomRepository CompletionOrder.spawned (bomProject []) [] (.ok graph) ∧
    graph.packages.map (·.coordinate.toString) = ["org.example:core:1", "org.example:base:1"] :=
  resolves_of_run (fun graph => graph.packages.map (·.coordinate.toString)) 4 (by decide +kernel)

/-- The BOM of the manifest is not looked at. -/
theorem bomImport_constrains_nothing : ∃ effective expanded graph graph',
    effectiveFromManifest bomManifest = .ok effective ∧
    expandedByBoms bomRepository effective = .ok expanded ∧
    Resolves bomRepository CompletionOrder.spawned effective [] (.ok graph) ∧
    Resolves bomRepository CompletionOrder.spawned expanded [] (.ok graph') ∧
    graph.packages.map (·.coordinate.toString) = ["org.example:core:1", "org.example:base:1"] ∧
    graph'.packages.map (·.coordinate.toString) = ["org.example:core:1", "org.example:base:2"] := by
  let management := [Dependency.declare "org.example" "base" "2" "compile"]
  have hexpanded : expandedByBoms bomRepository (bomProject []) = .ok (bomProject management) :=
    Fallible.eq_ok_of_toOption (by decide +kernel)
  obtain ⟨graph, hgraph, hpackages⟩ := resolves_bomProject
  obtain ⟨graph', hgraph', hpackages'⟩ : ∃ graph,
      Resolves bomRepository CompletionOrder.spawned (bomProject management) [] (.ok graph) ∧
      graph.packages.map (·.coordinate.toString) = ["org.example:core:1", "org.example:base:2"] :=
    resolves_of_run (fun graph => graph.packages.map (·.coordinate.toString)) 4 (by decide +kernel)
  exact ⟨_, _, graph, graph', effectiveFromManifest_bomManifest, hexpanded, hgraph, hgraph',
    hpackages, hpackages'⟩

theorem bomManifest_resolves_without_bom : ∃ effective graph,
    effectiveFromManifest (bomManifest.withBomImports []) = .ok effective ∧
    Resolves (bomRepository.withBomImports fun _ => []) CompletionOrder.spawned effective []
      (.ok graph) ∧
    graph.packages.map (·.coordinate.toString) = ["org.example:core:1", "org.example:base:1"] := by
  obtain ⟨graph, hgraph, hpackages⟩ := resolves_bomProject
  have hnone : ([] : List String).mapM parseCoordinate = .ok [] := rfl
  obtain ⟨effective, heffective, hsame⟩ :=
    bomImports_are_provenance.1 effectiveFromManifest_bomManifest hnone
  exact ⟨effective, graph, heffective,
    (hsame bomRepository CompletionOrder.spawned [] (fun _ => []) (.ok graph)).mp hgraph, hpackages⟩

end JMan.Cli
