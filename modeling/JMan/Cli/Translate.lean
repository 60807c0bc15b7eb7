import JMan.Cli.Workspace

/-!
# JMan — manifests as projects, graphs as locks

`effective_from_manifest`, `workspace_dependencies_from_manifest` and
`lock_from_graph` of `jman-cli/src/main.rs`: the two translations between what
the workspace declares and what the resolver works with.
-/

namespace JMan.Cli

open JMan.Config JMan.Resolver
open Paths (Path)

-- Manifests as projects
-- ---

def splitGa (coordinate : String) : Except Failure (String × String) :=
  match splitGa? coordinate with
  | some ga => .ok ga
  | none => .error (.message ("invalid dependency coordinate `" ++ coordinate ++ "`"))

def parseExclusions (exclusions : List String) : Except Failure (List Exclusion) :=
  exclusions.mapM fun coordinate => do
    let ga ← splitGa coordinate
    return ⟨ga.1, ga.2⟩

/-- `maven.dependencies.get(&format!("{scope}:{ga}"))`. -/
def metadataOf (maven : Option MavenCompatibility) (scope ga : String) :
    Option MavenDependencyMetadata :=
  maven.bind fun maven => maven.dependencies[scope ++ ":" ++ ga]?

def declaredDependency (metadata : Option MavenDependencyMetadata) (scope ga version : String) :
    Except Failure Dependency := do
  let (group, artifact) ← splitGa ga
  let exclusions ← parseExclusions ((metadata.map (·.exclusions)).getD [])
  return { group := group
           artifact := artifact
           version := some version
           scope := scope
           scopeExplicit := scope ≠ "compile"
           dependencyType := (metadata.map (·.dependencyType)).getD "jar"
           typeExplicit := metadata.any fun item => item.dependencyType ≠ "jar"
           classifier := metadata.bind (·.classifier)
           optional := (metadata.filter (·.optional)).map fun _ => true
           exclusions := exclusions }

def versionedDeclarations (dependencies : Dependencies) : List (String × String × String) :=
  dependencies.scopes.flatMap fun entries =>
    entries.2.toList.filterMap fun entry =>
      entry.2.version?.map fun version => (entries.1, entry.1, version)

def managedDependency (managed : MavenManagedDependency) : Except Failure Dependency := do
  let exclusions ← parseExclusions managed.exclusions
  return { group := managed.group
           artifact := managed.artifact
           version := managed.version
           scope := managed.scope
           scopeExplicit := managed.scope ≠ "compile"
           dependencyType := managed.dependencyType
           typeExplicit := managed.dependencyType ≠ "jar"
           classifier := managed.classifier
           optional := managed.optional
           exclusions := exclusions }

def declaredProcessor (entry : String × String) : Except Failure AnnotationProcessor := do
  let (group, artifact) ← splitGa entry.1
  return ⟨{ group := group
            artifact := artifact
            version := some entry.2
            scope := "processor"
            scopeExplicit := true
            dependencyType := "jar"
            typeExplicit := false
            classifier := none
            optional := none
            exclusions := [] }⟩

def parseCoordinate (value : String) : Except Failure Coordinate :=
  (Coordinate.parse value).mapError .resolver

def managementOf (maven : Option MavenCompatibility) : List MavenManagedDependency :=
  (maven.map (·.dependencyManagement)).getD []

def effectiveFromManifest (manifest : Manifest) : Except Failure EffectivePom := do
  let dependencies ← (versionedDeclarations manifest.dependencies).mapM fun entry =>
    declaredDependency (metadataOf manifest.maven entry.1 entry.2.1) entry.1 entry.2.1 entry.2.2
  let dependencyManagement ← (managementOf manifest.maven).mapM managedDependency
  let annotationProcessors ← manifest.annotationProcessors.toList.mapM declaredProcessor
  let parent ← (manifest.maven.bind (·.parent)).mapM parseCoordinate
  let bomImports ← ((manifest.maven.map (·.bomImports)).getD []).mapM parseCoordinate
  return { coordinate := Coordinate.pom manifest.project.group manifest.project.name
             manifest.project.version
           parent := parent
           packaging := manifest.project.packaging
           modules := manifest.project.modules
           propertyTemplates := []
           properties := []
           dependencies := dependencies
           dependencyManagement := dependencyManagement
           bomImports := bomImports
           repositories := manifest.repositories.map fun repository =>
             ⟨repository.id, repository.url, true, true⟩
           annotationProcessors := annotationProcessors
           compilerArgs := (manifest.build.map (·.compilerArgs)).getD []
           relocation := none }

-- The workspace as projects
-- ---

section Machine

variable (machine : Machine)

/-- `manifest_projects`: the modules of the workspace, as projects. -/
def manifestProjects (root : Path) : Command (List MavenProject) := do
  let directories ← workspaceDirectories machine root
  directories.mapM fun directory => do
    let manifest ← readManifest machine ("could not read " ++ pathOf directory .manifest) directory
    let effective ← check (effectiveFromManifest manifest)
    return ⟨pathOf directory .manifest, effective⟩

def projectIn? (projects : List MavenProject) (directory : Path) : Option MavenProject :=
  projects.find? fun project => project.source = pathOf directory .manifest

def relativeWorkspacePath (origin target : Path) : Except Failure String := do
  let notFound := fun path : Path => Failure.context
    ("could not resolve workspace module " ++ Paths.display path)
    (.io "No such file or directory (os error 2)")
  let some origin := machine.layout.canonicalize origin | throw (notFound origin)
  let some target := machine.layout.canonicalize target | throw (notFound target)
  -- the root directory is always shared
  let shared := ((origin.zip target).takeWhile fun pair => pair.1 = pair.2).length
  let relative := List.replicate (origin.length - shared) ".." ++ target.drop shared
  let text := if relative = [] then "." else "/".intercalate relative
  return text.map fun c => if c = '\\' then '/' else c

/-- One path dependency of a manifest; `targets` are the directories and scopes
of the earlier ones. -/
def lockWorkspaceDependency (directory canonicalDirectory : Path) (name : String)
    (projects : List MavenProject) (targets : List (Path × String)) (scope coordinate path : String) :
    Except Failure (Path × LockedWorkspaceDependency) := do
  let some target := machine.layout.canonicalize (Paths.join directory path)
    | throw (.context ("could not resolve workspace dependency `" ++ coordinate ++ "` from " ++
        Paths.display directory) (.io "No such file or directory (os error 2)"))
  let some project := projectIn? projects target
    | throw (.message ("workspace dependency `" ++ coordinate ++ "` at " ++ Paths.display target ++
        " is not a declared module"))
  if target = canonicalDirectory then
    throw (.message ("module `" ++ name ++ "` cannot depend on itself"))
  let actual := project.effective.coordinate.ga
  if coordinate ≠ actual then
    throw (.message ("workspace dependency `" ++ coordinate ++ "` points to `" ++ actual ++
      "` at " ++ Paths.display target))
  match targets.lookup target with
  | some previous =>
    throw (.message ("workspace dependency `" ++ coordinate ++ "` is declared in both " ++
      previous ++ " and " ++ scope ++ " scopes"))
  | none =>
    let path ← relativeWorkspacePath machine directory target
    return (target, ⟨coordinate, scope, path, project.effective.coordinate.version⟩)

def workspaceDependencyKey (d : LockedWorkspaceDependency) : List String :=
  [d.scope, d.coordinate, d.path]

def pathDeclarations (dependencies : Dependencies) : List (String × String × String) :=
  dependencies.scopes.flatMap fun entries =>
    entries.2.toList.filterMap fun entry =>
      entry.2.path?.map fun path => (entries.1, entry.1, path)

def workspaceDependenciesFromManifest (directory : Path) (manifest : Manifest)
    (projects : List MavenProject) : Except Failure (List LockedWorkspaceDependency) := do
  let some canonicalDirectory := machine.layout.canonicalize directory
    | throw (.context ("could not resolve module " ++ Paths.display directory)
        (.io "No such file or directory (os error 2)"))
  let found ← (pathDeclarations manifest.dependencies).foldlM
    (fun (found : List (Path × LockedWorkspaceDependency)) entry => do
      let targets := found.map fun item => (item.1, item.2.scope)
      let locked ← lockWorkspaceDependency machine directory canonicalDirectory
        manifest.project.name projects targets entry.1 entry.2.1 entry.2.2
      return found ++ [locked])
    []
  return (found.map Prod.snd).insertionSort fun left right =>
    workspaceDependencyKey left ≤ workspaceDependencyKey right

theorem touches_manifestProjects {S : Set WorkspaceFile} (root : Path) :
    FileStore.Touches S (manifestProjects machine root) := by
  refine (touches_workspaceDirectories machine root).bind fun directories => ?_
  refine .mapM fun directory _ => ?_
  refine (touches_readManifest machine _ directory).bind fun manifest => ?_
  exact (touches_check _).bind fun effective => .pure _

-- Graphs as locks
-- ---

def lockPackage (packages : List ResolvedPackage) (package : ResolvedPackage) : LockedPackage :=
  { group := package.coordinate.group
    artifact := package.coordinate.artifact
    version := package.coordinate.version
    extension := package.coordinate.extension
    classifier := package.coordinate.classifier
    source := package.source
    pomChecksum := package.pomChecksum
    artifactChecksum := package.artifactChecksum
    artifactSize := package.artifactSize
    dependencies := package.dependencies
    scopes := package.effectiveScopes
    selectedParent := package.selectedParent.map fun index =>
      (packageAt packages index).coordinate.toString }

def packageKey (p : LockedPackage) : List String :=
  [p.group, p.artifact, p.version, p.extension]

/-- The packages of a lock: sorted, the ones with equal keys as they were. -/
def lockPackages (packages : List ResolvedPackage) : List LockedPackage :=
  (packages.map (lockPackage packages)).insertionSort fun left right =>
    packageKey left ≤ packageKey right

def lockFromGraph (manifest workspaceHash : String) (javaRelease : Nat)
    (workspaceDependencies : List LockedWorkspaceDependency) (graph : ResolvedGraph) : Lockfile :=
  { lockVersion := lockSchema
    manifestHash := machine.sha256 manifest.toUTF8
    workspaceHash := workspaceHash
    platform := machine.platformId
    javaRelease := javaRelease
    packages := lockPackages graph.packages
    workspaceDependencies := workspaceDependencies
    classpath :=
      { compile := graph.compileClasspath
        runtime := graph.runtimeClasspath
        test := graph.testClasspath
        processors := graph.processorClasspath } }

end Machine

end JMan.Cli
