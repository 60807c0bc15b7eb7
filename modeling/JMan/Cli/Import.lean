import JMan.Cli.Edit

/-!
# JMan — importing Maven projects

`manifest_from_maven` and the part of `import_maven` in `jman-cli/src/main.rs`
that turns the effective projects of a reactor into manifests and decides which
repositories are asked for their dependencies.
-/

namespace JMan.Cli

open JMan.Config JMan.Resolver

-- Scopes
-- ---

def DependencyScope.name : DependencyScope → String
  | .compile => "compile"
  | .runtime => "runtime"
  | .provided => "provided"
  | .test => "test"
  | .processor => "processor"

def mavenScope? (scope : String) : Option DependencyScope :=
  if scope = "compile" then some .compile
  else if scope = "runtime" then some .runtime
  else if scope = "provided" ∨ scope = "system" then some .provided
  else if scope = "test" then some .test
  else none

-- Manifests
-- ---

def javaReleaseOf (properties : PropertyMap) : Except Failure Nat :=
  let keys := ["maven.compiler.release", "maven.compiler.source", "java.version", "release.version",
    "jdk.version"]
  match keys.findSome? properties.get? with
  | none => .ok 17
  | some value => (parseU16 value).mapError fun source =>
      .context ("Maven property for Java release is `" ++ value ++ "`") (.message source)

def exclusionText (exclusion : Exclusion) : String := exclusion.group ++ ":" ++ exclusion.artifact

/-- What a table keyed by coordinate cannot say of a dependency. -/
def metadataFromMaven (dependency : Dependency) : Option MavenDependencyMetadata :=
  if dependency.dependencyType ≠ "jar" ∨ dependency.classifier.isSome ∨
      dependency.optional = some true ∨ dependency.exclusions ≠ [] then
    some { dependencyType := dependency.dependencyType
           classifier := dependency.classifier
           optional := dependency.optional = some true
           exclusions := dependency.exclusions.map exclusionText }
  else none

/-- The turn of one dependency: a later one takes the place of an earlier one
with its scope and coordinate, but its metadata stays if the later has none. -/
def declareFromMaven (tables : Dependencies × BTreeMap MavenDependencyMetadata)
    (dependency : Dependency) : Except Failure (Dependencies × BTreeMap MavenDependencyMetadata) := do
  let some version := dependency.version
    | throw (.message ("dependency " ++ dependency.ga ++ " has no effective version"))
  let some scope := mavenScope? dependency.scope
    | throw (.message ("dependency " ++ dependency.ga ++ " uses unsupported Maven scope `" ++
        dependency.scope ++ "`"))
  return (declareDependency tables.1 scope dependency.ga (.version version),
    match metadataFromMaven dependency with
    | none => tables.2
    | some metadata => tables.2.insert (scope.name ++ ":" ++ dependency.ga) metadata)

def managedFromMaven (dependency : Dependency) : MavenManagedDependency where
  group := dependency.group
  artifact := dependency.artifact
  version := dependency.version
  scope := dependency.scope
  dependencyType := dependency.dependencyType
  classifier := dependency.classifier
  optional := dependency.optional
  exclusions := dependency.exclusions.map exclusionText

def repositoriesFromMaven (repositories : List Resolver.Repository) : List Config.Repository :=
  (repositories.filter (·.releasesEnabled)).map fun repository => ⟨repository.id, repository.url⟩

def processorsFromMaven (processors : List AnnotationProcessor) :
    Except Failure (BTreeMap String) := do
  let entries ← processors.mapM fun processor =>
    match processor.dependency.version with
    | none => .error (.message ("annotation processor " ++ processor.dependency.ga ++
        " has no effective version"))
    | some version => .ok (processor.dependency.ga, version)
  return Std.ExtTreeMap.ofList entries

def mavenCompatibility (effective : EffectivePom) (metadata : BTreeMap MavenDependencyMetadata) :
    MavenCompatibility where
  parent := effective.parent.map fun parent =>
    parent.group ++ ":" ++ parent.artifact ++ ":" ++ parent.version
  dependencies := metadata
  dependencyManagement := effective.dependencyManagement.map managedFromMaven
  bomImports := effective.bomImports.map Coordinate.toString

def manifestFromMaven (format : Format) (effective : EffectivePom) (mavenAuthoritative : Bool) :
    Except Failure Manifest := do
  let javaRelease ← javaReleaseOf effective.properties
  let (dependencies, metadata) ←
    effective.dependencies.foldlM declareFromMaven (⟨∅, ∅, ∅, ∅⟩, ∅)
  let annotationProcessors ← processorsFromMaven effective.annotationProcessors
  let manifest : Manifest :=
    { manifestVersion := manifestSchema
      project :=
        { group := effective.coordinate.group
          name := effective.coordinate.artifact
          version := effective.coordinate.version
          javaRelease := javaRelease
          packaging := effective.packaging
          modules := effective.modules
          mainClass :=
            if mavenAuthoritative then
              ["exec.mainClass", "start-class", "main.class"].findSome? effective.properties.get?
            else none }
      toolchain := some ⟨toString javaRelease, "temurin"⟩
      maven := some (mavenCompatibility effective metadata)
      build := some
        { encoding := (effective.properties.get? "project.build.sourceEncoding").getD "UTF-8"
          compilerArgs := effective.compilerArgs }
      repositories := repositoriesFromMaven effective.repositories
      dependencies := dependencies
      annotationProcessors := annotationProcessors
      sections := "" }
  (manifest.validate format).mapError .config
  return manifest

-- Repositories
-- ---

/-- `RepositoryClient::new`: without repositories there is Maven Central. -/
def clientRepositories (repositories : List String) : List String :=
  if repositories = [] then ["https://repo.maven.apache.org/maven2"] else repositories

/-- `BTreeSet::insert`. -/
def insertUrl : List String → String → List String
  | [], url => [url]
  | u :: urls, url =>
    if url < u then url :: u :: urls
    else if url = u then u :: urls
    else u :: insertUrl urls url

/-- The repositories `import_maven` asks: those of all its manifests, sorted. -/
def importRepositories (manifests : List Manifest) : List String :=
  ((manifests.flatMap (·.repositories)).map (·.url)).foldl insertUrl []

/-- The repositories `sync_one` asks. -/
def syncRepositories (manifest : Manifest) : List String := manifest.repositories.map (·.url)

end JMan.Cli
