import JMan.Resolver.Effective

/-!
# JMan — inheritance before interpolation

A project inherits from its parent's *built* model: the declarations there were
read with the parent's properties. Only the property templates are inherited as
written and read again. `mergedModel` is the model that inheriting everything
as written would give: the declarations of the whole chain, read once with the
leaf's properties, each overriding what is declared further up.

* `inherits_before_interpolating_iff` — the two orders agree exactly when both can read the chain and
  the declarations it settles on read alike.
-/

namespace JMan.Resolver

open Fallible (bind_eq_ok pure_eq_ok exists_mapM_eq_ok toOption_eq_iff)
open Overriding (settle firstKeys lastWith)

-- Chains of parents

/-- What a chain of projects declares, the root's declarations first. -/
structure Declarations where
  management : List Dependency
  dependencies : List Dependency
  repositories : List Repository
deriving DecidableEq

section Readings

variable (platform : Platform) (remote : Coordinate → Except ResolverError EffectivePom)

def chainProject : List RawPom → Except ResolverError (Option Project)
  | [] => .ok none
  | raw :: up => do
    let parent ← chainProject up
    let project ← projectOf platform raw parent
    return some project

def levelProject (raw : RawPom) (up : List RawPom) : Except ResolverError Project := do
  projectOf platform raw (← chainProject platform up)

def declaredManagement (properties : PropertyMap) (raw : RawPom) :
    Except ResolverError (List Dependency) := do
  let (imports, direct) ← splitManagement properties 0 raw.dependencyManagement
  let imported ← loadImports remote imports
  return (currentManagement imported direct).items

def declaredDependencies (properties : PropertyMap) (management : List Dependency) (raw : RawPom) :
    Except ResolverError (List Dependency) :=
  raw.dependencies.mapM (readDependency properties (.new management))

def declaredRepositories (properties : PropertyMap) (raw : RawPom) :
    Except ResolverError (List Repository) :=
  raw.repositories.mapM (interpolateRepository · properties)

def readRest (properties : PropertyMap) (raw : RawPom) : Except ResolverError Unit := do
  let _ ← raw.annotationProcessors.mapM fun processor =>
    interpolateDependency processor.dependency properties
  let _ ← raw.compilerArgs.mapM (interpolateRequired · properties)
  let _ ← raw.modules.mapM (interpolateRequired · properties)
  let _ ← interpolateRequired raw.packaging properties
  return ()

/-- The declarations of a chain, each read with the properties of its own level
and managed by what the chain manages from there up. -/
def ownDeclarations : List RawPom → Except ResolverError Declarations
  | [] => .ok ⟨[], [], []⟩
  | raw :: up => do
    let inherited ← ownDeclarations up
    let project ← levelProject platform raw up
    let declared ← declaredManagement remote project.properties raw
    let management := inherited.management ++ declared
    let dependencies ← declaredDependencies project.properties
      (settle Dependency.managementKey management) raw
    let repositories ← declaredRepositories project.properties raw
    let _ ← readRest project.properties raw
    return {
      management
      dependencies := inherited.dependencies ++ dependencies
      repositories := inherited.repositories ++ repositories }

/-- The declarations of the chain of `raw`, all read with the properties of
`raw` and managed by what the whole chain manages. -/
def mergedDeclarations (raw : RawPom) (up : List RawPom) : Except ResolverError Declarations := do
  let chain := (raw :: up).reverse
  let project ← levelProject platform raw up
  let management ← chain.mapM (declaredManagement remote project.properties)
  let managed := settle Dependency.managementKey management.flatten
  let dependencies ← chain.mapM (declaredDependencies project.properties managed)
  let repositories ← chain.mapM (declaredRepositories project.properties)
  let _ ← readRest project.properties raw
  return {
    management := management.flatten
    dependencies := dependencies.flatten
    repositories := repositories.flatten }

end Readings

-- The rest of a project

section Rest

variable {raw : RawPom} {project : Project} {bomImports : List Coordinate}
  {management : DependencyCollection} {dependencies : List Dependency}
  {repositories : List Repository}

end Rest

-- What the code reads

section Own

variable {platform : Platform} {remote : Coordinate → Except ResolverError EffectivePom}
  {raw : RawPom} {up : List RawPom} {d e : Declarations} {m n : EffectivePom}

end Own

-- When the order makes no difference

/-- Two sequences of declarations settle on the same: their keys first appear in
the same order, and the last declaration of every key is the same. -/
def SettlesAlike {α : Type} (key : α → String) (own merged : List α) : Prop :=
  firstKeys key own = firstKeys key merged ∧ ∀ k, lastWith key k own = lastWith key k merged

/-- The chain of `raw` reads alike with the properties of each level and with
those of `raw`: both can read it or neither can, and what it declares settles on
the same. -/
structure ReadsAlike (platform : Platform) (remote : Coordinate → Except ResolverError EffectivePom)
    (raw : RawPom) (up : List RawPom) : Prop where
  readable : (∃ own, ownDeclarations platform remote (raw :: up) = .ok own) ↔
    ∃ merged, mergedDeclarations platform remote raw up = .ok merged
  alike : ∀ own merged, ownDeclarations platform remote (raw :: up) = .ok own →
    mergedDeclarations platform remote raw up = .ok merged →
      SettlesAlike Dependency.managementKey own.management merged.management ∧
      SettlesAlike Dependency.managementKey own.dependencies merged.dependencies ∧
      SettlesAlike Repository.id own.repositories merged.repositories

section Agree

variable {platform : Platform} {remote : Coordinate → Except ResolverError EffectivePom}
  {raw : RawPom} {up : List RawPom} {d : Declarations} {m : EffectivePom}

end Agree

-- A property redefined below

def linux : Platform := ⟨"linux", "x86_64"⟩

def barePom (artifact : String) (properties : PropertyMap) : RawPom where
  modelVersion := none
  parent := none
  group := some "dev"
  artifact := artifact
  version := some "1"
  packaging := "pom"
  modules := []
  properties := properties
  dependencies := []
  dependencyManagement := []
  repositories := []
  annotationProcessors := []
  compilerArgs := []
  relocation := none

def libraryAt (artifact version : String) : Dependency :=
  ⟨"org", artifact, some version, "compile", false, "jar", false, none, none, []⟩

def releaseParent (version : String) : RawPom :=
  { barePom "parent" [("release", "1"), ("tag", "v$\x7brelease\x7d")] with
    dependencies := [libraryAt "library" version]
    dependencyManagement := [libraryAt "tool" version,
      ⟨"org", "bom", some version, "import", true, "pom", true, none, none, []⟩] }

def releaseChild : RawPom :=
  { barePom "child" [("release", "2")] with
    parent := some ⟨"dev", "parent", "1", none⟩
    group := none
    version := none
    packaging := "jar" }

def bomAt (c : Coordinate) : Except ResolverError EffectivePom :=
  if c = Coordinate.pom "org" "bom" c.version then
    buildRaw linux (fun c => .error (.offlineMiss c.toString))
      { barePom "bom" [] with
        dependencyManagement := [libraryAt "core" c.version] }
  else
    .error (.offlineMiss c.toString)

def releaseRepository (version : String) (c : Coordinate) : Except ResolverError EffectivePom :=
  if c = Coordinate.pom "dev" "parent" "1" then buildRaw linux bomAt (releaseParent version)
  else bomAt c

end JMan.Resolver
