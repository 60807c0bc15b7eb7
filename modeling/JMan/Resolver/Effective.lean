import Mathlib.Data.List.Sort
import JMan.Lib.Fallible
import JMan.Lib.Overriding
import JMan.Resolver.Model

/-!
# JMan — effective models

`jman-resolver/src/effective.rs`: interpolation, inheritance, dependency
management and the construction of an `EffectivePom`.

`build_raw` loads other models twice, the parent and then the imported BOMs.
Between the two it computes a `Plan` (`planOf`), and after them it finishes the
plan (`Plan.finish`). `buildRaw` runs the stages with the answers of `remote`;
how the builder comes to these answers is another module's subject.
-/

namespace JMan.Resolver

open Overriding (Indexed overrideAll)

-- Interpolation

/-- `str::replace` on characters; `skip` characters of a match are left. -/
def replaceChars (marker replacement : List Char) : Nat → List Char → List Char
  | _, [] => []
  | skip + 1, _ :: rest => replaceChars marker replacement skip rest
  | 0, c :: rest =>
    if marker.isPrefixOf (c :: rest) then
      replacement ++ replaceChars marker replacement (marker.length - 1) rest
    else
      c :: replaceChars marker replacement 0 rest

def replaceAll (value marker replacement : String) : String :=
  String.ofList (replaceChars marker.toList replacement.toList 0 value.toList)

/-- The characters after the first opening marker. -/
def afterOpening : List Char → Option (List Char)
  | [] => none
  | '$' :: '{' :: rest => some rest
  | _ :: rest => afterOpening rest

def firstProperty (value : String) : Option String :=
  match afterOpening value.toList with
  | none => none
  | some remainder =>
    if '}' ∈ remainder then some (String.ofList (remainder.takeWhile (· ≠ '}'))) else none

def propertyMarker (property : String) : String := "$\x7b" ++ property ++ "\x7d"

def interpolateLoop (properties : PropertyMap) : Nat → String → String
  | 0, result => result
  | rounds + 1, result =>
    match firstProperty result with
    | none => result
    | some property =>
      match properties.get? property with
      | none => result
      | some replacement =>
        interpolateLoop properties rounds (replaceAll result (propertyMarker property) replacement)

def interpolateLoose (value : String) (properties : PropertyMap) : String :=
  interpolateLoop properties 32 value

def interpolateRequired (value : String) (properties : PropertyMap) :
    Except ResolverError String :=
  let result := interpolateLoose value properties
  match firstProperty result with
  | some property => .error (.unresolvedProperty property value)
  | none => .ok result

-- Property tables

namespace PropertyMap

def extend (properties more : PropertyMap) : PropertyMap :=
  more.foldl (fun m entry => m.insert entry.1 entry.2) properties

/-- `entry(key).or_insert(value)`. -/
def orInsert (properties : PropertyMap) (key value : String) : PropertyMap :=
  match properties.get? key with
  | some _ => properties
  | none => properties.insert key value

end PropertyMap

/-- What `std::env::consts` says of the machine. -/
structure Platform where
  os : String
  arch : String
deriving DecidableEq

def Platform.detectedOs (platform : Platform) : String :=
  if platform.os = "macos" then "osx" else platform.os

def Platform.detectedArch (platform : Platform) : String :=
  if platform.arch = "aarch64" then "aarch_64"
  else if platform.arch = "x86" then "x86_32"
  else if platform.arch = "arm" then "arm_32"
  else platform.arch

def insertPlatformProperties (platform : Platform) (properties : PropertyMap) : PropertyMap :=
  let os := platform.detectedOs
  let arch := platform.detectedArch
  ((properties.orInsert "os.detected.name" os).orInsert "os.detected.arch" arch).orInsert
    "os.detected.classifier" (os ++ "-" ++ arch)

def insertProjectProperties (properties : PropertyMap) (group artifact version : String)
    (parent : Option Parent) : PropertyMap :=
  let own := properties.extend
    [("project.groupId", group), ("project.artifactId", artifact), ("project.version", version),
      ("pom.groupId", group), ("pom.artifactId", artifact), ("pom.version", version),
      ("groupId", group), ("artifactId", artifact), ("version", version)]
  match parent with
  | none => own
  | some parent => own.extend
    [("project.parent.groupId", parent.group), ("project.parent.artifactId", parent.artifact),
      ("project.parent.version", parent.version)]

def resolveLoop : Nat → PropertyMap → PropertyMap
  | 0, properties => properties
  | rounds + 1, properties =>
    let resolved := properties.map fun entry => (entry.1, interpolateLoose entry.2 properties)
    if resolved = properties then properties else resolveLoop rounds resolved

def resolvePropertyMap (properties : PropertyMap) : PropertyMap := resolveLoop 32 properties

-- Declarations

def interpolateDependency (dependency : Dependency) (properties : PropertyMap) :
    Except ResolverError Dependency := do
  let group ← interpolateRequired dependency.group properties
  let artifact ← interpolateRequired dependency.artifact properties
  let version ← dependency.version.mapM (interpolateRequired · properties)
  let scope ← interpolateRequired dependency.scope properties
  let dependencyType ← interpolateRequired dependency.dependencyType properties
  let classifier ← dependency.classifier.mapM (interpolateRequired · properties)
  let exclusions ← dependency.exclusions.mapM fun exclusion => do
    let group ← interpolateRequired exclusion.group properties
    let artifact ← interpolateRequired exclusion.artifact properties
    return { group, artifact : Exclusion }
  return { dependency with group, artifact, version, scope, dependencyType, classifier, exclusions }

def interpolateManagedDependency (dependency : Dependency) (properties : PropertyMap) :
    Dependency :=
  { dependency with
    group := interpolateLoose dependency.group properties
    artifact := interpolateLoose dependency.artifact properties
    version := dependency.version.map (interpolateLoose · properties)
    scope := interpolateLoose dependency.scope properties
    dependencyType := interpolateLoose dependency.dependencyType properties
    classifier := dependency.classifier.map (interpolateLoose · properties)
    exclusions := dependency.exclusions.map fun exclusion =>
      { group := interpolateLoose exclusion.group properties
        artifact := interpolateLoose exclusion.artifact properties } }

def interpolateRepository (repository : Repository) (properties : PropertyMap) :
    Except ResolverError Repository := do
  let id ← interpolateRequired repository.id properties
  let url ← interpolateRequired repository.url properties
  return { repository with id, url }

abbrev DependencyCollection := Indexed Dependency.managementKey

namespace DependencyCollection

def new (items : List Dependency) : DependencyCollection := Indexed.ofList _ items

@[simp] theorem items_new (items : List Dependency) : (new items).items = items := rfl

end DependencyCollection

/-- `replace_repository`: overriding by id. -/
def replaceRepository (items : List Repository) (repository : Repository) : List Repository :=
  Overriding.override Repository.id items repository

def appendExclusions (exclusions managed : List Exclusion) : List Exclusion :=
  managed.foldl (fun found e => if e ∈ found then found else found ++ [e]) exclusions

def applyManagement (dependency : Dependency) (management : DependencyCollection) : Dependency :=
  match management.get? dependency.managementKey with
  | none => dependency
  | some managed =>
    { dependency with
      version := dependency.version.or managed.version
      scope := if dependency.scopeExplicit then dependency.scope else managed.scope
      dependencyType :=
        if dependency.typeExplicit then dependency.dependencyType else managed.dependencyType
      optional := dependency.optional.or managed.optional
      exclusions := appendExclusions dependency.exclusions managed.exclusions }

def readDependency (properties : PropertyMap) (management : DependencyCollection)
    (dependency : Dependency) : Except ResolverError Dependency := do
  return applyManagement (← interpolateDependency dependency properties) management

-- The stages of build_raw

/-- The parent is looked up with the project's own properties alone. -/
def parentCoordinate (raw : RawPom) : Option Coordinate :=
  raw.parent.map fun parent =>
    Coordinate.pom (interpolateLoose parent.group raw.properties)
      (interpolateLoose parent.artifact raw.properties)
      (interpolateLoose parent.version raw.properties)

/-- What a project is named and how it reads properties: of a parent's model,
the part that decides how its children read theirs. -/
structure Project where
  coordinate : Coordinate
  propertyTemplates : PropertyMap
  properties : PropertyMap
deriving DecidableEq

def EffectivePom.project (m : EffectivePom) : Project :=
  { coordinate := m.coordinate
    propertyTemplates := m.propertyTemplates
    properties := m.properties }

/-- A value of the project, or else what it inherits. -/
def required (own inherited : Option String) (message : String) : Except ResolverError String :=
  match own.or inherited with
  | some value => .ok value
  | none => .error (.invalidPom message)

def projectOf (platform : Platform) (raw : RawPom) (parent : Option Project) :
    Except ResolverError Project := do
  let group ← required raw.group (parent.map (·.coordinate.group)) "missing project groupId"
  let version ← required raw.version (parent.map (·.coordinate.version)) "missing project version"
  -- templates are inherited as they are written, and read again at every level
  let inherited := (parent.map Project.propertyTemplates).getD []
  let propertyTemplates := inherited.extend raw.properties
  let properties := resolvePropertyMap (insertProjectProperties
    (insertPlatformProperties platform propertyTemplates) group raw.artifact version raw.parent)
  let group ← interpolateRequired group properties
  let artifact ← interpolateRequired raw.artifact properties
  let version ← interpolateRequired version properties
  return {
    coordinate := Coordinate.pom group artifact version
    propertyTemplates
    properties := resolvePropertyMap
      (insertProjectProperties properties group artifact version raw.parent) }

/-- The loop over the declared management: the imports, each with its index,
and the direct entries. -/
def splitManagement (properties : PropertyMap) : Nat → List Dependency →
    Except ResolverError (List (Nat × Coordinate) × List Dependency)
  | _, [] => .ok ([], [])
  | index, declared :: rest =>
    let dependency := interpolateManagedDependency declared properties
    if dependency.scope = "import" ∧ dependency.dependencyType = "pom" then do
      let coordinate ← dependency.coordinate
      let (imports, direct) ← splitManagement properties (index + 1) rest
      return ((index, coordinate) :: imports, direct)
    else do
      let (imports, direct) ← splitManagement properties (index + 1) rest
      return (imports, dependency :: direct)

/-- What `build_raw` has computed when it starts to load the imports. -/
structure Plan where
  raw : RawPom
  parent : Option EffectivePom
  project : Project
  imports : List (Nat × Coordinate)
  direct : List Dependency
deriving DecidableEq

def planOf (platform : Platform) (raw : RawPom) (parent : Option EffectivePom) :
    Except ResolverError Plan := do
  let project ← projectOf platform raw (parent.map EffectivePom.project)
  let (imports, direct) ← splitManagement project.properties 0 raw.dependencyManagement
  return { raw, parent, project, imports, direct }

/-- The management a project declares: its imports in the order of their
declaration, the first with a key winning, overridden by the direct entries. -/
def currentManagement (imported : List (Nat × EffectivePom)) (direct : List Dependency) :
    DependencyCollection :=
  let sorted := imported.insertionSort fun a b => a.1 ≤ b.1
  let managed := sorted.flatMap fun entry => entry.2.dependencyManagement
  direct.foldl Indexed.replace (managed.foldl Indexed.insertIfAbsent Indexed.empty)

/-- A list of the parent's, empty without a parent. -/
def inheritedFrom {α : Type} (parent : Option EffectivePom) (field : EffectivePom → List α) :
    List α :=
  (parent.map field).getD []

/-- The rest of the model, which no child inherits. -/
def assemble (raw : RawPom) (project : Project) (bomImports : List Coordinate)
    (management : DependencyCollection) (dependencies : List Dependency)
    (repositories : List Repository) : Except ResolverError EffectivePom := do
  let properties := project.properties
  let annotationProcessors ← raw.annotationProcessors.mapM fun processor => do
    return { dependency := ← readDependency properties management processor.dependency :
      AnnotationProcessor }
  let compilerArgs ← raw.compilerArgs.mapM (interpolateRequired · properties)
  let modules ← raw.modules.mapM (interpolateRequired · properties)
  let relocation := raw.relocation.map fun relocation =>
    Coordinate.pom
      (interpolateLoose (relocation.group.getD project.coordinate.group) properties)
      (interpolateLoose (relocation.artifact.getD project.coordinate.artifact) properties)
      (interpolateLoose (relocation.version.getD project.coordinate.version) properties)
  let packaging ← interpolateRequired raw.packaging properties
  return {
    coordinate := project.coordinate
    parent := parentCoordinate raw
    packaging, modules
    propertyTemplates := project.propertyTemplates
    properties, dependencies
    dependencyManagement := management.items
    bomImports, repositories, annotationProcessors, compilerArgs, relocation }

def Plan.finish (plan : Plan) (imported : List (Nat × EffectivePom)) :
    Except ResolverError EffectivePom := do
  let properties := plan.project.properties
  let current := currentManagement imported plan.direct
  let management := current.items.foldl Indexed.replace
    (DependencyCollection.new (inheritedFrom plan.parent EffectivePom.dependencyManagement))
  let declared ← plan.raw.dependencies.mapM (readDependency properties management)
  let dependencies := declared.foldl Indexed.replace
    (DependencyCollection.new (inheritedFrom plan.parent EffectivePom.dependencies))
  let declaredRepositories ← plan.raw.repositories.mapM (interpolateRepository · properties)
  let repositories := declaredRepositories.foldl replaceRepository
    (inheritedFrom plan.parent EffectivePom.repositories)
  assemble plan.raw plan.project (plan.imports.map Prod.snd) management dependencies.items
    repositories

def loadParent (remote : Coordinate → Except ResolverError EffectivePom) (raw : RawPom) :
    Except ResolverError (Option EffectivePom) :=
  match parentCoordinate raw with
  | none => .ok none
  | some coordinate => (remote coordinate).map some

def loadImports (remote : Coordinate → Except ResolverError EffectivePom)
    (imports : List (Nat × Coordinate)) : Except ResolverError (List (Nat × EffectivePom)) :=
  imports.mapM fun entry => (remote entry.2).map fun m => (entry.1, m)

/-- `build_raw` from the parent's model on. -/
def buildOn (platform : Platform) (remote : Coordinate → Except ResolverError EffectivePom)
    (raw : RawPom) (parent : Option EffectivePom) : Except ResolverError EffectivePom := do
  let plan ← planOf platform raw parent
  let imported ← loadImports remote plan.imports
  plan.finish imported

/-- `build_raw`, with what `build_remote` answers. -/
def buildRaw (platform : Platform) (remote : Coordinate → Except ResolverError EffectivePom)
    (raw : RawPom) : Except ResolverError EffectivePom := do
  let parent ← loadParent remote raw
  buildOn platform remote raw parent

-- What a stage that succeeded has computed

open Fallible (bind_eq_ok map_eq_ok pure_eq_ok mapM_eq_ok)

theorem planOf_eq_ok {platform : Platform} {raw : RawPom} {parent : Option EffectivePom}
    {plan : Plan} : planOf platform raw parent = .ok plan ↔
      plan.raw = raw ∧ plan.parent = parent ∧
      projectOf platform raw (parent.map EffectivePom.project) = .ok plan.project ∧
      splitManagement plan.project.properties 0 raw.dependencyManagement =
        .ok (plan.imports, plan.direct) := by
  simp only [planOf, bind_eq_ok, pure_eq_ok, Prod.exists]
  constructor
  · rintro ⟨project, hproject, imports, direct, hsplit, rfl⟩
    exact ⟨rfl, rfl, hproject, hsplit⟩
  · rintro ⟨rfl, rfl, hproject, hsplit⟩
    exact ⟨_, hproject, _, _, hsplit, rfl⟩

theorem fields_of_assemble {raw : RawPom} {project : Project} {bomImports : List Coordinate}
    {management : DependencyCollection} {dependencies : List Dependency}
    {repositories : List Repository} {m : EffectivePom}
    (h : assemble raw project bomImports management dependencies repositories = .ok m) :
    m.project = project ∧ m.dependencyManagement = management.items ∧
      m.dependencies = dependencies ∧ m.repositories = repositories := by
  simp only [assemble, bind_eq_ok, pure_eq_ok] at h
  obtain ⟨processors, -, args, -, modules, -, packaging, -, rfl⟩ := h
  exact ⟨rfl, rfl, rfl, rfl⟩

theorem buildOn_eq_ok {platform : Platform}
    {remote : Coordinate → Except ResolverError EffectivePom} {raw : RawPom}
    {parent : Option EffectivePom} {m : EffectivePom} :
    buildOn platform remote raw parent = .ok m ↔ ∃ plan imported,
      planOf platform raw parent = .ok plan ∧ loadImports remote plan.imports = .ok imported ∧
        plan.finish imported = .ok m := by
  simp only [buildOn, bind_eq_ok]
  constructor
  · rintro ⟨plan, hplan, imported, himported, hfinish⟩
    exact ⟨plan, imported, hplan, himported, hfinish⟩
  · rintro ⟨plan, imported, hplan, himported, hfinish⟩
    exact ⟨plan, hplan, imported, himported, hfinish⟩

theorem loadParent_eq_ok {remote : Coordinate → Except ResolverError EffectivePom} {raw : RawPom}
    {parent : Option EffectivePom} : loadParent remote raw = .ok parent ↔
      (parentCoordinate raw = none ∧ parent = none) ∨
        ∃ c p, parentCoordinate raw = some c ∧ remote c = .ok p ∧ parent = some p := by
  unfold loadParent
  cases h : parentCoordinate raw with
  | none => simp [eq_comm]
  | some c =>
    simp only [map_eq_ok, reduceCtorEq, false_and, false_or, Option.some.injEq, exists_eq_left',
      exists_and_left, @eq_comm _ _ parent]

theorem loadImports_eq_ok {remote : Coordinate → Except ResolverError EffectivePom}
    {imports : List (Nat × Coordinate)} {imported : List (Nat × EffectivePom)} :
    loadImports remote imports = .ok imported ↔
      List.Forall₂ (fun entry answer => remote entry.2 = .ok answer.2 ∧ answer.1 = entry.1)
        imports imported := by
  rw [loadImports, mapM_eq_ok]
  have hentry : ∀ (entry : Nat × Coordinate) (answer : Nat × EffectivePom),
      ((remote entry.2).map fun m => (entry.1, m)) = .ok answer ↔
        remote entry.2 = .ok answer.2 ∧ answer.1 = entry.1 := by
    rintro entry ⟨index, m⟩
    simp only [map_eq_ok, Prod.mk.injEq]
    constructor
    · rintro ⟨m, hm, rfl, rfl⟩
      exact ⟨hm, rfl⟩
    · rintro ⟨hm, rfl⟩
      exact ⟨m, hm, rfl, rfl⟩
  simp only [hentry]

theorem indices_splitManagement {properties : PropertyMap} {declared : List Dependency}
    {start : Nat} {imports : List (Nat × Coordinate)} {direct : List Dependency}
    (h : splitManagement properties start declared = .ok (imports, direct)) :
    (imports.map Prod.fst).Sublist (List.range' start declared.length) := by
  induction declared generalizing start imports direct with
  | nil =>
    cases h
    exact List.nil_sublist _
  | cons d rest ih =>
    rw [List.length_cons, List.range'_succ]
    rw [splitManagement] at h
    simp only [] at h
    split at h
    · -- an import, at the first index
      simp only [bind_eq_ok, pure_eq_ok, Prod.exists] at h
      obtain ⟨c, -, imports', direct', hrest, heq⟩ := h
      cases heq
      exact (ih hrest).cons_cons start
    · -- a direct entry leaves its index out
      simp only [bind_eq_ok, pure_eq_ok, Prod.exists] at h
      obtain ⟨imports', direct', hrest, heq⟩ := h
      cases heq
      exact (ih hrest).cons start

theorem nodup_imports {platform : Platform} {raw : RawPom} {parent : Option EffectivePom}
    {plan : Plan} (h : planOf platform raw parent = .ok plan) :
    (plan.imports.map Prod.fst).Nodup :=
  (indices_splitManagement (planOf_eq_ok.mp h).2.2.2).nodup List.nodup_range'

theorem length_imports {platform : Platform} {raw : RawPom} {parent : Option EffectivePom}
    {plan : Plan} (h : planOf platform raw parent = .ok plan) :
    plan.imports.length ≤ raw.dependencyManagement.length := by
  simpa using (indices_splitManagement (planOf_eq_ok.mp h).2.2.2).length_le

theorem insertionSort_perm {imported imported' : List (Nat × EffectivePom)}
    (hperm : imported.Perm imported') (hnodup : (imported.map Prod.fst).Nodup) :
    imported.insertionSort (fun a b => a.1 ≤ b.1) =
      imported'.insertionSort fun a b => a.1 ≤ b.1 := by
  have hto := List.perm_insertionSort (fun a b : Nat × EffectivePom => a.1 ≤ b.1)
  have : Std.Total (fun a b : Nat × EffectivePom => a.1 ≤ b.1) := ⟨fun a b => Nat.le_total _ _⟩
  have : IsTrans (Nat × EffectivePom) fun a b => a.1 ≤ b.1 := ⟨fun _ _ _ => Nat.le_trans⟩
  refine List.Perm.eq_of_pairwise (fun a b ha hb hab hba => ?_)
    (List.pairwise_insertionSort _ _) (List.pairwise_insertionSort _ _)
    ((hto imported).trans (hperm.trans (hto imported').symm))
  -- entries with one index are one entry
  refine List.inj_on_of_nodup_map hnodup ((hto imported).mem_iff.mp ha) ?_ (Nat.le_antisymm hab hba)
  exact hperm.mem_iff.mpr ((hto imported').mem_iff.mp hb)

theorem Plan.finish_perm {plan : Plan} {imported imported' : List (Nat × EffectivePom)}
    (hperm : imported.Perm imported') (hnodup : (imported.map Prod.fst).Nodup) :
    plan.finish imported = plan.finish imported' := by
  simp only [Plan.finish, currentManagement, insertionSort_perm hperm hnodup]

theorem buildRaw_mono {platform : Platform}
    {remote remote' : Coordinate → Except ResolverError EffectivePom}
    (hremote : ∀ c p, remote c = .ok p → remote' c = .ok p) {raw : RawPom} {m : EffectivePom}
    (h : buildRaw platform remote raw = .ok m) : buildRaw platform remote' raw = .ok m := by
  obtain ⟨parent, hparent, hbuild⟩ := bind_eq_ok.mp h
  obtain ⟨plan, imported, hplan, himported, hfinish⟩ := buildOn_eq_ok.mp hbuild
  refine bind_eq_ok.mpr ⟨parent, ?_, buildOn_eq_ok.mpr ⟨plan, imported, hplan, ?_, hfinish⟩⟩
  · rw [loadParent_eq_ok] at hparent ⊢
    obtain hnone | ⟨c, p, hc, hp, rfl⟩ := hparent
    · exact .inl hnone
    · exact .inr ⟨c, p, hc, hremote c p hp, rfl⟩
  · rw [loadImports_eq_ok] at himported ⊢
    exact himported.imp fun _ _ hentry => ⟨hremote _ _ hentry.1, hentry.2⟩

end JMan.Resolver
