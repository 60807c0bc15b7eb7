import JMan.Cli.Update
import JMan.Lib.Lines
import JMan.Lib.Template
import JMan.Resolver.Repository
import JMan.Resolver.Versions

/-!
# JMan — outdated dependencies

`check_outdated_dependency` and `select_dependency_update` of `jman-cli/src/main.rs`:
what is reported of a declared dependency when the catalog of its versions is there,
and which of the reported versions an update of a level takes.

* `updates_newest` — the analysis reports the newest update of every class and of
  all, and an update of a level takes the newest that the level allows.
* `updates_settle` — after an update there is none.
-/

namespace JMan.Cli

open JMan.Config JMan.Resolver
open Lines (Text)

-- The report
-- ---

inductive OutdatedStatus where
  | outdated
  | upToDate
  | unavailable
deriving DecidableEq

/-- A declared dependency; the repositories only serve to load its catalog. -/
structure OutdatedRequest where
  dependency : String
  current : String
  scopes : List String
  modules : List String
deriving DecidableEq

structure OutdatedDependencyReport where
  dependency : String
  current : String
  status : OutdatedStatus
  latest : Option String
  change : Option VersionChange
  patch : Option String
  minor : Option String
  major : Option String
  scopes : List String
  modules : List String
  source : Option String
  error : Option String
deriving DecidableEq

def candidateVersions (catalog : VersionCatalog) : List String :=
  [catalog.release, catalog.latest].foldl (fun versions advertised =>
    match advertised with
    | none => versions
    | some version => if versions.contains version then versions else versions ++ [version])
    catalog.versions

/-- `split_once` of a text that is not empty -/
def splitOnceAt (marker : Text) : Text → Option (Text × Text)
  | [] => none
  | c :: rest =>
    if marker.isPrefixOf (c :: rest) then some ([], (c :: rest).drop marker.length)
    else (splitOnceAt marker rest).map fun parts => (c :: parts.1, parts.2)

def validateOutdatedVersion (version : String) : Except String Unit :=
  let normalized := (trim version).toList.map Char.toUpper
  if normalized = [] ∨ normalized.any "[](),*".toList.contains ∨ ".+".toList.isSuffixOf normalized ∨
      (splitOnceAt "$\x7b".toList normalized).isSome ∨ normalized = "LATEST".toList ∨
      normalized = "RELEASE".toList then
    .error ("dependency version `" ++ version ++ "` is not an exact version")
  else .ok ()

def redactRepositorySource (source : String) : String :=
  match splitOnceAt "://".toList source.toList with
  | none => source
  | some (scheme, remainder) =>
    match Template.splitOnce '@' remainder.reverse with
    | none => source
    | some (hostAndPath, _) =>
      String.ofList scheme ++ "://***@" ++ String.ofList hostAndPath.reverse

def reportOf (request : OutdatedRequest) (updates : VersionUpdates) (source : String) :
    OutdatedDependencyReport :=
  { dependency := request.dependency
    current := request.current
    status := if updates.latest.isSome then .outdated else .upToDate
    latest := updates.latest
    change := updates.change
    patch := updates.patch
    minor := updates.minor
    major := updates.major
    scopes := request.scopes
    modules := request.modules
    source := some (redactRepositorySource source)
    error := none }

def unavailableReport (request : OutdatedRequest) (error : String) : OutdatedDependencyReport :=
  { dependency := request.dependency
    current := request.current
    status := .unavailable
    latest := none
    change := none
    patch := none
    minor := none
    major := none
    scopes := request.scopes
    modules := request.modules
    source := none
    error := some error }

/-- `check_outdated_dependency`, given what loading the catalog of a group and an artifact
answers. -/
def checkOutdatedDependency (catalog : String → String → Except String VersionCatalog)
    (includePrerelease : Bool) (request : OutdatedRequest) : OutdatedDependencyReport :=
  let result : Except String (VersionUpdates × String) := do
    let ga ← match splitGa? request.dependency with
      | none => .error ("invalid dependency coordinate `" ++ request.dependency ++ "`")
      | some ga => .ok ga
    validateOutdatedVersion request.current
    let catalog ← catalog ga.1 ga.2
    return (analyzeVersions request.current (candidateVersions catalog) includePrerelease,
      catalog.source)
  match result with
  | .ok (updates, source) => reportOf request updates source
  | .error error => unavailableReport request error

-- The selection
-- ---

inductive UpdateLevel where
  | patch
  | minor
  | major
  | latest
deriving DecidableEq

/-- `DependencyUpdate` with what only the report uses. -/
structure SelectedUpdate extends DependencyUpdate where
  change : VersionChange
  scopes : List String
  modules : List String
  source : Option String
deriving DecidableEq

def selectedVersion (dependency : OutdatedDependencyReport) :
    UpdateLevel → Option (String × VersionChange)
  | .patch => dependency.patch.map fun version => (version, .patch)
  | .minor =>
    (dependency.minor.map fun version => (version, VersionChange.minor)) <|>
      dependency.patch.map fun version => (version, .patch)
  | .major =>
    (dependency.major.map fun version => (version, VersionChange.major)) <|>
      (dependency.minor.map fun version => (version, VersionChange.minor)) <|>
      dependency.patch.map fun version => (version, .patch)
  | .latest => dependency.latest.bind fun latest => dependency.change.map fun change => (latest, change)

def selectDependencyUpdate (dependency : OutdatedDependencyReport) (level : UpdateLevel) :
    Option SelectedUpdate :=
  (selectedVersion dependency level).map fun selected =>
    { dependency := dependency.dependency
      fromVersion := dependency.current
      toVersion := selected.1
      change := selected.2
      scopes := dependency.scopes
      modules := dependency.modules
      source := dependency.source }

def UpdateLevel.classes : UpdateLevel → List VersionChange
  | .patch => [.patch]
  | .minor => [.minor, .patch]
  | .major => [.major, .minor, .patch]
  | .latest => [.patch, .minor, .major, .other]

def UpdateLevel.Allows (level : UpdateLevel) (current : String) (available : List String)
    (includePrerelease : Bool) (version : String) : Prop :=
  version ∈ available ∧ isUpdate current includePrerelease version = true ∧
    changeOf current version ∈ level.classes

-- The newest that a level allows
-- ---

section Selection

variable {current : String} {available : List String} {includePrerelease : Bool}

theorem toVersion_selectDependencyUpdate (request : OutdatedRequest) (updates : VersionUpdates)
    (source : String) (level : UpdateLevel) :
    (selectDependencyUpdate (reportOf request updates source) level).map (·.toVersion) =
      match level with
      | .patch => updates.patch
      | .minor => updates.minor <|> updates.patch
      | .major => updates.major <|> updates.minor <|> updates.patch
      | .latest => updates.latest.bind fun latest => updates.change.map fun _ => latest := by
  obtain ⟨patch, minor, major, latest, change⟩ := updates
  cases level with
  | patch => cases patch <;> rfl
  | minor => cases minor <;> cases patch <;> rfl
  | major => cases major <;> cases minor <;> cases patch <;> rfl
  | latest => cases latest <;> cases change <;> rfl

theorem newest_minor : Newest
    (fun version => version ∈ candidatesOf current available includePrerelease .minor ∨
      version ∈ candidatesOf current available includePrerelease .patch)
    ((analyzeVersions current available includePrerelease).minor <|>
      (analyzeVersions current available includePrerelease).patch) := by
  refine (newest_bucket _ _ _ .minor).orElse (newest_bucket _ _ _ .patch) fun newer older hnewer holder => ?_
  obtain ⟨-, hnewer, hminor⟩ := mem_candidatesOf.mp hnewer
  obtain ⟨-, holder, hpatch⟩ := mem_candidatesOf.mp holder
  rw [older_of_class (isUpdate_iff.mp hnewer).2 (isUpdate_iff.mp holder).2 (Or.inr ⟨hminor, hpatch⟩)]
  decide

theorem newest_major : Newest
    (fun version => version ∈ candidatesOf current available includePrerelease .major ∨
      version ∈ candidatesOf current available includePrerelease .minor ∨
      version ∈ candidatesOf current available includePrerelease .patch)
    ((analyzeVersions current available includePrerelease).major <|>
      (analyzeVersions current available includePrerelease).minor <|>
      (analyzeVersions current available includePrerelease).patch) := by
  refine (newest_bucket _ _ _ .major).orElse newest_minor fun newer older hnewer holder => ?_
  obtain ⟨-, hnewer, hmajor⟩ := mem_candidatesOf.mp hnewer
  have hclasses : (changeOf current older = .minor ∨ changeOf current older = .patch) ∧
      isUpdate current includePrerelease older = true := by
    rcases holder with holder | holder
    · obtain ⟨-, hupdate, hclass⟩ := mem_candidatesOf.mp holder
      exact ⟨Or.inl hclass, hupdate⟩
    · obtain ⟨-, hupdate, hclass⟩ := mem_candidatesOf.mp holder
      exact ⟨Or.inr hclass, hupdate⟩
  rw [older_of_class (isUpdate_iff.mp hnewer).2 (isUpdate_iff.mp hclasses.2).2
    (Or.inl ⟨hmajor, hclasses.1⟩)]
  decide

theorem newest_selected (request : OutdatedRequest) (source : String) (level : UpdateLevel) :
    Newest (level.Allows current available includePrerelease)
      ((selectDependencyUpdate (reportOf request
        (analyzeVersions current available includePrerelease) source) level).map (·.toVersion)) := by
  rw [toVersion_selectDependencyUpdate]
  cases level with
  | patch =>
    refine (newest_bucket _ _ _ .patch).congr fun version => ?_
    simp [UpdateLevel.Allows, UpdateLevel.classes, mem_candidatesOf]
  | minor =>
    refine newest_minor.congr fun version => ?_
    simp only [UpdateLevel.Allows, UpdateLevel.classes, mem_candidatesOf, List.mem_cons]
    grind
  | major =>
    refine newest_major.congr fun version => ?_
    simp only [UpdateLevel.Allows, UpdateLevel.classes, mem_candidatesOf, List.mem_cons]
    grind
  | latest =>
    obtain ⟨hnewest, hchange⟩ := newest_latest current available includePrerelease
    have hall : ∀ change : VersionChange, change ∈ UpdateLevel.latest.classes := by
      intro change
      cases change <;> decide
    have hlatest : ((analyzeVersions current available includePrerelease).latest.bind fun latest =>
        (analyzeVersions current available includePrerelease).change.map fun _ => latest) =
          (analyzeVersions current available includePrerelease).latest := by
      rw [hchange]
      cases (analyzeVersions current available includePrerelease).latest <;> rfl
    show Newest _ (Option.bind _ _)
    rw [hlatest]
    exact hnewest.congr fun version => by simp [UpdateLevel.Allows, hall]

end Selection

/-- **Updates are chosen among all that there are.** Versions are compared by a total
preorder; the analysis reports the newest update of each class, where the class is told by
the first number that differs, and is `other` only without numbers; the latest version is
the newest of all candidates, and an update of a level takes the newest that it allows. -/
theorem updates_newest (request : OutdatedRequest) (available : List String)
    (includePrerelease : Bool) (source : String) :
    Std.TransCmp compareVersions ∧
      (∀ change, Newest (fun version => version ∈ available ∧
          isUpdate request.current includePrerelease version = true ∧
            changeOf request.current version = change)
        ((bucketsOf request.current available includePrerelease).get change)) ∧
      (∀ version, changeOf request.current version = .other ↔
        numericVersion request.current = none ∨ numericVersion version = none) ∧
      Newest (fun version => version ∈ available ∧
          isUpdate request.current includePrerelease version = true)
        (analyzeVersions request.current available includePrerelease).latest ∧
      (∀ latest, (analyzeVersions request.current available includePrerelease).latest = some latest →
        ∀ version ∈ available, (includePrerelease = false → isPrerelease version = false) →
          compareVersions version latest ≠ .gt) ∧
      ∀ level : UpdateLevel,
        Newest (level.Allows request.current available includePrerelease)
          ((selectDependencyUpdate (reportOf request
            (analyzeVersions request.current available includePrerelease) source)
              level).map (·.toVersion)) := by
  refine ⟨inferInstance, fun change => ?_, fun version => ?_, (newest_latest _ _ _).1, ?_, ?_⟩
  · exact (newest_bucket _ _ _ change).congr fun version => mem_candidatesOf
  · rw [numericVersion_eq, numericVersion_eq, changeOf]
    split_ifs <;> simp_all
  · intro latest hlatest version hversion heligible
    obtain ⟨hnewest, -⟩ := newest_latest request.current available includePrerelease
    rw [hlatest] at hnewest
    by_cases hnewer : compareVersions version request.current = .gt
    · exact hnewest.2 version ⟨hversion, isUpdate_iff.mpr ⟨heligible, hnewer⟩⟩
    · -- an older version is not newer than an update
      have hgt := (isUpdate_iff.mp hnewest.1.2).2
      exact Ranking.not_gt_trans hnewer (Std.OrientedCmp.not_gt_of_gt hgt)
  · exact newest_selected request source

-- Updating again

section Updating

variable (load : String → String → Except String VersionCatalog) (includePrerelease : Bool)
  (request : OutdatedRequest)

/-- What is needed to report on a request. -/
def OutdatedRequest.Known (catalog : VersionCatalog) : Prop :=
  ∃ group artifact, splitGa? request.dependency = some (group, artifact) ∧
    validateOutdatedVersion request.current = .ok () ∧ load group artifact = .ok catalog

def OutdatedRequest.update (level : UpdateLevel) : Option SelectedUpdate :=
  selectDependencyUpdate (checkOutdatedDependency load includePrerelease request) level

theorem update_cases :
    (∃ catalog, request.Known load catalog ∧ ∀ level : UpdateLevel,
      Newest (level.Allows request.current (candidateVersions catalog) includePrerelease)
        ((request.update load includePrerelease level).map (·.toVersion))) ∨
    (∀ catalog, ¬ request.Known load catalog) ∧ ∃ error,
      checkOutdatedDependency load includePrerelease request = unavailableReport request error := by
  unfold OutdatedRequest.update checkOutdatedDependency OutdatedRequest.Known
  cases hga : splitGa? request.dependency with
  | none => exact .inr ⟨by simp, _, rfl⟩
  | some ga =>
    cases hvalid : validateOutdatedVersion request.current with
    | error error => exact .inr ⟨by simp, _, rfl⟩
    | ok =>
      simp only [bind, Except.bind, pure, Except.pure]
      cases hload : load ga.1 ga.2 with
      | error error =>
        refine .inr ⟨?_, error, rfl⟩
        rintro _ ⟨_, _, ⟨⟩, -, hloaded⟩
        cases hload.symm.trans hloaded
      | ok catalog =>
        exact .inl ⟨catalog, ⟨ga.1, ga.2, rfl, trivial, hload⟩, newest_selected request catalog.source⟩

theorem classes_trans {level : UpdateLevel} {current version next : String}
    (h : changeOf current version ∈ level.classes) (hnext : changeOf version next ∈ level.classes) :
    changeOf current next ∈ level.classes := by
  unfold changeOf at *
  cases level <;> simp only [UpdateLevel.classes, List.mem_cons, List.not_mem_nil, or_false] at * <;> grind

/-- **Updating settles.** An update takes the newest of the advertised versions that its level
allows, unless the dependency cannot be reported on; after it there is nothing to update. -/
theorem updates_settle (level : UpdateLevel) :
    ((∃ catalog, request.Known load catalog ∧
        Newest (level.Allows request.current (candidateVersions catalog) includePrerelease)
          ((request.update load includePrerelease level).map (·.toVersion))) ∨
      (∀ catalog, ¬ request.Known load catalog) ∧
        (checkOutdatedDependency load includePrerelease request).status = .unavailable) ∧
    (request.update load includePrerelease level).bind (fun update =>
      { request with current := update.toVersion }.update load includePrerelease level) = none := by
  rcases update_cases load includePrerelease request with ⟨catalog, hknown, hnewest⟩ | ⟨hnone, error, hreport⟩
  · refine ⟨.inl ⟨catalog, hknown, hnewest level⟩, Option.bind_eq_none_iff.mpr fun update hselected => ?_⟩
    have hnewest := hnewest level
    rw [hselected] at hnewest
    obtain ⟨⟨-, hupdate, hclass⟩, hgreatest⟩ := hnewest
    rcases update_cases load includePrerelease { request with current := update.toVersion } with
      ⟨again, ⟨_, _, hga, -, hload⟩, hnext⟩ | ⟨-, error, hreport⟩
    · -- the catalog is the same
      obtain ⟨_, _, hga', -, hload'⟩ := hknown
      cases hga.symm.trans hga'
      cases hload.symm.trans hload'
      have hnext := hnext level
      refine Option.eq_none_iff_forall_ne_some.mpr fun next hagain => ?_
      rw [hagain] at hnext
      -- what is newer than the update would have been taken before it
      obtain ⟨⟨hmem, hnewer, hnextClass⟩, -⟩ := hnext
      obtain ⟨heligible, hgt⟩ := isUpdate_iff.mp hnewer
      have hgt' := Std.TransCmp.gt_trans hgt (isUpdate_iff.mp hupdate).2
      exact hgreatest next.toVersion
        ⟨hmem, isUpdate_iff.mpr ⟨heligible, hgt'⟩, classes_trans hclass hnextClass⟩ hgt
    · rw [OutdatedRequest.update, hreport]
      cases level <;> rfl
  · rw [OutdatedRequest.update, hreport]
    exact ⟨.inr ⟨hnone, rfl⟩, by cases level <;> rfl⟩

end Updating

end JMan.Cli
