import JMan.Lib.Lines
import JMan.Lib.Template
import JMan.Build.Discovery
import JMan.Lsp.CompileModel

/-!
# JMan — compile models of JMan workspaces

`load_jman_models` of `project.rs`, which makes the compile models of the modules of a
JMan workspace, and the class path that the language server has for the main sources of
a module, beside that of `compile_module`.

A module is known to the models by the name of its project, and to the build by its
directory; the class path of a model has the artifacts of the module's own lock, that of
the build those of the locks upstream as well.

* `classpath_agrees_iff` — where both class paths have the same outputs and artifacts.
* `name_is_confused` — a workspace in which two modules of one name are not told apart.
-/

namespace JMan.Lsp.JmanModels

open JMan.Config JMan.Resolver JMan.Build
open Paths (Path)
open Relation (TransGen)

-- The modules of a workspace
-- ---

section Load

variable (canonicalize : Path → Option Path) (root : Path)

def childDirectory (directory : Path) (child : String) : Except String Path :=
  match canonicalize (Paths.join directory child) with
  | none => .error ("cannot resolve JMAN module `" ++ child ++ "` from " ++ Paths.display directory ++
      ": No such file or directory (os error 2)")
  | some path =>
    if root.isPrefixOf path then .ok path
    else .error ("JMAN module " ++ Paths.display path ++ " escapes workspace " ++ Paths.display root)

/-- The loop over `pending`, a stack with its top first; `fuel` bounds the modules. -/
def collectModules (read : Path → Except String Manifest) :
    (fuel : Nat) → (pending : List Path) → (modules : List Entry) → Except String (List Entry)
  | _, [], modules => .ok modules
  | 0, directory :: _, _ =>
    .error ("duplicate or cyclic JMAN module declaration at " ++ Paths.display directory)
  | fuel + 1, directory :: pending, modules =>
    if (modules.map Prod.fst).contains directory then
      .error ("duplicate or cyclic JMAN module declaration at " ++ Paths.display directory)
    else do
      let manifest ← (read directory).mapError fun error =>
        "cannot read JMAN module " ++ Paths.display directory ++ ": " ++ error
      let children ← manifest.project.modules.reverse.mapM (childDirectory canonicalize root directory)
      collectModules read fuel (children.reverse ++ pending) (modules ++ [(directory, manifest)])

def outputOf (directory : Path) : Path := directory ++ [".jman", "output", "classes"]

/-- `outputs.get(coordinate)`, as the module: the last one with the coordinate counts. -/
def outputs? (modules : List Entry) (coordinate : String) : Option Entry :=
  modules.reverse.find? fun entry => entry.coordinate = coordinate

/-- `coordinates_by_directory.get(target)` -/
def coordinateAt? (modules : List Entry) (target : Path) : Option String :=
  (modules.find? fun entry => entry.1 = target).map Entry.coordinate

/-- The check of one path dependency, with `local_targets` before it. -/
def checkDependency (modules : List Entry) (entry : Entry) (targets : List (Path × WorkspaceDependencyScope))
    (scope : WorkspaceDependencyScope) (coordinate relative : String) :
    Except String (Path × WorkspaceDependencyScope) :=
  match canonicalize (Paths.join entry.1 relative) with
  | none => .error ("cannot resolve JMAN workspace dependency `" ++ coordinate ++ "` from " ++
      Paths.display entry.1 ++ ": No such file or directory (os error 2)")
  | some target =>
    match coordinateAt? modules target with
    | none => .error ("JMAN workspace dependency `" ++ coordinate ++ "` at " ++ Paths.display target ++
        " is not a declared module")
    | some actual =>
      if target = entry.1 then
        .error ("JMAN module `" ++ entry.2.project.name ++ "` cannot depend on itself")
      else if coordinate ≠ actual then
        .error ("JMAN workspace dependency `" ++ coordinate ++ "` points to `" ++ actual ++ "` at " ++
          Paths.display target)
      else
        match targets.find? fun previous => previous.1 = target with
        | some previous => .error ("JMAN workspace dependency `" ++ coordinate ++ "` is declared in both " ++
            previous.2.name ++ " and " ++ scope.name ++ " scopes")
        | none => .ok (target, scope)

def checkModule (modules : List Entry) (entry : Entry) : Except String Unit := do
  let _ ← (scopedPaths entry.2.dependencies).foldlM
    (fun (targets : List (Path × WorkspaceDependencyScope)) declared => do
      let target ← checkDependency canonicalize modules entry targets declared.1 declared.2.1 declared.2.2
      return targets ++ [target])
    []
  return ()

-- Models
-- ---

/-- `jman_artifact_paths`, which does not look for the files -/
def jmanArtifactPath (cache : Path) (lock : Lockfile) (checksum : String) : Except String Path :=
  match packageOf? lock checksum with
  | none => .error ("JMAN classpath checksum `" ++ checksum ++
      "` has no package in jman.lock; run `jman sync`")
  | some package =>
    match digestOf? checksum with
    | none => .error ("invalid JMAN classpath checksum `" ++ checksum ++ "`")
    | some digest => .ok (cachedArtifact cache digest package.extension)

def projectCoordinates (scopes : List WorkspaceDependencyScope) (manifest : Manifest) : List String :=
  ((scopedPaths manifest.dependencies).filter fun declared => declared.1 ∈ scopes).map fun declared =>
    declared.2.1

/-- `u8::try_from` of a Java release -/
def javaReleaseOf (release : Nat) : Option Nat := if release < 256 then some release else none

/-- The models of one module, its main and its test sources. `generators` are the
directories with the Java sources of its generators, for main and for test sources. -/
def moduleModels (cache : Path) (generators : Path → Bool → List PathBuf) (modules : List Entry)
    (entry : Entry) (lock : Lockfile) : Except String (List CompileModel) := do
  let directory := entry.1
  let manifest := entry.2
  let compile ← lock.classpath.compile.mapM (jmanArtifactPath cache lock)
  let test ← lock.classpath.test.mapM (jmanArtifactPath cache lock)
  let processors ← lock.classpath.processors.mapM (jmanArtifactPath cache lock)
  let mainCoordinates := projectCoordinates [.compile, .provided] manifest
  let testCoordinates := projectCoordinates [.compile, .runtime, .provided, .test] manifest
  let mainOutputs := (mainCoordinates.filterMap (outputs? modules)).map fun module => outputOf module.1
  let testOutputs := ((testCoordinates.filter fun coordinate => coordinate ∉ mainCoordinates).filterMap
    (outputs? modules)).map fun module => outputOf module.1
  let output := directory ++ [".jman", "output"]
  let compilerArgs := (manifest.build.map Build.compilerArgs).getD []
  let main : CompileModel := {
    schemaVersion := 2
    buildSystem := "jman"
    projectPath := manifest.project.name
    projectDirectory := directory
    taskPath := "compile"
    sourceFiles := []
    sourceRoots := [directory ++ ["src", "main", "java"]]
    classpath := mainOutputs ++ compile
    modulePath := []
    projectDependencies := (mainCoordinates.filterMap (outputs? modules)).map fun module => module.2.project.name
    annotationProcessorPath := processors
    compilerArgs := compilerArgs
    javaRelease := javaReleaseOf manifest.project.javaRelease
    generatedSourcesDirectory := some (output ++ ["generated", "sources", "annotations"])
    generatedSourceDirectories := (output ++ ["generated", "sources", "annotations"]) :: generators directory false
    destinationDirectory := some (outputOf directory) }
  let test : CompileModel := {
    main with
    taskPath := "testCompile"
    sourceRoots := [directory ++ ["src", "test", "java"], directory ++ ["src", "integrationTest", "java"]]
    classpath := outputOf directory :: (mainOutputs ++ compile) ++ testOutputs ++ test
    projectDependencies := (testCoordinates.filterMap (outputs? modules)).map fun module => module.2.project.name
    generatedSourcesDirectory := some (output ++ ["generated", "test-sources", "annotations"])
    generatedSourceDirectories :=
      (output ++ ["generated", "test-sources", "annotations"]) :: generators directory true
    destinationDirectory := some (output ++ ["test-classes"]) }
  return [main, test]

/-- `load_jman_models`, from the modules that its walk finds -/
def modelsOf (cache : Path) (generators : Path → Bool → List PathBuf) (locks : Path → Except String Lockfile)
    (modules : List Entry) : Except String (List CompileModel) := do
  modules.forM (checkModule canonicalize modules)
  let models ← modules.mapM fun entry => do
    let lock ← (locks entry.1).mapError fun error =>
      "cannot read JMAN lockfile for " ++ Paths.display entry.1 ++ ": " ++ error ++ "; run `jman sync`"
    moduleModels cache generators modules entry lock
  return models.flatten

/-- `load_jman_models` of a canonical root -/
def loadJmanModels (cache : Path) (generators : Path → Bool → List PathBuf)
    (locks : Path → Except String Lockfile) (read : Path → Except String Manifest) (fuel : Nat) :
    Except String (List CompileModel) := do
  let modules ← collectModules canonicalize root read fuel [root] []
  modelsOf canonicalize cache generators locks modules

end Load

-- What should agree
-- ---

section Statement

variable (cacheDir : Path) (files : FilePlace → Option ByteArray) (entries : List Entry) (modules : List Module)
  (locks : Nat → Lockfile) (i : Nat)

/-- The artifact that the module's own lock lists under a checksum is among the paths. -/
def EditorUses (paths : List PathBuf) (checksum : String) : Prop :=
  checksum ∈ (locks i).classpath.compile ∧
    ∃ path ∈ paths, jmanArtifactPath cacheDir (locks i) checksum = .ok path

/-- The artifact that the lock of the module or of one upstream lists under a checksum is
on the class path of the build. -/
def BuildUses (classpath : List ClasspathEntry) (checksum : String) : Prop :=
  ∃ j ∈ i :: upstreamOf .compile modules i, checksum ∈ (locks j).classpath.compile ∧
    ∃ path, artifactPath cacheDir files (locks j) checksum = .ok path ∧ .artifact path ∈ classpath

/-- The outputs of modules and the artifacts, by their checksums, are the same. -/
def SameClasspath (paths : List PathBuf) (classpath : List ClasspathEntry) : Prop :=
  (∀ j entry, entries[j]? = some entry → (outputOf entry.1 ∈ paths ↔ .output j ∈ classpath)) ∧
    ∀ checksum, EditorUses cacheDir locks i paths checksum ↔
      BuildUses cacheDir files modules locks i classpath checksum

/-- A module with the name of one upstream is upstream itself. -/
def NamesTell : Prop :=
  ∀ k target, TransGen (Uses modules .compile) i k → entries[k]? = some target →
    ∀ l other, entries[l]? = some other → other.2.project.name = target.2.project.name →
      TransGen (Uses modules .compile) i l

/-- The module's own lock lists the artifacts of the locks upstream. -/
def OwnLockCovers : Prop :=
  ∀ j, TransGen (Uses modules .compile) i j → ∀ checksum ∈ (locks j).classpath.compile,
    checksum ∈ (locks i).classpath.compile

end Statement

-- The walk
-- ---

section Walk

variable {canonicalize : Path → Option Path} {root : Path} {read : Path → Except String Manifest}

theorem collectModules_eq_ok {fuel : Nat} {pending : List Path} {before entries : List Entry}
    (h : collectModules canonicalize root read fuel pending before = .ok entries)
    (hnodup : (before.map Prod.fst).Nodup) (hread : ∀ entry ∈ before, read entry.1 = .ok entry.2) :
    (entries.map Prod.fst).Nodup ∧ ∀ entry ∈ entries, read entry.1 = .ok entry.2 := by
  induction fuel generalizing pending before with
  | zero =>
    cases pending with
    | nil =>
      obtain rfl := Except.ok.inj h
      exact ⟨hnodup, hread⟩
    | cons directory pending => cases h
  | succ fuel ih =>
    cases pending with
    | nil =>
      obtain rfl := Except.ok.inj h
      exact ⟨hnodup, hread⟩
    | cons directory pending =>
      rw [collectModules] at h
      split at h
      · cases h
      · next hnew =>
        obtain ⟨manifest, hmanifest, hrest⟩ := Fallible.bind_eq_ok.mp h
        obtain ⟨children, -, hrest⟩ := Fallible.bind_eq_ok.mp hrest
        refine ih hrest ?_ ?_
        · rw [List.map_append, List.nodup_append]
          refine ⟨hnodup, List.nodup_singleton _, ?_⟩
          intro a ha b hb hab
          rw [List.map_singleton, List.mem_singleton] at hb
          have hsame : a = directory := hab.trans hb
          exact hnew (List.contains_iff_mem.mpr (hsame ▸ ha))
        · intro entry hentry
          rcases List.mem_append.mp hentry with hold | hlast
          · exact hread entry hold
          · rw [List.mem_singleton.mp hlast]
            exact Fallible.mapError_eq_ok.mp hmanifest

end Walk

-- Models of modules
-- ---

section Models

variable {canonicalize : Path → Option Path} {root cache : Path} {generators : Path → Bool → List PathBuf}
  {lockAt : Path → Except String Lockfile} {entries : List Entry} {modules : List Module}
  {entry : Entry} {lock : Lockfile} {models : List CompileModel} {main : CompileModel}

/-- The modules that the coordinates of the main path dependencies lead to. -/
def mainTargets (entries : List Entry) (manifest : Manifest) : List Entry :=
  (projectCoordinates [.compile, .provided] manifest).filterMap (outputs? entries)

structure IsMain (cache : Path) (entries : List Entry) (entry : Entry) (lock : Lockfile) (main : CompileModel) :
    Prop where
  projectPath : main.projectPath = entry.2.project.name
  projectDirectory : main.projectDirectory = entry.1
  taskPath : main.taskPath = "compile"
  projectDependencies : main.projectDependencies =
    (mainTargets entries entry.2).map fun target => target.2.project.name
  destinationDirectory : main.destinationDirectory = some (outputOf entry.1)
  classpath : ∃ artifacts, lock.classpath.compile.mapM (jmanArtifactPath cache lock) = .ok artifacts ∧
    main.classpath = (mainTargets entries entry.2).map (fun target => outputOf target.1) ++ artifacts

theorem moduleModels_eq_ok (h : moduleModels cache generators entries entry lock = .ok models) :
    ∃ main test, models = [main, test] ∧ IsMain cache entries entry lock main ∧
      test.taskPath = "testCompile" := by
  simp only [moduleModels, Fallible.bind_eq_ok, Fallible.pure_eq_ok] at h
  obtain ⟨compile, hcompile, test, -, processors, -, rfl⟩ := h
  exact ⟨_, _, rfl, ⟨rfl, rfl, rfl, rfl, rfl, ⟨compile, hcompile, rfl⟩⟩, rfl⟩

theorem modelsOf_eq_ok (h : modelsOf canonicalize cache generators lockAt entries = .ok models) :
    ∃ pairs, models = pairs.flatten ∧ List.Forall₂ (fun entry pair => ∃ lock, lockAt entry.1 = .ok lock ∧
      moduleModels cache generators entries entry lock = .ok pair) entries pairs := by
  simp only [modelsOf, Fallible.bind_eq_ok, Fallible.pure_eq_ok] at h
  obtain ⟨-, -, pairs, hpairs, rfl⟩ := h
  refine ⟨pairs, rfl, (Fallible.mapM_eq_ok.mp hpairs).imp ?_⟩
  intro entry pair hpair
  obtain ⟨lock, hlock, hmodels⟩ := Fallible.bind_eq_ok.mp hpair
  exact ⟨lock, Fallible.mapError_eq_ok.mp hlock, hmodels⟩

theorem exists_isMain (h : modelsOf canonicalize cache generators lockAt entries = .ok models)
    (hentry : entry ∈ entries) : ∃ main ∈ models, ∃ lock, lockAt entry.1 = .ok lock ∧
      IsMain cache entries entry lock main := by
  obtain ⟨pairs, rfl, hpairs⟩ := modelsOf_eq_ok h
  obtain ⟨k, hk, rfl⟩ := List.getElem_of_mem hentry
  obtain ⟨lock, hlock, hmodels⟩ := hpairs.get hk (hpairs.length_eq ▸ hk)
  obtain ⟨main, test, hpair, hmain, -⟩ := moduleModels_eq_ok hmodels
  refine ⟨main, List.mem_flatten.mpr ⟨_, List.getElem_mem (hpairs.length_eq ▸ hk), ?_⟩, lock, hlock, hmain⟩
  rw [List.get_eq_getElem] at hpair
  rw [hpair]
  exact List.mem_cons_self

theorem isMain_of_mem (h : modelsOf canonicalize cache generators lockAt entries = .ok models)
    (hmain : main ∈ models) (htask : isMainCompileTask main.taskPath) :
    ∃ entry ∈ entries, ∃ lock, lockAt entry.1 = .ok lock ∧ IsMain cache entries entry lock main := by
  obtain ⟨pairs, rfl, hpairs⟩ := modelsOf_eq_ok h
  obtain ⟨pair, hpair, hmem⟩ := List.mem_flatten.mp hmain
  obtain ⟨k, hk, rfl⟩ := List.getElem_of_mem hpair
  have hk' : k < entries.length := hpairs.length_eq ▸ hk
  obtain ⟨lock, hlock, hmodels⟩ := hpairs.get hk' hk
  obtain ⟨main', test, hsame, hmain', htest⟩ := moduleModels_eq_ok hmodels
  rw [List.get_eq_getElem] at hsame
  rw [hsame] at hmem
  refine ⟨entries[k], List.getElem_mem hk', lock, hlock, ?_⟩
  simp only [List.mem_cons, List.not_mem_nil, or_false] at hmem
  rcases hmem with rfl | rfl
  · exact hmain'
  · rw [htest] at htask
    exact absurd htask (by decide)

theorem mem_mainModels_iff (h : modelsOf canonicalize cache generators lockAt entries = .ok models)
    {project : String} : main ∈ mainModels models project ↔
      main ∈ models ∧ ∃ entry ∈ entries, entry.2.project.name = project ∧
        ∃ lock, lockAt entry.1 = .ok lock ∧ IsMain cache entries entry lock main := by
  simp only [mainModels, List.mem_filter, decide_eq_true_eq]
  constructor
  · rintro ⟨hmem, htask, hproject⟩
    obtain ⟨entry, hentry, lock, hlock, hmain⟩ := isMain_of_mem h hmem htask
    exact ⟨hmem, entry, hentry, hmain.projectPath.symm.trans hproject, lock, hlock, hmain⟩
  · rintro ⟨hmem, entry, -, hname, lock, -, hmain⟩
    refine ⟨hmem, ?_, hmain.projectPath.trans hname⟩
    rw [hmain.taskPath]
    decide

end Models

-- Coordinates
-- ---

section Coordinates

theorem colon_notMem_of_splitGa? {group name : String} (h : (splitGa? (group ++ ":" ++ name)).isSome) :
    ':' ∉ group.toList := by
  have htext : (group ++ ":" ++ name).toList = group.toList ++ ':' :: name.toList := by
    rw [String.toList_append, String.toList_append, List.append_assoc]
    rfl
  unfold splitGa? at h
  split at h
  · next first second hparts =>
    rw [htext] at hparts
    -- the text has one colon, and that is the one after the group
    have hjoined : [':'].intercalate ((group.toList ++ ':' :: name.toList).splitOn ':') =
        group.toList ++ ':' :: name.toList := List.intercalate_splitOn ':'
    rw [hparts, List.intercalate_cons_cons, List.intercalate_singleton] at hjoined
    have hfirst := (Lines.piece_of_splitOn (hparts ▸ List.mem_cons_self : first ∈ _)).1
    have hsecond := (Lines.piece_of_splitOn
      (hparts ▸ List.mem_cons_of_mem _ List.mem_cons_self : second ∈ _)).1
    have hcount := congrArg (List.count ':') hjoined
    simp only [List.count_append, List.count_cons_self, List.count_nil, List.count_eq_zero_of_not_mem hfirst,
      List.count_eq_zero_of_not_mem hsecond] at hcount
    exact List.count_eq_zero.mp (by omega)
  · cases h

theorem name_of_coordinate {entry other : Entry} (h : (splitGa? entry.coordinate).isSome)
    (hsame : other.coordinate = entry.coordinate) : other.2.project.name = entry.2.project.name := by
  have hentry : Template.splitOnce ':' (entry.2.project.group.toList ++ ':' :: entry.2.project.name.toList) =
      some (entry.2.project.group.toList, entry.2.project.name.toList) :=
    Template.splitOnce_eq_some.mpr ⟨rfl, colon_notMem_of_splitGa? h⟩
  have hother : Template.splitOnce ':' (other.2.project.group.toList ++ ':' :: other.2.project.name.toList) =
      some (other.2.project.group.toList, other.2.project.name.toList) := by
    rw [← hsame] at h
    exact Template.splitOnce_eq_some.mpr ⟨rfl, colon_notMem_of_splitGa? h⟩
  have htext := congrArg String.toList hsame
  simp only [Entry.coordinate, String.toList_append, List.append_assoc] at htext
  have hlists : other.2.project.group.toList ++ ':' :: other.2.project.name.toList =
      entry.2.project.group.toList ++ ':' :: entry.2.project.name.toList := htext
  rw [hlists, hentry] at hother
  exact String.toList_injective (congrArg Prod.snd (Option.some.inj hother)).symm

theorem splitGa?_of_validate {format : Format} {manifest : Manifest} (h : manifest.validate format = .ok ())
    {declared : WorkspaceDependencyScope × String × String}
    (hdeclared : declared ∈ scopedPaths manifest.dependencies) : (splitGa? declared.2.1).isSome := by
  have hkeys : ∀ entries ∈ manifest.dependencies.scopes, ∀ coordinate ∈ entries.2.keys,
      validateGa coordinate = .ok () := by
    unfold Manifest.validate at h
    dsimp only at h
    split at h
    · cases h
    obtain ⟨-, -, h⟩ := Fallible.bind_eq_ok.mp h
    split at h
    · cases h
    obtain ⟨-, -, h⟩ := Fallible.bind_eq_ok.mp h
    obtain ⟨-, -, h⟩ := Fallible.bind_eq_ok.mp h
    obtain ⟨⟨⟩, hscopes, -⟩ := Fallible.bind_eq_ok.mp h
    intro entries hentries
    exact Fallible.forM_eq_ok.mp (Fallible.forM_eq_ok.mp hscopes entries hentries)
  obtain ⟨entries, hentries, hdeclared⟩ := List.mem_flatMap.mp hdeclared
  obtain ⟨entry, hentry, hpath⟩ := List.mem_filterMap.mp hdeclared
  obtain ⟨relative, -, rfl⟩ := Option.map_eq_some_iff.mp hpath
  have hscope : (entries.1.name, entries.2) ∈ manifest.dependencies.scopes := by
    simp only [scopedDependencies, List.mem_cons, List.not_mem_nil, or_false] at hentries
    rcases hentries with rfl | rfl | rfl | rfl <;> simp [Dependencies.scopes, WorkspaceDependencyScope.name]
  have hkey : entry.1 ∈ entries.2.keys := by
    rw [← Std.ExtTreeMap.map_fst_toList_eq_keys]
    exact List.mem_map_of_mem hentry
  have hvalid := hkeys _ hscope _ hkey
  unfold validateGa at hvalid
  split at hvalid
  · assumption
  · cases hvalid

end Coordinates

-- Names and the graph of the build
-- ---

section Graph

variable {canonicalize : Path → Option Path} {root : Path} {entries : List Entry} {modules : List Module}

theorem discoverDependency_eq_ok {entry : Entry} {dependencies : List WorkspaceDependency}
    {scope : WorkspaceDependencyScope} {coordinate relative : String} {d : WorkspaceDependency}
    (h : discoverDependency canonicalize root entries entry dependencies scope coordinate relative = .ok d) :
    d.scope = scope ∧ ∃ target, entries[d.index]? = some target ∧ target.coordinate = coordinate := by
  unfold discoverDependency at h
  split at h
  · cases h
  split at h
  · cases h
  split at h
  · cases h
  next index hindex =>
  dsimp only at h
  split at h
  · cases h
  split at h
  · cases h
  next hexpected =>
  split at h
  · cases h
  cases h
  have hlt := (List.findIdx?_eq_some_iff_getElem.mp hindex).1
  rw [List.getElem?_eq_getElem hlt, Option.map_some, Option.getD_some, not_not] at hexpected
  exact ⟨rfl, entries[index], List.getElem?_eq_getElem hlt, hexpected.symm⟩

/-- A module depends on the target of a path dependency of a scope. -/
def LeadsTo (entries : List Entry) (declared : WorkspaceDependencyScope × String × String)
    (d : WorkspaceDependency) : Prop :=
  d.scope = declared.1 ∧ ∃ target, entries[d.index]? = some target ∧ target.coordinate = declared.2.1

theorem dependenciesAt_of_discoverModules (h : discoverModules canonicalize root entries = .ok modules)
    {j : Nat} {entry : Entry} (hj : entries[j]? = some entry) :
    (∀ declared ∈ scopedPaths entry.2.dependencies, ∃ d ∈ dependenciesAt modules j,
        LeadsTo entries declared d) ∧
      ∀ d ∈ dependenciesAt modules j, ∃ declared ∈ scopedPaths entry.2.dependencies,
        LeadsTo entries declared d := by
  have hall := Fallible.mapM_eq_ok.mp h
  obtain ⟨hlt, rfl⟩ := List.getElem?_eq_some_iff.mp hj
  have hlt' : j < modules.length := hall.length_eq ▸ hlt
  obtain ⟨dependencies, hdependencies, hmodule⟩ := Fallible.bind_eq_ok.mp (hall.get hlt hlt')
  obtain ⟨found, hfound, hsorted⟩ := Fallible.bind_eq_ok.mp hdependencies
  have hmodule := Fallible.pure_eq_ok.mp hmodule
  obtain rfl := Fallible.pure_eq_ok.mp hsorted
  obtain ⟨new, hnew, hrelated⟩ := Fallible.forall₂_of_foldlM (R := LeadsTo entries)
    (fun _ _ _ hturn => discoverDependency_eq_ok hturn) hfound
  rw [List.nil_append] at hnew
  subst hnew
  have hmem (d : WorkspaceDependency) : d ∈ dependenciesAt modules j ↔ d ∈ found := by
    have hsorted : modules[j].dependencies = found.insertionSort fun left right => left.index ≤ right.index :=
      congrArg Module.dependencies hmodule.symm
    rw [dependenciesAt, List.getElem?_eq_getElem hlt']
    show d ∈ modules[j].dependencies ↔ _
    rw [hsorted]
    exact List.mem_insertionSort _
  simp only [hmem]
  exact ⟨fun _ => Fallible.exists_of_forall₂ hrelated, fun _ => Fallible.exists_of_forall₂ hrelated.flip⟩

variable {cache : Path} {generators : Path → Bool → List PathBuf} {lockAt : Path → Except String Lockfile}
  {models : List CompileModel} {main : CompileModel} {format : Format}

theorem mem_projectDependencies_iff (hmodules : discoverModules canonicalize root entries = .ok modules)
    (hvalid : ∀ entry ∈ entries, entry.2.validate format = .ok ()) {j : Nat} {entry : Entry} {lock : Lockfile}
    (hj : entries[j]? = some entry) (hmain : IsMain cache entries entry lock main) {name : String} :
    name ∈ main.projectDependencies ↔
      ∃ k target, Uses modules .compile j k ∧ entries[k]? = some target ∧ target.2.project.name = name := by
  obtain ⟨hdeclares, hdiscovers⟩ := dependenciesAt_of_discoverModules hmodules hj
  rw [hmain.projectDependencies]
  constructor
  · intro h
    obtain ⟨target, htarget, rfl⟩ := List.mem_map.mp h
    obtain ⟨coordinate, hcoordinate, houtput⟩ := List.mem_filterMap.mp htarget
    obtain ⟨declared, hdeclared, rfl⟩ := List.mem_map.mp hcoordinate
    obtain ⟨hpath, hscope⟩ := List.mem_filter.mp hdeclared
    obtain ⟨d, hd, hsame, other, hother, hcoordinate⟩ := hdeclares declared hpath
    have hone := splitGa?_of_validate (hvalid entry (List.mem_of_getElem? hj)) hpath
    have htarget : target.coordinate = declared.2.1 := by
      simpa using List.find?_some houtput
    have hincluded : DependencyUsage.compile.includes d.scope = true := by
      rw [hsame]
      simpa [DependencyUsage.includes] using hscope
    exact ⟨d.index, other, ⟨d, hd, hincluded, rfl⟩, hother,
      name_of_coordinate (htarget ▸ hone) (hcoordinate.trans htarget.symm)⟩
  · rintro ⟨k, target, ⟨d, hd, hincluded, rfl⟩, hk, rfl⟩
    obtain ⟨declared, hdeclared, hsame, other, hother, hcoordinate⟩ := hdiscovers d hd
    obtain rfl := Option.some.inj (hk.symm.trans hother)
    have hone := splitGa?_of_validate (hvalid entry (List.mem_of_getElem? hj)) hdeclared
    obtain ⟨last, hlast⟩ : ∃ last, outputs? entries declared.2.1 = some last := by
      rw [← Option.isSome_iff_exists, outputs?, List.find?_isSome]
      exact ⟨target, List.mem_reverse.mpr (List.mem_of_getElem? hk), decide_eq_true hcoordinate⟩
    have hsameCoordinate : last.coordinate = declared.2.1 := by
      simpa using List.find?_some hlast
    have hscope : declared.1 ∈ [WorkspaceDependencyScope.compile, .provided] := by
      rw [hsame] at hincluded
      simpa [DependencyUsage.includes] using hincluded
    have hpath : declared.2.1 ∈ projectCoordinates [.compile, .provided] entry.2 :=
      List.mem_map.mpr ⟨declared, List.mem_filter.mpr ⟨hdeclared, decide_eq_true hscope⟩, rfl⟩
    exact List.mem_map.mpr ⟨last, List.mem_filterMap.mpr ⟨_, hpath, hlast⟩,
      name_of_coordinate (hcoordinate ▸ hone) (hsameCoordinate.trans hcoordinate.symm)⟩

theorem dependsOn_of_uses (hmodules : discoverModules canonicalize root entries = .ok modules)
    (hvalid : ∀ entry ∈ entries, entry.2.validate format = .ok ())
    (hload : modelsOf canonicalize cache generators lockAt entries = .ok models) {i : Nat} {entry : Entry}
    {lock : Lockfile} (hi : entries[i]? = some entry) (hmain : IsMain cache entries entry lock main) {k : Nat}
    (h : TransGen (Uses modules .compile) i k) :
    ∃ target, entries[k]? = some target ∧ DependsOn models main target.2.project.name := by
  induction h with
  | single hstep =>
    obtain ⟨d, hd, hincluded, rfl⟩ := hstep
    obtain ⟨declared, -, -, target, htarget, -⟩ := (dependenciesAt_of_discoverModules hmodules hi).2 d hd
    exact ⟨target, htarget, .direct ((mem_projectDependencies_iff hmodules hvalid hi hmain).mpr
      ⟨_, target, ⟨d, hd, hincluded, rfl⟩, htarget, rfl⟩)⟩
  | tail _ hstep ih =>
    obtain ⟨middle, hmiddle, hdepends⟩ := ih
    obtain ⟨d, hd, hincluded, rfl⟩ := hstep
    obtain ⟨declared, -, -, target, htarget, -⟩ := (dependenciesAt_of_discoverModules hmodules hmiddle).2 d hd
    obtain ⟨model, hmodel, lock', hlock', hmodelMain⟩ := exists_isMain hload (List.mem_of_getElem? hmiddle)
    have hfound : model ∈ mainModels models middle.2.project.name :=
      (mem_mainModels_iff hload).mpr ⟨hmodel, middle, List.mem_of_getElem? hmiddle, rfl, lock', hlock', hmodelMain⟩
    exact ⟨target, htarget, hdepends.via hfound
      ((mem_projectDependencies_iff hmodules hvalid hmiddle hmodelMain).mpr
        ⟨_, target, ⟨d, hd, hincluded, rfl⟩, htarget, rfl⟩)⟩

theorem uses_of_dependsOn (hmodules : discoverModules canonicalize root entries = .ok modules)
    (hvalid : ∀ entry ∈ entries, entry.2.validate format = .ok ())
    (hload : modelsOf canonicalize cache generators lockAt entries = .ok models) {i : Nat} {entry : Entry}
    {lock : Lockfile} (hi : entries[i]? = some entry) (hmain : IsMain cache entries entry lock main)
    (hnames : NamesTell entries modules i) {project : String} (h : DependsOn models main project) :
    ∀ l other, entries[l]? = some other → other.2.project.name = project →
      TransGen (Uses modules .compile) i l := by
  induction h with
  | direct hproject =>
    obtain ⟨k, target, huses, hk, rfl⟩ := (mem_projectDependencies_iff hmodules hvalid hi hmain).mp hproject
    exact hnames k target (.single huses) hk
  | via _ hmodel hother ih =>
    obtain ⟨-, middle, hmiddle, hname, lock', -, hmodelMain⟩ := (mem_mainModels_iff hload).mp hmodel
    obtain ⟨m, hm⟩ := List.mem_iff_getElem?.mp hmiddle
    obtain ⟨k, target, huses, hk, rfl⟩ :=
      (mem_projectDependencies_iff hmodules hvalid hm hmodelMain).mp hother
    exact hnames k target ((ih m middle hm hname).tail huses) hk

/-- **What a module's model depends on is what the build finds upstream,** exactly where
names tell the modules upstream. -/
theorem dependsOn_iff_uses_iff (hmodules : discoverModules canonicalize root entries = .ok modules)
    (hvalid : ∀ entry ∈ entries, entry.2.validate format = .ok ())
    (hload : modelsOf canonicalize cache generators lockAt entries = .ok models) {i : Nat} {entry : Entry}
    {lock : Lockfile} (hi : entries[i]? = some entry) (hmain : IsMain cache entries entry lock main) :
    (∀ l other, entries[l]? = some other →
      (DependsOn models main other.2.project.name ↔ TransGen (Uses modules .compile) i l)) ↔
      NamesTell entries modules i := by
  have hupstream {k : Nat} (h : TransGen (Uses modules .compile) i k) :=
    dependsOn_of_uses hmodules hvalid hload hi hmain h
  constructor
  · intro h k target hk htarget l other hl hname
    obtain ⟨same, hsame, hdepends⟩ := hupstream hk
    obtain rfl := Option.some.inj (htarget.symm.trans hsame)
    exact (h l other hl).mp (hname ▸ hdepends)
  · intro hnames l other hl
    constructor
    · intro h
      exact uses_of_dependsOn hmodules hvalid hload hi hmain hnames h l other hl rfl
    · intro h
      obtain ⟨same, hsame, hdepends⟩ := hupstream h
      obtain rfl := Option.some.inj (hl.symm.trans hsame)
      exact hdepends

end Graph

-- Class paths
-- ---

section Classpaths

variable {canonicalize : Path → Option Path} {cache : Path} {generators : Path → Bool → List PathBuf}
  {lockAt : Path → Except String Lockfile} {entries : List Entry} {models : List CompileModel} {entry : Entry}
  {lock : Lockfile} {main : CompileModel} {Contents : Type} {disk : Disk Contents}

theorem jmanArtifactPath_eq_ok {checksum : String} {path : Path} :
    jmanArtifactPath cache lock checksum = .ok path ↔ lockedPath? cache lock checksum = some path := by
  unfold jmanArtifactPath lockedPath?
  cases packageOf? lock checksum with
  | none => simp
  | some package =>
    cases digestOf? checksum with
    | none => simp
    | some digest => simp

theorem outputOf_injective : Function.Injective outputOf := fun _ _ h => List.append_cancel_right h

theorem output_mem_semanticClasspath_iff
    (hload : modelsOf canonicalize cache generators lockAt entries = .ok models)
    (hnodup : (entries.map Prod.fst).Nodup) (hmain : IsMain cache entries entry lock main)
    (hinfo : moduleInfoFile disk main = none) (hbuilt : ∀ entry ∈ entries, disk.isDirectory (outputOf entry.1))
    (hfiles : ∀ checksum ∈ lock.classpath.compile, ∀ path, lockedPath? cache lock checksum = some path →
      ¬ disk.isDirectory path) {other : Entry} (hother : other ∈ entries) :
    outputOf other.1 ∈ semanticClasspath disk models main ↔ DependsOn models main other.2.project.name := by
  have hsame {target : Entry} (htarget : target ∈ entries) (h : outputOf target.1 = outputOf other.1) :
      target = other :=
    List.inj_on_of_nodup_map hnodup htarget hother (outputOf_injective h)
  rw [mem_semanticClasspath hinfo]
  constructor
  · rintro (hown | ⟨model, hmodel, -, houtput⟩)
    · obtain ⟨artifacts, hartifacts, hclasspath⟩ := hmain.classpath
      rw [hclasspath] at hown
      rcases List.mem_append.mp hown with hlinked | hartifact
      · obtain ⟨target, htarget, heq⟩ := List.mem_map.mp hlinked
        obtain ⟨coordinate, -, houtput⟩ := List.mem_filterMap.mp htarget
        have hentry : target ∈ entries := List.mem_reverse.mp (List.mem_of_find?_eq_some houtput)
        obtain rfl := hsame hentry heq
        refine .direct ?_
        rw [hmain.projectDependencies]
        exact List.mem_map_of_mem htarget
      · -- what the locks name are files, and outputs are directories
        obtain ⟨checksum, hchecksum, hpath⟩ := Fallible.exists_of_mem_mapM hartifacts hartifact
        exact absurd (hbuilt other hother) (hfiles checksum hchecksum _ (jmanArtifactPath_eq_ok.mp hpath))
    · obtain ⟨project, hdepends, hunit⟩ := mem_dependencyCompileModels.mp hmodel
      obtain ⟨-, target, htarget, rfl, lock', -, htargetMain⟩ := (mem_mainModels_iff hload).mp hunit
      have heq : outputOf target.1 = outputOf other.1 :=
        Option.some.inj (htargetMain.destinationDirectory.symm.trans houtput)
      exact hsame htarget heq ▸ hdepends
  · intro hdepends
    obtain ⟨model, hmodel, lock', hlock', hmodelMain⟩ := exists_isMain hload hother
    have hunit : model ∈ mainModels models other.2.project.name :=
      (mem_mainModels_iff hload).mpr ⟨hmodel, other, hother, rfl, lock', hlock', hmodelMain⟩
    refine Or.inr ⟨model, mem_dependencyCompileModels.mpr ⟨_, hdepends, hunit⟩, ?_,
      hmodelMain.destinationDirectory⟩
    rw [compiledOutputAvailable, hmodelMain.destinationDirectory]
    exact hbuilt other hother

theorem editorUses_iff {locks : Nat → Lockfile} {i : Nat} (hmain : IsMain cache entries entry (locks i) main)
    (hinfo : moduleInfoFile disk main = none) {checksum : String} :
    EditorUses cache locks i (semanticClasspath disk models main) checksum ↔
      checksum ∈ (locks i).classpath.compile := by
  constructor
  · exact fun h => h.1
  · intro h
    obtain ⟨artifacts, hartifacts, hclasspath⟩ := hmain.classpath
    obtain ⟨path, hmem, hpath⟩ := Fallible.exists_of_mem_of_mapM hartifacts h
    refine ⟨h, path, (mem_semanticClasspath hinfo).mpr (Or.inl ?_), hpath⟩
    rw [hclasspath]
    exact List.mem_append_right _ hmem

theorem buildUses_iff {files : FilePlace → Option ByteArray} {modules : List Module} {locks : Nat → Lockfile}
    {i : Nat} {classpath : List ClasspathEntry}
    (h : fullClasspath cache files modules locks i = .ok classpath) {checksum : String} :
    BuildUses cache files modules locks i classpath checksum ↔
      ∃ j ∈ i :: upstreamOf .compile modules i, checksum ∈ (locks j).classpath.compile := by
  obtain ⟨own, hown, h⟩ := Fallible.bind_eq_ok.mp h
  obtain ⟨artifacts, hartifacts, h⟩ := Fallible.bind_eq_ok.mp h
  obtain rfl := Fallible.pure_eq_ok.mp h
  constructor
  · rintro ⟨j, hj, hchecksum, -⟩
    exact ⟨j, hj, hchecksum⟩
  · rintro ⟨j, hj, hchecksum⟩
    have hfound : ∃ path ∈ artifacts.flatten ++ own, artifactPath cache files (locks j) checksum = .ok path := by
      rcases List.mem_cons.mp hj with rfl | hupstream
      · obtain ⟨path, hmem, hpath⟩ := Fallible.exists_of_mem_of_mapM hown hchecksum
        exact ⟨path, List.mem_append_right _ hmem, hpath⟩
      · obtain ⟨paths, hpaths, hlocked⟩ := Fallible.exists_of_mem_of_mapM hartifacts hupstream
        obtain ⟨path, hmem, hpath⟩ := Fallible.exists_of_mem_of_mapM hlocked hchecksum
        exact ⟨path, List.mem_append_left _ (List.mem_flatten_of_mem hpaths hmem), hpath⟩
    obtain ⟨path, hmem, hpath⟩ := hfound
    exact ⟨j, hj, hchecksum, path, hpath, List.mem_append_right _ (List.mem_map_of_mem hmem)⟩

theorem isMain_of_projectDirectory (hload : modelsOf canonicalize cache generators lockAt entries = .ok models)
    (hnodup : (entries.map Prod.fst).Nodup) (hentry : entry ∈ entries) (hlock : lockAt entry.1 = .ok lock)
    (hmain : main ∈ models) (hdirectory : main.projectDirectory = entry.1)
    (htask : isMainCompileTask main.taskPath) : IsMain cache entries entry lock main := by
  obtain ⟨other, hother, lock', hlock', hisMain⟩ := isMain_of_mem hload hmain htask
  obtain rfl : other = entry :=
    List.inj_on_of_nodup_map hnodup hother hentry (hisMain.projectDirectory.symm.trans hdirectory)
  obtain rfl := Except.ok.inj (hlock'.symm.trans hlock)
  exact hisMain

end Classpaths

-- Agreement
-- ---

/-- A workspace as the language server and the build load it, with a lock and the outputs
of every module. -/
structure BuiltWorkspace (Contents : Type) where
  canonicalize : Path → Option Path
  root : Path
  cache : Path
  format : Format
  read : Path → Except String Manifest
  lockAt : Path → Except String Lockfile
  generators : Path → Bool → List PathBuf
  files : FilePlace → Option ByteArray
  disk : Disk Contents
  fuel : Nat
  entries : List Entry
  models : List CompileModel
  modules : List Module
  locks : Nat → Lockfile
  /-- `Manifest::read` validates. -/
  valid : ∀ directory manifest, read directory = .ok manifest → manifest.validate format = .ok ()
  walked : collectModules canonicalize root read fuel [root] [] = .ok entries
  loaded : loadJmanModels canonicalize root cache generators lockAt read fuel = .ok models
  discovered : discoverModules canonicalize root entries = .ok modules
  locked : ∀ j entry, entries[j]? = some entry → lockAt entry.1 = .ok (locks j)
  built : ∀ entry ∈ entries, disk.isDirectory (outputOf entry.1)
  apart : ∀ path, isFile files path → ¬ disk.isDirectory path

namespace BuiltWorkspace

variable {Contents : Type} (workspace : BuiltWorkspace Contents)

theorem directories_nodup : (workspace.entries.map Prod.fst).Nodup :=
  (collectModules_eq_ok workspace.walked List.nodup_nil fun _ h => absurd h List.not_mem_nil).1

theorem manifests_valid : ∀ entry ∈ workspace.entries, entry.2.validate workspace.format = .ok () := by
  intro entry hentry
  have hread := (collectModules_eq_ok workspace.walked List.nodup_nil
    fun _ h => absurd h List.not_mem_nil).2 entry hentry
  exact workspace.valid _ _ hread

theorem modelsOf_entries : modelsOf workspace.canonicalize workspace.cache workspace.generators workspace.lockAt
    workspace.entries = .ok workspace.models := by
  obtain ⟨entries, hwalked, hmodels⟩ := Fallible.bind_eq_ok.mp workspace.loaded
  obtain rfl := Except.ok.inj (hwalked.symm.trans workspace.walked)
  exact hmodels

variable {workspace} {i : Nat} {entry : Entry} {main : CompileModel} {classpath : List ClasspathEntry}

theorem artifact_not_isDirectory
    (hbuild : fullClasspath workspace.cache workspace.files workspace.modules workspace.locks i = .ok classpath)
    {checksum : String} (hchecksum : checksum ∈ (workspace.locks i).classpath.compile) {path : Path}
    (hpath : lockedPath? workspace.cache (workspace.locks i) checksum = some path) :
    ¬ workspace.disk.isDirectory path := by
  obtain ⟨own, hown, -⟩ := Fallible.bind_eq_ok.mp hbuild
  obtain ⟨found, -, hfound⟩ := Fallible.exists_of_mem_of_mapM hown hchecksum
  obtain ⟨hlocked, hfile⟩ := artifactPath_eq_ok.mp hfound
  obtain rfl := Option.some.inj (hlocked.symm.trans hpath)
  exact workspace.apart _ hfile

theorem outputs_agree_iff (hi : workspace.entries[i]? = some entry)
    (hmain : IsMain workspace.cache workspace.entries entry (workspace.locks i) main)
    (hinfo : moduleInfoFile workspace.disk main = none)
    (hbuild : fullClasspath workspace.cache workspace.files workspace.modules workspace.locks i = .ok classpath) :
    (∀ j other, workspace.entries[j]? = some other →
      (outputOf other.1 ∈ semanticClasspath workspace.disk workspace.models main ↔ .output j ∈ classpath)) ↔
      NamesTell workspace.entries workspace.modules i := by
  rw [← dependsOn_iff_uses_iff workspace.discovered workspace.manifests_valid workspace.modelsOf_entries hi hmain]
  refine forall_congr' fun j => forall_congr' fun other => forall_congr' fun hj => ?_
  rw [output_mem_semanticClasspath_iff workspace.modelsOf_entries workspace.directories_nodup hmain hinfo
      workspace.built (fun _ hchecksum _ => artifact_not_isDirectory hbuild hchecksum) (List.mem_of_getElem? hj),
    output_mem_fullClasspath hbuild, mem_transitiveDependencies]

theorem artifacts_agree_iff
    (hmain : IsMain workspace.cache workspace.entries entry (workspace.locks i) main)
    (hinfo : moduleInfoFile workspace.disk main = none)
    (hbuild : fullClasspath workspace.cache workspace.files workspace.modules workspace.locks i = .ok classpath) :
    (∀ checksum,
      EditorUses workspace.cache workspace.locks i (semanticClasspath workspace.disk workspace.models main) checksum ↔
        BuildUses workspace.cache workspace.files workspace.modules workspace.locks i classpath checksum) ↔
      OwnLockCovers workspace.modules workspace.locks i := by
  simp only [editorUses_iff hmain hinfo, buildUses_iff hbuild, List.mem_cons, mem_upstreamOf,
    mem_transitiveDependencies]
  constructor
  · intro h j hj checksum hchecksum
    exact (h checksum).mpr ⟨j, Or.inr hj, hchecksum⟩
  · intro hcovers checksum
    constructor
    · exact fun hown => ⟨i, Or.inl rfl, hown⟩
    · rintro ⟨j, rfl | hj, hchecksum⟩
      · exact hchecksum
      · exact hcovers j hj checksum hchecksum

end BuiltWorkspace

/-- **Where the editor's class path agrees with that of the build.** The main sources of a
module without a descriptor have the same outputs and artifacts on both class paths
exactly where all modules with the name of one upstream are upstream themselves, and the
module's own lock lists what the locks upstream list. -/
theorem classpath_agrees_iff {Contents : Type} (workspace : BuiltWorkspace Contents) {i : Nat} {entry : Entry}
    {main : CompileModel} {classpath : List ClasspathEntry} (hi : workspace.entries[i]? = some entry)
    (hmain : main ∈ workspace.models) (hdirectory : main.projectDirectory = entry.1)
    (htask : isMainCompileTask main.taskPath) (hinfo : moduleInfoFile workspace.disk main = none)
    (hbuild : fullClasspath workspace.cache workspace.files workspace.modules workspace.locks i = .ok classpath) :
    SameClasspath workspace.cache workspace.files workspace.entries workspace.modules workspace.locks i
        (semanticClasspath workspace.disk workspace.models main) classpath ↔
      NamesTell workspace.entries workspace.modules i ∧ OwnLockCovers workspace.modules workspace.locks i := by
  have hisMain := isMain_of_projectDirectory workspace.modelsOf_entries workspace.directories_nodup
    (List.mem_of_getElem? hi) (workspace.locked i entry hi) hmain hdirectory htask
  exact and_congr (BuiltWorkspace.outputs_agree_iff hi hisMain hinfo hbuild)
    (BuiltWorkspace.artifacts_agree_iff hisMain hinfo hbuild)

-- Two libraries
-- ---

def moduleManifest (group name : String) (modules : List String) (dependencies : List (String × DependencySpec)) :
    Manifest where
  manifestVersion := manifestSchema
  project := { group := group
               name := name
               version := "1"
               javaRelease := 21
               packaging := "jar"
               modules := modules
               mainClass := none }
  toolchain := none
  maven := none
  build := none
  repositories := []
  dependencies := ⟨Std.ExtTreeMap.ofList dependencies, ∅, ∅, ∅⟩
  annotationProcessors := ∅
  sections := ""

def libraryEntries (second : String) : List Entry :=
  [(["ws"], moduleManifest "org.app" "app" ["a", "b"] [("org.a:core", .path "a")]),
    (["ws", "a"], moduleManifest "org.a" "core" [] []),
    (["ws", "b"], moduleManifest "org.b" second [] [])]

def libraryRead (second : String) (directory : Path) : Except String Manifest :=
  match (libraryEntries second).find? fun entry => entry.1 = directory with
  | some entry => .ok entry.2
  | none => .error "No such file or directory (os error 2)"

def lockOf (checksums : List String) : Lockfile :=
  { knownModule.lock with classpath := ⟨checksums, checksums, checksums, []⟩ }

def libraryLock (own : List String) (directory : Path) : Lockfile :=
  if directory = ["ws"] then lockOf own
  else if directory = ["ws", "a"] then lockOf [knownChecksum]
  else lockOf []

def libraryDisk (second : String) : Disk Unit where
  contents _ := ()
  file _ := none
  isDirectory path := (libraryEntries second).any fun entry => outputOf entry.1 = path
  entries _ := []

def libraryModels (second : String) (own : List String) : Except String (List CompileModel) :=
  loadJmanModels some ["ws"] ["cache"] (fun _ _ => []) (fun directory => .ok (libraryLock own directory))
    (libraryRead second) 3

def libraryWorkspace (second : String) (own : List String)
    (hvalid : ∀ entry ∈ libraryEntries second, (entry.2.validate (Format.ofTable [])).toOption = some ())
    (hloaded : (libraryModels second own).toOption.isSome)
    (hdiscovered : (discoverModules some ["ws"] (libraryEntries second)).toOption.isSome) :
    BuiltWorkspace Unit where
  canonicalize := some
  root := ["ws"]
  cache := ["cache"]
  format := Format.ofTable []
  read := libraryRead second
  lockAt directory := .ok (libraryLock own directory)
  generators _ _ := []
  files := knownFiles ⟨#[1]⟩
  disk := libraryDisk second
  fuel := 3
  entries := libraryEntries second
  models := (libraryModels second own).toOption.get hloaded
  modules := (discoverModules some ["ws"] (libraryEntries second)).toOption.get hdiscovered
  locks j := libraryLock own ((libraryEntries second).map Prod.fst)[j]!
  valid directory manifest hread := by
    unfold libraryRead at hread
    split at hread
    · next entry hentry =>
      obtain rfl := Except.ok.inj hread
      exact Fallible.eq_ok_of_toOption (hvalid entry (List.mem_of_find?_eq_some hentry))
    · cases hread
  walked := rfl
  loaded := Fallible.eq_ok_of_toOption (Option.some_get hloaded).symm
  discovered := Fallible.eq_ok_of_toOption (Option.some_get hdiscovered).symm
  locked j entry hj := by
    obtain ⟨hlt, rfl⟩ := List.getElem?_eq_some_iff.mp hj
    simp [hlt]
  built := by
    intro entry hentry
    exact List.any_eq_true.mpr ⟨entry, hentry, decide_eq_true rfl⟩
  apart path hfile hdirectory := by
    obtain ⟨entry, hentry, hpath⟩ := List.any_eq_true.mp hdirectory
    have hnone : ∀ directory ∈ [["ws"], ["ws", "a"], ["ws", "b"]],
        isFile (knownFiles ⟨#[1]⟩) (outputOf directory) = false := by decide +kernel
    have hmem : entry.1 ∈ [["ws"], ["ws", "a"], ["ws", "b"]] :=
      List.mem_map_of_mem (f := Prod.fst) hentry
    rw [← of_decide_eq_true hpath, hnone _ hmem] at hfile
    cases hfile

def toldWorkspace : BuiltWorkspace Unit :=
  libraryWorkspace "util" [knownChecksum] (by decide +kernel) (by decide +kernel) (by decide +kernel)

theorem transitiveDependencies_told : transitiveDependencies 0 toldWorkspace.modules .compile = {1} := by
  decide +kernel

theorem classpath_agrees_told : ∃ main ∈ toldWorkspace.models, ∃ classpath,
    fullClasspath toldWorkspace.cache toldWorkspace.files toldWorkspace.modules toldWorkspace.locks 0 =
        .ok classpath ∧
      SameClasspath toldWorkspace.cache toldWorkspace.files toldWorkspace.entries toldWorkspace.modules
        toldWorkspace.locks 0 (semanticClasspath toldWorkspace.disk toldWorkspace.models main) classpath := by
  have hmodel : ∃ main ∈ toldWorkspace.models, main.projectDirectory = ["ws"] ∧
      isMainCompileTask main.taskPath = true ∧ moduleInfoFile toldWorkspace.disk main = none := by decide +kernel
  obtain ⟨main, hmain, hdirectory, htask, hinfo⟩ := hmodel
  obtain ⟨classpath, hbuild⟩ := Fallible.exists_eq_ok (x := fullClasspath toldWorkspace.cache toldWorkspace.files
    toldWorkspace.modules toldWorkspace.locks 0) (by decide +kernel)
  have hupstream {k : Nat} (hk : TransGen (Uses toldWorkspace.modules .compile) 0 k) : k = 1 := by
    rw [← mem_transitiveDependencies, transitiveDependencies_told, Finset.mem_singleton] at hk
    exact hk
  refine ⟨main, hmain, classpath, hbuild,
    (classpath_agrees_iff toldWorkspace (i := 0) rfl hmain hdirectory htask hinfo hbuild).mpr ⟨?_, ?_⟩⟩
  · intro k target hk htarget l other hl hname
    obtain rfl := hupstream hk
    obtain rfl := Option.some.inj (htarget.symm.trans rfl : some target = some (libraryEntries "util")[1])
    have hlt : l < 3 := (List.getElem?_eq_some_iff.mp hl).1
    have hthird : l = 0 ∨ l = 1 ∨ l = 2 := by omega
    rcases hthird with rfl | rfl | rfl
    · obtain rfl := Option.some.inj hl
      exact absurd hname (by decide)
    · exact hk
    · obtain rfl := Option.some.inj hl
      exact absurd hname (by decide)
  · intro j hj checksum hchecksum
    obtain rfl := hupstream hj
    exact hchecksum

def confusedWorkspace : BuiltWorkspace Unit :=
  libraryWorkspace "core" [] (by decide +kernel) (by decide +kernel) (by decide +kernel)

/-- The editor has the output of the second library, which the root does not use, and
leaves out the artifact of the first. -/
theorem name_is_confused : ∃ main ∈ confusedWorkspace.models, main.projectDirectory = ["ws"] ∧
    isMainCompileTask main.taskPath = true ∧ moduleInfoFile confusedWorkspace.disk main = none ∧
    semanticClasspath confusedWorkspace.disk confusedWorkspace.models main =
      [outputOf ["ws", "a"], outputOf ["ws", "b"]] ∧
    fullClasspath confusedWorkspace.cache confusedWorkspace.files confusedWorkspace.modules
        confusedWorkspace.locks 0 =
      .ok [.output 1, .artifact ["cache", "artifacts", repeated '1' ++ ".jar"]] ∧
    ¬ SameClasspath confusedWorkspace.cache confusedWorkspace.files confusedWorkspace.entries
      confusedWorkspace.modules confusedWorkspace.locks 0
      (semanticClasspath confusedWorkspace.disk confusedWorkspace.models main)
      [.output 1, .artifact ["cache", "artifacts", repeated '1' ++ ".jar"]] := by
  have hmodel : ∃ main ∈ confusedWorkspace.models, main.projectDirectory = ["ws"] ∧
      isMainCompileTask main.taskPath = true ∧ moduleInfoFile confusedWorkspace.disk main = none ∧
      semanticClasspath confusedWorkspace.disk confusedWorkspace.models main =
        [outputOf ["ws", "a"], outputOf ["ws", "b"]] := by decide +kernel
  obtain ⟨main, hmain, hdirectory, htask, hinfo, hpaths⟩ := hmodel
  refine ⟨main, hmain, hdirectory, htask, hinfo, hpaths, Fallible.eq_ok_of_toOption (by decide +kernel), ?_⟩
  intro hsame
  have hsecond := (hsame.1 2 _ rfl).mp (hpaths ▸ List.mem_cons_of_mem _ List.mem_cons_self)
  revert hsecond
  decide +kernel

end JMan.Lsp.JmanModels
