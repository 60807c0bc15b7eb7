import Mathlib.Data.List.Nodup
import JMan.Lib.Loop
import JMan.Lsp.CompileModel

/-!
# JMan — javac sessions

The sessions that `NativeBackend` of `native_backend.rs` keeps for the compile units of a
project, and what becomes of them when the models of the project change. A session is
known by what it was created with. The disk does not change; loading a project, running
annotation processors, indexing and creating a session have any outcome.

* `sessions_are_right` — in every run of such steps the sessions are as `session_for`
  would create them now.
* `new_dependency_is_not_seen` — a reload after which one is not.
-/

namespace JMan.Lsp.Sessions

-- Models
-- ---

/-- A compile model with the options of its annotation processors. -/
structure ProjectModel extends CompileModel where
  processorOptions : List String
deriving DecidableEq

/-- What `compile_model_fingerprint` hashes. -/
structure Fingerprinted where
  schemaVersion : Nat
  buildSystem : String
  projectPath : String
  taskPath : String
  javaRelease : Option Nat
  compilerArgs : List String
  sourceRoots : List PathBuf
  classpath : List PathBuf
  modulePath : List PathBuf
  annotationProcessorPath : List PathBuf
  annotationProcessorOptions : List String
deriving DecidableEq

def ProjectModel.fingerprinted (model : ProjectModel) : Fingerprinted where
  schemaVersion := model.schemaVersion
  buildSystem := model.buildSystem
  projectPath := model.projectPath
  taskPath := model.taskPath
  javaRelease := model.javaRelease
  compilerArgs := model.compilerArgs
  sourceRoots := model.sourceRoots
  classpath := model.classpath
  modulePath := model.modulePath
  annotationProcessorPath := model.annotationProcessorPath
  annotationProcessorOptions := model.processorOptions

structure SessionInputs where
  classpath : List PathBuf
  modulePath : List PathBuf
  sourcePath : List PathBuf
  moduleInfo : Option PathBuf
  options : List String
  release : Nat
deriving DecidableEq

section Inputs

variable {Contents : Type} (disk : Disk Contents) (javaHome : Option PathBuf)

/-- What `session_for` creates a session with, if the unit has a Java release. -/
def sessionInputs (models : List CompileModel) (model : CompileModel) : Option SessionInputs :=
  model.javaRelease.map fun release => {
    classpath := semanticClasspath disk models model
    modulePath := semanticModulePath disk models model
    sourcePath := sessionSourcePath disk models javaHome model
    moduleInfo := moduleInfoFile disk model
    options := jpmsCompilerOptions model.compilerArgs
    release := release }

end Inputs

-- Operations
-- ---

/-- The directories with the classes of each unit's annotation processors. -/
abbrev ProcessorOutputs := String → List PathBuf

/-- The loop at the end of `run_annotation_processors` -/
def insertOutputs (classpath outputs : List PathBuf) : List PathBuf :=
  outputs.foldr (fun classes classpath => if classpath.contains classes then classpath else classes :: classpath)
    classpath

def ProjectModel.processed (outputs : ProcessorOutputs) (model : ProjectModel) : ProjectModel :=
  { model with classpath := insertOutputs model.classpath (outputs model.key) }

structure State where
  /-- The project has a root. -/
  initialized : Bool
  models : List ProjectModel
  sessions : String → Option SessionInputs

inductive Operation where
  /-- `initialize` -/
  | start (loaded : Except String (List ProjectModel)) (outputs : Except String ProcessorOutputs)
  /-- `initialize_formatter` -/
  | startFormatter (loaded : Except String (List ProjectModel))
  /-- `reload` of changes one of which is to a build file, or of none -/
  | reload (loaded : Except String (List ProjectModel)) (outputs : Except String ProcessorOutputs)
      (indexed : Except String Unit)
  | sourceSaved (source : Option PathBuf) (outputs : Except String ProcessorOutputs)
  | rebuildIndex (loaded : Except String (List ProjectModel)) (removed : Except String Unit)
      (outputs : Except String ProcessorOutputs)
  | clearProjectCache (removed : Except String Unit)
  /-- `session_for`, of a source and with what becomes of the creation of a session -/
  | sessionFor (source : Option PathBuf) (created : Except String Unit)

/-- `HashMap::get` of the map that is collected from the fingerprints of models: the last
one of a key counts. -/
def fingerprintOf {Fingerprint : Type} (hash : Fingerprinted → Fingerprint) (models : List ProjectModel)
    (key : String) : Option Fingerprint :=
  (models.reverse.find? fun model => model.key = key).map fun model => hash model.fingerprinted

namespace State

variable {Contents Fingerprint : Type} [DecidableEq Fingerprint] (disk : Disk Contents)
  (javaHome : Option PathBuf) (hash : Fingerprinted → Fingerprint) (s : State)

def new : State := ⟨false, [], fun _ => none⟩

def units : List CompileModel := s.models.map ProjectModel.toCompileModel

/-- `sessions.clear()` -/
def clear : State := { s with sessions := fun _ => none }

def runAnnotationProcessors : Except String ProcessorOutputs → State
  | .error _ => s
  | .ok outputs => { s with models := s.models.map (ProjectModel.processed outputs) }

/-- The key is not in the set `changed` of `reload`. -/
def unchanged (loaded : List ProjectModel) (key : String) : Bool :=
  fingerprintOf hash s.models key = fingerprintOf hash loaded key

def reload (loaded : List ProjectModel) (outputs : Except String ProcessorOutputs) (indexed : Except String Unit) :
    State :=
  match outputs, indexed with
  | .ok outputs, .ok () =>
    { s with
      models := loaded.map (ProjectModel.processed outputs)
      sessions := fun key => if s.unchanged hash loaded key then s.sessions key else none }
  | _, _ => s

def sessionFor (source : PathBuf) (created : Except String Unit) : State :=
  match selectCompileModel s.units source with
  | none => s
  | some model =>
    match s.sessions model.key, sessionInputs disk javaHome s.units model, created with
    | none, some inputs, .ok () => { s with sessions := Function.update s.sessions model.key (some inputs) }
    | _, _, _ => s

def next : Operation → State
  | .start (.error _) _ => s
  | .start (.ok loaded) outputs => (State.clear ⟨true, loaded, s.sessions⟩).runAnnotationProcessors outputs
  | .startFormatter (.error _) => s
  | .startFormatter (.ok loaded) => State.clear ⟨true, loaded, s.sessions⟩
  | .reload (.error _) _ _ => s
  | .reload (.ok loaded) outputs indexed => if s.initialized then s.reload hash loaded outputs indexed else s
  | .sourceSaved none _ => s
  | .sourceSaved (some source) outputs =>
    if (source.getLast?.any fun name => ".java".toList <:+ name.toList ∧ name ≠ ".java") ∧
        (selectCompileModel s.units source).isSome then
      match outputs with
      | .error _ => s
      | .ok outputs => (s.runAnnotationProcessors (.ok outputs)).clear
    else s
  | .rebuildIndex (.error _) _ _ => s
  | .rebuildIndex (.ok loaded) (.error _) _ => if s.initialized then { s with models := loaded } else s
  | .rebuildIndex (.ok loaded) (.ok ()) outputs =>
    if s.initialized then (State.clear { s with models := loaded }).runAnnotationProcessors outputs else s
  | .clearProjectCache (.error _) => s
  | .clearProjectCache (.ok ()) => if s.initialized then s.clear else s
  | .sessionFor none _ => s
  | .sessionFor (some source) created => s.sessionFor disk javaHome source created

end State

section Runs

variable {Contents Fingerprint : Type} [DecidableEq Fingerprint] (disk : Disk Contents)
  (javaHome : Option PathBuf) (hash : Fingerprinted → Fingerprint)

def run (operations : List Operation) : State := operations.foldl (State.next disk javaHome hash) .new

-- What should hold
-- ---

/-- Every session is that of a unit there is, and as it would be created now. -/
def Right (s : State) : Prop :=
  ∀ key inputs, s.sessions key = some inputs → (∃ model ∈ s.units, model.key = key) ∧
    ∀ model ∈ s.units, model.key = key → sessionInputs disk javaHome s.units model = some inputs

/-- What the loop that collects dependencies reads of a unit. -/
def asDependency (model : CompileModel) : List String × Option PathBuf :=
  (model.projectDependencies, model.destinationDirectory)

/-- A unit the sources of which stand for its classes, as `dependency_source_roots` has it. -/
def standsBySources (owner model : CompileModel) : Bool :=
  isMainCompileTask model.taskPath && (!compiledOutputAvailable disk model &&
    ((moduleInfoFile disk model).isNone && (model.projectPath ∈ owner.projectDependencies ||
      ((owner.classpath ++ owner.modulePath).filter fun path => !disk.exists? path).any
        (model.projectDirectory.isPrefixOf ·))))

/-- What `reload` does not compare of a unit whose fingerprint is the same is the same:
its own sources and dependencies, the outputs and dependencies of the units it depends
on, and the units the sources of which stand for their classes. Its fingerprint does not
collide, and annotation processors add nothing to its class path. -/
structure SameUnit (before after : List CompileModel) (outputs : List PathBuf) (old new : ProjectModel) : Prop where
  fingerprinted : old.fingerprinted = new.fingerprinted
  outputs : ∀ classes ∈ outputs, classes ∈ new.classpath
  sourceFiles : old.sourceFiles = new.sourceFiles
  generatedSourcesDirectory : old.generatedSourcesDirectory = new.generatedSourcesDirectory
  generatedSourceDirectories : old.generatedSourceDirectories = new.generatedSourceDirectories
  projectDependencies : old.projectDependencies = new.projectDependencies
  dependencies : ∀ project, DependsOn before old.toCompileModel project →
    (mainModels before project).map asDependency = (mainModels after project).map asDependency
  sources : (before.filter (standsBySources disk old.toCompileModel)).map CompileModel.sourcePath =
    (after.filter (standsBySources disk old.toCompileModel)).map CompileModel.sourcePath

/-- The units of a project have keys of their own. -/
def DistinctKeys (models : List ProjectModel) : Prop := (models.map fun model => model.key).Nodup

/-- What a reload does not see has not changed for the sessions that it keeps, and a
rebuild removes the old caches or finds no session. -/
def KeepsRight (s : State) : Operation → Prop
  | .start (.ok loaded) _ => DistinctKeys loaded
  | .startFormatter (.ok loaded) => DistinctKeys loaded
  | .reload (.ok loaded) (.ok outputs) (.ok ()) =>
    DistinctKeys loaded ∧ ∀ old ∈ s.models, ∀ new ∈ loaded, old.key = new.key → (s.sessions old.key).isSome →
      s.unchanged hash loaded old.key →
      SameUnit disk s.units ((loaded.map (ProjectModel.processed outputs)).map ProjectModel.toCompileModel)
        (outputs new.key) old new
  | .rebuildIndex (.ok loaded) (.ok ()) _ => DistinctKeys loaded
  | .rebuildIndex (.ok loaded) (.error _) _ =>
    DistinctKeys loaded ∧ (loaded = s.models ∨ ∀ key, s.sessions key = none)
  | _ => True

end Runs

-- What a session is created with
-- ---

section SameInputs

variable {Contents : Type} {disk : Disk Contents} {javaHome : Option PathBuf} {before after : List CompileModel}
  {owner other : CompileModel} {pending visited : List String}

theorem dependencyOutputsFrom_eq
    (hagree : ∀ project, DependsOn before owner project →
      (mainModels before project).map asDependency = (mainModels after project).map asDependency)
    (fuel : Nat) (hpending : ∀ project ∈ pending, DependsOn before owner project) :
    (dependencyModelsFrom before fuel pending visited).map CompileModel.destinationDirectory =
      (dependencyModelsFrom after fuel pending visited).map CompileModel.destinationDirectory := by
  induction fuel generalizing pending visited with
  | zero => rfl
  | succ fuel ih =>
    cases pending with
    | nil => rfl
    | cons project pending =>
      have hrest : ∀ project ∈ pending, DependsOn before owner project :=
        fun project hproject => hpending project (List.mem_cons_of_mem _ hproject)
      rw [dependencyModelsFrom, dependencyModelsFrom]
      split
      · exact ih hrest
      · have hfirst := hpending project List.mem_cons_self
        have hviews := hagree project hfirst
        have houtputs : (mainModels before project).map CompileModel.destinationDirectory =
            (mainModels after project).map CompileModel.destinationDirectory := by
          have hsnd := congrArg (List.map Prod.snd) hviews
          simpa [asDependency, Function.comp_def] using hsnd
        have hnext : (mainModels before project).flatMap CompileModel.projectDependencies =
            (mainModels after project).flatMap CompileModel.projectDependencies := by
          have hfst := congrArg (List.flatMap Prod.fst) hviews
          simpa [asDependency, List.flatMap_map] using hfst
        rw [List.map_append, List.map_append, houtputs, hnext]
        refine congrArg _ (ih ?_)
        intro other hother
        rcases List.mem_append.mp hother with hnew | hold
        · rw [List.mem_reverse, ← hnext] at hnew
          obtain ⟨model, hmodel, hdependency⟩ := List.mem_flatMap.mp hnew
          exact hfirst.via hmodel hdependency
        · exact hrest other hold

/-- **What a unit depends on is found again.** -/
theorem dependencyOutputs_eq (hsame : owner.projectDependencies = other.projectDependencies)
    (hagree : ∀ project, DependsOn before owner project →
      (mainModels before project).map asDependency = (mainModels after project).map asDependency) :
    (dependencyCompileModels before owner).map CompileModel.destinationDirectory =
      (dependencyCompileModels after other).map CompileModel.destinationDirectory := by
  rw [← dependencyCompileModels_of_le (Nat.le_add_right _ (dependencyFuel after other)),
    ← dependencyCompileModels_of_le (Nat.le_add_left (dependencyFuel after other) (dependencyFuel before owner)),
    ← hsame]
  refine dependencyOutputsFrom_eq hagree _ ?_
  intro project hproject
  exact .direct (List.mem_reverse.mp hproject)

theorem availableOutputs_eq (models : List CompileModel) :
    (models.filter (compiledOutputAvailable disk)).filterMap CompileModel.destinationDirectory =
      ((models.map CompileModel.destinationDirectory).filter fun output => output.any disk.isDirectory).filterMap id := by
  rw [List.filter_map, List.filterMap_map]
  rfl

theorem standsBySources_congr (hclasspath : owner.classpath = other.classpath)
    (hmodulePath : owner.modulePath = other.modulePath)
    (hdependencies : owner.projectDependencies = other.projectDependencies) :
    standsBySources disk owner = standsBySources disk other := by
  funext model
  rw [standsBySources, standsBySources, hclasspath, hmodulePath, hdependencies]

theorem dependencySourceRoots_eq (models : List CompileModel) :
    dependencySourceRoots disk models owner =
      ((models.filter (standsBySources disk owner)).map CompileModel.sourcePath).flatten.foldl pushNew [] := by
  rw [← List.flatMap_def]
  rfl

end SameInputs

section Reloads

variable {Contents : Type} {disk : Disk Contents} {javaHome : Option PathBuf} {before after : List CompileModel}
  {outputs : List PathBuf} {old new : ProjectModel}

/-- **A unit that is the same has the same session.** -/
theorem SameUnit.sessionInputs_eq (h : SameUnit disk before after outputs old new) :
    sessionInputs disk javaHome before old.toCompileModel =
      sessionInputs disk javaHome after new.toCompileModel := by
  have hrelease : old.javaRelease = new.javaRelease := congrArg Fingerprinted.javaRelease h.fingerprinted
  have hoptions : old.compilerArgs = new.compilerArgs := congrArg Fingerprinted.compilerArgs h.fingerprinted
  have hroots : old.sourceRoots = new.sourceRoots := congrArg Fingerprinted.sourceRoots h.fingerprinted
  have hclasspath : old.classpath = new.classpath := congrArg Fingerprinted.classpath h.fingerprinted
  have hmodulePath : old.modulePath = new.modulePath := congrArg Fingerprinted.modulePath h.fingerprinted
  have hmoduleInfo : moduleInfoFile disk old.toCompileModel = moduleInfoFile disk new.toCompileModel := by
    rw [moduleInfoFile, moduleInfoFile, h.sourceFiles, hroots]
  have hsourcePath : old.toCompileModel.sourcePath = new.toCompileModel.sourcePath := by
    rw [CompileModel.sourcePath, CompileModel.sourcePath, h.sourceFiles, hroots, h.generatedSourcesDirectory,
      h.generatedSourceDirectories]
  have houtputs := dependencyOutputs_eq h.projectDependencies h.dependencies
  have hsources : dependencySourceRoots disk before old.toCompileModel =
      dependencySourceRoots disk after new.toCompileModel := by
    rw [dependencySourceRoots_eq, dependencySourceRoots_eq, h.sources,
      standsBySources_congr hclasspath hmodulePath h.projectDependencies]
  have hsemanticClasspath : semanticClasspath disk before old.toCompileModel =
      semanticClasspath disk after new.toCompileModel := by
    rw [semanticClasspath, semanticClasspath, availableOutputs_eq, availableOutputs_eq, houtputs, hmoduleInfo,
      hclasspath]
  have hsemanticModulePath : semanticModulePath disk before old.toCompileModel =
      semanticModulePath disk after new.toCompileModel := by
    have hfilterMap (models : List CompileModel) : models.filterMap CompileModel.destinationDirectory =
        (models.map CompileModel.destinationDirectory).filterMap id := by
      rw [List.filterMap_map]
      rfl
    rw [semanticModulePath, semanticModulePath, hfilterMap, hfilterMap, houtputs, hmoduleInfo, hmodulePath]
  have hsessionSourcePath : sessionSourcePath disk before javaHome old.toCompileModel =
      sessionSourcePath disk after javaHome new.toCompileModel := by
    rw [sessionSourcePath, sessionSourcePath, hsources, hmoduleInfo, hclasspath, hsourcePath]
  rw [sessionInputs, sessionInputs, hsemanticClasspath, hsemanticModulePath, hsessionSourcePath, hmoduleInfo,
    hoptions, hrelease]

theorem insertOutputs_eq_self {classpath outputs : List PathBuf} (h : ∀ classes ∈ outputs, classes ∈ classpath) :
    insertOutputs classpath outputs = classpath := by
  induction outputs with
  | nil => rfl
  | cons classes rest ih =>
    have hrest := ih fun classes hclasses => h classes (List.mem_cons_of_mem _ hclasses)
    rw [insertOutputs] at hrest ⊢
    rw [List.foldr_cons, hrest, if_pos (List.contains_iff_mem.mpr (h classes List.mem_cons_self))]

theorem processed_eq_self {outputs : ProcessorOutputs} (h : ∀ classes ∈ outputs new.key, classes ∈ new.classpath) :
    new.processed outputs = new := by
  rw [ProjectModel.processed, insertOutputs_eq_self h]

end Reloads

-- Steps
-- ---

section Steps

variable {Contents Fingerprint : Type} {disk : Disk Contents} {javaHome : Option PathBuf}
  {hash : Fingerprinted → Fingerprint} {s : State} {models loaded : List ProjectModel} {operation : Operation}

/-- The sessions are right, and the keys tell the units. -/
structure Sound (disk : Disk Contents) (javaHome : Option PathBuf) (s : State) : Prop where
  right : Right disk javaHome s
  distinct : DistinctKeys s.models

theorem DistinctKeys.eq (h : DistinctKeys models) {model other : ProjectModel} (hmodel : model ∈ models)
    (hother : other ∈ models) (hkey : model.key = other.key) : model = other :=
  List.inj_on_of_nodup_map h hmodel hother hkey

theorem DistinctKeys.processed (h : DistinctKeys models) (outputs : ProcessorOutputs) :
    DistinctKeys (models.map (ProjectModel.processed outputs)) := by
  rw [DistinctKeys, List.map_map]
  exact h

theorem right_clear : Right disk javaHome s.clear := by
  intro key inputs h
  cases h

theorem Sound.clear (h : DistinctKeys s.models) : Sound disk javaHome s.clear := ⟨right_clear, h⟩

theorem Sound.runAnnotationProcessors (h : DistinctKeys s.models) (outputs : Except String ProcessorOutputs) :
    Sound disk javaHome (s.clear.runAnnotationProcessors outputs) := by
  cases outputs with
  | error error => exact Sound.clear h
  | ok outputs =>
    refine ⟨?_, h.processed outputs⟩
    intro key inputs hsession
    cases hsession

theorem Sound.sessionFor (h : Sound disk javaHome s) (source : PathBuf) (created : Except String Unit) :
    Sound disk javaHome (s.sessionFor disk javaHome source created) := by
  unfold State.sessionFor
  split
  · exact h
  · next model hselect =>
    split
    · next inputs hnone hinputs =>
      refine ⟨?_, h.distinct⟩
      intro key other hsession
      by_cases hkey : key = model.key
      · subst hkey
        simp only [Function.update_self, Option.some.injEq] at hsession
        subst hsession
        have hmodel : model ∈ s.units := mem_of_selectCompileModel hselect
        refine ⟨⟨model, hmodel, rfl⟩, ?_⟩
        intro unit hunit hsame
        obtain ⟨first, hfirst, rfl⟩ := List.mem_map.mp hmodel
        obtain ⟨second, hsecond, rfl⟩ := List.mem_map.mp hunit
        obtain rfl := h.distinct.eq hsecond hfirst hsame
        exact hinputs
      · simp only [Function.update_of_ne hkey] at hsession
        exact h.right key other hsession
    · exact h

theorem fingerprintOf_eq (h : DistinctKeys models) {model : ProjectModel} (hmodel : model ∈ models) :
    fingerprintOf hash models model.key = some (hash model.fingerprinted) := by
  rw [fingerprintOf, Option.map_eq_some_iff]
  cases hfind : models.reverse.find? fun other => other.key = model.key with
  | none =>
    have hnone := List.find?_eq_none.mp hfind model (List.mem_reverse.mpr hmodel)
    simp at hnone
  | some other =>
    have hkey : other.key = model.key := by simpa using List.find?_some hfind
    have hother := List.mem_reverse.mp (List.mem_of_find?_eq_some hfind)
    exact ⟨other, rfl, by rw [h.eq hother hmodel hkey]⟩

theorem exists_of_fingerprintOf {key : String} {fingerprint : Fingerprint}
    (h : fingerprintOf hash models key = some fingerprint) : ∃ model ∈ models, model.key = key := by
  obtain ⟨model, hfind, -⟩ := Option.map_eq_some_iff.mp h
  exact ⟨model, List.mem_reverse.mp (List.mem_of_find?_eq_some hfind), by simpa using List.find?_some hfind⟩

variable [DecidableEq Fingerprint]

/-- **A reload keeps right sessions** if what it does not compare has not changed. -/
theorem Sound.reload (h : Sound disk javaHome s) {outputs : Except String ProcessorOutputs}
    {indexed : Except String Unit} (hkeeps : KeepsRight disk hash s (.reload (.ok loaded) outputs indexed)) :
    Sound disk javaHome (s.reload hash loaded outputs indexed) := by
  unfold State.reload
  split
  · next outputs =>
    obtain ⟨hdistinct, hsame⟩ := hkeeps
    refine ⟨?_, hdistinct.processed outputs⟩
    intro key inputs hsession
    simp only [Option.ite_none_right_eq_some] at hsession
    obtain ⟨hunchanged, hold⟩ := hsession
    obtain ⟨⟨unit, hunit, hkey⟩, hright⟩ := h.right key inputs hold
    obtain ⟨old, holdMem, rfl⟩ := List.mem_map.mp hunit
    subst hkey
    -- the key was not dropped, so it has a unit again
    have hfingerprint : fingerprintOf hash loaded old.key = some (hash old.fingerprinted) := by
      rw [← of_decide_eq_true hunchanged]
      exact fingerprintOf_eq h.distinct holdMem
    obtain ⟨new, hnew, hnewKey⟩ := exists_of_fingerprintOf hfingerprint
    have hunit := hsame old holdMem new hnew hnewKey.symm (by rw [hold]; rfl) hunchanged
    have hinputs : sessionInputs disk javaHome _ old.toCompileModel =
        sessionInputs disk javaHome _ new.toCompileModel := hunit.sessionInputs_eq
    rw [hright old.toCompileModel (List.mem_map_of_mem holdMem) rfl] at hinputs
    have hprocessed : new.processed outputs = new := processed_eq_self hunit.outputs
    have hthere : new ∈ loaded.map (ProjectModel.processed outputs) :=
      List.mem_map.mpr ⟨new, hnew, hprocessed⟩
    refine ⟨⟨new.toCompileModel, List.mem_map_of_mem hthere, hnewKey⟩, ?_⟩
    intro unit hmem hkey
    obtain ⟨other, hother, rfl⟩ := List.mem_map.mp hmem
    obtain rfl := (hdistinct.processed outputs).eq hother hthere (hkey.trans hnewKey.symm)
    exact hinputs.symm
  · exact h

/-- **A step keeps every session right.** -/
theorem Sound.next (h : Sound disk javaHome s) (hkeeps : KeepsRight disk hash s operation) :
    Sound disk javaHome (s.next disk javaHome hash operation) := by
  cases operation with
  | start loaded outputs =>
    cases loaded with
    | error error => exact h
    | ok loaded => exact Sound.runAnnotationProcessors (s := ⟨true, loaded, s.sessions⟩) hkeeps outputs
  | startFormatter loaded =>
    cases loaded with
    | error error => exact h
    | ok loaded => exact Sound.clear (s := ⟨true, loaded, s.sessions⟩) hkeeps
  | reload loaded outputs indexed =>
    cases loaded with
    | error error => exact h
    | ok loaded =>
      simp only [State.next]
      split
      · exact h.reload hkeeps
      · exact h
  | sourceSaved source outputs =>
    cases source with
    | none => exact h
    | some source =>
      simp only [State.next]
      split
      · cases outputs with
        | error error => exact h
        | ok outputs =>
          exact Sound.clear (s := s.runAnnotationProcessors (.ok outputs)) (h.distinct.processed outputs)
      · exact h
  | rebuildIndex loaded removed outputs =>
    cases loaded with
    | error error => exact h
    | ok loaded =>
      cases removed with
      | error error =>
        simp only [State.next]
        split
        · obtain ⟨hdistinct, hsame | hnone⟩ := hkeeps
          · rw [hsame]
            exact h
          · refine ⟨?_, hdistinct⟩
            intro key inputs hsession
            rw [hnone key] at hsession
            cases hsession
        · exact h
      | ok removed =>
        simp only [State.next]
        split
        · exact Sound.runAnnotationProcessors (s := { s with models := loaded }) hkeeps outputs
        · exact h
  | clearProjectCache removed =>
    cases removed with
    | error error => exact h
    | ok removed =>
      simp only [State.next]
      split
      · exact Sound.clear h.distinct
      · exact h
  | sessionFor source created =>
    cases source with
    | none => exact h
    | some source => exact h.sessionFor source created

end Steps

-- Runs
-- ---

/-- **The sessions are right** whenever a run stands in which no reload misses a change. -/
theorem sessions_are_right {Contents Fingerprint : Type} [DecidableEq Fingerprint] (disk : Disk Contents)
    (javaHome : Option PathBuf) (hash : Fingerprinted → Fingerprint) (operations before after : List Operation)
    (h : Loop.Guarded (KeepsRight disk hash) (State.next disk javaHome hash) .new operations)
    (hoperations : operations = before ++ after) : Right disk javaHome (run disk javaHome hash before) := by
  subst hoperations
  have hnew : Sound disk javaHome .new := by
    refine ⟨?_, List.nodup_nil⟩
    intro key inputs hsession
    cases hsession
  have hsound := h.of_append.invariant (Sound disk javaHome)
    (fun s operation _ hsound hkeeps => hsound.next hkeeps) hnew
  exact hsound.right

def libIsBuilt : Disk Unit := ⟨fun _ => (), fun _ => none, fun path => path = ["lib", "out"], fun _ => []⟩

def unitOf (projectPath : String) (projectDependencies : List String) (directory : String) : ProjectModel where
  schemaVersion := 1
  buildSystem := "gradle"
  projectPath := projectPath
  projectDirectory := [directory]
  taskPath := "compile"
  sourceFiles := []
  sourceRoots := [[directory, "src"]]
  classpath := []
  modulePath := []
  projectDependencies := projectDependencies
  annotationProcessorPath := []
  compilerArgs := []
  javaRelease := some 25
  generatedSourcesDirectory := none
  generatedSourceDirectories := []
  destinationDirectory := some [directory, "out"]
  processorOptions := []

def openApp (app : ProjectModel) : List Operation :=
  [.start (.ok [app, unitOf "lib" [] "lib"]) (.ok fun _ => []), .sessionFor (some ["app", "src", "A.java"]) (.ok ())]

def reloadApp (app : ProjectModel) : Operation :=
  .reload (.ok [app, unitOf "lib" [] "lib"]) (.ok fun _ => []) (.ok ())

theorem sameUnit_self (disk : Disk Unit) (models : List CompileModel) (model : ProjectModel) :
    SameUnit disk models models [] model model where
  fingerprinted := rfl
  outputs := by simp
  sourceFiles := rfl
  generatedSourcesDirectory := rfl
  generatedSourceDirectories := rfl
  projectDependencies := rfl
  dependencies := fun _ _ => rfl
  sources := rfl

theorem distinctKeys_app : DistinctKeys [unitOf "app" ["lib"] "app", unitOf "lib" [] "lib"] := by
  rw [DistinctKeys]
  decide

/-- A reload that finds the same models keeps a session. -/
theorem sessions_are_right_reloaded :
    Right libIsBuilt none (run libIsBuilt none id (openApp (unitOf "app" ["lib"] "app") ++
      [reloadApp (unitOf "app" ["lib"] "app")])) := by
  refine sessions_are_right libIsBuilt none id _ _ [] ?_ (List.append_nil _).symm
  refine ⟨distinctKeys_app, trivial, ⟨distinctKeys_app, ?_⟩, trivial⟩
  have hmodels : (run libIsBuilt none id (openApp (unitOf "app" ["lib"] "app"))).models =
      [unitOf "app" ["lib"] "app", unitOf "lib" [] "lib"] := by decide
  have hunits : (run libIsBuilt none id (openApp (unitOf "app" ["lib"] "app"))).units =
      [(unitOf "app" ["lib"] "app").toCompileModel, (unitOf "lib" [] "lib").toCompileModel] := by
    rw [State.units, hmodels]
    rfl
  intro old hold new hnew hkey _ _
  obtain rfl := distinctKeys_app.eq (hmodels ▸ hold) hnew hkey
  exact hunits ▸ sameUnit_self libIsBuilt _ old

def dependencyAdded : List Operation :=
  openApp (unitOf "app" [] "app") ++ [reloadApp (unitOf "app" ["lib"] "app")]

def rebuildFailed : List Operation :=
  openApp (unitOf "app" [] "app") ++
    [.rebuildIndex (.ok [unitOf "lib" [] "lib"]) (.error "cannot remove the cache") (.ok fun _ => [])]

/-- **A new dependency is not seen**: the projects a unit depends on are not in its
fingerprint, so its session is kept without the classes of the new one. And a rebuild
that cannot remove a cache file keeps the sessions of the former models. -/
theorem new_dependency_is_not_seen :
    ¬ Right libIsBuilt none (run libIsBuilt none id dependencyAdded) ∧
      ¬ Right libIsBuilt none (run libIsBuilt none id rebuildFailed) := by
  constructor
  · intro h
    have hsession : ((run libIsBuilt none id dependencyAdded).sessions "app:compile").map
        SessionInputs.classpath = some [] := by decide
    obtain ⟨inputs, hinputs, hclasspath⟩ := Option.map_eq_some_iff.mp hsession
    have hnow := (h _ inputs hinputs).2 (unitOf "app" ["lib"] "app").toCompileModel (by decide) (by decide)
    have hclasses := congrArg (Option.map SessionInputs.classpath) hnow
    rw [Option.map_some, hclasspath] at hclasses
    exact absurd hclasses (by decide)
  · intro h
    have hsession : ((run libIsBuilt none id rebuildFailed).sessions "app:compile").isSome := by decide
    obtain ⟨inputs, hinputs⟩ := Option.isSome_iff_exists.mp hsession
    obtain ⟨model, hmodel, hkey⟩ := (h _ inputs hinputs).1
    have hunits : (run libIsBuilt none id rebuildFailed).units = [(unitOf "lib" [] "lib").toCompileModel] := by
      decide
    rw [hunits, List.mem_singleton] at hmodel
    rw [hmodel] at hkey
    exact absurd hkey (by decide)

end JMan.Lsp.Sessions
