import Mathlib.Algebra.BigOperators.Group.List.Basic
import Mathlib.Algebra.GroupWithZero.Nat
import Mathlib.Data.List.Infix

/-!
# JMan — compile units

The compile models of a workspace, and what the language server makes of them: which unit
owns a source, which units it depends on, and the paths and options of a javac session
for it. A path is the list of its components.

* `dependencyCompileModels_of_le` — the loop that collects the units a unit depends on
  ends by itself.
* `mem_dependencyCompileModels` — it finds the units of all projects the unit depends on.
-/

namespace JMan.Lsp

abbrev PathBuf := List String

/-- `CompileModel`, without what analyses do not depend on. -/
structure CompileModel where
  schemaVersion : Nat
  buildSystem : String
  projectPath : String
  projectDirectory : PathBuf
  taskPath : String
  sourceFiles : List PathBuf
  sourceRoots : List PathBuf
  classpath : List PathBuf
  modulePath : List PathBuf
  projectDependencies : List String
  annotationProcessorPath : List PathBuf
  compilerArgs : List String
  /-- `java_release` -/
  javaRelease : Option Nat
  generatedSourcesDirectory : Option PathBuf
  generatedSourceDirectories : List PathBuf
  destinationDirectory : Option PathBuf
deriving DecidableEq

structure FileMetadata where
  length : Nat
  /-- In nanoseconds, when the platform has it. -/
  modified : Option Nat
deriving DecidableEq

structure Disk (Contents : Type) where
  /-- What javac finds at a path or below it. -/
  contents : PathBuf → Contents
  /-- The metadata of a path that is a file. -/
  file : PathBuf → Option FileMetadata
  isDirectory : PathBuf → Bool
  entries : PathBuf → List PathBuf

namespace Disk

variable {Contents : Type} (disk : Disk Contents)

def isFile (path : PathBuf) : Bool := (disk.file path).isSome

def exists? (path : PathBuf) : Bool := disk.isFile path || disk.isDirectory path

end Disk

def pushNew (paths : List PathBuf) (path : PathBuf) : List PathBuf :=
  if paths.contains path then paths else paths ++ [path]

theorem mem_pushNew {paths : List PathBuf} {path new : PathBuf} :
    path ∈ pushNew paths new ↔ path ∈ paths ∨ path = new := by
  unfold pushNew
  split
  · next hold =>
    rw [List.contains_iff_mem] at hold
    exact ⟨Or.inl, fun h => h.elim id fun hnew => hnew ▸ hold⟩
  · rw [List.mem_append, List.mem_singleton]

theorem mem_foldl_pushNew {paths new : List PathBuf} {path : PathBuf} :
    path ∈ new.foldl pushNew paths ↔ path ∈ paths ∨ path ∈ new := by
  induction new generalizing paths with
  | nil => simp
  | cons first new ih => rw [List.foldl_cons, ih, mem_pushNew, List.mem_cons, or_assoc]

def conventionalSourceRoot : PathBuf → Option PathBuf
  | first :: second :: third :: rest =>
    if first = "src" ∧ second ∈ ["main", "test", "integrationTest"] ∧ third = "java" then
      some [first, second, third]
    else (conventionalSourceRoot (second :: third :: rest)).map (first :: ·)
  | _ => none

def isMainCompileTask (task : String) : Bool :=
  task = "compile" || ":compileJava".toList <:+ task.toList

namespace CompileModel

variable (model : CompileModel)

def key : String := model.projectPath ++ ":" ++ model.taskPath

def sourcePath : List PathBuf :=
  model.generatedSourceDirectories.foldl pushNew
    (model.generatedSourcesDirectory.toList.foldl pushNew
      ((model.sourceFiles.filterMap conventionalSourceRoot).foldl pushNew model.sourceRoots))

def owns (source : PathBuf) : Bool :=
  model.sourceFiles.contains source || (model.sourcePath.any (·.isPrefixOf source) ||
    (isMainCompileTask model.taskPath && model.projectDirectory.isPrefixOf source))

def rank (source : PathBuf) : Nat × Nat :=
  if model.sourceFiles.contains source then (0, 0)
  else
    match ((model.sourcePath.filter (·.isPrefixOf source)).map List.length).max? with
    | some depth => (1, 18446744073709551615 - depth)
    | none => (2, 18446744073709551615 - model.projectDirectory.length)

end CompileModel

/-- `min_by_key`: the first of the least. -/
def minByKey {α : Type} (key : α → Nat × Nat) : List α → Option α
  | [] => none
  | a :: rest =>
    match minByKey key rest with
    | none => some a
    | some b =>
      if (key b).1 < (key a).1 ∨ (key b).1 = (key a).1 ∧ (key b).2 < (key a).2 then some b else some a

def selectCompileModel (models : List CompileModel) (source : PathBuf) : Option CompileModel :=
  minByKey (·.rank source) (models.filter (·.owns source))

theorem mem_of_minByKey {α : Type} {key : α → Nat × Nat} {l : List α} {a : α}
    (h : minByKey key l = some a) : a ∈ l := by
  induction l with
  | nil => cases h
  | cons b rest ih =>
    rw [minByKey] at h
    split at h
    · exact Option.some.inj h ▸ List.mem_cons_self
    · next c hc =>
      split at h
      · exact List.mem_cons_of_mem _ (ih (hc.trans h))
      · exact Option.some.inj h ▸ List.mem_cons_self

theorem mem_of_selectCompileModel {models : List CompileModel} {source : PathBuf}
    {model : CompileModel} (h : selectCompileModel models source = some model) : model ∈ models :=
  List.mem_of_mem_filter (mem_of_minByKey h)

-- Dependencies
-- ---

section Dependencies

variable (models : List CompileModel)

def mainModels (project : String) : List CompileModel :=
  models.filter fun model => isMainCompileTask model.taskPath ∧ model.projectPath = project

/-- The loop of `dependency_compile_models`: the top of the stack comes first. -/
def dependencyModelsFrom : (fuel : Nat) → (pending visited : List String) → List CompileModel
  | 0, _, _ => []
  | _ + 1, [], _ => []
  | fuel + 1, project :: pending, visited =>
    if project ∈ visited then dependencyModelsFrom fuel pending visited
    else
      let found := mainModels models project
      found ++ dependencyModelsFrom fuel
        ((found.flatMap CompileModel.projectDependencies).reverse ++ pending) (project :: visited)

/-- Every dependency of a unit is pushed at most once. -/
def dependencyFuel (owner : CompileModel) : Nat :=
  owner.projectDependencies.length + (models.map (·.projectDependencies.length)).sum

def dependencyCompileModels (owner : CompileModel) : List CompileModel :=
  dependencyModelsFrom models (dependencyFuel models owner) owner.projectDependencies.reverse []

inductive DependsOn (models : List CompileModel) (owner : CompileModel) : String → Prop where
  | direct {project : String} (h : project ∈ owner.projectDependencies) : DependsOn models owner project
  | via {project other : String} {model : CompileModel} (h : DependsOn models owner project)
      (hmodel : model ∈ mainModels models project) (hother : other ∈ model.projectDependencies) :
      DependsOn models owner other

def dependencySize (pending visited : List String) : Nat :=
  pending.length + ((models.filter fun model => model.projectPath ∉ visited).map
    (·.projectDependencies.length)).sum

variable {models} {project : String} {pending visited : List String}

theorem length_mainModels_le (hnew : project ∉ visited) :
    ((mainModels models project).flatMap CompileModel.projectDependencies).length +
        ((models.filter fun model => model.projectPath ∉ project :: visited).map
          (·.projectDependencies.length)).sum ≤
      ((models.filter fun model => model.projectPath ∉ visited).map
        (·.projectDependencies.length)).sum := by
  induction models with
  | nil => exact Nat.le_refl _
  | cons model models ih =>
    rw [mainModels] at ih ⊢
    by_cases hproject : model.projectPath = project
    · subst hproject
      by_cases hmain : isMainCompileTask model.taskPath = true
      · simp only [List.filter_cons, hmain, hnew, and_self, decide_true, if_true, List.mem_cons, true_or,
          not_true_eq_false, decide_false, Bool.false_eq_true, if_false, not_false_eq_true,
          List.flatMap_cons, List.length_append, List.map_cons, List.sum_cons] at ih ⊢
        omega
      · simp only [List.filter_cons, hmain, hnew, false_and, decide_true, if_true, List.mem_cons, true_or,
          not_true_eq_false, decide_false, Bool.false_eq_true, if_false, not_false_eq_true,
          List.map_cons, List.sum_cons] at ih ⊢
        omega
    · by_cases hvisited : model.projectPath ∈ visited
      · simpa only [List.filter_cons, hproject, hvisited, and_false, decide_false, Bool.false_eq_true,
          if_false, List.mem_cons, or_true, not_true_eq_false] using ih
      · simp only [List.filter_cons, hproject, hvisited, and_false, decide_true, decide_false, if_true,
          Bool.false_eq_true, if_false, List.mem_cons, or_self, not_false_eq_true, List.map_cons,
          List.sum_cons] at ih ⊢
        omega

theorem dependencySize_visit (hnew : project ∉ visited) :
    dependencySize models (((mainModels models project).flatMap CompileModel.projectDependencies).reverse ++
      pending) (project :: visited) < dependencySize models (project :: pending) visited := by
  have hle : _ ≤ _ := @length_mainModels_le models _ _ hnew
  simp only [dependencySize, List.length_append, List.length_reverse, List.length_cons] at hle ⊢
  omega

theorem dependencyModelsFrom_eq {fuel other : Nat} (hfuel : dependencySize models pending visited ≤ fuel)
    (hother : dependencySize models pending visited ≤ other) :
    dependencyModelsFrom models fuel pending visited =
      dependencyModelsFrom models other pending visited := by
  induction fuel generalizing other pending visited with
  | zero =>
    have hnone : pending = [] := List.length_eq_zero_iff.mp (by rw [dependencySize] at hfuel; omega)
    subst hnone
    cases other <;> rfl
  | succ fuel ih =>
    cases pending with
    | nil => cases other <;> rfl
    | cons project pending =>
      have hsize : dependencySize models (project :: pending) visited =
          dependencySize models pending visited + 1 := by
        simp only [dependencySize, List.length_cons]
        omega
      obtain ⟨other, rfl⟩ : ∃ n, other = n + 1 := ⟨other - 1, by omega⟩
      rw [dependencyModelsFrom, dependencyModelsFrom]
      split
      · exact ih (by omega) (by omega)
      · next hnew =>
        have hnext := @dependencySize_visit models project pending visited hnew
        exact congrArg _ (ih (by omega) (by omega))

theorem dependencyCompileModels_of_le {owner : CompileModel} {fuel : Nat}
    (h : dependencyFuel models owner ≤ fuel) :
    dependencyModelsFrom models fuel owner.projectDependencies.reverse [] =
      dependencyCompileModels models owner := by
  have hsize : dependencySize models owner.projectDependencies.reverse [] =
      dependencyFuel models owner := by
    rw [dependencySize, dependencyFuel, List.length_reverse,
      List.filter_eq_self.mpr fun model _ => decide_eq_true List.not_mem_nil]
  exact dependencyModelsFrom_eq (hsize ▸ h) (Nat.le_of_eq hsize)

/-- What the projects that were visited depend on is visited or pending. -/
def Closed (models : List CompileModel) (pending visited : List String) : Prop :=
  ∀ project ∈ visited, ∀ model ∈ mainModels models project, ∀ other ∈ model.projectDependencies,
    other ∈ visited ∨ other ∈ pending

theorem exists_visited {fuel : Nat} (hfuel : dependencySize models pending visited ≤ fuel)
    (hclosed : Closed models pending visited) :
    ∃ all, (∀ project ∈ pending ++ visited, project ∈ all) ∧ Closed models [] all ∧
      ∀ project ∈ all, project ∈ visited ∨
        ∀ model ∈ mainModels models project, model ∈ dependencyModelsFrom models fuel pending visited := by
  induction fuel generalizing pending visited with
  | zero =>
    have hnone : pending = [] := List.length_eq_zero_iff.mp (by rw [dependencySize] at hfuel; omega)
    subst hnone
    exact ⟨visited, fun _ h => h, hclosed, fun _ h => Or.inl h⟩
  | succ fuel ih =>
    cases pending with
    | nil => exact ⟨visited, fun _ h => h, hclosed, fun _ h => Or.inl h⟩
    | cons project pending =>
      rw [dependencyModelsFrom]
      split
      · next hold =>
        have hsize : dependencySize models pending visited ≤ fuel := by
          simp only [dependencySize, List.length_cons] at hfuel ⊢
          omega
        have hrest : Closed models pending visited := by
          intro other hother model hmodel dependency hdependency
          rcases hclosed other hother model hmodel dependency hdependency with h | h
          · exact Or.inl h
          · rcases List.mem_cons.mp h with rfl | h
            · exact Or.inl hold
            · exact Or.inr h
        obtain ⟨all, hall, hclosedAll, hfound⟩ := ih hsize hrest
        refine ⟨all, ?_, hclosedAll, hfound⟩
        intro other hother
        rcases List.mem_cons.mp hother with rfl | hother
        · exact hall _ (List.mem_append_right _ hold)
        · exact hall _ hother
      · next hnew =>
        have hsize := @dependencySize_visit models project pending visited hnew
        have hnext : Closed models (((mainModels models project).flatMap
            CompileModel.projectDependencies).reverse ++ pending) (project :: visited) := by
          intro other hother model hmodel dependency hdependency
          rcases List.mem_cons.mp hother with rfl | hother
          · have hpushed := List.mem_flatMap.mpr ⟨model, hmodel, hdependency⟩
            exact Or.inr (List.mem_append_left _ (List.mem_reverse.mpr hpushed))
          · rcases hclosed other hother model hmodel dependency hdependency with h | h
            · exact Or.inl (List.mem_cons_of_mem _ h)
            · rcases List.mem_cons.mp h with rfl | h
              · exact Or.inl List.mem_cons_self
              · exact Or.inr (List.mem_append_right _ h)
        obtain ⟨all, hall, hclosedAll, hfound⟩ := ih (by omega) hnext
        refine ⟨all, ?_, hclosedAll, ?_⟩
        · intro other hother
          rcases List.mem_cons.mp hother with rfl | hother
          · exact hall _ (List.mem_append_right _ List.mem_cons_self)
          · rcases List.mem_append.mp hother with h | h
            · exact hall _ (List.mem_append_left _ (List.mem_append_right _ h))
            · exact hall _ (List.mem_append_right _ (List.mem_cons_of_mem _ h))
        · intro other hother
          rcases hfound other hother with hvisited | hmodels
          · rcases List.mem_cons.mp hvisited with rfl | hvisited
            · exact Or.inr fun model hmodel => List.mem_append_left _ hmodel
            · exact Or.inl hvisited
          · exact Or.inr fun model hmodel => List.mem_append_right _ (hmodels model hmodel)

theorem dependsOn_of_mem {owner model : CompileModel} {fuel : Nat}
    (hpending : ∀ project ∈ pending, DependsOn models owner project)
    (h : model ∈ dependencyModelsFrom models fuel pending visited) :
    ∃ project, DependsOn models owner project ∧ model ∈ mainModels models project := by
  induction fuel generalizing pending visited with
  | zero => cases h
  | succ fuel ih =>
    cases pending with
    | nil => cases h
    | cons project pending =>
      have hrest : ∀ project ∈ pending, DependsOn models owner project :=
        fun other hother => hpending other (List.mem_cons_of_mem _ hother)
      rw [dependencyModelsFrom] at h
      split at h
      · exact ih hrest h
      · have hfirst := hpending project List.mem_cons_self
        rcases List.mem_append.mp h with hfound | hlater
        · exact ⟨project, hfirst, hfound⟩
        · refine ih ?_ hlater
          intro other hother
          rcases List.mem_append.mp hother with hnew | hold
          · obtain ⟨unit, hunit, hdependency⟩ := List.mem_flatMap.mp (List.mem_reverse.mp hnew)
            exact hfirst.via hunit hdependency
          · exact hrest other hold

/-- **The loop finds the main units of the projects that a unit depends on,** however
far. -/
theorem mem_dependencyCompileModels {owner model : CompileModel} :
    model ∈ dependencyCompileModels models owner ↔
      ∃ project, DependsOn models owner project ∧ model ∈ mainModels models project := by
  constructor
  · intro h
    exact dependsOn_of_mem (fun project hproject => .direct (List.mem_reverse.mp hproject)) h
  · rintro ⟨project, hproject, hmodel⟩
    have hsize : dependencySize models owner.projectDependencies.reverse [] ≤ dependencyFuel models owner := by
      rw [dependencySize, dependencyFuel, List.length_reverse,
        List.filter_eq_self.mpr fun model _ => decide_eq_true List.not_mem_nil]
    have hclosed : Closed models owner.projectDependencies.reverse [] :=
      fun other hother => absurd hother List.not_mem_nil
    obtain ⟨all, hall, hclosedAll, hfound⟩ := exists_visited hsize hclosed
    have hmem : ∀ project, DependsOn models owner project → project ∈ all := by
      intro project hproject
      induction hproject with
      | direct h => exact hall _ (List.mem_append_left _ (List.mem_reverse.mpr h))
      | via _ hunit hother ih =>
        rcases hclosedAll _ ih _ hunit _ hother with h | h
        · exact h
        · exact absurd h List.not_mem_nil
    rcases hfound project (hmem project hproject) with h | h
    · exact absurd h List.not_mem_nil
    · exact h model hmodel

end Dependencies

-- Sessions
-- ---

section Sessions

variable {Contents : Type} (disk : Disk Contents) (models : List CompileModel)

def moduleInfoFile (model : CompileModel) : Option PathBuf :=
  (model.sourceFiles.find? fun source => source.getLast? = some "module-info.java" &&
      model.sourceRoots.any (·.isPrefixOf source)).or
    ((model.sourceRoots.map (· ++ ["module-info.java"])).find? disk.isFile)

def compiledOutputAvailable (model : CompileModel) : Bool :=
  model.destinationDirectory.any disk.isDirectory

def dependencySourceRoots (owner : CompileModel) : List PathBuf :=
  let missing := (owner.classpath ++ owner.modulePath).filter fun path => !disk.exists? path
  ((models.filter fun model => isMainCompileTask model.taskPath &&
    (!compiledOutputAvailable disk model && ((moduleInfoFile disk model).isNone &&
      (model.projectPath ∈ owner.projectDependencies ||
        missing.any (model.projectDirectory.isPrefixOf ·))))).flatMap
    CompileModel.sourcePath).foldl pushNew []

def semanticClasspath (model : CompileModel) : List PathBuf :=
  if (moduleInfoFile disk model).isSome then model.classpath
  else
    (((dependencyCompileModels models model).filter (compiledOutputAvailable disk)).filterMap
      CompileModel.destinationDirectory).foldl pushNew model.classpath

theorem mem_semanticClasspath {disk : Disk Contents} {models : List CompileModel} {model : CompileModel}
    (h : moduleInfoFile disk model = none) {path : PathBuf} :
    path ∈ semanticClasspath disk models model ↔ path ∈ model.classpath ∨
      ∃ dependency ∈ dependencyCompileModels models model, compiledOutputAvailable disk dependency ∧
        dependency.destinationDirectory = some path := by
  unfold semanticClasspath
  rw [h, Option.isSome_none, if_neg Bool.false_ne_true, mem_foldl_pushNew]
  simp only [List.mem_filterMap, List.mem_filter, and_assoc]

def semanticModulePath (model : CompileModel) : List PathBuf :=
  if (moduleInfoFile disk model).isNone then model.modulePath
  else
    (((dependencyCompileModels models model).filterMap CompileModel.destinationDirectory).filter
      fun output => disk.isFile (output ++ ["module-info.class"])).foldl pushNew model.modulePath

def archiveStem (name : String) : Option String :=
  if ".jar".toList <:+ name.toList ∧ 4 < name.toList.length then
    some (String.ofList (name.toList.take (name.toList.length - 4)))
  else none

/-- The sources of one archive: beside it, or in another directory of its version. -/
def sourceAttachment (binary : PathBuf) : Option PathBuf :=
  (binary.getLast?.bind archiveStem).bind fun stem =>
    let source := binary.dropLast ++ [stem ++ "-sources.jar"]
    if disk.isFile source then some source
    else if binary.length < 2 then none
    else ((disk.entries binary.dropLast.dropLast).map (· ++ [stem ++ "-sources.jar"])).find? disk.isFile

def sourceAttachments (javaHome : Option PathBuf) (classpath : List PathBuf) : List PathBuf :=
  classpath.filterMap (sourceAttachment disk) ++
    (javaHome.map (· ++ ["lib", "src.zip"])).toList.filter disk.isFile

def sessionSourcePath (javaHome : Option PathBuf) (model : CompileModel) : List PathBuf :=
  (sourceAttachments disk javaHome model.classpath).foldl pushNew
    (if (moduleInfoFile disk model).isNone then
      (dependencySourceRoots disk models model).foldl pushNew model.sourcePath
    else model.sourcePath)

def optionsWithValue : List String :=
  ["--add-exports", "--add-modules", "--add-reads", "--limit-modules", "--module-version",
    "--patch-module", "--upgrade-module-path"]

/-- The loop of `jpms_compiler_options` -/
def jpmsCompilerOptions : List String → List String
  | [] => []
  | argument :: rest =>
    if argument = "--enable-preview" ∨ optionsWithValue.any fun option =>
        (option ++ "=").toList.isPrefixOf argument.toList then
      argument :: jpmsCompilerOptions rest
    else if argument ∈ optionsWithValue then
      match rest with
      | value :: rest => argument :: value :: jpmsCompilerOptions rest
      | [] => []
    else jpmsCompilerOptions rest

end Sessions

end JMan.Lsp
