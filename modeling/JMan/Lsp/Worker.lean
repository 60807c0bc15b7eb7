import Mathlib.Data.List.Infix

/-!
# JMan — the native worker

The thread of `async_native_backend.rs` that owns the backend: it takes commands from a
queue, indexes the workspace, and refines the index. Other threads send commands, and
raise the cancellation generation at any moment. One pass over the workspace
(annotation processors, indexing, refinement) is a phase of the worker, so that whatever
other threads do falls between its start and its end.

What is on the disk is what the last command that loads the project finds there: an edit
that no command reports is not part of the state of the project.

* `refinement_is_not_lost` — no pass is owed whenever the worker waits, in every run in which no step
  drops one (`Worker.drops`).
-/

namespace JMan.Lsp

-- Commands
-- ---

def isBuildFile (uri : String) : Bool :=
  let path := uri.toList.takeWhile fun c => c ≠ '?' ∧ c ≠ '#'
  let name := (path.reverse.takeWhile (· ≠ '/')).reverse
  String.ofList name ∈ ["jman.toml", "jman.lock", ".sdkmanrc", ".java-version", "pom.xml",
      "settings.xml", "build.gradle", "build.gradle.kts", "settings.gradle", "settings.gradle.kts",
      "gradle.properties", "gradle-wrapper.properties", "libs.versions.toml"] ||
    (".gradle".toList <:+ name || (".gradle.kts".toList <:+ name ||
      ("/.mvn/".toList <:+: path || "/buildSrc/".toList <:+: path)))

/-- `Command`, with what the worker's state depends on. -/
inductive Command where
  | initializeBackend (root : Option String) (buildSystem : Option String)
  | analyze
  | editorQuery
  | format
  | sources
  | close
  | invalidate
  | reload (changed : List String)
  | sourceSaved (uri : String)
  | cacheStatus
  | buildSystem
  | rebuildIndex
  | clearProjectCache
  | updateConfiguration (buildSystem : Option String)
  | sourceMetadata

def isProjectStateCancellation (error : String) : Bool :=
  "cancelled by a newer project state".toList <:+: error.toList

-- The backend
-- ---

structure StructuralDocument (Result : Type) where
  uri : String
  source : String
  result : Result
deriving DecidableEq

/-- What the backend asks of javac and of the compile models. -/
structure Toolchain (Model Sources Result : Type) where
  /-- The documents of a workspace as they are parsed. -/
  parse : List Model → Sources → List (StructuralDocument Result)
  /-- The analysis of a source, from the cache or a session, if it gets one. -/
  analyze : List Model → Sources → (uri source : String) → Option Result
  /-- `module_info_file` finds a descriptor. -/
  isModular : Model → Bool
  /-- A URI is of a Java file that `select_compile_model` may choose the model for. -/
  owns : Model → String → Bool

namespace Toolchain

variable {Model Sources Result : Type} (javac : Toolchain Model Sources Result)

/-- `refine_semantic_index` keeps the result of a document that is not analyzed. -/
def refine (models : List Model) (sources : Sources) (documents : List (StructuralDocument Result)) :
    List (StructuralDocument Result) :=
  documents.map fun document =>
    { document with
      result := (javac.analyze models sources document.uri document.source).getD document.result }

def semanticIndex (models : List Model) (sources : Sources) : List (StructuralDocument Result) :=
  javac.refine models sources (javac.parse models sources)

end Toolchain

structure NativeBackend (Model Sources Result : Type) where
  /-- The root is known. -/
  initialized : Bool
  models : List Model
  /-- The sources on the disk. -/
  sources : Sources
  preferredBuildSystem : Option String
  structuralDocuments : List (StructuralDocument Result)

/-- What a command finds outside of the worker. -/
structure Found (Model Sources : Type) where
  /-- `load_project` -/
  loaded : Except String (List Model)
  /-- The caches of the project are removed. -/
  removed : Except String Unit
  sources : Sources

-- The worker
-- ---

/-- The command that loads a project, with what is restored when that fails. -/
inductive Caller (Model : Type) where
  | initializeBackend
  | reload (previous : List Model)
  | saved
  | rebuild
  | configuration (previous : List Model) (preferred : Option String)

inductive Phase (Model : Type) where
  | waiting
  /-- Annotation processors run. -/
  | processing (caller : Caller Model)
  /-- The workspace is indexed, for a command or by `resume_structural_index`. -/
  | indexing (caller : Option (Caller Model)) (generation : UInt64)
  | refining (generation : UInt64)

structure Worker (Model Sources Result : Type) where
  queue : List Command
  cancellationGeneration : UInt64
  phase : Phase Model
  backend : NativeBackend Model Sources Result
  initializationError : Option String
  structuralRetryPending : Bool
  refinePending : Bool
  structuralDocuments : List (StructuralDocument Result)
  structuralRevision : Nat
  /-- The models of the project that was loaded last. -/
  project : Option (List Model)
  /-- How the last pass failed. -/
  failure : Option String

namespace Worker

section Steps

variable {Model Sources Result : Type} (javac : Toolchain Model Sources Result)
  (worker : Worker Model Sources Result)

def start (sources : Sources) : Worker Model Sources Result where
  queue := []
  cancellationGeneration := 0
  phase := .waiting
  backend := ⟨false, [], sources, none, []⟩
  initializationError := none
  structuralRetryPending := false
  refinePending := false
  structuralDocuments := []
  structuralRevision := 0
  project := none
  failure := none

def publishStructural : Worker Model Sources Result :=
  { worker with
    structuralDocuments := worker.backend.structuralDocuments
    structuralRevision := worker.structuralRevision + 1 }

/-- `rebuild_structural_index` reads the generation. -/
def rebuildStructuralIndex (caller : Option (Caller Model)) : Worker Model Sources Result :=
  { worker with phase := .indexing caller worker.cancellationGeneration }

/-- `refine_semantic_index` reads the generation. -/
def refineSemanticIndex : Worker Model Sources Result :=
  { worker with phase := .refining worker.cancellationGeneration }

/-- `defer_semantic_refinement`, and what is done when it says no. -/
def deferOrRefine : Worker Model Sources Result :=
  if worker.backend.models.any javac.isModular then
    { worker with refinePending := true, phase := .waiting }
  else worker.refineSemanticIndex

def load (caller : Caller Model) (models : List Model) (sources : Sources) :
    Worker Model Sources Result :=
  { worker with
    phase := .processing caller
    backend := { worker.backend with models := models, sources := sources }
    project := some models }

def failed (caller : Option (Caller Model)) (error : String) : Worker Model Sources Result :=
  let worker := { worker with phase := .waiting, failure := some error }
  match caller with
  | some .initializeBackend =>
    if isProjectStateCancellation error then
      { worker with initializationError := none, structuralRetryPending := true }
    else { worker with initializationError := some error }
  | none =>
    if isProjectStateCancellation error then worker
    else { worker with structuralRetryPending := false, initializationError := some error }
  | some (.reload previous) => { worker with backend := { worker.backend with models := previous } }
  | some .saved | some .rebuild => worker
  | some (.configuration previous preferred) =>
    { worker with
      backend := { worker.backend with models := previous, preferredBuildSystem := preferred } }

def indexed (caller : Option (Caller Model)) : Worker Model Sources Result :=
  let worker := { worker with
    phase := .waiting
    failure := none
    backend := { worker.backend with
      structuralDocuments := javac.parse worker.backend.models worker.backend.sources } }
  match caller with
  | some .initializeBackend | some (.reload _) =>
    ({ worker with initializationError := none }.publishStructural).deferOrRefine javac
  | none =>
    ({ worker with structuralRetryPending := false, initializationError := none
        }.publishStructural).deferOrRefine javac
  | some .saved => worker.publishStructural.deferOrRefine javac
  | some .rebuild => worker.refineSemanticIndex
  | some (.configuration _ _) => worker.publishStructural

def refined : Worker Model Sources Result :=
  { worker with
    phase := .waiting
    failure := none
    backend := { worker.backend with
      structuralDocuments := javac.refine worker.backend.models worker.backend.sources
        worker.backend.structuralDocuments } }.publishStructural

def preference (buildSystem : Option String) : Option String := buildSystem.filter (· ≠ "auto")

/-- `reload` of a project, where `refused` is left when there is none. -/
def reload (caller : Caller Model) (found : Found Model Sources)
    (refused : Worker Model Sources Result) : Worker Model Sources Result :=
  if worker.backend.initialized then
    match found.loaded with
    | .error _ => refused
    | .ok models => worker.load caller models found.sources
  else refused

/-- A command that the worker takes. Where the backend refuses it, nothing changes. -/
def receive (found : Found Model Sources) : Command → Worker Model Sources Result
  | .initializeBackend none _ => { worker with initializationError := some "initialize has no rootUri" }
  | .initializeBackend (some _) buildSystem =>
    match found.loaded with
    | .error error =>
      if isProjectStateCancellation error then
        { worker with initializationError := none, structuralRetryPending := true }
      else { worker with initializationError := some error }
    | .ok models =>
      { worker with backend := { worker.backend with
          initialized := true, preferredBuildSystem := buildSystem } }.load .initializeBackend models
        found.sources
  | .reload changed =>
    if !changed.isEmpty && !changed.any isBuildFile then worker
    else worker.reload (.reload worker.backend.models) found worker
  | .sourceSaved uri =>
    if worker.backend.models.any (javac.owns · uri) then
      worker.load .saved worker.backend.models found.sources
    else worker
  | .rebuildIndex =>
    if worker.backend.initialized then
      match found.loaded with
      | .error _ => worker
      | .ok models =>
        match found.removed with
        | .error error => (worker.load .rebuild models found.sources).failed (some .rebuild) error
        | .ok () => worker.load .rebuild models found.sources
    else worker
  | .clearProjectCache =>
    if worker.backend.initialized then
      match found.removed with
      | .error _ => worker
      | .ok () => { worker with backend := { worker.backend with structuralDocuments := [] } }
    else worker
  | .updateConfiguration buildSystem =>
    if preference buildSystem = worker.backend.preferredBuildSystem then worker.publishStructural
    else
      { worker with backend := { worker.backend with
          preferredBuildSystem := preference buildSystem } }.reload
        (.configuration worker.backend.models worker.backend.preferredBuildSystem) found worker
  | _ => worker

end Steps

end Worker

-- Runs
-- ---

/-- What happens next: another thread raises the generation or sends a command, or the
worker takes one, waits long enough, or ends a phase. -/
inductive Label (Model Sources : Type) where
  | increment
  | send (command : Command)
  | receive (found : Found Model Sources)
  | timeout
  /-- The processors end, with what they leave of the models. -/
  | processed (answer : Except String (List Model))
  /-- A pass over the documents ends; it fails when the generation has changed. -/
  | finished (answer : Except String Unit)

/-- How a pass ends that began in a generation: `cancelled` when there is another one. -/
def outcome (began now : UInt64) (cancelled : String) (answer : Except String Unit) :
    Except String Unit :=
  answer.bind fun _ => if now = began then .ok () else .error cancelled

def workspaceCancelled : String := "workspace parse cancelled by a newer project state"

def semanticCancelled : String := "semantic indexing cancelled by a newer project state"

namespace Worker

section Runs

variable {Model Sources Result : Type} (javac : Toolchain Model Sources Result)
  (worker : Worker Model Sources Result)

def step : Label Model Sources → Option (Worker Model Sources Result)
  | .increment => some { worker with cancellationGeneration := worker.cancellationGeneration + 1 }
  | .send command => some { worker with queue := worker.queue ++ [command] }
  | .receive found =>
    match worker.phase, worker.queue with
    | .waiting, command :: queue => some ({ worker with queue := queue }.receive javac found command)
    | _, _ => none
  | .timeout =>
    match worker.phase, worker.queue with
    | .waiting, [] =>
      if worker.structuralRetryPending then some (worker.rebuildStructuralIndex none)
      else if worker.refinePending then some { worker with refinePending := false }.refineSemanticIndex
      else none
    | _, _ => none
  | .processed answer =>
    match worker.phase with
    | .processing caller =>
      match answer with
      | .error error => some (worker.failed (some caller) error)
      | .ok models =>
        some ({ worker with
          backend := { worker.backend with models := models }
          project := some models }.rebuildStructuralIndex (some caller))
    | _ => none
  | .finished answer =>
    match worker.phase with
    | .indexing caller generation =>
      match outcome generation worker.cancellationGeneration workspaceCancelled answer with
      | .error error => some (worker.failed caller error)
      | .ok () => some (worker.indexed javac caller)
    | .refining generation =>
      match outcome generation worker.cancellationGeneration semanticCancelled answer with
      | .error error => some { worker with phase := .waiting, failure := some error }
      | .ok () => some (worker.refined javac)
    | _ => none

def run (worker : Worker Model Sources Result) :
    List (Label Model Sources) → Option (Worker Model Sources Result)
  | [] => some worker
  | label :: labels => (worker.step javac label).bind fun next => next.run labels

/-- Neither a retry nor a refinement is pending. -/
def idle : Bool := !worker.structuralRetryPending && !worker.refinePending

/-- An indexing that fails, and that no pass makes up for: it is cancelled and no retry
is pending, or a pass that is pending works on models or documents of before. -/
def dropsFailure (error : String) : Option (Caller Model) → Bool
  | some .initializeBackend =>
    !isProjectStateCancellation error && (!worker.structuralRetryPending && worker.refinePending)
  | none => !isProjectStateCancellation error && worker.refinePending
  | some .saved | some .rebuild =>
    !worker.structuralRetryPending && (isProjectStateCancellation error || worker.refinePending)
  | some (.reload _) | some (.configuration _ _) => isProjectStateCancellation error || !worker.idle

/-- A command after which a refinement is lost. -/
def dropsCommand (found : Found Model Sources) : Command → Bool
  -- No project is loaded, and it is tried again.
  | .initializeBackend (some _) _ =>
    match found.loaded with
    | .error error => isProjectStateCancellation error && !worker.structuralRetryPending
    | .ok _ => false
  | .rebuildIndex =>
    match found.loaded, found.removed with
    | .ok _, .error error => worker.dropsFailure error (some .rebuild)
    | _, _ => false
  -- A refinement that is pending would work on no documents.
  | .clearProjectCache =>
    !worker.structuralRetryPending &&
      (worker.refinePending && !worker.backend.structuralDocuments.isEmpty)
  -- A cache that has been cleared is published.
  | .updateConfiguration buildSystem =>
    preference buildSystem = worker.backend.preferredBuildSystem && (worker.idle &&
      (worker.backend.structuralDocuments.isEmpty && !worker.structuralDocuments.isEmpty))
  | _ => false

/-- The step takes a branch that loses a refinement. -/
def drops : Label Model Sources → Bool
  | .increment | .send _ | .timeout => false
  | .receive found => worker.queue.head?.any (worker.dropsCommand found)
  | .processed answer =>
    match worker.phase with
    | .processing caller =>
      match answer with
      | .error error => worker.dropsFailure error (some caller)
      | .ok _ => false
    | _ => false
  | .finished answer =>
    match worker.phase with
    | .indexing caller generation =>
      match outcome generation worker.cancellationGeneration workspaceCancelled answer, caller with
      | .error error, _ => worker.dropsFailure error caller
      -- The index of another build system is never refined.
      | .ok (), some (.configuration _ _) => worker.idle
      | .ok (), _ => false
    | .refining generation =>
      match outcome generation worker.cancellationGeneration semanticCancelled answer with
      | .error error => isProjectStateCancellation error && worker.idle
      | .ok () => false
    | _ => false

def keeps (worker : Worker Model Sources Result) : List (Label Model Sources) → Bool
  | [] => true
  | label :: labels =>
    !worker.drops label && (worker.step javac label).all fun next => next.keeps labels

/-- The last pass failed, and was not cancelled. -/
def FailedOtherwise : Prop :=
  ∃ error, worker.failure = some error ∧ isProjectStateCancellation error = false

/-- The index that is published is refined for the project, or that is still to come, or
the last pass failed for a reason of its own. -/
def Accounted : Prop :=
  ∀ models, worker.project = some models →
    worker.structuralDocuments = javac.semanticIndex models worker.backend.sources ∨
      (worker.structuralRetryPending = true ∨ worker.refinePending = true) ∨ worker.FailedOtherwise

end Runs

-- What every state keeps
-- ---

section Invariant

variable {Model Sources Result : Type} (javac : Toolchain Model Sources Result)
  (worker : Worker Model Sources Result) (models : List Model)

/-- The backend has the models, and documents that are refined to the index of them. -/
structure Refinable : Prop where
  held : worker.backend.models = models
  documents : javac.refine worker.backend.models worker.backend.sources
    worker.backend.structuralDocuments = javac.semanticIndex models worker.backend.sources

/-- The published index is refined, and the backend has the same or none. -/
structure Published : Prop where
  index : worker.structuralDocuments = javac.semanticIndex models worker.backend.sources
  documents : worker.backend.structuralDocuments = worker.structuralDocuments ∨
    worker.backend.structuralDocuments = []

/-- What a worker that waits relies on: a retry on the models, a refinement on the
documents, and nothing pending on what is published. -/
structure Settled : Prop where
  retry : worker.structuralRetryPending = true → worker.backend.models = models
  refine : worker.structuralRetryPending = false → worker.refinePending = true →
    worker.Refinable javac models
  idle : worker.idle = true → worker.Published javac models ∨ worker.FailedOtherwise

def Relies : Phase Model → Prop
  | .waiting => worker.Settled javac models
  | .processing _ => worker.backend.models = models
  | .indexing caller _ => worker.backend.models = models ∧
      (caller = none → worker.structuralRetryPending = true)
  | .refining _ => worker.Refinable javac models

def Sound : Prop := ∀ models, worker.project = some models → worker.Relies javac models worker.phase

end Invariant

section Steps

variable {Model Sources Result : Type} {javac : Toolchain Model Sources Result}
  {worker next : Worker Model Sources Result} {models : List Model}

theorem refine_refine (models : List Model) (sources : Sources)
    (documents : List (StructuralDocument Result)) :
    javac.refine models sources (javac.refine models sources documents) =
      javac.refine models sources documents := by
  simp only [Toolchain.refine, List.map_map]
  refine List.map_congr_left fun document _ => ?_
  simp only [Function.comp_apply]
  cases javac.analyze models sources document.uri document.source <;> rfl

theorem idle_eq_true :
    worker.idle = true ↔ worker.structuralRetryPending = false ∧ worker.refinePending = false := by
  simp only [idle, Bool.and_eq_true, Bool.not_eq_true']

theorem Settled.of_failedOtherwise (hfailed : worker.FailedOtherwise)
    (hidle : worker.idle = true) : worker.Settled javac models := by
  obtain ⟨hretry, hrefine⟩ := idle_eq_true.mp hidle
  constructor
  · intro h
    exact absurd (hretry.symm.trans h) (by decide)
  · intro _ h
    exact absurd (hrefine.symm.trans h) (by decide)
  · exact fun _ => .inr hfailed

theorem Settled.of_retry (hretry : worker.structuralRetryPending = true)
    (hheld : worker.backend.models = models) : worker.Settled javac models := by
  constructor
  · exact fun _ => hheld
  · intro h
    exact absurd (h.symm.trans hretry) (by decide)
  · intro hidle
    exact absurd ((idle_eq_true.mp hidle).1.symm.trans hretry) (by decide)

theorem Settled.of_refinable (h : worker.Refinable javac models)
    (hidle : worker.idle = true → worker.Published javac models ∨ worker.FailedOtherwise) :
    worker.Settled javac models :=
  ⟨fun _ => h.held, fun _ _ => h, hidle⟩

theorem retry_or_idle (h : (!worker.structuralRetryPending && worker.refinePending) = false) :
    worker.structuralRetryPending = true ∨ worker.idle = true := by
  cases hretry : worker.structuralRetryPending with
  | true => exact .inl rfl
  | false =>
    rw [hretry, Bool.not_false, Bool.true_and] at h
    exact .inr (idle_eq_true.mpr ⟨hretry, h⟩)

@[simp] theorem failed_project (caller : Option (Caller Model)) (error : String) :
    (worker.failed caller error).project = worker.project := by
  rcases caller with _ | (_ | _) <;> simp only [failed] <;> split <;> rfl

@[simp] theorem failed_phase (caller : Option (Caller Model)) (error : String) :
    (worker.failed caller error).phase = .waiting := by
  rcases caller with _ | (_ | _) <;> simp only [failed] <;> split <;> rfl

theorem Settled.of_cancelled {caller : Option (Caller Model)} {error : String}
    (hcancelled : isProjectStateCancellation error = true)
    (hheld : worker.backend.models = models)
    (hresume : caller = none → worker.structuralRetryPending = true)
    (hdrops : worker.dropsFailure error caller = false) :
    (worker.failed caller error).Settled javac models := by
  cases caller with
  | none =>
    rw [failed, if_pos hcancelled]
    exact .of_retry (hresume rfl) hheld
  | some caller =>
    cases caller with
    | initializeBackend =>
      rw [failed, if_pos hcancelled]
      exact .of_retry rfl hheld
    | saved | rebuild =>
      rw [dropsFailure, hcancelled, Bool.true_or, Bool.and_true, Bool.not_eq_false'] at hdrops
      exact .of_retry hdrops hheld
    | reload previous | configuration previous preferred =>
      rw [dropsFailure, hcancelled, Bool.true_or] at hdrops
      cases hdrops

theorem Settled.of_error {caller : Option (Caller Model)} {error : String}
    (hother : isProjectStateCancellation error = false)
    (hheld : worker.backend.models = models)
    (hdrops : worker.dropsFailure error caller = false) :
    (worker.failed caller error).Settled javac models := by
  have hnot : ¬ isProjectStateCancellation error = true := ne_true_of_eq_false hother
  cases caller with
  | none =>
    rw [dropsFailure, hother, Bool.not_false, Bool.true_and] at hdrops
    rw [failed, if_neg hnot]
    exact .of_failedOtherwise ⟨error, rfl, hother⟩ (idle_eq_true.mpr ⟨rfl, hdrops⟩)
  | some caller =>
    cases caller with
    | initializeBackend =>
      rw [dropsFailure, hother, Bool.not_false, Bool.true_and] at hdrops
      rw [failed, if_neg hnot]
      rcases retry_or_idle hdrops with hretry | hidle
      · exact .of_retry hretry hheld
      · exact .of_failedOtherwise ⟨error, rfl, hother⟩ hidle
    | saved | rebuild =>
      rw [dropsFailure, hother, Bool.false_or] at hdrops
      rcases retry_or_idle hdrops with hretry | hidle
      · exact .of_retry hretry hheld
      · exact .of_failedOtherwise ⟨error, rfl, hother⟩ hidle
    | reload previous | configuration previous preferred =>
      rw [dropsFailure, hother, Bool.false_or, Bool.not_eq_false'] at hdrops
      exact .of_failedOtherwise ⟨error, rfl, hother⟩ hdrops

theorem Settled.failed {caller : Option (Caller Model)} {error : String}
    (hheld : worker.backend.models = models)
    (hresume : caller = none → worker.structuralRetryPending = true)
    (hdrops : worker.dropsFailure error caller = false) :
    (worker.failed caller error).Settled javac models := by
  cases hcancelled : isProjectStateCancellation error with
  | true => exact .of_cancelled hcancelled hheld hresume hdrops
  | false => exact .of_error hcancelled hheld hdrops

theorem relies_deferOrRefine (hrefinable : worker.Refinable javac models) :
    (worker.deferOrRefine javac).Relies javac models (worker.deferOrRefine javac).phase := by
  unfold deferOrRefine
  split
  · refine .of_refinable ⟨hrefinable.held, hrefinable.documents⟩ fun hidle => ?_
    have hnone : true = false := (idle_eq_true.mp hidle).2
    cases hnone
  · exact ⟨hrefinable.held, hrefinable.documents⟩

@[simp] theorem deferOrRefine_project : (worker.deferOrRefine javac).project = worker.project := by
  unfold deferOrRefine
  split <;> rfl

@[simp] theorem indexed_project (caller : Option (Caller Model)) :
    (worker.indexed javac caller).project = worker.project := by
  rcases caller with _ | (_ | _) <;> simp only [indexed, deferOrRefine_project] <;> rfl

theorem relies_indexed {caller : Option (Caller Model)} (hheld : worker.backend.models = models)
    (hdrops : ∀ previous preferred, caller = some (.configuration previous preferred) →
      worker.idle = false) :
    (worker.indexed javac caller).Relies javac models (worker.indexed javac caller).phase := by
  have hparsed : javac.refine worker.backend.models worker.backend.sources
      (javac.parse worker.backend.models worker.backend.sources) =
        javac.semanticIndex models worker.backend.sources := by
    rw [← hheld, Toolchain.semanticIndex]
  cases caller with
  | none => exact relies_deferOrRefine ⟨hheld, hparsed⟩
  | some caller =>
    cases caller with
    | initializeBackend | reload previous | saved => exact relies_deferOrRefine ⟨hheld, hparsed⟩
    | rebuild => exact ⟨hheld, hparsed⟩
    | configuration previous preferred =>
      have hidle := hdrops previous preferred rfl
      exact .of_refinable ⟨hheld, hparsed⟩ fun h => absurd (hidle.symm.trans h) (by decide)

theorem Settled.refined (h : worker.Refinable javac models) :
    (worker.refined javac).Settled javac models := by
  have hrefined : (worker.refined javac).Refinable javac models := by
    refine ⟨h.held, ?_⟩
    show javac.refine worker.backend.models worker.backend.sources
      (javac.refine worker.backend.models worker.backend.sources worker.backend.structuralDocuments) = _
    rw [refine_refine]
    exact h.documents
  exact .of_refinable hrefined fun _ => .inl ⟨h.documents, .inl rfl⟩

theorem sound_load (caller : Caller Model) (models : List Model) (sources : Sources) :
    (worker.load caller models sources).Sound javac :=
  fun _ hproject => Option.some.inj hproject

theorem Settled.of_sound (hsound : worker.Sound javac) (hwaiting : worker.phase = .waiting)
    (hproject : worker.project = some models) : worker.Settled javac models := by
  have hrelies := hsound models hproject
  rwa [hwaiting] at hrelies

theorem Sound.of_settled (hwaiting : worker.phase = .waiting)
    (h : ∀ models, worker.project = some models → worker.Settled javac models) :
    worker.Sound javac := by
  intro models hproject
  rw [hwaiting]
  exact h models hproject

theorem Settled.congr (h : worker.Settled javac models) (hbackend : next.backend = worker.backend)
    (hretry : next.structuralRetryPending = worker.structuralRetryPending)
    (hrefine : next.refinePending = worker.refinePending)
    (hindex : next.structuralDocuments = worker.structuralDocuments)
    (hfailure : next.failure = worker.failure) : next.Settled javac models := by
  have hidle : next.idle = worker.idle := by rw [Worker.idle, Worker.idle, hretry, hrefine]
  constructor
  · rw [hretry, hbackend]
    exact h.retry
  · rw [hretry, hrefine]
    intro hnone hpending
    obtain ⟨hheld, hdocuments⟩ := h.refine hnone hpending
    exact ⟨hbackend ▸ hheld, hbackend ▸ hdocuments⟩
  · rw [hidle]
    intro hnone
    rcases h.idle hnone with ⟨hpublished, hdocuments⟩ | ⟨error, hfailed, hother⟩
    · refine .inl ⟨?_, ?_⟩
      · rw [hindex, hbackend]
        exact hpublished
      · rw [hindex, hbackend]
        exact hdocuments
    · exact .inr ⟨error, hfailure.trans hfailed, hother⟩

theorem Relies.congr {phase : Phase Model} (h : worker.Relies javac models phase)
    (hbackend : next.backend = worker.backend)
    (hretry : next.structuralRetryPending = worker.structuralRetryPending)
    (hrefine : next.refinePending = worker.refinePending)
    (hindex : next.structuralDocuments = worker.structuralDocuments)
    (hfailure : next.failure = worker.failure) : next.Relies javac models phase := by
  cases phase with
  | waiting => exact Settled.congr h hbackend hretry hrefine hindex hfailure
  | processing caller => exact (congrArg NativeBackend.models hbackend).trans h
  | indexing caller generation =>
    exact ⟨(congrArg NativeBackend.models hbackend).trans h.1, fun hresume => hretry.trans (h.2 hresume)⟩
  | refining generation => exact ⟨hbackend ▸ h.held, hbackend ▸ h.documents⟩

theorem Sound.refused (hsound : worker.Sound javac) (hwaiting : worker.phase = .waiting)
    (error : Option String) :
    Sound javac { worker with initializationError := error } :=
  .of_settled hwaiting fun _ hproject =>
    (Settled.of_sound hsound hwaiting hproject).congr rfl rfl rfl rfl rfl

theorem Sound.reload (hsound : worker.Sound javac) (caller : Caller Model)
    (found : Found Model Sources) (other : Worker Model Sources Result) :
    (other.reload caller found worker).Sound javac := by
  unfold Worker.reload
  split
  · split
    · exact hsound
    · exact sound_load _ _ _
  · exact hsound

theorem Settled.publishStructural (h : worker.Settled javac models)
    (hcleared : worker.idle = true → worker.backend.structuralDocuments = [] →
      worker.structuralDocuments = []) : worker.publishStructural.Settled javac models := by
  constructor
  · exact h.retry
  · intro hnone hpending
    obtain ⟨hheld, hdocuments⟩ := h.refine hnone hpending
    exact ⟨hheld, hdocuments⟩
  · intro hidle
    rcases h.idle hidle with ⟨hpublished, hdocuments⟩ | hfailed
    · refine .inl ⟨?_, .inl rfl⟩
      have hsame : worker.backend.structuralDocuments = worker.structuralDocuments :=
        hdocuments.elim id fun hnone => hnone.trans (hcleared hidle hnone).symm
      exact hsame.trans hpublished
    · exact .inr hfailed

theorem Settled.clear (h : worker.Settled javac models)
    (hneeded : worker.structuralRetryPending = false → worker.refinePending = true →
      worker.backend.structuralDocuments = []) :
    Settled javac { worker with backend := { worker.backend with structuralDocuments := [] } }
      models := by
  constructor
  · exact h.retry
  · intro hnone hpending
    obtain ⟨hheld, hdocuments⟩ := h.refine hnone hpending
    rw [hneeded hnone hpending] at hdocuments
    exact ⟨hheld, hdocuments⟩
  · intro hidle
    rcases h.idle hidle with ⟨hpublished, _⟩ | hfailed
    · exact .inl ⟨hpublished, .inr rfl⟩
    · exact .inr hfailed

theorem Sound.receive (hsound : worker.Sound javac) (hwaiting : worker.phase = .waiting)
    (found : Found Model Sources) (command : Command)
    (hdrops : worker.dropsCommand found command = false) :
    (worker.receive javac found command).Sound javac := by
  cases command with
  | initializeBackend root buildSystem =>
    cases root with
    | none => exact hsound.refused hwaiting _
    | some root =>
      rw [dropsCommand] at hdrops
      rw [Worker.receive]
      cases hloaded : found.loaded with
      | ok models => exact sound_load _ _ _
      | error error =>
        rw [hloaded] at hdrops
        dsimp only at hdrops ⊢
        split
        · next hcancelled =>
          -- A retry was pending before.
          rw [hcancelled, Bool.true_and, Bool.not_eq_false'] at hdrops
          exact .of_settled hwaiting fun _ hproject =>
            (Settled.of_sound hsound hwaiting hproject).congr rfl hdrops.symm rfl rfl rfl
        · exact hsound.refused hwaiting _
  | reload changed =>
    rw [Worker.receive]
    split
    · exact hsound
    · exact hsound.reload _ _ _
  | sourceSaved uri =>
    rw [Worker.receive]
    split
    · exact sound_load _ _ _
    · exact hsound
  | rebuildIndex =>
    rw [dropsCommand] at hdrops
    rw [Worker.receive]
    split
    · cases hloaded : found.loaded with
      | error error => exact hsound
      | ok models =>
        cases hremoved : found.removed with
        | ok _ => exact sound_load _ _ _
        | error error =>
          rw [hloaded, hremoved] at hdrops
          refine .of_settled (failed_phase _ _) fun others hproject => ?_
          rw [failed_project] at hproject
          exact .failed (Option.some.inj hproject) (fun h => absurd h (Option.some_ne_none _)) hdrops
    · exact hsound
  | clearProjectCache =>
    rw [dropsCommand] at hdrops
    rw [Worker.receive]
    split
    · cases hremoved : found.removed with
      | error error => exact hsound
      | ok _ =>
        refine .of_settled hwaiting fun _ hproject => ?_
        refine (Settled.of_sound hsound hwaiting hproject).clear fun hnone hpending => ?_
        rw [hnone, hpending, Bool.not_false, Bool.true_and, Bool.true_and, Bool.not_eq_false',
          List.isEmpty_iff] at hdrops
        exact hdrops
    · exact hsound
  | updateConfiguration buildSystem =>
    rw [dropsCommand] at hdrops
    rw [Worker.receive]
    split
    · next hsame =>
      refine .of_settled hwaiting fun _ hproject => ?_
      refine (Settled.of_sound hsound hwaiting hproject).publishStructural fun hidle hcleared => ?_
      rw [decide_eq_true hsame, hidle, hcleared, List.isEmpty_nil, Bool.true_and, Bool.true_and,
        Bool.true_and, Bool.not_eq_false', List.isEmpty_iff] at hdrops
      exact hdrops
    · exact hsound.reload _ _ _
  | _ => exact hsound

theorem step_receive {found : Found Model Sources}
    (h : worker.step javac (.receive found) = some next) :
    worker.phase = .waiting ∧ ∃ command queue, worker.queue = command :: queue ∧
      next = Worker.receive javac { worker with queue := queue } found command := by
  rw [Worker.step] at h
  split at h
  · next command queue hphase hqueue =>
    exact ⟨hphase, command, queue, hqueue, (Option.some.inj h).symm⟩
  · cases h

theorem step_timeout (h : worker.step javac .timeout = some next) :
    worker.phase = .waiting ∧
      (worker.structuralRetryPending = true ∧ next = worker.rebuildStructuralIndex none ∨
        (worker.structuralRetryPending = false ∧ worker.refinePending = true) ∧
          next = { worker with refinePending := false }.refineSemanticIndex) := by
  rw [Worker.step] at h
  split at h
  · next hphase hqueue =>
    refine ⟨hphase, ?_⟩
    split at h
    · next hretry => exact .inl ⟨hretry, (Option.some.inj h).symm⟩
    · next hretry =>
      split at h
      · next hrefine =>
        exact .inr ⟨⟨Bool.not_eq_true _ ▸ hretry, hrefine⟩, (Option.some.inj h).symm⟩
      · cases h
  · cases h

theorem step_processed {answer : Except String (List Model)}
    (h : worker.step javac (.processed answer) = some next) :
    ∃ caller, worker.phase = .processing caller ∧
      ((∃ error, answer = .error error ∧ next = worker.failed (some caller) error) ∨
        ∃ models, answer = .ok models ∧ next = Worker.rebuildStructuralIndex
          { worker with backend := { worker.backend with models := models }, project := some models }
          (some caller)) := by
  rw [Worker.step] at h
  cases hphase : worker.phase with
  | processing caller =>
    refine ⟨caller, rfl, ?_⟩
    rw [hphase] at h
    cases answer with
    | error error => exact .inl ⟨error, rfl, (Option.some.inj h).symm⟩
    | ok models => exact .inr ⟨models, rfl, (Option.some.inj h).symm⟩
  | waiting | indexing caller generation | refining generation =>
    rw [hphase] at h
    cases h

theorem step_finished {answer : Except String Unit}
    (h : worker.step javac (.finished answer) = some next) :
    (∃ caller generation, worker.phase = .indexing caller generation ∧
      ((∃ error, outcome generation worker.cancellationGeneration workspaceCancelled answer = .error error ∧
        next = worker.failed caller error) ∨
      outcome generation worker.cancellationGeneration workspaceCancelled answer = .ok () ∧
        next = worker.indexed javac caller)) ∨
    ∃ generation, worker.phase = .refining generation ∧
      ((∃ error, outcome generation worker.cancellationGeneration semanticCancelled answer = .error error ∧
        next = { worker with phase := .waiting, failure := some error }) ∨
      outcome generation worker.cancellationGeneration semanticCancelled answer = .ok () ∧
        next = worker.refined javac) := by
  rw [Worker.step] at h
  cases hphase : worker.phase with
  | waiting | processing caller =>
    rw [hphase] at h
    cases h
  | indexing caller generation =>
    refine .inl ⟨caller, generation, rfl, ?_⟩
    rw [hphase] at h
    dsimp only at h
    cases houtcome : outcome generation worker.cancellationGeneration workspaceCancelled answer with
    | error error =>
      rw [houtcome] at h
      exact .inl ⟨error, rfl, (Option.some.inj h).symm⟩
    | ok _ =>
      rw [houtcome] at h
      exact .inr ⟨rfl, (Option.some.inj h).symm⟩
  | refining generation =>
    refine .inr ⟨generation, rfl, ?_⟩
    rw [hphase] at h
    dsimp only at h
    cases houtcome : outcome generation worker.cancellationGeneration semanticCancelled answer with
    | error error =>
      rw [houtcome] at h
      exact .inl ⟨error, rfl, (Option.some.inj h).symm⟩
    | ok _ =>
      rw [houtcome] at h
      exact .inr ⟨rfl, (Option.some.inj h).symm⟩

/-- **A step that drops no pass keeps what the worker relies on.** -/
theorem Sound.step {label : Label Model Sources} (hsound : worker.Sound javac)
    (hdrops : worker.drops label = false) (hstep : worker.step javac label = some next) :
    next.Sound javac := by
  cases label with
  | increment =>
    obtain rfl := Option.some.inj hstep
    exact fun others hproject => (hsound others hproject).congr rfl rfl rfl rfl rfl
  | send command =>
    obtain rfl := Option.some.inj hstep
    exact fun others hproject => (hsound others hproject).congr rfl rfl rfl rfl rfl
  | receive found =>
    obtain ⟨hwaiting, command, queue, hqueue, rfl⟩ := step_receive hstep
    rw [drops, hqueue, List.head?_cons, Option.any_some] at hdrops
    have htaken : Sound javac { worker with queue := queue } :=
      fun others hproject => (hsound others hproject).congr rfl rfl rfl rfl rfl
    exact htaken.receive hwaiting found command hdrops
  | timeout =>
    obtain ⟨hwaiting, ⟨hretry, rfl⟩ | ⟨⟨hretry, hrefine⟩, rfl⟩⟩ := step_timeout hstep
    · exact fun others hproject =>
        ⟨(Settled.of_sound hsound hwaiting hproject).retry hretry, fun _ => hretry⟩
    · intro others hproject
      obtain ⟨hheld, hdocuments⟩ := (Settled.of_sound hsound hwaiting hproject).refine hretry hrefine
      exact ⟨hheld, hdocuments⟩
  | processed answer =>
    obtain ⟨caller, hphase, ⟨error, rfl, rfl⟩ | ⟨models, rfl, rfl⟩⟩ := step_processed hstep
    · rw [drops, hphase] at hdrops
      refine .of_settled (failed_phase _ _) fun others hproject => ?_
      rw [failed_project] at hproject
      have hrelies := hsound others hproject
      rw [hphase] at hrelies
      exact .failed hrelies (fun h => absurd h (Option.some_ne_none _)) hdrops
    · exact fun others hproject =>
        ⟨Option.some.inj hproject, fun h => absurd h (Option.some_ne_none _)⟩
  | finished answer =>
    rw [drops] at hdrops
    rcases step_finished hstep with ⟨caller, generation, hphase, hend⟩ | ⟨generation, hphase, hend⟩
    · rw [hphase] at hdrops
      dsimp only at hdrops
      rcases hend with ⟨error, houtcome, rfl⟩ | ⟨houtcome, rfl⟩
      · rw [houtcome] at hdrops
        refine .of_settled (failed_phase _ _) fun others hproject => ?_
        rw [failed_project] at hproject
        have hrelies := hsound others hproject
        rw [hphase] at hrelies
        exact .failed hrelies.1 hrelies.2 hdrops
      · intro others hproject
        rw [indexed_project] at hproject
        have hrelies := hsound others hproject
        rw [hphase] at hrelies
        refine relies_indexed hrelies.1 fun previous preferred hcaller => ?_
        rwa [houtcome, hcaller] at hdrops
    · rw [hphase] at hdrops
      dsimp only at hdrops
      rcases hend with ⟨error, houtcome, rfl⟩ | ⟨houtcome, rfl⟩
      · rw [houtcome] at hdrops
        refine .of_settled rfl fun others hproject => ?_
        have hrelies := hsound others hproject
        rw [hphase] at hrelies
        refine .of_refinable ⟨hrelies.held, hrelies.documents⟩ fun hidle => .inr ⟨error, rfl, ?_⟩
        have hidle : worker.idle = true := hidle
        simpa only [hidle, Bool.and_true] using hdrops
      · refine .of_settled rfl fun others hproject => ?_
        have hrelies := hsound others hproject
        rw [hphase] at hrelies
        exact .refined hrelies

theorem Sound.run {labels : List (Label Model Sources)} (hsound : worker.Sound javac)
    (hkeeps : worker.keeps javac labels = true) (hrun : worker.run javac labels = some next) :
    next.Sound javac := by
  induction labels generalizing worker with
  | nil =>
    obtain rfl := Option.some.inj hrun
    exact hsound
  | cons label labels ih =>
    rw [Worker.run] at hrun
    obtain ⟨middle, hstep, hrun⟩ := Option.bind_eq_some_iff.mp hrun
    rw [keeps, Bool.and_eq_true, Bool.not_eq_true', hstep, Option.all_some] at hkeeps
    exact ih (hsound.step hkeeps.1 hstep) hkeeps.2 hrun

theorem Accounted.of_settled (h : ∀ models, worker.project = some models → worker.Settled javac models) :
    worker.Accounted javac := by
  intro models hproject
  cases hidle : worker.idle with
  | true =>
    rcases (h models hproject).idle hidle with hpublished | hfailed
    · exact .inl hpublished.index
    · exact .inr (.inr hfailed)
  | false =>
    rw [Worker.idle, Bool.and_eq_false_iff, Bool.not_eq_false', Bool.not_eq_false'] at hidle
    exact .inr (.inl hidle)

end Steps

end Worker

section Worker

variable {Model Sources Result : Type}

/-- **No refinement is lost**: whenever the worker waits in a run that drops no pass, the
published index is refined for the project, or a pass is pending, or the last pass failed
for a reason of its own. -/
theorem refinement_is_not_lost (javac : Toolchain Model Sources Result) (sources : Sources)
    (labels : List (Label Model Sources)) (worker : Worker Model Sources Result)
    (hkeeps : (Worker.start sources).keeps javac labels = true)
    (hrun : (Worker.start sources).run javac labels = some worker)
    (hwaiting : worker.phase = .waiting) : worker.Accounted javac := by
  have hstart : (Worker.start sources : Worker Model Sources Result).Sound javac :=
    fun models hproject => absurd hproject.symm (Option.some_ne_none models)
  have hsound := hstart.run hkeeps hrun
  exact .of_settled fun models hproject => .of_sound hsound hwaiting hproject

def oneSource : Toolchain Unit Unit Bool where
  parse := fun _ _ => [⟨"file:///work/A.java", "class A \x7b\x7d", false⟩]
  analyze := fun _ _ _ _ => some true
  isModular := fun _ => false
  owns := fun _ _ => true

def oneProject : Found Unit Unit := ⟨.ok [()], .ok (), ()⟩

def refinedRun : List (Label Unit Unit) :=
  [.send (.initializeBackend (some "file:///work") none), .receive oneProject, .processed (.ok [()]),
    .finished (.ok ()), .finished (.ok ())]

def interruptedRun : List (Label Unit Unit) :=
  [.send (.initializeBackend (some "file:///work") none), .receive oneProject, .processed (.ok [()]),
    .finished (.ok ()), .increment, .send .analyze, .finished (.ok ()), .receive oneProject]

def refinedWorker : Worker Unit Unit Bool :=
  ((Worker.start ()).run oneSource refinedRun).getD (Worker.start ())

def interruptedWorker : Worker Unit Unit Bool :=
  ((Worker.start ()).run oneSource interruptedRun).getD (Worker.start ())

theorem loaded_project_is_refined : (Worker.start ()).run oneSource refinedRun = some refinedWorker ∧
    refinedWorker.Accounted oneSource :=
  ⟨rfl, refinement_is_not_lost oneSource () refinedRun refinedWorker rfl rfl rfl⟩

theorem interrupted_refinement_is_lost :
    ¬ ∀ (labels : List (Label Unit Unit)) (worker : Worker Unit Unit Bool),
      (Worker.start ()).run oneSource labels = some worker → worker.phase = .waiting →
        worker.Accounted oneSource := by
  intro h
  rcases h interruptedRun interruptedWorker rfl rfl [()] rfl with
    hpublished | (hretry | hrefine) | ⟨error, hfailed, hother⟩
  · exact absurd hpublished (by decide)
  · cases hretry
  · cases hrefine
  · obtain rfl := Option.some.inj hfailed
    exact absurd hother (by decide)

end Worker

end JMan.Lsp
