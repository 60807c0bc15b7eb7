import Mathlib.Data.List.Sort
import JMan.Lsp.CompileModel

/-!
# JMan — the persistent semantic cache

`refine_semantic_index` of `native_backend.rs`: a document of the structural index is
published with the result that the cache of an earlier refinement has for its
fingerprint, or else with what javac says of it, or with its structural result.

javac is a function of what it reads (`Reading`); sessions and analyses may fail besides.
The hash of a fingerprint is one to one on what is hashed.

* `served_is_fresh` — in every run of refinements, whatever happens between them, a
  document that the cache serves is published as it would be with an empty cache when
  its result would be made on the same basis (`World.basisOf`).
-/

namespace JMan.Lsp

-- What is read and what is hashed
-- ---

structure Reading (Contents : Type) where
  fileName : String
  source : String
  release : Nat
  options : List String
  classpath : List (PathBuf × Contents)
  modulePath : List (PathBuf × Contents)
  sourcePath : List (PathBuf × Contents)

/-- What a result is made of beside what its fingerprint lists. -/
inductive Basis (Contents Result : Type) where
  /-- The structural result is kept. -/
  | structural (result : Result)
  | attributed (classpath modulePath sourcePath : List (PathBuf × Contents))

inductive Hashed where
  | number (n : Nat)
  | text (s : String)
  | path (p : PathBuf)
  | release (n : Option Nat)
  | texts (l : List String)
  | paths (l : List PathBuf)
  | modified (n : Option Nat)
deriving DecidableEq

def semanticCacheVersion : Nat := 4

-- The world of a refinement
-- ---

structure IndexedDocument (Result : Type) where
  uri : String
  /-- `file_uri_to_path` -/
  path : Option PathBuf
  source : String
  fallback : Result

structure World (Contents Result : Type) where
  abiVersion : Nat
  models : List CompileModel
  documents : List (IndexedDocument Result)
  disk : Disk Contents
  javaHome : Option PathBuf
  /-- `JMAN_JAVA_LSP_DISABLE_ANNOTATION_PROCESSING` is set. -/
  processingDisabled : Bool
  /-- The workers that are asked for. -/
  semanticWorkers : Nat
  /-- A session for this unit cannot be created. -/
  sessionFails : String → Bool
  /-- The analysis of this source fails. -/
  analysisFails : PathBuf → Bool
  /-- The sources of the index are sorted and deduplicated. -/
  nodup : (documents.map IndexedDocument.uri).Nodup
  /-- A build names a unit by project and task. -/
  distinct : ∀ model ∈ models, ∀ other ∈ models, model.key = other.key → model = other

structure ModuleSession (Contents : Type) where
  release : Nat
  options : List String
  classpath : List (PathBuf × Contents)
  modulePath : List (PathBuf × Contents)
  sourcePath : List (PathBuf × Contents)

structure PendingSemanticDocument (Fingerprint Contents Result : Type) where
  uri : String
  key : PathBuf
  source : String
  fingerprint : Fingerprint
  fallback : Result
  model : CompileModel
  /-- What the result is made of; the code does not keep it. -/
  basis : Basis Contents Result

structure CachedSemanticDocument (Fingerprint Contents Result : Type) where
  fingerprint : Fingerprint
  result : Result
  /-- What the result was made of; it is not in the file. -/
  basis : Basis Contents Result

/-- The documents of `SemanticCache`, of the version of the program. -/
abbrev SemanticCache (Fingerprint Contents Result : Type) :=
  List (PathBuf × CachedSemanticDocument Fingerprint Contents Result)

inductive Treatment (Fingerprint Contents Result : Type) where
  /-- It has no path or no unit, or its unit is modular. -/
  | kept
  | hit (key : PathBuf) (cached : CachedSemanticDocument Fingerprint Contents Result)
  /-- The unit has annotation processors. -/
  | processed (document : PendingSemanticDocument Fingerprint Contents Result)
  | pending (document : PendingSemanticDocument Fingerprint Contents Result)

def PendingSemanticDocument.entry {Fingerprint Contents Result : Type}
    (document : PendingSemanticDocument Fingerprint Contents Result) :
    PathBuf × CachedSemanticDocument Fingerprint Contents Result :=
  (document.key, ⟨document.fingerprint, document.fallback, document.basis⟩)

namespace Treatment

variable {Fingerprint Contents Result : Type}

def pending? : Treatment Fingerprint Contents Result →
    Option (PendingSemanticDocument Fingerprint Contents Result)
  | .pending document => some document
  | _ => none

/-- The result of a document that is not analyzed. -/
def result? (fallback : Result) : Treatment Fingerprint Contents Result → Option Result
  | .kept | .processed _ => some fallback
  | .hit _ cached => some cached.result
  | .pending _ => none

/-- The entry of a document that is not analyzed. -/
def cached? : Treatment Fingerprint Contents Result →
    Option (PathBuf × CachedSemanticDocument Fingerprint Contents Result)
  | .hit key cached => some (key, cached)
  | .processed document => some document.entry
  | _ => none

end Treatment

namespace World

section Refinement

variable {Fingerprint Contents Result : Type} [DecidableEq Fingerprint]
  (hash : List Hashed → Fingerprint) (javac : Reading Contents → Option Result)
  (world : World Contents Result)

def found (path : PathBuf) : PathBuf × Contents := (path, world.disk.contents path)

def hashedPath (path : PathBuf) : List Hashed :=
  .path path :: match world.disk.file path with
    | some metadata => [.number metadata.length, .modified metadata.modified]
    | none => []

/-- What `semantic_fingerprint` hashes. -/
def hashed (key : PathBuf) (source : String) (model : CompileModel) : List Hashed :=
  [.number semanticCacheVersion, .number world.abiVersion, .path key, .text source,
    .number model.schemaVersion, .text model.buildSystem, .text model.projectPath,
    .text model.taskPath, .release model.javaRelease, .texts model.compilerArgs,
    .paths model.sourcePath] ++
  (model.classpath ++ (model.modulePath ++ model.annotationProcessorPath)).flatMap world.hashedPath

def semanticFingerprint (key : PathBuf) (source : String) (model : CompileModel) : Fingerprint :=
  hash (world.hashed key source model)

/-- The loop of `refine_semantic_index` over the documents. -/
def treat (previous : SemanticCache Fingerprint Contents Result) (document : IndexedDocument Result) :
    Treatment Fingerprint Contents Result :=
  match document.path with
  | none => .kept
  | some key =>
    match selectCompileModel world.models key with
    | none => .kept
    | some model =>
      let fingerprint := world.semanticFingerprint hash key document.source model
      match (previous.lookup key).filter fun cached => cached.fingerprint = fingerprint with
      | some cached => .hit key cached
      | none =>
        if (moduleInfoFile world.disk model).isSome then .kept
        else
          let pending := ⟨document.uri, key, document.source, fingerprint, document.fallback, model,
            .structural document.fallback⟩
          if !model.annotationProcessorPath.isEmpty && !world.processingDisabled then .processed pending
          else .pending pending

/-- `create_module_session` -/
def session (model : CompileModel) : Option (ModuleSession Contents) :=
  match model.javaRelease with
  | none => none
  | some release =>
    if world.sessionFails model.key then none
    else some {
      release := release
      options := jpmsCompilerOptions model.compilerArgs
      classpath := (semanticClasspath world.disk world.models model).map world.found
      modulePath := (semanticModulePath world.disk world.models model).map world.found
      sourcePath := (sessionSourcePath world.disk world.models world.javaHome model).map world.found }

def analyze (session : ModuleSession Contents) (key : PathBuf) (source : String) : Option Result :=
  if world.analysisFails key then none
  else javac ⟨key.getLast?.getD "Input.java", source, session.release, session.options,
    session.classpath, session.modulePath, session.sourcePath⟩

def analyzed (session : ModuleSession Contents)
    (document : PendingSemanticDocument Fingerprint Contents Result) :
    PendingSemanticDocument Fingerprint Contents Result :=
  match world.analyze javac session document.key document.source with
  | some result =>
    { document with
      fallback := result
      basis := .attributed session.classpath session.modulePath session.sourcePath }
  | none => document

def analyzeAssignment : List (String × ModuleSession Contents) →
    List (PendingSemanticDocument Fingerprint Contents Result) →
    List (PendingSemanticDocument Fingerprint Contents Result)
  | _, [] => []
  | sessions, document :: rest =>
    match sessions.lookup document.model.key with
    | some session => world.analyzed javac session document :: analyzeAssignment sessions rest
    | none =>
      match world.session document.model with
      | none => document :: analyzeAssignment sessions rest
      | some session =>
        world.analyzed javac session document ::
          analyzeAssignment ((document.model.key, session) :: sessions) rest

def semanticWorkerCount (documents : Nat) : Nat := max 1 (min world.semanticWorkers (max documents 1))

def assignment {α : Type} (count worker : Nat) (l : List α) : List α :=
  (l.zipIdx.filter fun entry => entry.2 % count = worker).map Prod.fst

def analyzeSemanticParallel (pending : List (PendingSemanticDocument Fingerprint Contents Result)) :
    List (PendingSemanticDocument Fingerprint Contents Result) :=
  let count := world.semanticWorkerCount pending.length
  ((List.range count).flatMap fun worker =>
    world.analyzeAssignment javac [] (assignment count worker pending)).insertionSort
      fun left right => "/".intercalate left.key ≤ "/".intercalate right.key

abbrev Published (Result : Type) := List (String × String × Result)

variable (previous : SemanticCache Fingerprint Contents Result)

def treated : List (IndexedDocument Result × Treatment Fingerprint Contents Result) :=
  world.documents.map fun document => (document, world.treat hash previous document)

/-- The documents that are analyzed, with what javac said of them. -/
def completed : List (PendingSemanticDocument Fingerprint Contents Result) :=
  world.analyzeSemanticParallel javac ((world.treated hash previous).filterMap (·.2.pending?))

/-- The index that `refine_semantic_index` publishes. -/
def published : Published Result :=
  ((world.treated hash previous).filterMap fun entry =>
    (entry.2.result? entry.1.fallback).map fun result => (entry.1.uri, entry.1.source, result)) ++
  (world.completed hash javac previous).map fun document =>
    (document.uri, document.source, document.fallback)

/-- The cache that `refine_semantic_index` writes: the last entry of a key is found first. -/
def next : SemanticCache Fingerprint Contents Result :=
  ((world.treated hash previous).filterMap (·.2.cached?) ++
    (world.completed hash javac previous).map PendingSemanticDocument.entry).reverse

def complete (document : PendingSemanticDocument Fingerprint Contents Result) :
    PendingSemanticDocument Fingerprint Contents Result :=
  match world.session document.model with
  | some session => world.analyzed javac session document
  | none => document

def resultOf (document : IndexedDocument Result) : Result :=
  match world.treat hash previous document with
  | .kept | .processed _ => document.fallback
  | .hit _ cached => cached.result
  | .pending pending => (world.complete javac pending).fallback

/-- What the result of a document is made of when the cache is empty. -/
def basisOf (document : IndexedDocument Result) : Basis Contents Result :=
  match world.treat hash [] document with
  | .pending pending => (world.complete javac pending).basis
  | _ => .structural document.fallback

end Refinement

end World

/-- What happens to the cache: a refinement in whatever world there is then, or the file
is removed, or is of another version. -/
inductive CacheEvent (Contents Result : Type) where
  | refine (world : World Contents Result)
  | clear

section Runs

variable {Fingerprint Contents Result : Type} [DecidableEq Fingerprint]
  (hash : List Hashed → Fingerprint) (javac : Reading Contents → Option Result)

def stepCache (cache : SemanticCache Fingerprint Contents Result) :
    CacheEvent Contents Result → SemanticCache Fingerprint Contents Result
  | .refine world => world.next hash javac cache
  | .clear => []

def cacheAfter (events : List (CacheEvent Contents Result)) :
    SemanticCache Fingerprint Contents Result :=
  events.foldl (stepCache hash javac) []

end Runs

-- Workers and sessions
-- ---

section Workers

variable {α : Type} {count : Nat}

theorem mem_assignment (hcount : 0 < count) {l : List α} {a : α} :
    (∃ worker < count, a ∈ World.assignment count worker l) ↔ a ∈ l := by
  constructor
  · rintro ⟨worker, -, ha⟩
    obtain ⟨entry, hentry, rfl⟩ := List.mem_map.mp ha
    exact List.fst_mem_of_mem_zipIdx (List.mem_of_mem_filter hentry)
  · intro ha
    obtain ⟨i, hi, rfl⟩ := List.mem_iff_getElem.mp ha
    refine ⟨i % count, Nat.mod_lt _ hcount, List.mem_map.mpr ⟨(l[i], i), ?_, rfl⟩⟩
    refine List.mem_filter.mpr ⟨?_, decide_eq_true rfl⟩
    exact List.mk_mem_zipIdx_iff_getElem?.mpr (List.getElem?_eq_getElem hi)

variable {Fingerprint Contents Result : Type}
  {javac : Reading Contents → Option Result} {world : World Contents Result}

/-- The session that a worker has for a unit is the one that the unit would get. -/
def Serves (world : World Contents Result) (sessions : List (String × ModuleSession Contents)) : Prop :=
  ∀ model ∈ world.models, ∀ session, sessions.lookup model.key = some session →
    world.session model = some session

theorem serves_nil : Serves world [] := by
  intro model _ session h
  cases h

theorem Serves.cons {sessions : List (String × ModuleSession Contents)} (h : Serves world sessions)
    {model : CompileModel} (hmodel : model ∈ world.models) {session : ModuleSession Contents}
    (hsession : world.session model = some session) :
    Serves world ((model.key, session) :: sessions) := by
  intro other hother found hfound
  rw [List.lookup_cons] at hfound
  split at hfound
  · next hkey =>
    rw [world.distinct other hother model hmodel (beq_iff_eq.mp hkey), hsession]
    exact hfound
  · exact h other hother found hfound

theorem analyzeAssignment_eq {sessions : List (String × ModuleSession Contents)}
    (hsessions : Serves world sessions)
    {documents : List (PendingSemanticDocument Fingerprint Contents Result)}
    (hmodels : ∀ document ∈ documents, document.model ∈ world.models) :
    world.analyzeAssignment javac sessions documents = documents.map (world.complete javac) := by
  induction documents generalizing sessions with
  | nil => rfl
  | cons document rest ih =>
    have hmodel := hmodels document List.mem_cons_self
    have hrest : ∀ other ∈ rest, other.model ∈ world.models :=
      fun other hother => hmodels other (List.mem_cons_of_mem _ hother)
    rw [World.analyzeAssignment, List.map_cons, World.complete]
    split
    · next session hlookup =>
      rw [hsessions document.model hmodel session hlookup, ih hsessions hrest]
    · split
      · next hnone => rw [hnone, ih hsessions hrest]
      · next session hsome => rw [hsome, ih (hsessions.cons hmodel hsome) hrest]

theorem mem_analyzeSemanticParallel
    {pending : List (PendingSemanticDocument Fingerprint Contents Result)}
    (hmodels : ∀ document ∈ pending, document.model ∈ world.models)
    {document : PendingSemanticDocument Fingerprint Contents Result} :
    document ∈ world.analyzeSemanticParallel javac pending ↔
      ∃ before ∈ pending, world.complete javac before = document := by
  have hcount : 0 < world.semanticWorkerCount pending.length :=
    Nat.lt_of_lt_of_le Nat.zero_lt_one (Nat.le_max_left _ _)
  have hassigned : ∀ worker, world.analyzeAssignment javac []
      (World.assignment (world.semanticWorkerCount pending.length) worker pending) =
        (World.assignment (world.semanticWorkerCount pending.length) worker pending).map
          (world.complete javac) := by
    intro worker
    refine analyzeAssignment_eq serves_nil fun other hother => hmodels other ?_
    obtain ⟨entry, hentry, rfl⟩ := List.mem_map.mp hother
    exact List.fst_mem_of_mem_zipIdx (List.mem_of_mem_filter hentry)
  simp only [World.analyzeSemanticParallel, List.mem_insertionSort, List.mem_flatMap, hassigned,
    List.mem_map, List.mem_range]
  constructor
  · rintro ⟨worker, hworker, before, hbefore, rfl⟩
    exact ⟨before, (mem_assignment hcount).mp ⟨worker, hworker, hbefore⟩, rfl⟩
  · rintro ⟨before, hbefore, rfl⟩
    obtain ⟨worker, hworker, hbefore⟩ := (mem_assignment hcount).mpr hbefore
    exact ⟨worker, hworker, before, hbefore, rfl⟩

end Workers

-- What is published and what is kept
-- ---

section Making

variable {Fingerprint Contents Result : Type} {hash : List Hashed → Fingerprint}
  {javac : Reading Contents → Option Result} {world : World Contents Result}
  {document : IndexedDocument Result}

def Makes (javac : Reading Contents → Option Result) (key : PathBuf) (source : String)
    (model : CompileModel) (basis : Basis Contents Result) (result : Result) : Prop :=
  match basis with
  | .structural kept => result = kept
  | .attributed classpath modulePath sourcePath => ∃ release, model.javaRelease = some release ∧
      javac ⟨key.getLast?.getD "Input.java", source, release, jpmsCompilerOptions model.compilerArgs,
        classpath, modulePath, sourcePath⟩ = some result

theorem Makes.unique {key : PathBuf} {source : String} {model : CompileModel}
    {basis : Basis Contents Result} {left right : Result} (h : Makes javac key source model basis left)
    (hright : Makes javac key source model basis right) : left = right := by
  cases basis with
  | structural kept => exact Eq.trans h (Eq.symm hright)
  | attributed classpath modulePath sourcePath =>
    obtain ⟨release, hrelease, hleft⟩ := h
    obtain ⟨other, hother, hright⟩ := hright
    obtain rfl : release = other := Option.some.inj (hrelease.symm.trans hother)
    exact Option.some.inj (hleft.symm.trans hright)

/-- What is analyzed, or waits to be, is of the document. -/
structure IsOf (world : World Contents Result) (hash : List Hashed → Fingerprint)
    (document : IndexedDocument Result)
    (pending : PendingSemanticDocument Fingerprint Contents Result) : Prop where
  path : document.path = some pending.key
  uri : pending.uri = document.uri
  source : pending.source = document.source
  model : selectCompileModel world.models pending.key = some pending.model
  fingerprint : pending.fingerprint =
    world.semanticFingerprint hash pending.key document.source pending.model

variable {pending : PendingSemanticDocument Fingerprint Contents Result}

theorem session_eq_some {model : CompileModel} {session : ModuleSession Contents}
    (h : world.session model = some session) :
    model.javaRelease = some session.release ∧
      session.options = jpmsCompilerOptions model.compilerArgs := by
  unfold World.session at h
  split at h
  · cases h
  · next release hrelease =>
    split at h
    · cases h
    · obtain rfl := Option.some.inj h
      exact ⟨hrelease, rfl⟩

theorem complete_cases (h : Makes javac pending.key pending.source pending.model pending.basis
      pending.fallback) :
    ∃ result basis, world.complete javac pending = { pending with fallback := result, basis := basis } ∧
      Makes javac pending.key pending.source pending.model basis result := by
  unfold World.complete
  split
  · next session hsession =>
    unfold World.analyzed
    split
    · next result hresult =>
      obtain ⟨hrelease, hoptions⟩ := session_eq_some hsession
      rw [World.analyze, hoptions] at hresult
      split at hresult
      · cases hresult
      · exact ⟨result, _, rfl, session.release, hrelease, hresult⟩
    · exact ⟨_, _, rfl, h⟩
  · exact ⟨_, _, rfl, h⟩

end Making

section Publication

variable {Fingerprint Contents Result : Type} [DecidableEq Fingerprint]
  {hash : List Hashed → Fingerprint} {javac : Reading Contents → Option Result}
  {world : World Contents Result} {previous : SemanticCache Fingerprint Contents Result}
  {document : IndexedDocument Result}

theorem treat_cases (previous : SemanticCache Fingerprint Contents Result)
    (document : IndexedDocument Result) :
    world.treat hash previous document = .kept ∨
    (∃ key model cached, world.treat hash previous document = .hit key cached ∧
      document.path = some key ∧ selectCompileModel world.models key = some model ∧
        previous.lookup key = some cached ∧
          cached.fingerprint = world.semanticFingerprint hash key document.source model) ∨
    ∃ pending, (world.treat hash previous document = .processed pending ∨
        world.treat hash previous document = .pending pending) ∧
      pending.basis = .structural pending.fallback ∧ pending.fallback = document.fallback ∧
        IsOf world hash document pending := by
  unfold World.treat
  cases hpath : document.path with
  | none => exact .inl rfl
  | some key =>
    dsimp only
    cases hmodel : selectCompileModel world.models key with
    | none => exact .inl rfl
    | some model =>
      dsimp only
      split
      · next cached hfilter =>
        obtain ⟨hlookup, hfingerprint⟩ := Option.filter_eq_some_iff.mp hfilter
        exact .inr (.inl ⟨key, model, cached, rfl, rfl, hmodel, hlookup, of_decide_eq_true hfingerprint⟩)
      · split
        · exact .inl rfl
        · refine .inr (.inr ⟨⟨document.uri, key, document.source,
            world.semanticFingerprint hash key document.source model, document.fallback, model,
            .structural document.fallback⟩, ?_, rfl, rfl, ⟨hpath, rfl, rfl, hmodel, rfl⟩⟩)
          split
          · exact .inl rfl
          · exact .inr rfl

theorem served_cases {key : PathBuf} {cached : CachedSemanticDocument Fingerprint Contents Result}
    (h : world.treat hash previous document = .hit key cached) :
    ∃ model, document.path = some key ∧ selectCompileModel world.models key = some model ∧
      previous.lookup key = some cached ∧
        cached.fingerprint = world.semanticFingerprint hash key document.source model := by
  rcases treat_cases previous document with hkept | ⟨other, model, entry, hhit, hserved⟩ |
    ⟨pending, htreated | htreated, -⟩
  · cases h.symm.trans hkept
  · cases h.symm.trans hhit
    exact ⟨model, hserved⟩
  · cases h.symm.trans htreated
  · cases h.symm.trans htreated

theorem isOf_of_pending {pending : PendingSemanticDocument Fingerprint Contents Result}
    (h : world.treat hash previous document = .pending pending) :
    (pending.basis = .structural pending.fallback ∧ pending.fallback = document.fallback) ∧
      IsOf world hash document pending := by
  rcases treat_cases previous document with hkept | ⟨key, model, cached, hhit, -⟩ |
    ⟨other, htreated, hbasis, hfallback, hother⟩
  · cases h.symm.trans hkept
  · cases h.symm.trans hhit
  · rcases htreated with htreated | htreated
    · cases h.symm.trans htreated
    · cases h.symm.trans htreated
      exact ⟨⟨hbasis, hfallback⟩, hother⟩

theorem isOf_complete {pending : PendingSemanticDocument Fingerprint Contents Result}
    (h : world.treat hash previous document = .pending pending) :
    IsOf world hash document (world.complete javac pending) ∧
      Makes javac (world.complete javac pending).key document.source
        (world.complete javac pending).model (world.complete javac pending).basis
        (world.complete javac pending).fallback := by
  obtain ⟨⟨hbasis, -⟩, hof⟩ := isOf_of_pending h
  have hmakes : Makes javac pending.key pending.source pending.model pending.basis pending.fallback := by
    rw [hbasis]
    exact rfl
  obtain ⟨result, basis, hcomplete, hmakes⟩ := @complete_cases _ _ _ _ world _ hmakes
  rw [hcomplete]
  exact ⟨⟨hof.path, hof.uri, hof.source, hof.model, hof.fingerprint⟩, hof.source ▸ hmakes⟩

theorem mem_completed {pending : PendingSemanticDocument Fingerprint Contents Result} :
    pending ∈ world.completed hash javac previous ↔ ∃ document ∈ world.documents, ∃ before,
      world.treat hash previous document = .pending before ∧ world.complete javac before = pending := by
  have hpending : ∀ before, before ∈ (world.treated hash previous).filterMap (·.2.pending?) ↔
      ∃ document ∈ world.documents, world.treat hash previous document = .pending before := by
    intro before
    rw [List.mem_filterMap]
    constructor
    · rintro ⟨entry, hentry, hbefore⟩
      obtain ⟨document, hdocument, rfl⟩ := List.mem_map.mp hentry
      refine ⟨document, hdocument, ?_⟩
      dsimp only at hbefore
      unfold Treatment.pending? at hbefore
      split at hbefore
      · next hpending => rw [hpending, Option.some.inj hbefore]
      · cases hbefore
    · rintro ⟨document, hdocument, hbefore⟩
      exact ⟨_, List.mem_map_of_mem hdocument, by rw [hbefore]; rfl⟩
  have hmodels : ∀ before ∈ (world.treated hash previous).filterMap (·.2.pending?),
      before.model ∈ world.models := by
    intro before hbefore
    obtain ⟨document, -, hbefore⟩ := (hpending before).mp hbefore
    exact mem_of_selectCompileModel (isOf_of_pending hbefore).2.model
  rw [World.completed, mem_analyzeSemanticParallel hmodels]
  constructor
  · rintro ⟨before, hbefore, rfl⟩
    obtain ⟨document, hdocument, hbefore⟩ := (hpending before).mp hbefore
    exact ⟨document, hdocument, before, hbefore, rfl⟩
  · rintro ⟨document, hdocument, before, hbefore, rfl⟩
    exact ⟨before, (hpending before).mpr ⟨document, hdocument, hbefore⟩, rfl⟩

theorem mem_published {uri source : String} {result : Result} :
    (uri, source, result) ∈ world.published hash javac previous ↔ ∃ document ∈ world.documents,
      document.uri = uri ∧ document.source = source ∧
        world.resultOf hash javac previous document = result := by
  rw [World.published, List.mem_append, List.mem_filterMap, List.mem_map]
  constructor
  · rintro (⟨entry, hentry, hpublished⟩ | ⟨pending, hpending, hpublished⟩)
    · obtain ⟨document, hdocument, rfl⟩ := List.mem_map.mp hentry
      obtain ⟨found, hfound, hpublished⟩ := Option.map_eq_some_iff.mp hpublished
      obtain ⟨huri, hsource, rfl⟩ : document.uri = uri ∧ document.source = source ∧ found = result := by
        simpa only [Prod.mk.injEq] using hpublished
      refine ⟨document, hdocument, huri, hsource, ?_⟩
      dsimp only at hfound
      rw [World.resultOf]
      cases htreat : world.treat hash previous document with
      | kept | hit key cached | processed pending =>
        rw [htreat] at hfound
        exact Option.some.inj hfound
      | pending pending =>
        rw [htreat] at hfound
        cases hfound
    · obtain ⟨document, hdocument, before, hbefore, rfl⟩ := mem_completed.mp hpending
      have hof := (@isOf_complete _ _ _ _ _ javac _ _ _ _ hbefore).1
      obtain ⟨huri, hsource, hresult⟩ :
          (world.complete javac before).uri = uri ∧ (world.complete javac before).source = source ∧
            (world.complete javac before).fallback = result := by
        simpa only [Prod.mk.injEq] using hpublished
      refine ⟨document, hdocument, hof.uri.symm.trans huri, hof.source.symm.trans hsource, ?_⟩
      rw [World.resultOf, hbefore]
      exact hresult
  · rintro ⟨document, hdocument, rfl, rfl, rfl⟩
    rw [World.resultOf]
    cases htreat : world.treat hash previous document with
    | kept | hit key cached | processed pending =>
      exact .inl ⟨_, List.mem_map_of_mem hdocument, by rw [htreat]; rfl⟩
    | pending pending =>
      have hof := (@isOf_complete _ _ _ _ _ javac _ _ _ _ htreat).1
      refine .inr ⟨_, mem_completed.mpr ⟨document, hdocument, pending, htreat, rfl⟩, ?_⟩
      rw [hof.uri, hof.source]

theorem published_iff (hdocument : document ∈ world.documents) {result : Result} :
    (document.uri, document.source, result) ∈ world.published hash javac previous ↔
      world.resultOf hash javac previous document = result := by
  rw [mem_published]
  constructor
  · rintro ⟨other, hother, huri, -, hresult⟩
    rw [List.inj_on_of_nodup_map world.nodup hdocument hother huri.symm]
    exact hresult
  · intro hresult
    exact ⟨document, hdocument, rfl, rfl, hresult⟩

/-- An entry is what its fingerprint and its basis say. -/
def Genuine (hash : List Hashed → Fingerprint) (javac : Reading Contents → Option Result)
    (entry : PathBuf × CachedSemanticDocument Fingerprint Contents Result) : Prop :=
  ∃ (world : World Contents Result) (source : String) (model : CompileModel),
    entry.2.fingerprint = world.semanticFingerprint hash entry.1 source model ∧
      Makes javac entry.1 source model entry.2.basis entry.2.result

theorem genuine_next (h : ∀ entry ∈ previous, Genuine hash javac entry) :
    ∀ entry ∈ world.next hash javac previous, Genuine hash javac entry := by
  intro entry hentry
  rw [World.next, List.mem_reverse, List.mem_append, List.mem_filterMap, List.mem_map] at hentry
  rcases hentry with ⟨treated, htreated, hentry⟩ | ⟨pending, hpending, rfl⟩
  · obtain ⟨document, hdocument, rfl⟩ := List.mem_map.mp htreated
    dsimp only at hentry
    rcases treat_cases previous document with hkept | ⟨key, model, cached, hhit, -, -, hlookup, -⟩ |
      ⟨pending, hprocessed | hpending, hbasis, -, hof⟩
    · rw [hkept] at hentry
      cases hentry
    · rw [hhit] at hentry
      obtain ⟨before, after, hprevious, -⟩ := List.lookup_eq_some_iff.mp hlookup
      refine Option.some.inj hentry ▸ h _ ?_
      exact hprevious ▸ List.mem_append_right _ List.mem_cons_self
    · rw [hprocessed] at hentry
      obtain rfl := Option.some.inj hentry
      refine ⟨world, document.source, pending.model, hof.fingerprint, ?_⟩
      show Makes javac pending.key document.source pending.model pending.basis pending.fallback
      rw [hbasis]
      exact rfl
    · rw [hpending] at hentry
      cases hentry
  · obtain ⟨document, hdocument, before, hbefore, rfl⟩ := mem_completed.mp hpending
    obtain ⟨hof, hmakes⟩ := @isOf_complete _ _ _ _ _ javac _ _ _ _ hbefore
    exact ⟨world, document.source, _, hof.fingerprint, hmakes⟩

theorem genuine_cacheAfter (events : List (CacheEvent Contents Result)) :
    ∀ entry ∈ cacheAfter hash javac events, Genuine hash javac entry := by
  have hrun : ∀ cache : SemanticCache Fingerprint Contents Result,
      (∀ entry ∈ cache, Genuine hash javac entry) →
        ∀ entry ∈ events.foldl (stepCache hash javac) cache, Genuine hash javac entry := by
    induction events with
    | nil => exact fun _ h => h
    | cons event events ih =>
      intro cache h
      refine ih _ ?_
      cases event with
      | refine world => exact genuine_next h
      | clear =>
        intro entry hentry
        cases hentry
  refine hrun [] fun entry hentry => ?_
  cases hentry

theorem makes_basisOf {key : PathBuf} {model : CompileModel} (hpath : document.path = some key)
    (hmodel : selectCompileModel world.models key = some model) :
    Makes javac key document.source model (world.basisOf hash javac document)
      (world.resultOf hash javac [] document) := by
  rw [World.basisOf, World.resultOf]
  cases htreat : world.treat hash [] document with
  | kept | processed pending => exact rfl
  | hit other cached =>
    obtain ⟨-, -, -, hlookup, -⟩ := served_cases htreat
    cases hlookup
  | pending pending =>
    obtain ⟨hof, hmakes⟩ := @isOf_complete _ _ _ _ _ javac _ _ _ _ htreat
    have hkey := Option.some.inj (hpath.symm.trans hof.path)
    have hsame := Option.some.inj (hmodel.symm.trans (hkey ▸ hof.model))
    rw [hkey, hsame]
    exact hmakes

theorem eq_of_hashed {other : World Contents Result} {key : PathBuf} {source otherSource : String}
    {model otherModel : CompileModel}
    (h : world.hashed key source model = other.hashed key otherSource otherModel) :
    source = otherSource ∧ model.javaRelease = otherModel.javaRelease ∧
      model.compilerArgs = otherModel.compilerArgs := by
  simp only [World.hashed, List.cons_append, List.cons.injEq, Hashed.text.injEq, Hashed.release.injEq,
    Hashed.texts.injEq] at h
  obtain ⟨-, -, -, hsource, -, -, -, -, hrelease, hoptions, -⟩ := h
  exact ⟨hsource, hrelease, hoptions⟩

theorem Makes.congr {key : PathBuf} {source : String} {model other : CompileModel}
    {basis : Basis Contents Result} {result : Result} (h : Makes javac key source model basis result)
    (hrelease : model.javaRelease = other.javaRelease)
    (hoptions : model.compilerArgs = other.compilerArgs) :
    Makes javac key source other basis result := by
  cases basis with
  | structural kept => exact h
  | attributed classpath modulePath sourcePath =>
    obtain ⟨release, hsome, hjavac⟩ := h
    exact ⟨release, hrelease ▸ hsome, hoptions ▸ hjavac⟩

end Publication

-- Soundness
-- ---

/-- **The cache serves what an analysis would make**: after any run of refinements, a
document that the cache serves is published as it would be with an empty cache, when its
entry was made on the basis that an analysis would have now. -/
theorem served_is_fresh {Fingerprint Contents Result : Type} [DecidableEq Fingerprint]
    (hash : List Hashed → Fingerprint) (hhash : Function.Injective hash)
    (javac : Reading Contents → Option Result) (events : List (CacheEvent Contents Result))
    (world : World Contents Result) (document : IndexedDocument Result)
    (hdocument : document ∈ world.documents) (key : PathBuf)
    (cached : CachedSemanticDocument Fingerprint Contents Result)
    (hserved : world.treat hash (cacheAfter hash javac events) document = .hit key cached)
    (hbasis : cached.basis = world.basisOf hash javac document) (result : Result) :
    (document.uri, document.source, result) ∈
        world.published hash javac (cacheAfter hash javac events) ↔
      (document.uri, document.source, result) ∈ world.published hash javac [] := by
  obtain ⟨model, hpath, hmodel, hlookup, hfingerprint⟩ := served_cases hserved
  have hmem : (key, cached) ∈ cacheAfter hash javac events := by
    obtain ⟨before, after, hcache, -⟩ := List.lookup_eq_some_iff.mp hlookup
    exact hcache ▸ List.mem_append_right _ List.mem_cons_self
  obtain ⟨origin, source, other, horigin, hmade⟩ := genuine_cacheAfter events _ hmem
  obtain ⟨rfl, hrelease, hoptions⟩ := eq_of_hashed (hhash (horigin.symm.trans hfingerprint))
  have hfresh := @makes_basisOf _ _ _ _ hash javac _ _ _ _ hpath hmodel
  have hsame : cached.result = world.resultOf hash javac [] document :=
    (hbasis ▸ hmade.congr hrelease hoptions).unique hfresh
  have hresult : world.resultOf hash javac (cacheAfter hash javac events) document = cached.result := by
    rw [World.resultOf, hserved]
  rw [published_iff hdocument, published_iff hdocument, hresult, hsame]

section OneUnit

def sourceRoot : PathBuf := ["work", "src", "main", "java"]

def oneUnit : CompileModel where
  schemaVersion := 1
  buildSystem := "maven"
  projectPath := "work"
  projectDirectory := ["work"]
  taskPath := "compile"
  sourceFiles := []
  sourceRoots := [sourceRoot]
  classpath := []
  modulePath := []
  projectDependencies := []
  annotationProcessorPath := []
  compilerArgs := []
  javaRelease := some 21
  generatedSourcesDirectory := none
  generatedSourceDirectories := []
  destinationDirectory := none

def classB : IndexedDocument Nat :=
  ⟨"file:///work/src/main/java/B.java", some (sourceRoot ++ ["B.java"]), "class B extends A \x7b\x7d", 0⟩

def worldOf (version : Nat) : World Nat Nat where
  abiVersion := 1
  models := [oneUnit]
  documents := [classB]
  disk := ⟨fun _ => version, fun _ => none, fun _ => false, fun _ => []⟩
  javaHome := none
  processingDisabled := false
  semanticWorkers := 2
  sessionFails := fun _ => false
  analysisFails := fun _ => false
  nodup := List.nodup_singleton _
  distinct := by
    intro model hmodel other hother _
    rw [List.mem_singleton.mp hmodel, List.mem_singleton.mp hother]

def versionOf (reading : Reading Nat) : Option Nat := reading.sourcePath.head?.map Prod.snd

def entryOfB (version : Nat) : CachedSemanticDocument (List Hashed) Nat Nat :=
  ⟨(worldOf version).hashed (sourceRoot ++ ["B.java"]) classB.source oneUnit, version,
    .attributed [] [] [(sourceRoot, version)]⟩

theorem unchanged_sources_are_fresh : (classB.uri, classB.source, 1) ∈
      (worldOf 1).published id versionOf (cacheAfter id versionOf [.refine (worldOf 1)]) ↔
    (classB.uri, classB.source, 1) ∈
      (worldOf 1).published id versionOf ([] : SemanticCache (List Hashed) Nat Nat) :=
  served_is_fresh id Function.injective_id versionOf [.refine (worldOf 1)] (worldOf 1) classB
    (List.mem_singleton_self _) (sourceRoot ++ ["B.java"]) (entryOfB 1) rfl rfl 1

theorem edited_sources_are_stale :
    ¬ ∀ (events : List (CacheEvent Nat Nat)) (world : World Nat Nat) (document : IndexedDocument Nat),
      document ∈ world.documents → ∀ (key : PathBuf) (cached : CachedSemanticDocument (List Hashed) Nat Nat),
        world.treat id (cacheAfter id versionOf events) document = .hit key cached → ∀ result,
          (document.uri, document.source, result) ∈
              world.published id versionOf (cacheAfter id versionOf events) ↔
            (document.uri, document.source, result) ∈ world.published id versionOf ([] : SemanticCache (List Hashed) Nat Nat) := by
  intro h
  have hdocument : classB ∈ (worldOf 2).documents := List.mem_singleton_self _
  have hserved := h [.refine (worldOf 1)] (worldOf 2) classB hdocument (sourceRoot ++ ["B.java"])
    (entryOfB 1) rfl 1
  rw [published_iff hdocument, published_iff hdocument] at hserved
  exact absurd (hserved.mp rfl) (by decide)

end OneUnit

end JMan.Lsp
