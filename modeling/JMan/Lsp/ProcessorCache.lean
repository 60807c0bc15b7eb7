import JMan.Lib.Blocks
import JMan.Lib.Encoding
import JMan.Lib.Fallible
import JMan.Lib.Loop
import JMan.Lib.Path
import JMan.Lsp.CompileModel

/-!
# JMan — the cache of annotation processing

`ProcessorWorker` and `ProcessorRequest` of `processor_worker.rs`, with the worker they
talk to: requests are told apart by a hash of themselves and of the metadata (and for
small files the content) of the files they name; the hash of the last success is
kept in memory and on disk, and that of the last failure on disk.

The hash is one to one on what is hashed. Processors are a function of the request and of
what is in the files and directories it names; the worker may fail besides.

* `hits_are_right` — in every run in which nothing contradicts a record, a hit finds the
  sources that the processors would leave now.
* `hit_without_directory` — the smallest run in which a hit does not.
-/

namespace JMan.Lsp.Processors

open Encoding (Bytes)

-- Files
-- ---

inductive Contents where
  | file (content : Bytes)
  /-- The files under a directory. -/
  | directory (files : List (PathBuf × Bytes))
deriving DecidableEq

inductive Node where
  | file (content : Bytes) (modified : Option Nat)
  | directory (length : Nat) (modified : Option Nat) (files : List (PathBuf × Bytes))
  /-- A path the metadata of which, or the content, cannot be read. -/
  | unreadable

def Node.contents : Node → Option Contents
  | .file content _ => some (.file content)
  | .directory _ _ files => some (.directory files)
  | .unreadable => none

abbrev FileSystem := PathBuf → Option Node

-- Fingerprints
-- ---

structure ProcessorRequest where
  javaExecutable : PathBuf
  sources : List PathBuf
  sourcePath : List PathBuf
  classpath : List PathBuf
  processorPath : List PathBuf
  processorOptions : List String
  release : UInt8
  generatedDirectory : PathBuf
  classesDirectory : PathBuf
deriving DecidableEq

inductive Hashed where
  | byte (n : UInt8)
  | path (p : PathBuf)
  | options (l : List String)
  | length (n : Nat)
  | modified (n : Option Nat)
  | content (bytes : Bytes)
  | text (s : String)
deriving DecidableEq

def processorProtocolVersion : UInt8 := 2

/-- `16 * 1024 * 1024` -/
def maxHashedLength : Nat := 16777216

def cannotFingerprint (path : PathBuf) (error : String) : String :=
  "cannot fingerprint " ++ Paths.display path ++ ": " ++ error

def fingerprintPath (files : FileSystem) (required : Bool) (path : PathBuf) : Except String (List Hashed) :=
  match files path with
  | none =>
    if required then .error (cannotFingerprint path "No such file or directory (os error 2)")
    else .ok [.path path, .text "missing-future-output"]
  | some .unreadable => .error (cannotFingerprint path "Permission denied (os error 13)")
  | some (.directory length modified _) => .ok [.path path, .length length, .modified modified]
  | some (.file content modified) =>
    .ok ([.path path, .length content.length, .modified modified] ++
      if content.length ≤ maxHashedLength then [.content content] else [])

namespace ProcessorRequest

variable (files : FileSystem) (request : ProcessorRequest)

/-- What `fingerprint` hashes, in this order. -/
def preimage : Except String (List Hashed) := do
  let java ← fingerprintPath files true request.javaExecutable
  let required ← (request.sources ++ request.processorPath).mapM (fingerprintPath files true)
  let optional ← (request.classpath ++ request.sourcePath).mapM (fingerprintPath files false)
  return [.byte processorProtocolVersion] ++ java ++
    [.byte request.release, .options request.processorOptions, .path request.generatedDirectory,
      .path request.classesDirectory] ++ required.flatten ++ optional.flatten

def fingerprint {Fingerprint : Type} (hash : List Hashed → Fingerprint) : Except String Fingerprint :=
  (request.preimage files).map hash

/-- The paths a request names, less those of its outputs. -/
def named : List PathBuf :=
  request.javaExecutable :: (request.sources ++ request.processorPath ++ (request.classpath ++ request.sourcePath))

/-- What processors find under the paths of a request. -/
def inputs : List (Option Contents) := request.named.map fun path => (files path).bind Node.contents

end ProcessorRequest

-- The worker
-- ---

abbrev Generated := List (PathBuf × Bytes)

/-- What processors make of a request and its inputs: sources, or a failure. -/
abbrev Processing := ProcessorRequest → List (Option Contents) → Except String Generated

/-- What becomes of a request that is sent to a worker. -/
inductive Answer where
  /-- The request cannot be written or sent. -/
  | unsent
  /-- The worker comes to its end; the fingerprint can be kept on disk or cannot. -/
  | completes (persists : Bool)
  /-- The worker fails for a reason of its own. It leaves the generated sources as they are
  then, and a reply (an empty one, if it is dead) can be read or cannot. -/
  | breaks (left : Option Generated) (reply : Option String)

structure State (Fingerprint : Type) where
  files : FileSystem
  outputs : PathBuf → Option Generated
  /-- `fingerprints` of each worker -/
  memory : Nat → String → Option Fingerprint
  /-- The fingerprints on disk: of successes and of failures. -/
  persisted : PathBuf → Option Fingerprint
  failed : PathBuf → Option Fingerprint

def fingerprintFile (requestFile : PathBuf) : PathBuf := Paths.withExtension requestFile "fingerprint"

def failedFile (requestFile : PathBuf) : PathBuf := Paths.withExtension requestFile "failed-fingerprint"

inductive Act where
  | edit (files : FileSystem)
  /-- A directory of generated sources is deleted. -/
  | delete (directory : PathBuf)
  | restart (worker : Nat)
  | process (worker : Nat) (key : String) (request : ProcessorRequest) (requestFile : PathBuf) (answer : Answer)
  | persistentCacheHit (request : ProcessorRequest) (requestFile : PathBuf)

section Semantics

variable {Fingerprint : Type} [DecidableEq Fingerprint]

namespace State

variable (hash : List Hashed → Fingerprint) (processing : Processing) (s : State Fingerprint)

def start (files : FileSystem) : State Fingerprint :=
  ⟨files, fun _ => none, fun _ _ => none, fun _ => none, fun _ => none⟩

def leave (directory : PathBuf) (generated : Option Generated) : State Fingerprint :=
  { s with outputs := Function.update s.outputs directory generated }

def remember (worker : Nat) (key : String) (fingerprint : Option Fingerprint) : State Fingerprint :=
  { s with memory := Function.update s.memory worker (Function.update (s.memory worker) key fingerprint) }

def persistFailed (requestFile : PathBuf) (fingerprint : Fingerprint) : State Fingerprint :=
  { s with failed := Function.update s.failed (failedFile requestFile) (some fingerprint) }

def persist (requestFile : PathBuf) (fingerprint : Fingerprint) : State Fingerprint :=
  { s with
    persisted := Function.update s.persisted (fingerprintFile requestFile) (some fingerprint)
    failed := Function.update s.failed (failedFile requestFile) none }

/-- The first test of `process`. -/
def isKnown (worker : Nat) (key : String) (request : ProcessorRequest) (requestFile : PathBuf)
    (fingerprint : Fingerprint) : Bool :=
  s.memory worker key = some fingerprint ||
    (s.persisted (fingerprintFile requestFile) = some fingerprint && (s.outputs request.generatedDirectory).isSome)

/-- `process` of a request that is not known, with its fingerprint -/
def send (worker : Nat) (key : String) (request : ProcessorRequest) (requestFile : PathBuf)
    (fingerprint : Fingerprint) : Answer → State Fingerprint × Except String Bool
  | .unsent => (s, .error "cannot send processor request: Broken pipe (os error 32)")
  | .breaks left none =>
    (s.leave request.generatedDirectory left,
      .error "cannot read processor response: stream did not contain valid UTF-8")
  | .breaks left (some reply) =>
    ((s.leave request.generatedDirectory left).persistFailed requestFile fingerprint,
      .error ("processor worker failed: " ++ reply))
  | .completes persists =>
    match processing request (request.inputs s.files) with
    | .error message =>
      (s.persistFailed requestFile fingerprint, .error ("processor worker failed: " ++ message))
    | .ok generated =>
      let done := (s.leave request.generatedDirectory (some generated)).remember worker key (some fingerprint)
      if persists then (done.persist requestFile fingerprint, .ok false)
      else (done, .error "cannot persist processor fingerprint: No space left on device (os error 28)")

/-- `ProcessorWorker::process`, with whether the result is a cache hit -/
def process (worker : Nat) (key : String) (request : ProcessorRequest) (requestFile : PathBuf)
    (answer : Answer) : State Fingerprint × Except String Bool :=
  match request.fingerprint s.files hash with
  | .error error => (s, .error error)
  | .ok fingerprint =>
    if s.isKnown worker key request requestFile fingerprint then
      (s.remember worker key (some fingerprint), .ok true)
    else s.send processing worker key request requestFile fingerprint answer

def persistentCacheHit (request : ProcessorRequest) (requestFile : PathBuf) : Except String Bool :=
  (request.fingerprint s.files hash).map fun fingerprint =>
    (s.persisted (fingerprintFile requestFile) = some fingerprint && (s.outputs request.generatedDirectory).isSome) ||
      s.failed (failedFile requestFile) = some fingerprint

def next : Act → State Fingerprint
  | .edit files => { s with files := files }
  | .delete directory => s.leave directory none
  | .restart worker => { s with memory := Function.update s.memory worker fun _ => none }
  | .process worker key request requestFile answer =>
    (s.process hash processing worker key request requestFile answer).1
  | .persistentCacheHit _ _ => s

/-- The request for which an act reports a cache hit. -/
def hit : Act → Option ProcessorRequest
  | .process worker key request requestFile answer =>
    if (s.process hash processing worker key request requestFile answer).2.toOption = some true then some request
    else none
  | .persistentCacheHit request requestFile =>
    if (s.persistentCacheHit hash request requestFile).toOption = some true then some request else none
  | _ => none

/-- The generated sources, if the processors ran now. -/
def wouldLeave (request : ProcessorRequest) : Option Generated :=
  match processing request (request.inputs s.files) with
  | .error _ => s.outputs request.generatedDirectory
  | .ok generated => some generated

end State

def run (hash : List Hashed → Fingerprint) (processing : Processing) (files : FileSystem) (acts : List Act) :
    State Fingerprint := acts.foldl (State.next hash processing) (.start files)

-- What should hold
-- ---

def ProcessorRequest.listed (request : ProcessorRequest) : List PathBuf :=
  request.sources ++ request.processorPath ++ (request.classpath ++ request.sourcePath)

/-- Two requests that differ at most in where one list ends and the next one begins. -/
structure SameButForSplits (request other : ProcessorRequest) : Prop where
  javaExecutable : request.javaExecutable = other.javaExecutable
  release : request.release = other.release
  options : request.processorOptions = other.processorOptions
  generated : request.generatedDirectory = other.generatedDirectory
  classes : request.classesDirectory = other.classesDirectory
  listed : request.listed = other.listed

/-- What the length and the modification time of a path tell of what is in it. -/
abbrev Table := PathBuf → Nat → Option Nat → Option Contents

/-- An edit of a file changes its length or its modification time. -/
def FilesTold (table : Table) (files : FileSystem) : Prop :=
  ∀ path content modified, files path = some (.file content modified) →
    table path content.length modified = some (.file content)

/-- Whatever changes in a directory changes its length or its modification time. -/
def DirectoriesTold (table : Table) (requests : List ProcessorRequest) (files : FileSystem) : Prop :=
  ∀ request ∈ requests, ∀ path ∈ request.named, ∀ length modified content,
    files path = some (.directory length modified content) →
    table path length modified = some (.directory content)

def Act.request? : Act → Option ProcessorRequest
  | .process _ _ request _ _ => some request
  | .persistentCacheHit request _ => some request
  | _ => none

def Act.files? : Act → Option FileSystem
  | .edit files => some files
  | _ => none

def requestsOf (acts : List Act) : List ProcessorRequest := acts.filterMap Act.request?

/-- A fingerprint of a request that generates sources in a directory. -/
def IsFor (hash : List Hashed → Fingerprint) (fingerprint : Fingerprint) (directory : PathBuf) : Prop :=
  ∃ (request : ProcessorRequest) (files : FileSystem),
    request.generatedDirectory = directory ∧ request.fingerprint files hash = .ok fingerprint

/-- No fingerprint but `own` that is kept for the directory is contradicted if its sources
become these. -/
def MayBecome (hash : List Hashed → Fingerprint) (s : State Fingerprint) (own : Option Fingerprint)
    (directory : PathBuf) (new : Option Generated) : Prop :=
  (∀ worker key known, s.memory worker key = some known → IsFor hash known directory →
    own = some known ∨ s.outputs directory = new) ∧
  ∀ file known, s.persisted file = some known → IsFor hash known directory →
    own = some known ∨ new = none ∨ s.outputs directory = new

def State.forget (s : State Fingerprint) (worker : Nat) (key : String) (requestFile : PathBuf) (persists : Bool) :
    State Fingerprint :=
  { s.remember worker key none with
    persisted :=
      if persists then Function.update s.persisted (fingerprintFile requestFile) none else s.persisted }

/-- What happens to a request that is sent contradicts no record that stays. -/
def SendKeeps (hash : List Hashed → Fingerprint) (processing : Processing) (s : State Fingerprint) (worker : Nat)
    (key : String) (request : ProcessorRequest) (requestFile : PathBuf) (fingerprint : Fingerprint) : Answer → Prop
  | .unsent => True
  | .breaks left reply =>
    MayBecome hash s none request.generatedDirectory left ∧
      (reply.isSome → (processing request (request.inputs s.files)).toOption = none)
  | .completes persists =>
    ∀ generated, processing request (request.inputs s.files) = .ok generated →
      MayBecome hash (s.forget worker key requestFile persists) (some fingerprint) request.generatedDirectory
        (some generated)

/-- Edits show in the directories that requests name, and nothing that happens to the
generated sources contradicts a record of them. -/
def KeepsRecords (hash : List Hashed → Fingerprint) (processing : Processing) (table : Table)
    (requests : List ProcessorRequest) (s : State Fingerprint) : Act → Prop
  | .edit files => DirectoriesTold table requests files
  | .delete directory => MayBecome hash s none directory none
  | .process worker key request requestFile answer =>
    ∀ fingerprint, request.fingerprint s.files hash = .ok fingerprint →
      ¬ s.isKnown worker key request requestFile fingerprint →
      SendKeeps hash processing s worker key request requestFile fingerprint answer
  | _ => True

end Semantics

-- What is hashed
-- ---

section Preimages

variable {files files' : FileSystem} {request other : ProcessorRequest} {path path' : PathBuf}
  {required required' : Bool} {block hashed hashed' : List Hashed}

def Hashed.IsPath : Hashed → Prop
  | .path _ => True
  | _ => False

theorem fingerprintPath_eq_ok (h : fingerprintPath files required path = .ok block) :
    (files path = none ∧ block = [.path path, .text "missing-future-output"]) ∨
    (∃ length modified content, files path = some (.directory length modified content) ∧
      block = [.path path, .length length, .modified modified]) ∨
    (∃ content modified, files path = some (.file content modified) ∧ content.length ≤ maxHashedLength ∧
      block = [.path path, .length content.length, .modified modified, .content content]) ∨
    ∃ content modified, files path = some (.file content modified) ∧ ¬ content.length ≤ maxHashedLength ∧
      block = [.path path, .length content.length, .modified modified] := by
  unfold fingerprintPath at h
  split at h
  · next hnone =>
    split at h
    · cases h
    · exact Or.inl ⟨hnone, (Except.ok.inj h).symm⟩
  · cases h
  · next length modified content hdirectory =>
    exact Or.inr (Or.inl ⟨length, modified, content, hdirectory, (Except.ok.inj h).symm⟩)
  · next content modified hfile =>
    have hblock := (Except.ok.inj h).symm
    by_cases hsmall : content.length ≤ maxHashedLength
    · rw [if_pos hsmall] at hblock
      exact Or.inr (Or.inr (Or.inl ⟨content, modified, hfile, hsmall, hblock⟩))
    · rw [if_neg hsmall, List.append_nil] at hblock
      exact Or.inr (Or.inr (Or.inr ⟨content, modified, hfile, hsmall, hblock⟩))

theorem exists_tail (h : fingerprintPath files required path = .ok block) :
    ∃ tail, block = .path path :: tail ∧ ∀ value ∈ tail, ¬ value.IsPath := by
  rcases fingerprintPath_eq_ok h with ⟨-, rfl⟩ | ⟨_, _, _, -, rfl⟩ | ⟨_, _, -, -, rfl⟩ | ⟨_, _, -, -, rfl⟩
  all_goals exact ⟨_, rfl, by simp [Hashed.IsPath]⟩

theorem fingerprintPath_optional (h : fingerprintPath files required path = .ok block) :
    fingerprintPath files false path = .ok block := by
  rcases fingerprintPath_eq_ok h with ⟨hnode, rfl⟩ | ⟨_, _, _, hnode, rfl⟩ | ⟨_, _, hnode, hlength, rfl⟩ |
    ⟨_, _, hnode, hlength, rfl⟩
  · simp [fingerprintPath, hnode]
  · simp [fingerprintPath, hnode]
  · simp [fingerprintPath, hnode, hlength]
  · simp [fingerprintPath, hnode, hlength]

/-- The blocks of what `fingerprint` hashes, after the version. -/
def blocksOf (request : ProcessorRequest) (java : List Hashed) (rest : List (List Hashed)) : List (List Hashed) :=
  (java ++ [.byte request.release, .options request.processorOptions]) :: [.path request.generatedDirectory] ::
    [.path request.classesDirectory] :: rest

theorem preimage_eq_ok (h : request.preimage files = .ok hashed) :
    ∃ java rest, fingerprintPath files true request.javaExecutable = .ok java ∧
      List.Forall₂ (fun path block => fingerprintPath files false path = .ok block) request.listed rest ∧
      hashed = .byte processorProtocolVersion :: (blocksOf request java rest).flatten := by
  simp only [ProcessorRequest.preimage, Fallible.bind_eq_ok, Fallible.pure_eq_ok] at h
  obtain ⟨java, hjava, required, hrequired, optional, hoptional, rfl⟩ := h
  rw [Fallible.mapM_eq_ok] at hrequired hoptional
  refine ⟨java, required ++ optional, hjava, ?_, ?_⟩
  · have hall := hrequired.imp (fun _ _ hblock => fingerprintPath_optional hblock)
    exact List.rel_append hall hoptional
  · simp [blocksOf]

theorem isBlock_of_forall₂ {paths : List PathBuf} {rest : List (List Hashed)}
    (h : List.Forall₂ (fun path block => fingerprintPath files false path = .ok block) paths rest) :
    ∀ block ∈ rest, Blocks.IsBlock Hashed.IsPath block := by
  induction h with
  | nil =>
    intro block hblock
    cases hblock
  | cons hfirst _ ih =>
    intro block hblock
    rcases List.mem_cons.mp hblock with rfl | hblock
    · obtain ⟨tail, rfl, htail⟩ := exists_tail hfirst
      exact ⟨trivial, htail⟩
    · exact ih block hblock

theorem isBlock_blocksOf {java : List Hashed} {rest : List (List Hashed)}
    (hjava : fingerprintPath files true request.javaExecutable = .ok java)
    (hrest : ∀ block ∈ rest, Blocks.IsBlock Hashed.IsPath block) :
    ∀ block ∈ blocksOf request java rest, Blocks.IsBlock Hashed.IsPath block := by
  obtain ⟨tail, rfl, htail⟩ := exists_tail hjava
  intro block hblock
  simp only [blocksOf, List.mem_cons] at hblock
  rcases hblock with rfl | rfl | rfl | hblock
  · refine ⟨trivial, ?_⟩
    intro value hvalue
    rcases List.mem_append.mp hvalue with hvalue | hvalue
    · exact htail value hvalue
    · simp only [List.mem_cons, List.not_mem_nil, or_false] at hvalue
      rcases hvalue with rfl | rfl
      · simp [Hashed.IsPath]
      · simp [Hashed.IsPath]
  · exact ⟨trivial, by simp⟩
  · exact ⟨trivial, by simp⟩
  · exact hrest block hblock

theorem path_unique (h : fingerprintPath files required path = .ok block)
    (h' : fingerprintPath files' required' path' = .ok block) : path = path' := by
  obtain ⟨tail, rfl, -⟩ := exists_tail h
  obtain ⟨tail', hsame, -⟩ := exists_tail h'
  exact Hashed.path.inj (List.cons.inj hsame).1

theorem paths_unique {paths paths' : List PathBuf} {rest : List (List Hashed)}
    (h : List.Forall₂ (fun path block => fingerprintPath files false path = .ok block) paths rest)
    (h' : List.Forall₂ (fun path block => fingerprintPath files' false path = .ok block) paths' rest) :
    paths = paths' := by
  induction h generalizing paths' with
  | nil =>
    cases h'
    rfl
  | cons hfirst _ ih =>
    cases h' with
    | cons hfirst' hrest' => rw [path_unique hfirst hfirst', ih hrest']

/-- **What two requests that are hashed alike have in common.** -/
theorem preimage_inj (h : request.preimage files = .ok hashed) (h' : other.preimage files' = .ok hashed) :
    SameButForSplits request other ∧ ∀ path ∈ request.named, ∃ required required' block,
      fingerprintPath files required path = .ok block ∧ fingerprintPath files' required' path = .ok block := by
  obtain ⟨java, rest, hjava, hrest, rfl⟩ := preimage_eq_ok h
  obtain ⟨java', rest', hjava', hrest', hsame⟩ := preimage_eq_ok h'
  have hblocks : blocksOf request java rest = blocksOf other java' rest' :=
    Blocks.flatten_injective (isBlock_blocksOf hjava (isBlock_of_forall₂ hrest))
      (isBlock_blocksOf hjava' (isBlock_of_forall₂ hrest')) (List.cons.inj hsame).2
  simp only [blocksOf, List.cons.injEq, and_true, Hashed.path.injEq] at hblocks
  obtain ⟨hfirst, hgenerated, hclasses, rfl⟩ := hblocks
  obtain ⟨rfl, htail⟩ := List.append_inj' hfirst rfl
  simp only [List.cons.injEq, Hashed.byte.injEq, Hashed.options.injEq, and_true] at htail
  refine ⟨⟨path_unique hjava hjava', htail.1, htail.2, hgenerated, hclasses, paths_unique hrest hrest'⟩, ?_⟩
  intro path hpath
  rcases List.mem_cons.mp hpath with rfl | hpath
  · have hsame := path_unique hjava hjava'
    exact ⟨true, true, java, hjava, hsame ▸ hjava'⟩
  · obtain ⟨i, hi, rfl⟩ := List.getElem_of_mem hpath
    have hlisted := paths_unique hrest hrest'
    have hi' : i < other.listed.length := hlisted ▸ hi
    have hget := hrest.get hi (hrest.length_eq ▸ hi)
    have hget' := hrest'.get hi' (hrest'.length_eq ▸ hi')
    refine ⟨false, false, _, hget, ?_⟩
    have hpath : request.listed[i] = other.listed[i] := by simp [hlisted]
    rw [show (request.sources ++ request.processorPath ++ (request.classpath ++ request.sourcePath))[i] =
      request.listed[i] from rfl, hpath]
    exact hget'

/-- **Requests are hashed alike** exactly if they differ at most in where their lists end. -/
theorem preimage_eq_iff (h : request.preimage files = .ok hashed) (h' : other.preimage files = .ok hashed') :
    hashed = hashed' ↔ SameButForSplits request other := by
  constructor
  · rintro rfl
    exact (preimage_inj h h').1
  · intro hsame
    obtain ⟨java, rest, hjava, hrest, rfl⟩ := preimage_eq_ok h
    obtain ⟨java', rest', hjava', hrest', rfl⟩ := preimage_eq_ok h'
    have hjavas : java = java' := by
      rw [hsame.javaExecutable, hjava'] at hjava
      exact (Except.ok.inj hjava).symm
    have hrests : rest = rest' := by
      rw [hsame.listed] at hrest
      have hright : Relator.RightUnique fun path block => fingerprintPath files false path = .ok block :=
        fun _ _ _ hblock hblock' => Except.ok.inj (hblock.symm.trans hblock')
      exact hright.forall₂ hrest hrest'
    simp only [blocksOf, hjavas, hrests, hsame.release, hsame.options, hsame.generated, hsame.classes]

theorem contents_of_block {table : Table} (h : fingerprintPath files required path = .ok block)
    (h' : fingerprintPath files' required' path = .ok block)
    (hfiles : FilesTold table files) (hfiles' : FilesTold table files')
    (hdirectory : ∀ length modified content, files path = some (.directory length modified content) →
      table path length modified = some (.directory content))
    (hdirectory' : ∀ length modified content, files' path = some (.directory length modified content) →
      table path length modified = some (.directory content)) :
    (files path).bind Node.contents = (files' path).bind Node.contents := by
  have htold {files : FileSystem} {required : Bool} (h : fingerprintPath files required path = .ok block)
      (hfiles : FilesTold table files)
      (hdirectory : ∀ length modified content, files path = some (.directory length modified content) →
        table path length modified = some (.directory content)) :
      (files path = none ∧ block = [.path path, .text "missing-future-output"]) ∨
        ∃ length modified tail, block = .path path :: .length length :: .modified modified :: tail ∧
          (files path).bind Node.contents = table path length modified := by
    rcases fingerprintPath_eq_ok h with hnone | ⟨length, modified, content, hnode, rfl⟩ |
      ⟨content, modified, hnode, -, rfl⟩ | ⟨content, modified, hnode, -, rfl⟩
    · exact Or.inl hnone
    · refine Or.inr ⟨_, _, _, rfl, ?_⟩
      rw [hnode, hdirectory _ _ _ hnode]
      rfl
    · refine Or.inr ⟨_, _, _, rfl, ?_⟩
      rw [hnode, hfiles _ _ _ hnode]
      rfl
    · refine Or.inr ⟨_, _, _, rfl, ?_⟩
      rw [hnode, hfiles _ _ _ hnode]
      rfl
  rcases htold h hfiles hdirectory with ⟨hnone, rfl⟩ | ⟨length, modified, tail, rfl, hcontents⟩
  · rcases htold h' hfiles' hdirectory' with ⟨hnone', -⟩ | ⟨_, _, _, hblock, -⟩
    · rw [hnone, hnone']
    · simp at hblock
  · rcases htold h' hfiles' hdirectory' with ⟨-, hblock⟩ | ⟨length', modified', tail', hblock, hcontents'⟩
    · simp at hblock
    · simp only [List.cons.injEq, Hashed.length.injEq, Hashed.modified.injEq, true_and] at hblock
      obtain ⟨rfl, rfl, -⟩ := hblock
      rw [hcontents, hcontents']

end Preimages

-- Records
-- ---

section Records

variable {Fingerprint : Type} {hash : List Hashed → Fingerprint} {processing : Processing} {table : Table}
  {requests : List ProcessorRequest}

/-- The file systems in which lengths and modification times tell what is there. -/
def Told (table : Table) (requests : List ProcessorRequest) (files : FileSystem) : Prop :=
  FilesTold table files ∧ DirectoriesTold table requests files

/-- A request of the run that has this fingerprint in one of these file systems. -/
structure Makes (hash : List Hashed → Fingerprint) (table : Table) (requests : List ProcessorRequest)
    (fingerprint : Fingerprint) (request : ProcessorRequest) (files : FileSystem) : Prop where
  mem : request ∈ requests
  told : Told table requests files
  fingerprint : request.fingerprint files hash = .ok fingerprint

/-- What the records stand for: a fingerprint kept in memory for the sources that are there,
one on disk for the sources that are there if the directory is, and one of a failure for
a failure. -/
structure Sound (hash : List Hashed → Fingerprint) (processing : Processing) (table : Table)
    (requests : List ProcessorRequest) (s : State Fingerprint) : Prop where
  told : Told table requests s.files
  memory : ∀ worker key fingerprint request files, s.memory worker key = some fingerprint →
    Makes hash table requests fingerprint request files →
    ∃ generated, processing request (request.inputs files) = .ok generated ∧
      s.outputs request.generatedDirectory = some generated
  persisted : ∀ file fingerprint request files, s.persisted file = some fingerprint →
    Makes hash table requests fingerprint request files →
    ∃ generated, processing request (request.inputs files) = .ok generated ∧
      (s.outputs request.generatedDirectory = none ∨ s.outputs request.generatedDirectory = some generated)
  failed : ∀ file fingerprint request files, s.failed file = some fingerprint →
    Makes hash table requests fingerprint request files →
    ∃ message, processing request (request.inputs files) = .error message

variable {s : State Fingerprint} {fingerprint : Fingerprint} {request other : ProcessorRequest}
  {files files' : FileSystem} {worker : Nat} {key : String} {requestFile directory : PathBuf}
  {new : Option Generated} {own : Option Fingerprint}

/-- No two requests of the run differ only in where their lists end. -/
def Separated (requests : List ProcessorRequest) : Prop :=
  ∀ request ∈ requests, ∀ other ∈ requests, SameButForSplits request other → request = other

/-- **A fingerprint tells the request and what processors read.** -/
theorem Makes.unique (hhash : Function.Injective hash) (hseparated : Separated requests)
    (h : Makes hash table requests fingerprint request files)
    (h' : Makes hash table requests fingerprint other files') :
    request = other ∧ request.inputs files = other.inputs files' := by
  obtain ⟨hashed, hhashed, hfingerprint⟩ := Fallible.map_eq_ok.mp h.fingerprint
  obtain ⟨hashed', hhashed', hfingerprint'⟩ := Fallible.map_eq_ok.mp h'.fingerprint
  obtain rfl := hhash (hfingerprint.trans hfingerprint'.symm)
  obtain ⟨hsame, hblocks⟩ := preimage_inj hhashed hhashed'
  obtain rfl := hseparated request h.mem other h'.mem hsame
  refine ⟨rfl, List.map_congr_left ?_⟩
  intro path hpath
  obtain ⟨required, required', block, hblock, hblock'⟩ := hblocks path hpath
  exact contents_of_block hblock hblock' h.told.1 h'.told.1 (h.told.2 request h.mem path hpath)
    (h'.told.2 request h.mem path hpath)

theorem Makes.isFor (h : Makes hash table requests fingerprint request files) :
    IsFor hash fingerprint request.generatedDirectory := ⟨request, files, rfl, h.fingerprint⟩

-- Changes of the state

theorem Sound.edit (h : Sound hash processing table requests s) (htold : Told table requests files) :
    Sound hash processing table requests { s with files := files } :=
  ⟨htold, h.memory, h.persisted, h.failed⟩

theorem Sound.leave (h : Sound hash processing table requests s) (hmay : MayBecome hash s own directory new)
    (hown : ∀ known, own = some known → ∀ request files, Makes hash table requests known request files →
      ∃ generated, processing request (request.inputs files) = .ok generated ∧
        request.generatedDirectory = directory ∧ new = some generated) :
    Sound hash processing table requests (s.leave directory new) := by
  refine ⟨h.told, ?_, ?_, h.failed⟩
  · intro worker key known request files hknown hmakes
    show ∃ generated, _ ∧ Function.update s.outputs directory new request.generatedDirectory = _
    obtain ⟨generated, hgenerated, hthere⟩ := h.memory worker key known request files hknown hmakes
    by_cases hdirectory : request.generatedDirectory = directory
    · rcases hmay.1 worker key known hknown (hdirectory ▸ hmakes.isFor) with hsame | hsame
      · obtain ⟨generated, hgenerated, -, rfl⟩ := hown known hsame request files hmakes
        exact ⟨generated, hgenerated, by rw [hdirectory, Function.update_self]⟩
      · refine ⟨generated, hgenerated, ?_⟩
        rw [hdirectory, Function.update_self, ← hsame, ← hdirectory, hthere]
    · exact ⟨generated, hgenerated, by rw [Function.update_of_ne hdirectory, hthere]⟩
  · intro file known request files hknown hmakes
    show ∃ generated, _ ∧ (Function.update s.outputs directory new request.generatedDirectory = _ ∨
      Function.update s.outputs directory new request.generatedDirectory = _)
    obtain ⟨generated, hgenerated, hthere⟩ := h.persisted file known request files hknown hmakes
    by_cases hdirectory : request.generatedDirectory = directory
    · rcases hmay.2 file known hknown (hdirectory ▸ hmakes.isFor) with hsame | hsame | hsame
      · obtain ⟨generated, hgenerated, -, rfl⟩ := hown known hsame request files hmakes
        exact ⟨generated, hgenerated, Or.inr (by rw [hdirectory, Function.update_self])⟩
      · exact ⟨generated, hgenerated, Or.inl (by rw [hdirectory, Function.update_self, hsame])⟩
      · refine ⟨generated, hgenerated, ?_⟩
        rw [hdirectory, Function.update_self, ← hsame, ← hdirectory]
        exact hthere
    · refine ⟨generated, hgenerated, ?_⟩
      rw [Function.update_of_ne hdirectory]
      exact hthere

def Stands (hash : List Hashed → Fingerprint) (processing : Processing) (table : Table)
    (requests : List ProcessorRequest) (s : State Fingerprint) (fingerprint : Fingerprint) : Prop :=
  ∀ request files, Makes hash table requests fingerprint request files →
    ∃ generated, processing request (request.inputs files) = .ok generated ∧
      s.outputs request.generatedDirectory = some generated

theorem update_memory_eq_some {value : Option Fingerprint} {worker' : Nat} {key' : String}
    (h : (s.remember worker key value).memory worker' key' = some fingerprint) :
    value = some fingerprint ∨ s.memory worker' key' = some fingerprint := by
  simp only [State.remember] at h
  by_cases hworker : worker' = worker
  · subst hworker
    rw [Function.update_self] at h
    by_cases hkey : key' = key
    · subst hkey
      rw [Function.update_self] at h
      exact Or.inl h
    · rw [Function.update_of_ne hkey] at h
      exact Or.inr h
  · rw [Function.update_of_ne hworker] at h
    exact Or.inr h

theorem Sound.remember (h : Sound hash processing table requests s) {value : Option Fingerprint}
    (hstands : ∀ known, value = some known → Stands hash processing table requests s known) :
    Sound hash processing table requests (s.remember worker key value) := by
  refine ⟨h.told, ?_, h.persisted, h.failed⟩
  intro worker' key' known request files hknown hmakes
  rcases update_memory_eq_some hknown with hvalue | hold
  · exact hstands known hvalue request files hmakes
  · exact h.memory worker' key' known request files hold hmakes

theorem Sound.restart (h : Sound hash processing table requests s) :
    Sound hash processing table requests { s with memory := Function.update s.memory worker fun _ => none } := by
  refine ⟨h.told, ?_, h.persisted, h.failed⟩
  intro worker' key known request files hknown hmakes
  by_cases hworker : worker' = worker
  · subst hworker
    simp at hknown
  · simp only [Function.update_of_ne hworker] at hknown
    exact h.memory worker' key known request files hknown hmakes

theorem Sound.persistFailed (h : Sound hash processing table requests s)
    (hfails : ∀ request files, Makes hash table requests fingerprint request files →
      ∃ message, processing request (request.inputs files) = .error message) :
    Sound hash processing table requests (s.persistFailed requestFile fingerprint) := by
  refine ⟨h.told, h.memory, h.persisted, ?_⟩
  intro file known request files hknown hmakes
  simp only [State.persistFailed] at hknown
  by_cases hfile : file = failedFile requestFile
  · subst hfile
    rw [Function.update_self] at hknown
    obtain rfl := Option.some.inj hknown
    exact hfails request files hmakes
  · rw [Function.update_of_ne hfile] at hknown
    exact h.failed file known request files hknown hmakes

theorem Sound.persist (h : Sound hash processing table requests s)
    (hstands : Stands hash processing table requests s fingerprint) :
    Sound hash processing table requests (s.persist requestFile fingerprint) := by
  refine ⟨h.told, h.memory, ?_, ?_⟩
  · intro file known request files hknown hmakes
    simp only [State.persist] at hknown
    by_cases hfile : file = fingerprintFile requestFile
    · subst hfile
      rw [Function.update_self] at hknown
      obtain rfl := Option.some.inj hknown
      obtain ⟨generated, hgenerated, hthere⟩ := hstands request files hmakes
      exact ⟨generated, hgenerated, Or.inr hthere⟩
    · rw [Function.update_of_ne hfile] at hknown
      exact h.persisted file known request files hknown hmakes
  · intro file known request files hknown hmakes
    simp only [State.persist] at hknown
    by_cases hfile : file = failedFile requestFile
    · subst hfile
      simp at hknown
    · rw [Function.update_of_ne hfile] at hknown
      exact h.failed file known request files hknown hmakes

theorem Sound.forget (h : Sound hash processing table requests s) (persists : Bool) :
    Sound hash processing table requests (s.forget worker key requestFile persists) := by
  have hforgotten : Sound hash processing table requests (s.remember worker key none) :=
    h.remember (by simp)
  refine ⟨h.told, hforgotten.memory, ?_, h.failed⟩
  intro file known request files hknown hmakes
  simp only [State.forget] at hknown
  split at hknown
  · by_cases hfile : file = fingerprintFile requestFile
    · subst hfile
      simp at hknown
    · rw [Function.update_of_ne hfile] at hknown
      exact h.persisted file known request files hknown hmakes
  · exact h.persisted file known request files hknown hmakes

-- Steps

theorem Makes.current (h : Sound hash processing table requests s) (hmem : request ∈ requests)
    (hfingerprint : request.fingerprint s.files hash = .ok fingerprint) :
    Makes hash table requests fingerprint request s.files := ⟨hmem, h.told, hfingerprint⟩

theorem leave_forget (persists : Bool) (generated : Option Generated) :
    ((s.forget worker key requestFile persists).leave directory generated).remember worker key (some fingerprint) =
      { (s.leave directory generated).remember worker key (some fingerprint) with
        persisted := (s.forget worker key requestFile persists).persisted } := by
  simp [State.forget, State.leave, State.remember]

variable {answer : Answer} {act : Act}

theorem Sound.stands_of_persisted {file : PathBuf} (h : Sound hash processing table requests s)
    (hhash : Function.Injective hash) (hseparated : Separated requests)
    (hmakes : Makes hash table requests fingerprint request s.files)
    (hpersisted : s.persisted file = some fingerprint)
    (hdirectory : (s.outputs request.generatedDirectory).isSome) :
    Stands hash processing table requests s fingerprint := by
  intro other files hother
  obtain ⟨rfl, -⟩ := hother.unique hhash hseparated hmakes
  obtain ⟨generated, hgenerated, hnone | hthere⟩ := h.persisted _ _ _ _ hpersisted hother
  · rw [hnone] at hdirectory
    cases hdirectory
  · exact ⟨generated, hgenerated, hthere⟩

theorem hit_of_stands (h : Stands hash processing table requests s fingerprint)
    (hmakes : Makes hash table requests fingerprint request s.files) :
    s.outputs request.generatedDirectory = s.wouldLeave processing request := by
  obtain ⟨generated, hgenerated, hthere⟩ := h request s.files hmakes
  rw [State.wouldLeave, hgenerated, hthere]

theorem Sound.send (h : Sound hash processing table requests s) (hhash : Function.Injective hash)
    (hseparated : Separated requests) (hmakes : Makes hash table requests fingerprint request s.files)
    (hkeeps : SendKeeps hash processing s worker key request requestFile fingerprint answer) :
    Sound hash processing table requests
      (s.send processing worker key request requestFile fingerprint answer).1 := by
  have hsame {other : ProcessorRequest} {files : FileSystem}
      (hother : Makes hash table requests fingerprint other files) :
      processing other (other.inputs files) = processing request (request.inputs s.files) ∧
        other.generatedDirectory = request.generatedDirectory := by
    obtain ⟨rfl, hinputs⟩ := hother.unique hhash hseparated hmakes
    exact ⟨by rw [hinputs], rfl⟩
  cases answer with
  | unsent => exact h
  | breaks left reply =>
    have hleft := h.leave hkeeps.1 (by simp)
    cases reply with
    | none => exact hleft
    | some reply =>
      refine hleft.persistFailed ?_
      intro other files hother
      have hfails := hkeeps.2 rfl
      rw [← (hsame hother).1] at hfails
      cases hresult : processing other (other.inputs files) with
      | error message => exact ⟨message, rfl⟩
      | ok generated =>
        rw [hresult] at hfails
        cases hfails
  | completes persists =>
    unfold State.send
    cases hresult : processing request (request.inputs s.files) with
    | error message =>
      refine h.persistFailed ?_
      intro other files hother
      exact ⟨message, by rw [(hsame hother).1, hresult]⟩
    | ok generated =>
      have hmakesOwn : ∀ other files, Makes hash table requests fingerprint other files →
          ∃ generated', processing other (other.inputs files) = .ok generated' ∧
            other.generatedDirectory = request.generatedDirectory ∧ some generated = some generated' :=
        fun other files hother => ⟨generated, by rw [(hsame hother).1, hresult], (hsame hother).2, rfl⟩
      have hleft := (h.forget persists).leave (hkeeps generated hresult)
        (fun known hknown other files hother => hmakesOwn other files (Option.some.inj hknown ▸ hother))
      have hstands : Stands hash processing table requests
          ((s.forget worker key requestFile persists).leave request.generatedDirectory (some generated))
          fingerprint := by
        intro other files hother
        refine ⟨generated, by rw [(hsame hother).1, hresult], ?_⟩
        show Function.update s.outputs _ _ _ = _
        rw [(hsame hother).2, Function.update_self]
      have hremembered : Sound hash processing table requests (State.remember _ worker key (some fingerprint)) :=
        hleft.remember fun known hknown => Option.some.inj hknown ▸ hstands
      rw [leave_forget] at hremembered
      cases persists with
      | false => exact hremembered
      | true =>
        have hpersisted : Sound hash processing table requests (State.persist _ requestFile fingerprint) :=
          hremembered.persist hstands
        simpa [State.forget, State.persist, State.leave, State.remember] using hpersisted

theorem snd_send_ne (fingerprint : Fingerprint) :
    (s.send processing worker key request requestFile fingerprint answer).2 ≠ .ok true := by
  cases answer with
  | unsent => simp [State.send]
  | breaks left reply => cases reply <;> simp [State.send]
  | completes persists =>
    simp only [State.send]
    split
    · simp
    · cases persists <;> simp

variable [DecidableEq Fingerprint]

theorem Sound.stands_of_isKnown (h : Sound hash processing table requests s)
    (hhash : Function.Injective hash) (hseparated : Separated requests)
    (hmakes : Makes hash table requests fingerprint request s.files)
    (hknown : s.isKnown worker key request requestFile fingerprint) :
    Stands hash processing table requests s fingerprint := by
  simp only [State.isKnown, Bool.or_eq_true, Bool.and_eq_true, decide_eq_true_eq] at hknown
  rcases hknown with hmemory | ⟨hpersisted, hdirectory⟩
  · exact fun other files hother => h.memory worker key fingerprint other files hmemory hother
  · exact h.stands_of_persisted hhash hseparated hmakes hpersisted hdirectory

/-- **What a step keeps of the records and the generated sources.** -/
theorem Sound.next (h : Sound hash processing table requests s) (hhash : Function.Injective hash)
    (hseparated : Separated requests) (hmem : ∀ request, act.request? = some request → request ∈ requests)
    (hfiles : ∀ files, act.files? = some files → FilesTold table files)
    (hkeeps : KeepsRecords hash processing table requests s act) :
    Sound hash processing table requests (s.next hash processing act) := by
  cases act with
  | edit files => exact h.edit ⟨hfiles files rfl, hkeeps⟩
  | delete directory => exact h.leave hkeeps (by simp)
  | restart worker => exact h.restart
  | persistentCacheHit request requestFile => exact h
  | process worker key request requestFile answer =>
    simp only [State.next, State.process]
    split
    · exact h
    · next fingerprint hfingerprint =>
      have hmakes := Makes.current h (hmem request rfl) hfingerprint
      split
      · next hknown =>
        exact h.remember fun known hsame =>
          Option.some.inj hsame ▸ h.stands_of_isKnown hhash hseparated hmakes hknown
      · next hknown => exact h.send hhash hseparated hmakes (hkeeps fingerprint hfingerprint hknown)

theorem toOption_eq_some {result : Except String Bool} (h : result.toOption = some true) : result = .ok true := by
  cases result with
  | error error => cases h
  | ok value => exact congrArg _ (Option.some.inj h)

theorem Sound.hit (h : Sound hash processing table requests s) (hhash : Function.Injective hash)
    (hseparated : Separated requests) (hmem : ∀ request, act.request? = some request → request ∈ requests)
    (hhit : s.hit hash processing act = some request) :
    s.outputs request.generatedDirectory = s.wouldLeave processing request := by
  cases act with
  | process worker key request' requestFile answer =>
    simp only [State.hit, Option.ite_none_right_eq_some] at hhit
    obtain ⟨hresult, hrequest⟩ := hhit
    obtain rfl := Option.some.inj hrequest
    have hok := toOption_eq_some hresult
    unfold State.process at hok
    split at hok
    · cases hok
    · next fingerprint hfingerprint =>
      have hmakes := Makes.current h (hmem _ rfl) hfingerprint
      split at hok
      · next hknown => exact hit_of_stands (h.stands_of_isKnown hhash hseparated hmakes hknown) hmakes
      · exact absurd hok (snd_send_ne fingerprint)
  | persistentCacheHit request' requestFile =>
    simp only [State.hit, Option.ite_none_right_eq_some] at hhit
    obtain ⟨hresult, hrequest⟩ := hhit
    obtain rfl := Option.some.inj hrequest
    obtain ⟨fingerprint, hfingerprint, hknown⟩ := Fallible.map_eq_ok.mp (toOption_eq_some hresult)
    have hmakes := Makes.current h (hmem _ rfl) hfingerprint
    simp only [Bool.or_eq_true, Bool.and_eq_true, decide_eq_true_eq] at hknown
    rcases hknown with ⟨hpersisted, hdirectory⟩ | hfailed
    · exact hit_of_stands (h.stands_of_persisted hhash hseparated hmakes hpersisted hdirectory) hmakes
    · obtain ⟨message, hmessage⟩ := h.failed _ _ _ _ hfailed hmakes
      rw [State.wouldLeave, hmessage]
  | _ => cases hhit

end Records

-- Runs
-- ---

section Runs

variable {Fingerprint : Type}

theorem sound_start {hash : List Hashed → Fingerprint} {processing : Processing} {table : Table}
    {requests : List ProcessorRequest} {files : FileSystem} (htold : Told table requests files) :
    Sound hash processing table requests (.start files) := by
  refine ⟨htold, ?_, ?_, ?_⟩
  · intro worker key fingerprint request files hknown
    cases hknown
  · intro file fingerprint request files hknown
    cases hknown
  · intro file fingerprint request files hknown
    cases hknown

/-- **Hits are right** in every run in which edits show in the directories that requests
name, no two requests differ only in where their lists end, and nothing contradicts a
record of generated sources; and those requests alone are hashed alike. -/
theorem hits_are_right [DecidableEq Fingerprint] (hash : List Hashed → Fingerprint) (hhash : Function.Injective hash)
    (processing : Processing) (table : Table) (files : FileSystem) (acts : List Act)
    (hedits : ∀ edited ∈ files :: acts.filterMap Act.files?, FilesTold table edited)
    (hdirectories : DirectoriesTold table (requestsOf acts) files) (hseparated : Separated (requestsOf acts))
    (h : Loop.Guarded (KeepsRecords hash processing table (requestsOf acts)) (State.next hash processing)
      (.start files) acts) :
    (∀ before act after request, acts = before ++ act :: after →
      (run hash processing files before).hit hash processing act = some request →
      (run hash processing files before).outputs request.generatedDirectory =
        (run hash processing files before).wouldLeave processing request) ∧
    ∀ (files : FileSystem) (request other : ProcessorRequest) (hashed hashed' : List Hashed),
      request.preimage files = .ok hashed → other.preimage files = .ok hashed' →
        (hashed = hashed' ↔ SameButForSplits request other) := by
  refine ⟨?_, fun files request other hashed hashed' hhashed hhashed' => preimage_eq_iff hhashed hhashed'⟩
  intro before act after request hacts hhit
  have hmem {act : Act} (hact : act ∈ acts) (request : ProcessorRequest) (hrequest : act.request? = some request) :
      request ∈ requestsOf acts := List.mem_filterMap.mpr ⟨act, hact, hrequest⟩
  have hfiles {act : Act} (hact : act ∈ acts) (edited : FileSystem) (hedited : act.files? = some edited) :
      FilesTold table edited :=
    hedits edited (List.mem_cons_of_mem _ (List.mem_filterMap.mpr ⟨act, hact, hedited⟩))
  have hbefore : ∀ act ∈ before, act ∈ acts := fun act hact => hacts ▸ List.mem_append_left _ hact
  have hact : act ∈ acts := hacts ▸ List.mem_append_right _ List.mem_cons_self
  have hguarded : Loop.Guarded (KeepsRecords hash processing table (requestsOf acts))
      (State.next hash processing) (.start files) before := by
    rw [hacts] at h ⊢
    exact h.of_append
  have hsound : Sound hash processing table (requestsOf acts) (run hash processing files before) :=
    hguarded.invariant (Sound hash processing table (requestsOf acts))
      (fun s act hact hsound hkeeps => hsound.next hhash hseparated (hmem (hbefore act hact))
        (hfiles (hbefore act hact)) hkeeps)
      (sound_start ⟨hedits files List.mem_cons_self, hdirectories⟩)
  exact hsound.hit hhash hseparated (hmem hact) hhit

end Runs

def runtimeOnly : FileSystem := fun path => if path = ["jdk", "bin", "java"] then some (.file [] none) else none

def requestOf (sources processorPath : List PathBuf) : ProcessorRequest :=
  ⟨["jdk", "bin", "java"], sources, [], [], processorPath, [], 25, ["generated"], ["classes"]⟩

def runtimeTable : Table := fun path _ _ => (runtimeOnly path).bind Node.contents

def noSources : Processing := fun _ _ => .ok []

def processOnce : Act := .process 0 "main" (requestOf [] []) ["request.properties"] (.completes true)

/-- The second of two runs of the processors is a hit. -/
theorem hits_are_right_twice :
    (run id noSources runtimeOnly [processOnce]).hit id noSources processOnce = some (requestOf [] []) ∧
      (run id noSources runtimeOnly [processOnce]).outputs ["generated"] =
        (run id noSources runtimeOnly [processOnce]).wouldLeave noSources (requestOf [] []) := by
  have hhit : (run id noSources runtimeOnly [processOnce]).hit id noSources processOnce =
      some (requestOf [] []) := by decide
  have hfiles : FilesTold runtimeTable runtimeOnly := by
    intro path content modified hfile
    rw [runtimeTable, hfile]
    rfl
  have hdirectories : DirectoriesTold runtimeTable
      (requestsOf [processOnce, processOnce]) runtimeOnly := by
    intro request _ path _ length modified content hfile
    rw [runtimeTable, hfile]
    rfl
  have hguarded : Loop.Guarded (KeepsRecords id noSources runtimeTable (requestsOf [processOnce, processOnce]))
      (State.next id noSources) (.start runtimeOnly) [processOnce, processOnce] := by
    refine ⟨?_, ?_, trivial⟩
    · -- there are no records yet
      intro fingerprint _ _ generated _
      exact ⟨fun worker key known hknown => by simp [State.forget, State.remember, State.start] at hknown,
        fun file known hknown => by simp [State.forget, State.start] at hknown⟩
    · intro fingerprint hfingerprint hunknown
      have hknown : ∀ known, (requestOf [] []).fingerprint runtimeOnly id = .ok known →
          (run id noSources runtimeOnly [processOnce]).isKnown 0 "main" (requestOf [] []) ["request.properties"]
            known := by
        rintro known ⟨⟩
        decide
      exact absurd (hknown fingerprint hfingerprint) hunknown
  refine ⟨hhit, ?_⟩
  exact (hits_are_right id Function.injective_id noSources runtimeTable runtimeOnly [processOnce, processOnce]
    (by simpa [processOnce, Act.files?] using hfiles) hdirectories
    (by simp [Separated, requestsOf, processOnce, Act.request?]) hguarded).1 [processOnce] processOnce []
    (requestOf [] []) rfl hhit

/-- **A hit without a directory**: the fingerprint in memory is trusted after the generated
sources are deleted. And two requests that differ in where the sources end and the
processor path begins are hashed alike. -/
theorem hit_without_directory :
    let s := run id noSources runtimeOnly [processOnce, .delete ["generated"]]
    (s.hit id noSources processOnce = some (requestOf [] []) ∧ s.outputs ["generated"] = none ∧
        s.wouldLeave noSources (requestOf [] []) = some []) ∧
      requestOf [["jdk", "bin", "java"]] [] ≠ requestOf [] [["jdk", "bin", "java"]] ∧
      ((requestOf [["jdk", "bin", "java"]] []).preimage runtimeOnly).toOption =
        ((requestOf [] [["jdk", "bin", "java"]]).preimage runtimeOnly).toOption ∧
      ((requestOf [["jdk", "bin", "java"]] []).preimage runtimeOnly).toOption.isSome := by
  refine ⟨⟨by decide, by decide, by decide⟩, by decide, by decide, by decide⟩

end JMan.Lsp.Processors
