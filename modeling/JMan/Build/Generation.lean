import JMan.Build.Compile
import JMan.Build.Keys

/-!
# JMan — running one generator

`run_generator` of `jman-build/src/lib.rs` over the files it keeps for a generator:
the published outputs, the recorded state, and what it prepares the two in. The
process of the generator is a parameter, and writes to the output directories it
is given only.

A recorded state is always the one some run was to record
(`Genuine`, `genuine_step`). A run that fails before it has published leaves the
published outputs, unless their backup cannot be moved back
(`kept_iff`).
-/

namespace JMan.Build

open JMan.Config
open Encoding (Bytes Distinguishes Fits utf8 parts paired)
open FileStore (Operation Access Outcome World Avoids LeftBy Only Within exec act attempt lookFails)
open OsText (OsString OsPath)
open Paths (Path)
open Relation (ReflTransGen)

-- Output directories
-- ---

/-- What is under a name of a directory: a directory with the files below it, or
with the symbolic link that is found there first. -/
inductive OutputEntry where
  | directory (files : Except OsPath (List (OsString × Bytes)))
  | file
  | link
deriving DecidableEq

def OutputEntry.isDirectory : OutputEntry → Bool
  | .directory _ => true
  | _ => false

abbrev OutputTree := BTreeMap OutputEntry

structure GeneratorCacheRecord where
  key : String
  outputs : BTreeMap String
deriving DecidableEq

structure GeneratorResult where
  module : String
  generator : String
  inputs : Nat
  outputs : Nat
  cached : Bool
deriving DecidableEq

/-- What is fixed of `serde_json` and SHA-256: a record that was written is read. -/
structure Codec where
  serialize : Generator → Except String Bytes
  sha256 : Bytes → String
  toVecPretty : GeneratorCacheRecord → Except String String
  fromSlice : String → Option GeneratorCacheRecord
  reads : ∀ record text, toVecPretty record = .ok text → fromSlice text = some record

def ofExcept {β α : Type} : Except BuildError α → Action β α
  | .ok a => .done a
  | .error e => .fail e

/-- `input_files(root)` of an entry that is or has a symbolic link. -/
def symbolicLink (shownPath : String) : BuildError :=
  .invalid ("symbolic links are not allowed in build inputs: " ++ shownPath)

section Trees

variable (codec : Codec) (root : Path)

/-- The files `input_files` finds under an entry of the directory. -/
def entryFiles (name : String) : Option OutputEntry → Except BuildError (List (OsString × Bytes))
  | some (.directory (.ok files)) => .ok files
  | some (.directory (.error found)) => .error (symbolicLink found.absolute.toStringLossy)
  | some .link => .error (symbolicLink (Paths.display (root ++ [name])))
  | _ => .ok []

/-- `tree_digest(&root.join(name))` -/
def treeDigest (name : String) (entry : Option OutputEntry) : Except BuildError String := do
  let files ← entryFiles root name entry
  return "sha256:" ++ codec.sha256 (parts (paired (files.map fun file => (shown file.1, file.2))))

/-- The files of a directory, those in it and those below its entries. -/
def countFiles (entries : OutputTree) : Except BuildError Nat :=
  entries.toList.foldlM (fun count entry =>
    match entry.2 with
    | .file => .ok (count + 1)
    | other => do
      let files ← entryFiles root entry.1 (some other)
      return count + files.length) 0

/-- `root.join(name).is_dir()` -/
def isOutputDirectory (name : String) : Action (Stored OutputTree) Bool :=
  .perform (.look root) fun report => .done (match report with
    | some (some (.tree entries)) => entries[name]?.any OutputEntry.isDirectory
    | _ => false)

/-- `read_dir(root)` -/
def readDirectory : Action (Stored OutputTree) OutputTree :=
  .perform (.read root) fun
    | some (some (.tree entries)) => .done entries
    | _ => .fail (ioError root)

/-- What is under a name, for `tree_digest`. -/
def readOutput (name : String) : Action (Stored OutputTree) (Option OutputEntry) :=
  .perform (.read root) fun
    | some (some (.tree entries)) => .done entries[name]?
    | some _ => .done none
    | none => .fail (ioError (root ++ [name]))

def digestsMatch : List (String × String) → Action (Stored OutputTree) Bool
  | [] => pure true
  | (name, expected) :: rest => do
    if ← isOutputDirectory root name then
      let entry ← readOutput root name
      let digest ← ofExcept (treeDigest codec root name entry)
      if digest = expected then digestsMatch rest else return false
    else return false

def generatorOutputsMatch (record : GeneratorCacheRecord) : Action (Stored OutputTree) Bool := do
  if ← isDirectory root then
    let entries ← readDirectory root
    if entries.toList.all (·.2.isDirectory) ∧ entries.keys = record.outputs.keys then
      digestsMatch codec root record.outputs.toList
    else return false
  else return false

def outputFileCount : Action (Stored OutputTree) Nat :=
  .perform (.read root) fun
    | some (some (.tree entries)) => ofExcept (countFiles root entries)
    | some _ => .done 0
    | none => .fail (ioError root)

end Trees

-- A run
-- ---

/-- A run of a generator of a module, with what it finds and what its process does:
the status and output it fails with, or what it leaves in the output directories.
The files are read for the key before the process and after it. -/
structure GeneratorTask where
  directory : Path
  module : String
  generators : Option (BTreeMap Generator)
  workspaceRoot : Path
  name : String
  generator : Generator
  rebuild : Bool
  pid : String
  sequence : String
  inputs : Except BuildError (List OsPath)
  workingDirectory : Except BuildError OsPath
  javaHome : Except BuildError OsString
  searchPath : Except BuildError OsString
  inherited : String → Option OsString
  executable : BTreeMap OsString → Except BuildError OsPath
  before : OsPath → Except String Bytes
  after : OsPath → Except String Bytes
  process : List OsString → Except (String × String) OutputTree

structure Prepared where
  inputs : List OsPath
  javaHome : OsString
  searchPath : OsString
  environment : BTreeMap OsString
  executable : OsPath
  key : String

namespace GeneratorTask

variable (codec : Codec) (task : GeneratorTask)

def stateDirectory : Path := task.directory ++ [".jman", "generator-state"]

def lockPath : Path := task.directory ++ [".jman", "generator-state", task.name ++ ".lock"]

def statePath : Path := task.directory ++ [".jman", "generator-state", task.name ++ ".json"]

def generatedRoot : Path := task.directory ++ [".jman", "generated"]

def finalRoot : Path := task.directory ++ [".jman", "generated", task.name]

/-- `{name}.tmp.{pid}.{sequence}`, after a dot. -/
def temporaryName : String :=
  "." ++ (task.name ++ ".tmp." ++ task.pid ++ "." ++ task.sequence)

def temporaryRoot : Path := task.directory ++ [".jman", "generated", task.temporaryName]

def temporaryState : Path :=
  task.directory ++ [".jman", "generator-state", task.temporaryName ++ ".json"]

/-- What `generator_key` is given. -/
def invocation (inputs : List OsPath) (executable : OsPath) (environment : BTreeMap OsString) :
    GeneratorInvocation where
  directory := task.directory.map .ofString
  name := task.name
  generator := task.generator
  inputs := inputs
  executable := executable
  environment := environment

/-- What a run does before it looks at the recorded state. -/
def prepare : Except BuildError Prepared := do
  let inputs ← task.inputs
  if inputs.isEmpty ∧ ¬ task.generator.allowEmptyInputs then
    throw (.invalid ("generator `" ++ task.name ++ "` in module " ++ task.module ++
      " matched no inputs"))
  let _ ← task.workingDirectory
  let javaHome ← task.javaHome
  let searchPath ← task.searchPath
  let environment := generatorEnvironment task.generator (osPath task.workspaceRoot)
    (osPath task.directory) task.name javaHome searchPath task.inherited
  let executable ← task.executable environment
  let key ← generatorKey codec.serialize codec.sha256 task.before
    (task.invocation inputs executable environment)
  return ⟨inputs, javaHome, searchPath, environment, executable, key⟩

def verifiedKey (prepared : Prepared) : Except BuildError String :=
  generatorKey codec.serialize codec.sha256 task.after
    (task.invocation prepared.inputs prepared.executable prepared.environment)

def recordedState : Action (Stored OutputTree) (Option GeneratorCacheRecord) :=
  .perform (.read task.statePath) fun report =>
    .done (((report.bind id).bind Stored.text?).bind codec.fromSlice)

def isCached (key : String) : Action (Stored OutputTree) Bool := do
  if task.rebuild then return false
  match ← task.recordedState codec with
  | none => return false
  | some record =>
    if record.key = key then generatorOutputsMatch codec task.finalRoot record else return false

def createOutput (made : OutputTree) (output : String) : Action (Stored OutputTree) OutputTree := do
  let made := made.insert output (.directory (.ok []))
  act (ioError (task.temporaryRoot ++ [output])) (.write task.temporaryRoot (.tree made))
  return made

def expansionOf (prepared : Prepared) (generators : BTreeMap Generator) :
    Except BuildError GeneratorExpansion :=
  generatorExpansion task.generator generators
    { workspaceRoot := task.workspaceRoot
      directory := task.directory
      temporaryRoot := task.temporaryRoot
      name := task.name
      javaHome := prepared.javaHome
      searchPath := prepared.searchPath
      inputs := prepared.inputs.map OsPath.absolute
      inherited := task.inherited }

def argumentsOf (expansion : GeneratorExpansion) : Except BuildError (List OsString) := do
  let arguments ← (task.generator.command.tail ++ task.generator.arguments).mapM fun template =>
    expandGeneratorTemplate template expansion
  return arguments.flatten

/-- `output_hashes.insert(..)` -/
def hashOutput (digests : BTreeMap String) (output : String) :
    Action (Stored OutputTree) (BTreeMap String) := do
  let entry ← readOutput task.temporaryRoot output
  let digest ← ofExcept (treeDigest codec task.temporaryRoot output entry)
  return digests.insert output digest

/-- The block `generation`. -/
def generation (prepared : Prepared) (expansion : GeneratorExpansion) :
    Action (Stored OutputTree) (BTreeMap String) := do
  let _ ← task.generator.outputs.keys.foldlM task.createOutput ∅
  let arguments ← ofExcept (task.argumentsOf expansion)
  match task.process arguments with
  | .error (status, details) =>
    throw (.invalid ("generator `" ++ task.name ++ "` failed with " ++ status ++
      if details = "" then "" else "\n" ++ details))
  | .ok produced =>
    act (.invalid ("could not execute generator `" ++ task.name ++ "` with " ++
        prepared.executable.absolute.toStringLossy ++ ": input/output error"))
      (.write task.temporaryRoot (.tree produced))
  task.generator.outputs.keys.foldlM (task.hashOutput codec) ∅

/-- `let _ = fs::remove_dir_all(&temporary_root)`, after an error. -/
def orClear {α : Type} (x : Action (Stored OutputTree) α) : Action (Stored OutputTree) α :=
  tryCatch x fun e => do
    attempt (.clear task.temporaryRoot)
    throw e

/-- So, and `let _ = fs::remove_file(&temporary_state)`. -/
def orRemove (x : Action (Stored OutputTree) Unit) : Action (Stored OutputTree) Unit :=
  tryCatch x fun e => do
    attempt (.clear task.temporaryRoot)
    attempt (.remove task.temporaryState)
    throw e

/-- The outputs are generated and their state is written, beside the published ones. -/
def generate (prepared : Prepared) : Action (Stored OutputTree) Unit := do
  act (ioError task.generatedRoot) .step
  whenThere task.temporaryRoot (.clear task.temporaryRoot)
  let generators ← ofExcept (match task.generators with
    | some generators => .ok generators
    | none => .error (.invalid "generator build configuration is missing"))
  let expansion ← ofExcept (task.expansionOf prepared generators)
  let outputs ← task.orClear (task.generation codec prepared expansion)
  let verified ← task.orClear (ofExcept (task.verifiedKey codec prepared))
  if verified ≠ prepared.key then
    task.orClear (throw (.invalid ("generator `" ++ task.name ++
      "` inputs changed while it was running; retry the build")))
  let text ← task.orClear (ofExcept ((codec.toVecPretty ⟨prepared.key, outputs⟩).mapError
    fun error => .invalid ("could not serialize generator state: " ++ error)))
  task.orRemove (act (ioError task.temporaryState) (.write task.temporaryState (.text text)))

/-- The outputs and their state are moved to their places. -/
def publish : Action (Stored OutputTree) Unit := do
  task.orRemove (replaceDirectory task.pid task.temporaryRoot task.finalRoot)
  tryCatch (replaceFile task.pid task.temporaryState task.statePath) fun e => do
    attempt (.remove task.temporaryState)
    throw e

/-- What a run does until it knows whether it has to generate. -/
def start : Action (Stored OutputTree) (Prepared × Bool) := do
  act (ioError task.stateDirectory) .step
  act (ioError task.lockPath) .step
  let prepared ← ofExcept (task.prepare codec)
  let cached ← task.isCached codec prepared.key
  return (prepared, cached)

end GeneratorTask

def runGenerator (codec : Codec) (task : GeneratorTask) :
    Action (Stored OutputTree) GeneratorResult := do
  let (prepared, cached) ← task.start codec
  if cached then
    let outputs ← outputFileCount task.finalRoot
    return ⟨task.module, task.name, prepared.inputs.length, outputs, true⟩
  else
    task.generate codec prepared
    task.publish
    let outputs ← outputFileCount task.finalRoot
    return ⟨task.module, task.name, prepared.inputs.length, outputs, false⟩

-- The paths of a generator
-- ---

/-- Where a state is recorded, and where a replacement may have moved one. -/
def recordPaths (directory : Path) (name : String) : Set Path :=
  {p | p = directory ++ [".jman", "generator-state", name ++ ".json"] ∨
    ∃ pid, p = backupOf pid (directory ++ [".jman", "generator-state", name ++ ".json"])}

section Paths

variable {directory : Path} {name : String} {pid : String}

theorem head_of_nameChars (h : name ≠ "" ∧ name.toList.all isNameChar = true) :
    ∃ first, name.toList.head? = some first ∧ first ≠ '.' := by
  obtain ⟨hne, hall⟩ := h
  cases hchars : name.toList with
  | nil => exact absurd (String.toList_eq_nil_iff.mp hchars) hne
  | cons first rest =>
    refine ⟨first, rfl, ?_⟩
    rintro rfl
    rw [hchars, List.all_cons] at hall
    exact absurd (Bool.and_eq_true_iff.mp hall).1 (by decide)

theorem recordPaths_head (h : name ≠ "" ∧ name.toList.all isNameChar = true) {p : Path}
    (hp : p ∈ recordPaths directory name) : ∃ component first,
      p = directory ++ [".jman", "generator-state", component] ∧
        component.toList.head? = some first ∧ first ≠ '.' := by
  obtain ⟨first, hhead, hfirst⟩ := head_of_nameChars h
  have hjson : (name ++ ".json").toList.head? = some first := by
    rw [String.toList_append, List.head?_append, hhead]
    rfl
  rcases hp with rfl | ⟨pid, rfl⟩
  · exact ⟨_, first, rfl, hjson, hfirst⟩
  · obtain ⟨component, hpath, hcomponent⟩ := Paths.exists_withExtension
      (directory ++ [".jman", "generator-state"]) hjson hfirst ("old." ++ pid)
    refine ⟨component, first, ?_, hcomponent, hfirst⟩
    rw [List.append_assoc, List.append_assoc] at hpath
    exact hpath

theorem generated_notMem (h : name ≠ "" ∧ name.toList.all isNameChar = true) (component : String) :
    directory ++ [".jman", "generated", component] ∉ recordPaths directory name := by
  intro hp
  obtain ⟨_, _, hpath, -⟩ := recordPaths_head h hp
  have hcomponents := List.append_cancel_left hpath
  rw [List.cons.injEq, List.cons.injEq] at hcomponents
  exact absurd hcomponents.2.1 (by decide)

theorem hidden_notMem (h : name ≠ "" ∧ name.toList.all isNameChar = true) {component : String}
    (hidden : component.toList.head? = some '.') :
    directory ++ [".jman", "generator-state", component] ∉ recordPaths directory name := by
  intro hp
  obtain ⟨_, first, hpath, hhead, hfirst⟩ := recordPaths_head h hp
  have hcomponents := List.append_cancel_left hpath
  rw [List.cons.injEq, List.cons.injEq, List.cons.injEq] at hcomponents
  rw [← hcomponents.2.2.1, hidden] at hhead
  exact hfirst (Option.some.inj hhead).symm

end Paths

section TaskPaths

variable {task : GeneratorTask}

theorem head_temporaryName (task : GeneratorTask) :
    task.temporaryName.toList.head? = some '.' := by
  rw [GeneratorTask.temporaryName, String.toList_append]
  rfl

theorem temporaryState_notMem (h : task.name ≠ "" ∧ task.name.toList.all isNameChar = true) :
    task.temporaryState ∉ recordPaths task.directory task.name := by
  refine hidden_notMem h ?_
  rw [String.toList_append, List.head?_append, head_temporaryName]
  rfl

theorem publishedPaths_head (h : task.name ≠ "" ∧ task.name.toList.all isNameChar = true)
    {p : Path} (hp : p = task.finalRoot ∨ p = backupOf task.pid task.finalRoot) :
    ∃ component first, p = task.directory ++ [".jman", "generated", component] ∧
      component.toList.head? = some first ∧ first ≠ '.' := by
  obtain ⟨first, hhead, hfirst⟩ := head_of_nameChars h
  rcases hp with rfl | rfl
  · exact ⟨_, first, rfl, hhead, hfirst⟩
  · obtain ⟨component, hpath, hcomponent⟩ := Paths.exists_withExtension
      (task.directory ++ [".jman", "generated"]) hhead hfirst ("old." ++ task.pid)
    refine ⟨component, first, ?_, hcomponent, hfirst⟩
    rw [List.append_assoc, List.append_assoc] at hpath
    exact hpath

theorem temporaryRoot_ne (h : task.name ≠ "" ∧ task.name.toList.all isNameChar = true) {p : Path}
    (hp : p = task.finalRoot ∨ p = backupOf task.pid task.finalRoot) : task.temporaryRoot ≠ p := by
  intro heq
  obtain ⟨_, first, hpath, hhead, hfirst⟩ := publishedPaths_head h hp
  have hcomponents := List.append_cancel_left (heq.trans hpath)
  rw [List.cons.injEq, List.cons.injEq, List.cons.injEq] at hcomponents
  rw [← hcomponents.2.2.1, head_temporaryName] at hhead
  exact hfirst (Option.some.inj hhead).symm

theorem finalRoot_ne_nil : task.finalRoot ≠ [] :=
  List.append_ne_nil_of_right_ne_nil _ (List.cons_ne_nil _ _)

def GeneratorTask.outputPaths (task : GeneratorTask) : Set Path :=
  {task.temporaryRoot, task.finalRoot, backupOf task.pid task.finalRoot}

theorem outputPaths_disjoint (h : task.name ≠ "" ∧ task.name.toList.all isNameChar = true) {p : Path}
    (hp : p ∈ task.outputPaths) : p ∉ recordPaths task.directory task.name := by
  rcases hp with rfl | hp
  · exact generated_notMem h _
  · obtain ⟨component, -, rfl, -⟩ := publishedPaths_head h hp
    exact generated_notMem h component

theorem temporaryState_notMem_outputPaths
    (h : task.name ≠ "" ∧ task.name.toList.all isNameChar = true) :
    task.temporaryState ∉ task.outputPaths := by
  have hstate : ∀ component, task.temporaryState ≠
      task.directory ++ [".jman", "generated", component] := by
    intro component heq
    have hcomponents := List.append_cancel_left heq
    rw [List.cons.injEq, List.cons.injEq] at hcomponents
    exact absurd hcomponents.2.1 (by decide)
  rintro (heq | hp)
  · exact hstate _ heq
  · obtain ⟨component, -, hpath, -⟩ := publishedPaths_head h hp
    exact hstate component hpath

theorem statePath_mem (task : GeneratorTask) :
    task.statePath ∈ recordPaths task.directory task.name := Or.inl rfl

end TaskPaths

-- What is found recorded
-- ---

/-- What is in a directory of outputs is what was recorded. -/
structure Matches (codec : Codec) (root : Path) (entries : OutputTree)
    (record : GeneratorCacheRecord) : Prop where
  names : entries.keys = record.outputs.keys
  digests : ∀ name expected, (name, expected) ∈ record.outputs.toList →
    treeDigest codec root name entries[name]? = .ok expected

section Cached

variable {codec : Codec} {root : Path} {task : GeneratorTask} {record : GeneratorCacheRecord}
  {entries : OutputTree} {w w' : World Path (Stored OutputTree)}

theorem within_ofExcept {α β : Type} (S : Set Path) (result : Except BuildError α) :
    Within S (ofExcept result : Action β α) := by
  cases result <;> trivial

theorem exec_ofExcept_eq_ok {α β : Type} {result : Except BuildError α} {a : α} {w w' : World Path β}
    (h : exec (ofExcept result : Action β α) w = (.ok a, w')) :
    result = .ok a ∧ w' = w := by
  cases result with
  | ok b =>
    cases h
    exact ⟨rfl, rfl⟩
  | error e => cases h

theorem within_reads {S : Set Path} {path : Path} :
    (∀ p, Access.changes p ∈ (Operation.read path : Operation Path (Stored OutputTree)).accesses →
      p ∈ S) ∧
    ∀ p, Access.changes p ∈ (Operation.look path : Operation Path (Stored OutputTree)).accesses →
      p ∈ S := by
  constructor <;> intro p hp <;> simp [Operation.accesses] at hp

theorem within_readOutput (S : Set Path) (name : String) :
    Within S (readOutput root name) := by
  refine ⟨within_reads.1, fun report => ?_⟩
  rcases report with _ | _ | (_ | _) <;> trivial

theorem within_digestsMatch (S : Set Path) (outputs : List (String × String)) :
    Within S (digestsMatch codec root outputs) := by
  induction outputs with
  | nil => trivial
  | cons output rest ih =>
    refine .bind ⟨within_reads.2, fun _ => trivial⟩ fun there => ?_
    cases there
    · trivial
    refine .bind (within_readOutput S _) fun entry => .bind (within_ofExcept S _) fun digest => ?_
    split
    · exact ih
    · trivial

theorem within_generatorOutputsMatch (S : Set Path) :
    Within S (generatorOutputsMatch codec root record) := by
  refine .bind ⟨within_reads.2, fun _ => trivial⟩ fun there => ?_
  cases there
  · trivial
  refine .bind ⟨within_reads.1, fun report => ?_⟩ fun entries => ?_
  · rcases report with _ | _ | (_ | _) <;> trivial
  · split
    · exact within_digestsMatch S _
    · trivial

theorem within_outputFileCount (S : Set Path) : Within S (outputFileCount root) := by
  refine ⟨within_reads.1, fun report => ?_⟩
  rcases report with _ | _ | (_ | _)
  · trivial
  · trivial
  · exact within_ofExcept S _
  · trivial

theorem within_isCached (S : Set Path) (key : String) : Within S (task.isCached codec key) := by
  unfold GeneratorTask.isCached
  split
  · trivial
  refine .bind ⟨within_reads.1, fun _ => trivial⟩ fun recorded => ?_
  cases recorded with
  | none => trivial
  | some record =>
    show Within S (if record.key = key then _ else _)
    split
    · exact within_generatorOutputsMatch S
    · trivial

theorem within_start (S : Set Path) : Within S (task.start codec) := by
  have hstep : ∀ p, Access.changes p ∈
      (Operation.step : Operation Path (Stored OutputTree)).accesses → p ∈ S := fun p hp => by
    simp [Operation.accesses] at hp
  exact .bind (.act hstep) fun _ => .bind (.act hstep) fun _ => .bind (within_ofExcept S _)
    fun prepared => .bind (within_isCached S _) fun _ => trivial

theorem exec_readOutput_eq_ok {name : String} {entry : Option OutputEntry}
    (hroot : w.files root = some (.tree entries))
    (h : exec (readOutput root name) w = (.ok entry, w')) : entry = entries[name]? := by
  unfold readOutput exec Operation.perform at h
  cases hnext : w.next with
  | succeeds =>
    simp only [hnext, Operation.report, hroot] at h
    cases h
    rfl
  | fails left =>
    simp only [hnext] at h
    cases h

theorem exec_readDirectory_eq_ok (h : exec (readDirectory root) w = (.ok entries, w')) :
    w.files root = some (.tree entries) := by
  unfold readDirectory exec Operation.perform at h
  cases hnext : w.next with
  | succeeds =>
    simp only [hnext, Operation.report] at h
    rcases hstored : w.files root with _ | (found | text)
    · simp only [hstored] at h
      cases h
    · simp only [hstored] at h
      cases h
      rfl
    · simp only [hstored] at h
      cases h
  | fails left =>
    simp only [hnext] at h
    cases h

theorem exec_digestsMatch_eq_ok {outputs : List (String × String)}
    (hroot : w.files root = some (.tree entries))
    (h : exec (digestsMatch codec root outputs) w = (.ok true, w')) :
    ∀ name expected, (name, expected) ∈ outputs →
      treeDigest codec root name entries[name]? = .ok expected := by
  induction outputs generalizing w with
  | nil => simp
  | cons output rest ih =>
    obtain ⟨there, w₁, hlook, h⟩ := FileStore.exec_bind_eq_ok.mp h
    cases there
    · cases h
    obtain ⟨entry, w₂, hread, h⟩ := FileStore.exec_bind_eq_ok.mp h
    obtain ⟨digest, w₃, hdigest, hrest⟩ := FileStore.exec_bind_eq_ok.mp h
    obtain ⟨hresult, rfl⟩ := exec_ofExcept_eq_ok hdigest
    have hlooked : w₁.files root = some (.tree entries) := by
      have hkept : Within ∅ (isOutputDirectory root output.1) := ⟨within_reads.2, fun _ => trivial⟩
      rw [hkept.exec hlook (Set.notMem_empty _), hroot]
    obtain rfl := exec_readOutput_eq_ok hlooked hread
    split at hrest
    · next hsame =>
      intro name expected hmem
      rcases List.mem_cons.mp hmem with rfl | hmem
      · have hsame : digest = expected := hsame
        exact hsame ▸ hresult
      · refine ih ?_ hrest name expected hmem
        rw [(within_readOutput ∅ _).exec hread (Set.notMem_empty _), hlooked]
    · cases hrest

theorem exec_generatorOutputsMatch_eq_ok
    (h : exec (generatorOutputsMatch codec root record) w = (.ok true, w')) :
    ∃ entries, w.files root = some (.tree entries) ∧ Matches codec root entries record := by
  obtain ⟨there, w₁, hlook, h⟩ := FileStore.exec_bind_eq_ok.mp h
  cases there
  · cases h
  obtain ⟨entries, w₂, hread, h⟩ := FileStore.exec_bind_eq_ok.mp h
  have hroot := exec_readDirectory_eq_ok hread
  have hkept : w₁.files root = w.files root := by
    have hkept : Within ∅ (isDirectory root : Action (Stored OutputTree) Bool) :=
      ⟨within_reads.2, fun _ => trivial⟩
    exact hkept.exec hlook (Set.notMem_empty _)
  refine ⟨entries, hkept ▸ hroot, ?_⟩
  split at h
  · next hnames =>
    refine ⟨hnames.2, exec_digestsMatch_eq_ok ?_ h⟩
    have hkept : Within ∅ (readDirectory root) := ⟨within_reads.1, fun report => by
      rcases report with _ | _ | (_ | _) <;> trivial⟩
    rw [hkept.exec hread (Set.notMem_empty _), hroot]
  · cases h

theorem exec_isCached_eq_ok {key : String}
    (h : exec (task.isCached codec key) w = (.ok true, w')) :
    ∃ text record entries, w.files task.statePath = some (.text text) ∧
      codec.fromSlice text = some record ∧ record.key = key ∧
      w.files task.finalRoot = some (.tree entries) ∧
      Matches codec task.finalRoot entries record := by
  unfold GeneratorTask.isCached at h
  split at h
  · cases h
  obtain ⟨recorded, w₁, hrecorded, h⟩ := FileStore.exec_bind_eq_ok.mp h
  have hkept : w₁.files task.finalRoot = w.files task.finalRoot := by
    have hkept : Within ∅ (task.recordedState codec) := ⟨within_reads.1, fun _ => trivial⟩
    exact hkept.exec hrecorded (Set.notMem_empty _)
  cases recorded with
  | none => cases h
  | some record =>
    change exec (if record.key = key then _ else _) w₁ = _ at h
    split at h
    · next hkey =>
      obtain ⟨entries, hentries, hmatches⟩ := exec_generatorOutputsMatch_eq_ok h
      unfold GeneratorTask.recordedState exec Operation.perform at hrecorded
      cases hnext : w.next with
      | succeeds =>
        simp only [hnext, Operation.report, exec] at hrecorded
        have hrecorded := Except.ok.inj (Prod.mk.inj hrecorded).1
        obtain ⟨text, htext, hread⟩ := Option.bind_eq_some_iff.mp hrecorded
        obtain ⟨stored, hstored, htext⟩ := Option.bind_eq_some_iff.mp htext
        cases stored with
        | tree contents => cases htext
        | text contents =>
          cases htext
          exact ⟨_, record, entries, hstored, hread, hkey, hkept ▸ hentries, hmatches⟩
      | fails left =>
        simp only [hnext, exec] at hrecorded
        cases hrecorded
    · cases h

end Cached

-- What is generated
-- ---

/-- The record a run is to make of what its process leaves: the key, and a digest of
each declared output. -/
structure Produces (codec : Codec) (task : GeneratorTask) (record : GeneratorCacheRecord)
    (produced : OutputTree) : Prop where
  key : ∃ prepared, task.prepare codec = .ok prepared ∧ prepared.key = record.key
  process : ∃ arguments, task.process arguments = .ok produced
  outputs : ∀ name, name ∈ record.outputs ↔ name ∈ task.generator.outputs
  digests : ∀ name digest, record.outputs[name]? = some digest →
    treeDigest codec task.temporaryRoot name produced[name]? = .ok digest

section Generate

variable {codec : Codec} {task : GeneratorTask} {prepared : Prepared} {produced : OutputTree}
  {w w' : World Path (Stored OutputTree)}

theorem exec_orClear_eq_ok {α : Type} {x : Action (Stored OutputTree) α} {a : α}
    (h : exec (task.orClear x) w = (.ok a, w')) : exec x w = (.ok a, w') := by
  rcases FileStore.exec_tryCatch_cases h with ⟨b, hok, hresult⟩ | ⟨e, v, -, hhandler⟩
  · rw [hok, hresult]
  · obtain ⟨⟨⟩, u, -, hthrow⟩ := FileStore.exec_bind_eq_ok.mp hhandler
    cases hthrow

theorem exec_orRemove_eq_ok {x : Action (Stored OutputTree) Unit}
    (h : exec (task.orRemove x) w = (.ok (), w')) : exec x w = (.ok (), w') := by
  rcases FileStore.exec_tryCatch_cases h with ⟨⟨⟩, hok, -⟩ | ⟨e, v, -, hhandler⟩
  · exact hok
  · obtain ⟨⟨⟩, u, -, hhandler⟩ := FileStore.exec_bind_eq_ok.mp hhandler
    obtain ⟨⟨⟩, u', -, hthrow⟩ := FileStore.exec_bind_eq_ok.mp hhandler
    cases hthrow

theorem within_orClear {S : Set Path} {α : Type} {x : Action (Stored OutputTree) α}
    (hx : Within S x) (htemporary : task.temporaryRoot ∈ S) : Within S (task.orClear x) := by
  refine .tryCatch hx fun e => .bind (.attempt fun p hp => ?_) fun _ => trivial
  have hp : p = task.temporaryRoot := by simpa [Operation.accesses] using hp
  exact hp ▸ htemporary

theorem within_orRemove {S : Set Path} {x : Action (Stored OutputTree) Unit} (hx : Within S x)
    (htemporary : task.temporaryRoot ∈ S) (hstate : task.temporaryState ∈ S) :
    Within S (task.orRemove x) := by
  refine .tryCatch hx fun e => .bind (.attempt fun p hp => ?_) fun _ =>
    .bind (.attempt fun p hp => ?_) fun _ => trivial
  · have hp : p = task.temporaryRoot := by simpa [Operation.accesses] using hp
    exact hp ▸ htemporary
  · have hp : p = task.temporaryState := by simpa [Operation.accesses] using hp
    exact hp ▸ hstate

theorem within_hashOutput (S : Set Path) (digests : BTreeMap String) (output : String) :
    Within S (task.hashOutput codec digests output) :=
  .bind (within_readOutput S _) fun _ => .bind (within_ofExcept S _) fun _ => trivial

theorem within_write {S : Set Path} {path : Path} (h : path ∈ S) (stored : Stored OutputTree) :
    ∀ p, Access.changes p ∈ (Operation.write path stored).accesses → p ∈ S := fun p hp => by
  have hp : p = path := by simpa [Operation.accesses] using hp
  exact hp ▸ h

theorem within_generation {S : Set Path} (h : task.temporaryRoot ∈ S)
    (expansion : GeneratorExpansion) : Within S (task.generation codec prepared expansion) := by
  have hcreate : ∀ made output, Within S (task.createOutput made output) := fun made output =>
    .bind (.act (within_write h _)) fun _ => trivial
  have hhash : ∀ digests output, Within S (task.hashOutput codec digests output) :=
    within_hashOutput S
  refine .bind (.foldlM hcreate _) fun _ => .bind (within_ofExcept S _) fun arguments => ?_
  cases task.process arguments with
  | error failure => trivial
  | ok produced => exact .bind (.act (within_write h _)) fun _ => .foldlM hhash _

theorem within_generate :
    Within {task.temporaryRoot, task.temporaryState} (task.generate codec prepared) := by
  have hroot : task.temporaryRoot ∈ ({task.temporaryRoot, task.temporaryState} : Set Path) :=
    Or.inl rfl
  have hstate : task.temporaryState ∈ ({task.temporaryRoot, task.temporaryState} : Set Path) :=
    Or.inr rfl
  have hstep : ∀ p, Access.changes p ∈
      (Operation.step : Operation Path (Stored OutputTree)).accesses →
      p ∈ ({task.temporaryRoot, task.temporaryState} : Set Path) := fun p hp => by
    simp [Operation.accesses] at hp
  have hclear : ∀ p, Access.changes p ∈
      (Operation.clear task.temporaryRoot : Operation Path (Stored OutputTree)).accesses →
      p ∈ ({task.temporaryRoot, task.temporaryState} : Set Path) := fun p hp => by
    have hp : p = task.temporaryRoot := by simpa [Operation.accesses] using hp
    exact hp ▸ hroot
  have htext : ∀ outputs, Within {task.temporaryRoot, task.temporaryState} (do
      let text ← task.orClear (ofExcept ((codec.toVecPretty ⟨prepared.key, outputs⟩).mapError
        fun error => .invalid ("could not serialize generator state: " ++ error)))
      task.orRemove (act (ioError task.temporaryState) (.write task.temporaryState (.text text)))) :=
    fun outputs => .bind (within_orClear (within_ofExcept _ _) hroot) fun text =>
      within_orRemove (.act (within_write hstate _)) hroot hstate
  refine .bind (.act hstep) fun _ => .bind (within_whenThere _ hclear) fun _ =>
    .bind (within_ofExcept _ _) fun generators => .bind (within_ofExcept _ _) fun expansion =>
      .bind (within_orClear (within_generation hroot expansion) hroot) fun outputs =>
        .bind (within_orClear (within_ofExcept _ _) hroot) fun verified => ?_
  show Only _ (if _ then _ else _)
  split
  · exact .bind (within_orClear trivial hroot) fun _ => htext outputs
  · exact htext outputs

theorem exec_hashOutputs_eq_ok {names : List String} {digests digests' : BTreeMap String}
    (hroot : w.files task.temporaryRoot = some (.tree produced))
    (h : exec (names.foldlM (task.hashOutput codec) digests) w = (.ok digests', w')) :
    (∀ name ∈ names, ∃ digest, digests'[name]? = some digest ∧
      treeDigest codec task.temporaryRoot name produced[name]? = .ok digest) ∧
    ∀ name ∉ names, digests'[name]? = digests[name]? := by
  induction names generalizing digests w with
  | nil =>
    cases h
    simp
  | cons output rest ih =>
    obtain ⟨inserted, w₁, hinsert, hrest⟩ := FileStore.exec_bind_eq_ok.mp h
    have hkept : w₁.files task.temporaryRoot = w.files task.temporaryRoot :=
      (within_hashOutput ∅ digests output).exec hinsert (Set.notMem_empty _)
    obtain ⟨hmem, hother⟩ := ih (hkept.trans hroot) hrest
    obtain ⟨entry, w₂, hread, hinsert⟩ := FileStore.exec_bind_eq_ok.mp hinsert
    obtain ⟨digest, w₃, hdigest, hinserted⟩ := FileStore.exec_bind_eq_ok.mp hinsert
    have hentry := exec_readOutput_eq_ok hroot hread
    have hdigest := (exec_ofExcept_eq_ok hdigest).1
    rw [hentry] at hdigest
    obtain rfl : digests.insert output digest = inserted := Except.ok.inj (Prod.mk.inj hinserted).1
    constructor
    · intro name hname
      by_cases hlater : name ∈ rest
      · exact hmem name hlater
      obtain rfl := (List.mem_cons.mp hname).resolve_right hlater
      refine ⟨digest, ?_, hdigest⟩
      rw [hother name hlater, Std.ExtTreeMap.getElem?_insert_self]
    · intro name hname
      rw [List.mem_cons, not_or] at hname
      rw [hother name hname.2, Std.ExtTreeMap.getElem?_insert, if_neg]
      rw [Std.LawfulEqCmp.compare_eq_iff_eq]
      exact hname.1 ∘ Eq.symm

theorem exec_generation_eq_ok {expansion : GeneratorExpansion} {outputs : BTreeMap String}
    (h : exec (task.generation codec prepared expansion) w = (.ok outputs, w')) :
    ∃ arguments produced, task.process arguments = .ok produced ∧
      w'.files task.temporaryRoot = some (.tree produced) ∧
      (∀ name, name ∈ outputs ↔ name ∈ task.generator.outputs) ∧
      ∀ name digest, outputs[name]? = some digest →
        treeDigest codec task.temporaryRoot name produced[name]? = .ok digest := by
  obtain ⟨made, w₁, -, h⟩ := FileStore.exec_bind_eq_ok.mp h
  obtain ⟨arguments, w₂, -, h⟩ := FileStore.exec_bind_eq_ok.mp h
  cases hprocess : task.process arguments with
  | error failure =>
    rw [hprocess] at h
    cases h
  | ok produced =>
    rw [hprocess] at h
    obtain ⟨⟨⟩, w₃, hleft, hhash⟩ := FileStore.exec_bind_eq_ok.mp h
    have hroot : w₃.files task.temporaryRoot = some (.tree produced) := by
      rw [(FileStore.exec_act_eq_ok hleft).2]
      exact Function.update_self ..
    obtain ⟨hmem, hother⟩ := exec_hashOutputs_eq_ok hroot hhash
    have hkept : Within ∅ (task.generator.outputs.keys.foldlM (task.hashOutput codec) ∅) :=
      .foldlM (within_hashOutput ∅) _
    refine ⟨arguments, produced, hprocess, (hkept.exec hhash (Set.notMem_empty _)).trans hroot,
      fun name => ⟨fun hname => ?_, fun hname => ?_⟩, fun name digest hdigest => ?_⟩
    · by_contra hnone
      have habsent := hother name fun hkey => hnone (Std.ExtTreeMap.mem_keys.mp hkey)
      rw [Std.ExtTreeMap.mem_iff_isSome_getElem?, habsent, Std.ExtTreeMap.getElem?_empty] at hname
      cases hname
    · obtain ⟨digest, hdigest, -⟩ := hmem name (Std.ExtTreeMap.mem_keys.mpr hname)
      exact Std.ExtTreeMap.mem_iff_isSome_getElem?.mpr (by rw [hdigest]; rfl)
    · by_cases hname : name ∈ task.generator.outputs.keys
      · obtain ⟨digest', hdigest', htree⟩ := hmem name hname
        obtain rfl := Option.some.inj (hdigest.symm.trans hdigest')
        exact htree
      · rw [hother name hname, Std.ExtTreeMap.getElem?_empty] at hdigest
        cases hdigest

theorem exec_generate_eq_ok (hprepare : task.prepare codec = .ok prepared)
    (h : exec (task.generate codec prepared) w = (.ok (), w'))
    (hdistinct : task.temporaryState ≠ task.temporaryRoot) :
    ∃ record produced text, Produces codec task record produced ∧
      codec.fromSlice text = some record ∧
      w'.files task.temporaryRoot = some (.tree produced) ∧
      w'.files task.temporaryState = some (.text text) := by
  obtain ⟨⟨⟩, w₁, -, h⟩ := FileStore.exec_bind_eq_ok.mp h
  obtain ⟨⟨⟩, w₂, -, h⟩ := FileStore.exec_bind_eq_ok.mp h
  obtain ⟨generators, w₃, -, h⟩ := FileStore.exec_bind_eq_ok.mp h
  obtain ⟨expansion, w₄, -, h⟩ := FileStore.exec_bind_eq_ok.mp h
  obtain ⟨outputs, w₅, hgeneration, h⟩ := FileStore.exec_bind_eq_ok.mp h
  obtain ⟨verified, w₆, hverified, h⟩ := FileStore.exec_bind_eq_ok.mp h
  obtain ⟨arguments, produced, hprocess, hroot, houtputs, hdigests⟩ :=
    exec_generation_eq_ok (exec_orClear_eq_ok hgeneration)
  have hw₆ := (exec_ofExcept_eq_ok (exec_orClear_eq_ok hverified)).2
  have hwritten : ∃ v, v.files = w₆.files ∧ exec (do
      let text ← task.orClear (ofExcept ((codec.toVecPretty ⟨prepared.key, outputs⟩).mapError
        fun error => .invalid ("could not serialize generator state: " ++ error)))
      task.orRemove (act (ioError task.temporaryState) (.write task.temporaryState (.text text))))
      v = (.ok (), w') := by
    split at h
    · obtain ⟨⟨⟩, v, hchanged, -⟩ := FileStore.exec_bind_eq_ok.mp h
      cases exec_orClear_eq_ok hchanged
    · exact ⟨w₆, rfl, h⟩
  obtain ⟨v, hv, hwritten⟩ := hwritten
  obtain ⟨text, u, htext, hwrite⟩ := FileStore.exec_bind_eq_ok.mp hwritten
  obtain ⟨htext, hu⟩ := exec_ofExcept_eq_ok (exec_orClear_eq_ok htext)
  have hfiles := (FileStore.exec_act_eq_ok (exec_orRemove_eq_ok hwrite)).2
  refine ⟨⟨prepared.key, outputs⟩, produced, text, ⟨⟨prepared, hprepare, rfl⟩,
    ⟨arguments, hprocess⟩, houtputs, hdigests⟩,
    codec.reads _ _ (Fallible.mapError_eq_ok.mp htext), ?_, ?_⟩
  · rw [hfiles]
    show Function.update u.files task.temporaryState _ task.temporaryRoot = _
    rw [Function.update_of_ne hdistinct.symm, hu, hv, hw₆, hroot]
  · rw [hfiles]
    exact Function.update_self ..

end Generate

-- One run
-- ---

section Run

variable {codec : Codec} {task : GeneratorTask} {prepared : Prepared}
  {w w' : World Path (Stored OutputTree)}

theorem exec_start_eq_ok {cached : Bool}
    (h : exec (task.start codec) w = (.ok (prepared, cached), w')) :
    task.prepare codec = .ok prepared ∧ (∀ p, w'.files p = w.files p) ∧
      (cached = true → ∃ text record entries, w.files task.statePath = some (.text text) ∧
        codec.fromSlice text = some record ∧ record.key = prepared.key ∧
        w.files task.finalRoot = some (.tree entries) ∧
        Matches codec task.finalRoot entries record) := by
  have hkept : ∀ p, w'.files p = w.files p := fun p =>
    (within_start ∅).exec h (Set.notMem_empty p)
  obtain ⟨⟨⟩, w₁, hdirectory, h⟩ := FileStore.exec_bind_eq_ok.mp h
  obtain ⟨⟨⟩, w₂, hlock, h⟩ := FileStore.exec_bind_eq_ok.mp h
  obtain ⟨found, w₃, hprepare, h⟩ := FileStore.exec_bind_eq_ok.mp h
  obtain ⟨hit, w₄, hcached, h⟩ := FileStore.exec_bind_eq_ok.mp h
  obtain ⟨hprepare, hw₃⟩ := exec_ofExcept_eq_ok hprepare
  have hresult := Except.ok.inj (Prod.mk.inj h).1
  obtain ⟨rfl, rfl⟩ := Prod.mk.inj hresult
  refine ⟨hprepare, hkept, ?_⟩
  rintro rfl
  have hfiles : w₃.files = w.files := by
    rw [hw₃, (FileStore.exec_act_eq_ok hlock).2]
    exact (FileStore.exec_act_eq_ok hdirectory).2
  rw [← hfiles]
  exact exec_isCached_eq_ok hcached

theorem within_publishOutputs : Within (insert task.temporaryState task.outputPaths)
    (task.orRemove (replaceDirectory task.pid task.temporaryRoot task.finalRoot)) :=
  within_orRemove (within_replaceBy.mono fun _ hop p hp => Or.inr (hop p hp)) (Or.inr (Or.inl rfl))
    (Or.inl rfl)

theorem only_publishState : Only
    (Operation.carries (insert task.temporaryState (recordPaths task.directory task.name)))
    (tryCatch (replaceFile task.pid task.temporaryState task.statePath) fun e => do
      attempt (.remove task.temporaryState)
      throw e : Action (Stored OutputTree) Unit) :=
  .tryCatch (only_replaceFile (Or.inl rfl) (Or.inr (statePath_mem task))
    (Or.inr (Or.inr ⟨task.pid, rfl⟩))) fun _ => .bind (.attempt trivial) fun _ => trivial

/-- **Wherever a run ends**, what holds of the recorded states, and of the state the
run is to record, holds of the recorded states. -/
theorem leftBy_runGenerator (hname : task.name ≠ "" ∧ task.name.toList.all isNameChar = true)
    {P : Stored OutputTree → Prop}
    (hproduced : ∀ record produced text, Produces codec task record produced →
      codec.fromSlice text = some record → P (.text text))
    {files : Path → Option (Stored OutputTree)} (h : LeftBy (runGenerator codec task) w files)
    (hw : ∀ p ∈ recordPaths task.directory task.name, ∀ stored, w.files p = some stored → P stored) :
    ∀ p ∈ recordPaths task.directory task.name, ∀ stored, files p = some stored → P stored := by
  have hpublished : ∀ p ∈ recordPaths task.directory task.name,
      p ∉ insert task.temporaryState task.outputPaths := by
    rintro p hp (rfl | hpath)
    · exact temporaryState_notMem hname hp
    · exact outputPaths_disjoint hname hpath hp
  have hgenerated : ∀ p ∈ recordPaths task.directory task.name,
      p ∉ ({task.temporaryRoot, task.temporaryState} : Set Path) := by
    rintro p hp (rfl | rfl)
    · exact outputPaths_disjoint hname (Or.inl rfl) hp
    · exact temporaryState_notMem hname hp
  intro p hp stored hstored
  rcases h.of_bind with hleft | ⟨⟨prepared, cached⟩, w₁, hstart, -, hleft⟩
  · exact hw p hp stored ((within_start ∅).leftBy hleft (Set.notMem_empty p) ▸ hstored)
  obtain ⟨hprepare, hw₁, -⟩ := exec_start_eq_ok hstart
  cases cached with
  | true =>
    have hcount : Within ∅ (outputFileCount task.finalRoot >>= fun outputs => pure
        (⟨task.module, task.name, prepared.inputs.length, outputs, true⟩ : GeneratorResult)) :=
      .bind (within_outputFileCount ∅) fun _ => trivial
    have hkept := (hcount.leftBy hleft (Set.notMem_empty p)).trans (hw₁ p)
    exact hw p hp stored (hkept ▸ hstored)
  | false =>
    rcases hleft.of_bind with hleft | ⟨⟨⟩, w₂, hgenerate, -, hleft⟩
    · have hkept := (within_generate.leftBy hleft (hgenerated p hp)).trans (hw₁ p)
      exact hw p hp stored (hkept ▸ hstored)
    have hw₂ : ∀ q ∈ recordPaths task.directory task.name, w₂.files q = w.files q := fun q hq =>
      (within_generate.exec hgenerate (hgenerated q hq)).trans (hw₁ q)
    have hdistinct : task.temporaryState ≠ task.temporaryRoot := fun heq =>
      temporaryState_notMem_outputPaths hname (Or.inl heq)
    obtain ⟨record, produced, text, hproduces, htext, -, hstate⟩ :=
      exec_generate_eq_ok hprepare hgenerate hdistinct
    -- the counting afterwards reads only
    have hpublish : ∃ v, LeftBy task.publish w₂ v ∧ ∀ q, files q = v q := by
      rcases hleft.of_bind with hleft | ⟨⟨⟩, w₃, hpublish, -, hleft⟩
      · exact ⟨files, hleft, fun _ => rfl⟩
      · have hcount : Within ∅ (outputFileCount task.finalRoot >>= fun outputs => pure
            (⟨task.module, task.name, prepared.inputs.length, outputs, false⟩ : GeneratorResult)) :=
          .bind (within_outputFileCount ∅) fun _ => trivial
        refine ⟨w₃.files, ?_, fun q => hcount.leftBy hleft (Set.notMem_empty q)⟩
        have hend := FileStore.leftBy_exec task.publish w₂
        rwa [hpublish] at hend
    obtain ⟨v, hpublish, hfiles⟩ := hpublish
    rw [hfiles p] at hstored
    rcases hpublish.of_bind with hleft | ⟨⟨⟩, w₃, hreplace, -, hleft⟩
    · have hkept := (within_publishOutputs.leftBy hleft (hpublished p hp)).trans (hw₂ p hp)
      exact hw p hp stored (hkept ▸ hstored)
    have hstate₃ : w₃.files task.temporaryState = some (.text text) := by
      have hkept : Within task.outputPaths
          (replaceDirectory task.pid task.temporaryRoot task.finalRoot :
            Action (Stored OutputTree) Unit) := within_replaceBy
      rw [hkept.exec (exec_orRemove_eq_ok hreplace) (temporaryState_notMem_outputPaths hname), hstate]
    refine only_publishState.carried hleft (fun q hq contents hcontents => ?_) p (Or.inr hp) stored
      hstored
    rcases hq with rfl | hq
    · obtain rfl := Option.some.inj (hstate₃.symm.trans hcontents)
      exact hproduced record produced text hproduces htext
    · have hkept := (within_publishOutputs.exec hreplace (hpublished q hq)).trans (hw₂ q hq)
      exact hw q hq contents (hkept ▸ hcontents)

/-- What a failed run has left: where nothing was published, the outputs and the
state exactly if the backup could be moved back; else the outputs of the run. -/
def Survives (codec : Codec) (task : GeneratorTask) {α : Type} (x : Action (Stored OutputTree) α)
    (w w' : World Path (Stored OutputTree)) : Prop :=
  Avoids (movesIn task.temporaryRoot task.finalRoot) x w ∧
      ((w'.files task.finalRoot = w.files task.finalRoot ∧
          w'.files task.statePath = w.files task.statePath) ↔
        Avoids (rollbackFails task.finalRoot (backupOf task.pid task.finalRoot)) x w) ∨
    ¬ Avoids (movesIn task.temporaryRoot task.finalRoot) x w ∧
      ∃ record produced, Produces codec task record produced ∧
        w'.files task.finalRoot = some (.tree produced)

section Survives

variable {α γ : Type} {x : Action (Stored OutputTree) α} {f : α → Action (Stored OutputTree) γ}
  {S : Set Path} {v : World Path (Stored OutputTree)}

theorem avoids_of_within (hx : Within S x) (hfinal : task.finalRoot ∉ S)
    (w : World Path (Stored OutputTree)) :
    Avoids (movesIn task.temporaryRoot task.finalRoot) x w ∧
      Avoids (rollbackFails task.finalRoot (backupOf task.pid task.finalRoot)) x w := by
  constructor <;> refine hx.avoids (fun operation v hS hbad => hfinal (hS _ ?_)) w
  · rw [hbad.1]
    simp [Operation.accesses]
  · rw [hbad.1]
    simp [Operation.accesses]

theorem survives_of_within {result : Except BuildError α} (hx : Within S x)
    (hfinal : task.finalRoot ∉ S) (hstate : task.statePath ∉ S) (h : exec x w = (result, w')) :
    Survives codec task x w w' := by
  obtain ⟨hmoves, hrollback⟩ := avoids_of_within hx hfinal w
  exact Or.inl ⟨hmoves, iff_of_true ⟨hx.exec h hfinal, hx.exec h hstate⟩ hrollback⟩

theorem Survives.bind_error {e : BuildError} (hexec : exec x w = (.error e, w'))
    (h : Survives codec task x w w') : Survives codec task (x >>= f) w w' := by
  unfold Survives
  rw [FileStore.avoids_bind_of_error hexec, FileStore.avoids_bind_of_error hexec]
  exact h

theorem Survives.bind_ok {a : α} (hx : Within S x) (hfinal : task.finalRoot ∉ S)
    (hstate : task.statePath ∉ S) (hexec : exec x w = (.ok a, v))
    (h : Survives codec task (f a) v w') : Survives codec task (x >>= f) w w' := by
  obtain ⟨hmoves, hrollback⟩ := avoids_of_within hx hfinal w
  unfold Survives at h ⊢
  rw [FileStore.avoids_bind_of_ok hexec, FileStore.avoids_bind_of_ok hexec, and_iff_right hmoves,
    and_iff_right hrollback]
  rw [hx.exec hexec hfinal, hx.exec hexec hstate] at h
  exact h

end Survives

theorem statePath_notMem (hname : task.name ≠ "" ∧ task.name.toList.all isNameChar = true) :
    task.statePath ∉ insert task.temporaryState task.outputPaths := by
  rintro (heq | hpath)
  · exact temporaryState_notMem hname (heq ▸ statePath_mem task)
  · exact outputPaths_disjoint hname hpath (statePath_mem task)

theorem finalRoot_notMem (hname : task.name ≠ "" ∧ task.name.toList.all isNameChar = true) :
    task.finalRoot ∉ ({task.temporaryRoot, task.temporaryState} : Set Path) := by
  rintro (heq | heq)
  · exact temporaryRoot_ne hname (Or.inl rfl) heq.symm
  · exact temporaryState_notMem_outputPaths hname (Or.inr (Or.inl heq.symm))

theorem survives_replaceDirectory {e : BuildError} {record : GeneratorCacheRecord}
    {produced : OutputTree} (hname : task.name ≠ "" ∧ task.name.toList.all isNameChar = true)
    (hproduces : Produces codec task record produced)
    (hroot : w.files task.temporaryRoot = some (.tree produced))
    (hlooks : Avoids lookFails
      (task.orRemove (replaceDirectory task.pid task.temporaryRoot task.finalRoot)) w)
    (h : exec (task.orRemove (replaceDirectory task.pid task.temporaryRoot task.finalRoot)) w =
      (.error e, w')) :
    Survives codec task
      (task.orRemove (replaceDirectory task.pid task.temporaryRoot task.finalRoot)) w w' := by
  have hkept := within_publishOutputs.exec h (statePath_notMem hname)
  rcases FileStore.exec_tryCatch_cases h with ⟨_, -, hok⟩ | ⟨e', v, hreplace, hhandler⟩
  · cases hok
  have hremove : Within {task.temporaryRoot, task.temporaryState} (do
      attempt (.clear task.temporaryRoot)
      attempt (.remove task.temporaryState)
      throw e' : Action (Stored OutputTree) Unit) := by
    refine .bind (.attempt fun p hp => ?_) fun _ => .bind (.attempt fun p hp => ?_) fun _ => trivial
    · exact Or.inl (by simpa [Operation.accesses] using hp)
    · exact Or.inr (by simpa [Operation.accesses] using hp)
  have hfinal := hremove.exec hhandler (finalRoot_notMem hname)
  have hfinalOut : task.finalRoot ∉ ({task.temporaryRoot, task.temporaryState} : Set Path) :=
    finalRoot_notMem hname
  obtain ⟨hmoves, hrollback⟩ := avoids_of_within hremove hfinalOut v
  have hcases := exec_replaceBy_eq_error finalRoot_ne_nil (temporaryRoot_ne hname (Or.inr rfl))
    (temporaryRoot_ne hname (Or.inl rfl)) (by rw [hroot]; rfl)
    ((FileStore.avoids_tryCatch_of_error hreplace).mp hlooks).1 hreplace
  unfold Survives
  unfold GeneratorTask.orRemove at hkept ⊢
  rw [FileStore.avoids_tryCatch_of_error hreplace, FileStore.avoids_tryCatch_of_error hreplace,
    and_iff_left hmoves, and_iff_left hrollback, and_iff_left hkept, hfinal]
  rcases hcases with hleft | ⟨hmoved, hnew⟩
  · exact Or.inl hleft
  · exact Or.inr ⟨hmoved, record, produced, hproduces, hnew.trans hroot⟩

theorem survives_published {α γ : Type} {x : Action (Stored OutputTree) α}
    {f : α → Action (Stored OutputTree) γ} {a : α} {v : World Path (Stored OutputTree)}
    {S : Set Path} {record : GeneratorCacheRecord} {produced : OutputTree}
    (hproduces : Produces codec task record produced)
    (hmoved : ¬ Avoids (movesIn task.temporaryRoot task.finalRoot) x w)
    (hnew : v.files task.finalRoot = some (.tree produced)) (hf : Within S (f a))
    (hfinal : task.finalRoot ∉ S) {result : Except BuildError γ} (h : exec (f a) v = (result, w')) :
    Survives codec task (x >>= f) w w' := by
  refine Or.inr ⟨fun havoids => hmoved (FileStore.avoids_bind_iff.mp havoids).1, record, produced,
    hproduces, ?_⟩
  rw [hf.exec h hfinal, hnew]

/-- **A run that fails** leaves the published outputs and their state, or, once it
has published, its own outputs. -/
theorem survives_runGenerator {e : BuildError}
    (hname : task.name ≠ "" ∧ task.name.toList.all isNameChar = true)
    (hlooks : Avoids lookFails (runGenerator codec task) w)
    (h : exec (runGenerator codec task) w = (.error e, w')) :
    Survives codec task (runGenerator codec task) w w' := by
  have hgenerate : task.statePath ∉ ({task.temporaryRoot, task.temporaryState} : Set Path) := by
    rintro (heq | heq)
    · exact statePath_notMem hname (Or.inr (Or.inl heq))
    · exact statePath_notMem hname (Or.inl heq)
  have hnone : ∀ p : Path, p ∉ (∅ : Set Path) := Set.notMem_empty
  rcases FileStore.exec_bind_eq_error.mp h with hstart | ⟨⟨prepared, cached⟩, w₁, hstart, hrest⟩
  · exact .bind_error hstart (survives_of_within (within_start ∅) (hnone _) (hnone _) hstart)
  have hlooks₁ := (FileStore.avoids_bind_iff.mp hlooks).2 _ _ hstart
  refine .bind_ok (within_start ∅) (hnone _) (hnone _) hstart ?_
  cases cached with
  | true =>
    have hcount : Within ∅ (outputFileCount task.finalRoot >>= fun outputs => pure
        (⟨task.module, task.name, prepared.inputs.length, outputs, true⟩ : GeneratorResult)) :=
      .bind (within_outputFileCount ∅) fun _ => trivial
    exact survives_of_within hcount (hnone _) (hnone _) hrest
  | false =>
    rcases FileStore.exec_bind_eq_error.mp hrest with hfail | ⟨⟨⟩, w₂, hgenerated, hrest⟩
    · exact .bind_error hfail
        (survives_of_within within_generate (finalRoot_notMem hname) hgenerate hfail)
    have hlooks₂ := (FileStore.avoids_bind_iff.mp hlooks₁).2 _ _ hgenerated
    refine .bind_ok within_generate (finalRoot_notMem hname) hgenerate hgenerated ?_
    have hdistinct : task.temporaryState ≠ task.temporaryRoot := fun heq =>
      temporaryState_notMem_outputPaths hname (Or.inl heq)
    obtain ⟨record, produced, text, hproduces, -, hroot, -⟩ :=
      exec_generate_eq_ok (exec_start_eq_ok hstart).1 hgenerated hdistinct
    have hstate : Within (insert task.temporaryState (recordPaths task.directory task.name))
        (tryCatch (replaceFile task.pid task.temporaryState task.statePath) fun e => do
          attempt (.remove task.temporaryState)
          throw e : Action (Stored OutputTree) Unit) := by
      refine .tryCatch (within_replaceFile.mono fun _ hop p hp => ?_) fun e =>
        .bind (.attempt fun p hp => Or.inl (by simpa [Operation.accesses] using hp)) fun _ => trivial
      rcases hop p hp with rfl | rfl | rfl
      · exact Or.inl rfl
      · exact Or.inr (statePath_mem task)
      · exact Or.inr (Or.inr ⟨task.pid, rfl⟩)
    have hcount : Within (insert task.temporaryState (recordPaths task.directory task.name))
        (outputFileCount task.finalRoot >>= fun outputs => pure
          (⟨task.module, task.name, prepared.inputs.length, outputs, false⟩ : GeneratorResult)) :=
      .bind (within_outputFileCount _) fun _ => trivial
    have hfinal : task.finalRoot ∉
        insert task.temporaryState (recordPaths task.directory task.name) := by
      rintro (heq | hmem)
      · exact finalRoot_notMem hname (Or.inr heq)
      · exact outputPaths_disjoint hname (Or.inr (Or.inl rfl)) hmem
    have hpublish : task.publish >>= (fun _ => outputFileCount task.finalRoot >>= fun outputs => pure
        (⟨task.module, task.name, prepared.inputs.length, outputs, false⟩ : GeneratorResult)) =
        task.orRemove (replaceDirectory task.pid task.temporaryRoot task.finalRoot) >>= fun _ =>
          (tryCatch (replaceFile task.pid task.temporaryState task.statePath) fun e => do
            attempt (.remove task.temporaryState)
            throw e) >>= fun _ => outputFileCount task.finalRoot >>= fun outputs => pure
        (⟨task.module, task.name, prepared.inputs.length, outputs, false⟩ : GeneratorResult) :=
      bind_assoc _ _ _
    change exec (task.publish >>= _) w₂ = _ at hrest
    change Avoids lookFails (task.publish >>= _) w₂ at hlooks₂
    change Survives codec task (task.publish >>= _) w₂ w'
    rw [hpublish] at hrest hlooks₂ ⊢
    obtain ⟨hlooks₃, -⟩ := FileStore.avoids_bind_iff.mp hlooks₂
    rcases FileStore.exec_bind_eq_error.mp hrest with hfail | ⟨⟨⟩, w₃, hreplace, hrest⟩
    · exact .bind_error hfail (survives_replaceDirectory hname hproduces hroot hlooks₃ hfail)
    have hdone := exec_orRemove_eq_ok hreplace
    have hnew := (exec_replaceBy_eq_ok finalRoot_ne_nil (temporaryRoot_ne hname (Or.inr rfl))
      (temporaryRoot_ne hname (Or.inl rfl)) hdone).2
    refine survives_published (a := ()) hproduces (fun havoids => ?_) (hnew.trans hroot)
      (.bind hstate fun _ => hcount) hfinal hrest
    exact movesIn_of_exec_replaceBy hdone (FileStore.avoids_tryCatch_iff.mp havoids).1

end Run

-- Keys of runs
-- ---

def GeneratorTask.hashed (codec : Codec) (task : GeneratorTask) :
    Except BuildError GeneratorInputs := do
  let prepared ← task.prepare codec
  (task.invocation prepared.inputs prepared.executable prepared.environment).hashed
    codec.serialize task.before

/-- What the two runs hash is shorter than `u64` counts, and SHA-256 tells it apart. -/
def KeysApart (codec : Codec) (task task' : GeneratorTask) : Prop :=
  ∀ hashed hashed', task.hashed codec = .ok hashed → task'.hashed codec = .ok hashed' →
    (∀ piece ∈ hashed.pieces ++ hashed'.pieces, Fits piece) ∧
      Distinguishes codec.sha256 (parts hashed.pieces) (parts hashed'.pieces)

section Keys

variable {codec : Codec} {task task' : GeneratorTask} {prepared prepared' : Prepared}

theorem GeneratorInvocation.generator_of_hashed {serialize : Generator → Except String Bytes}
    {files : OsPath → Except String Bytes} {invocation : GeneratorInvocation}
    {inputs : GeneratorInputs} (h : invocation.hashed serialize files = .ok inputs) :
    inputs.generator = invocation.generator := by
  obtain ⟨json, -, h⟩ := Fallible.bind_eq_ok.mp h
  obtain ⟨executable, -, h⟩ := Fallible.bind_eq_ok.mp h
  obtain ⟨read, -, h⟩ := Fallible.bind_eq_ok.mp h
  obtain ⟨dependencies, -, h⟩ := Fallible.bind_eq_ok.mp h
  obtain rfl := Except.ok.inj h
  rfl

theorem hashed_of_prepare (h : task.prepare codec = .ok prepared) :
    ∃ hashed, task.hashed codec = .ok hashed ∧
      codec.serialize task.generator = .ok hashed.json ∧
      prepared.key = "sha256:" ++ codec.sha256 (parts hashed.pieces) := by
  have hkey : generatorKey codec.serialize codec.sha256 task.before (task.invocation
      prepared.inputs prepared.executable prepared.environment) = .ok prepared.key := by
    obtain ⟨inputs, -, h⟩ := Fallible.bind_eq_ok.mp h
    split at h
    · cases h
    obtain ⟨-, -, h⟩ := Fallible.bind_eq_ok.mp h
    obtain ⟨javaHome, -, h⟩ := Fallible.bind_eq_ok.mp h
    obtain ⟨searchPath, -, h⟩ := Fallible.bind_eq_ok.mp h
    obtain ⟨executable, -, h⟩ := Fallible.bind_eq_ok.mp h
    obtain ⟨key, hkey, h⟩ := Fallible.bind_eq_ok.mp h
    obtain rfl := Except.ok.inj h
    exact hkey
  obtain ⟨hashed, hhashed, hkey⟩ := Fallible.bind_eq_ok.mp hkey
  refine ⟨hashed, ?_, ?_, (Except.ok.inj hkey).symm⟩
  · rw [GeneratorTask.hashed, h]
    exact hhashed
  · have hjson := GeneratorInvocation.serialize_of_hashed hhashed
    rwa [GeneratorInvocation.generator_of_hashed hhashed] at hjson

theorem generator_of_key (hserialize : Faithful codec.serialize)
    (hapart : KeysApart codec task task') (h : task.prepare codec = .ok prepared)
    (h' : task'.prepare codec = .ok prepared') (hkey : prepared.key = prepared'.key) :
    task.generator = task'.generator := by
  obtain ⟨hashed, hhashes, hjson, hprepared⟩ := hashed_of_prepare h
  obtain ⟨hashed', hhashes', hjson', hprepared'⟩ := hashed_of_prepare h'
  obtain ⟨hfits, hsha⟩ := hapart hashed hashed' hhashes hhashes'
  rw [hprepared, hprepared'] at hkey
  have htext := hsha ((String.append_right_inj "sha256:").mp hkey)
  have hpieces : hashed.pieces = hashed'.pieces :=
    Encoding.parts_injective (fun piece hp => hfits piece (List.mem_append_left _ hp))
      (fun piece hp => hfits piece (List.mem_append_right _ hp)) htext
  rw [(GeneratorInputs.heads_of_pieces hpieces).2.1] at hjson
  exact hserialize _ _ _ hjson hjson'

end Keys

-- Histories
-- ---

/-- The files of the machine, and the runs of a generator so far. -/
structure GeneratorState where
  files : Path → Option (Stored OutputTree)
  ran : List GeneratorTask

/-- Anything but the recorded states is changed, or a run of the generator ends
somewhere: it returns, fails or is cut off. -/
inductive GeneratorStep (codec : Codec) (directory : Path) (name : String) :
    GeneratorState → GeneratorState → Prop where
  | changed (s : GeneratorState) (files : Path → Option (Stored OutputTree))
      (h : ∀ p ∈ recordPaths directory name, files p = s.files p) :
      GeneratorStep codec directory name s ⟨files, s.ran⟩
  | ran (s : GeneratorState) (task : GeneratorTask)
      (outcomes : List (Outcome (Stored OutputTree)))
      {files : Path → Option (Stored OutputTree)} (hdirectory : task.directory = directory)
      (hname : task.name = name)
      (h : LeftBy (runGenerator codec task) ⟨s.files, outcomes, []⟩ files) :
      GeneratorStep codec directory name s ⟨files, task :: s.ran⟩

/-- The text is no record, or the record of one of the runs. -/
def OfRun (codec : Codec) (ran : List GeneratorTask) (stored : Stored OutputTree) : Prop :=
  ∀ text record, stored = .text text → codec.fromSlice text = some record →
    ∃ task ∈ ran, ∃ produced, Produces codec task record produced

def Genuine (codec : Codec) (directory : Path) (name : String) (s : GeneratorState) : Prop :=
  ∀ p ∈ recordPaths directory name, ∀ stored, s.files p = some stored → OfRun codec s.ran stored

section History

variable {codec : Codec} {directory : Path} {name : String} {s s' start : GeneratorState}

theorem genuine_step (hname : validateGeneratorName "generator" name = .ok ())
    (h : GeneratorStep codec directory name s s') (hs : Genuine codec directory name s) :
    Genuine codec directory name s' := by
  cases h with
  | changed files h =>
    intro p hp stored hstored
    exact hs p hp stored ((h p hp).symm.trans hstored)
  | ran task outcomes hdirectory htask h =>
    subst hdirectory htask
    refine leftBy_runGenerator (nameChars_of_validateGeneratorName hname)
      (fun record produced text hproduces hread => ?_) h fun p hp stored hstored => ?_
    · intro text' record' htext hread'
      obtain rfl := Stored.text.inj htext
      obtain rfl := Option.some.inj (hread.symm.trans hread')
      exact ⟨task, List.mem_cons_self, produced, hproduces⟩
    · intro text record htext hread
      obtain ⟨earlier, hearlier, hproduced⟩ := hs p hp stored hstored text record htext hread
      exact ⟨earlier, List.mem_cons_of_mem _ hearlier, hproduced⟩

theorem genuine_run (hname : validateGeneratorName "generator" name = .ok ())
    (hfresh : ∀ p ∈ recordPaths directory name, start.files p = none)
    (h : ReflTransGen (GeneratorStep codec directory name) start s) :
    Genuine codec directory name s := by
  induction h with
  | refl =>
    intro p hp stored hstored
    rw [hfresh p hp] at hstored
    cases hstored
  | tail _ hstep ih => exact genuine_step hname hstep ih

/-- **Cached outputs are genuine, and a run that fails before it has published
keeps the outputs exactly if their backup can be moved back.** -/
theorem generator_publication (hserialize : Faithful codec.serialize)
    (hname : validateGeneratorName "generator" name = .ok ())
    (hfresh : ∀ p ∈ recordPaths directory name, start.files p = none)
    (hrun : ReflTransGen (GeneratorStep codec directory name) start s) (task : GeneratorTask)
    (hdirectory : task.directory = directory) (htask : task.name = name)
    (hapart : ∀ earlier ∈ s.ran, KeysApart codec task earlier)
    (outcomes : List (Outcome (Stored OutputTree))) :
    (∀ result w', exec (runGenerator codec task) ⟨s.files, outcomes, []⟩ = (.ok result, w') →
      result.cached = true → ∃ earlier ∈ s.ran, ∃ record produced entries,
        Produces codec earlier record produced ∧
        (∃ prepared, task.prepare codec = .ok prepared ∧ prepared.key = record.key) ∧
        w'.files task.finalRoot = some (.tree entries) ∧
        ∀ output, (output ∈ entries ↔ output ∈ task.generator.outputs) ∧
          (output ∈ task.generator.outputs → ∃ digest, record.outputs[output]? = some digest ∧
            treeDigest codec task.finalRoot output entries[output]? = .ok digest)) ∧
    ∀ e w', exec (runGenerator codec task) ⟨s.files, outcomes, []⟩ = (.error e, w') →
      Avoids lookFails (runGenerator codec task) ⟨s.files, outcomes, []⟩ →
      Avoids (movesIn task.temporaryRoot task.finalRoot) (runGenerator codec task)
        ⟨s.files, outcomes, []⟩ →
      ((w'.files task.finalRoot = s.files task.finalRoot ∧
          w'.files task.statePath = s.files task.statePath) ↔
        Avoids (rollbackFails task.finalRoot (backupOf task.pid task.finalRoot))
          (runGenerator codec task) ⟨s.files, outcomes, []⟩) := by
  subst hdirectory htask
  refine ⟨fun result w' h hcached => ?_, fun e w' h hlooks hunpublished => ?_⟩
  · obtain ⟨⟨prepared, cached⟩, w₁, hstart, h⟩ := FileStore.exec_bind_eq_ok.mp h
    obtain ⟨hprepare, hw₁, hfound⟩ := exec_start_eq_ok hstart
    cases cached with
    | false =>
      obtain ⟨⟨⟩, w₂, -, h⟩ := FileStore.exec_bind_eq_ok.mp h
      obtain ⟨⟨⟩, w₃, -, h⟩ := FileStore.exec_bind_eq_ok.mp h
      obtain ⟨outputs, w₄, -, h⟩ := FileStore.exec_bind_eq_ok.mp h
      obtain rfl := Except.ok.inj (Prod.mk.inj h).1
      cases hcached
    | true =>
      obtain ⟨text, record, entries, hstate, hread, hkey, hfinal, hmatches⟩ := hfound rfl
      obtain ⟨earlier, hearlier, produced, hproduces⟩ :=
        genuine_run hname hfresh hrun _ (statePath_mem task) _ hstate text record rfl hread
      obtain ⟨prepared', hprepare', hkey'⟩ := hproduces.key
      have hgenerator := generator_of_key hserialize (hapart earlier hearlier) hprepare hprepare'
        (hkey.symm.trans hkey'.symm)
      have hcount : Within ∅ (outputFileCount task.finalRoot >>= fun outputs => pure
          (⟨task.module, task.name, prepared.inputs.length, outputs, true⟩ : GeneratorResult)) :=
        .bind (within_outputFileCount ∅) fun _ => trivial
      have hdeclared : ∀ output, output ∈ record.outputs ↔ output ∈ task.generator.outputs :=
        fun output => by rw [hproduces.outputs, hgenerator]
      refine ⟨earlier, hearlier, record, produced, entries, hproduces,
        ⟨prepared, hprepare, hkey.symm⟩, ?_, fun output => ⟨?_, fun houtput => ?_⟩⟩
      · rw [hcount.exec h (Set.notMem_empty _), hw₁]
        exact hfinal
      · rw [← hdeclared, ← Std.ExtTreeMap.mem_keys, hmatches.names, Std.ExtTreeMap.mem_keys]
      · have hrecorded := (hdeclared output).mpr houtput
        rw [Std.ExtTreeMap.mem_iff_isSome_getElem?] at hrecorded
        obtain ⟨digest, hdigest⟩ := Option.isSome_iff_exists.mp hrecorded
        exact ⟨digest, hdigest, hmatches.digests output digest
          (Std.ExtTreeMap.mem_toList_iff_getElem?_eq_some.mpr hdigest)⟩
  · rcases survives_runGenerator (nameChars_of_validateGeneratorName hname) hlooks h with
      ⟨-, hkept⟩ | ⟨hpublished, -⟩
    · exact hkept
    · exact absurd hunpublished hpublished

end History

-- A rollback that fails
-- ---

def copyOutputs : OutputTree :=
  (∅ : OutputTree).insert "java"
    (.directory (.ok [(.ofString "A.java", utf8 "class A {}")]))

def copyRecord : GeneratorCacheRecord where
  key := "sha256:" ++ copyDigest
  outputs := (∅ : BTreeMap String).insert "java"
    "sha256:2869fba82570f5f383c5395098a573092717caf108df079867c607262942776b"

def copyState : String :=
  "\x7b\n  \"key\": \"sha256:" ++ copyDigest ++ "\",\n  \"outputs\": \x7b\n" ++
    "    \"java\": \"sha256:2869fba82570f5f383c5395098a573092717caf108df079867c607262942776b\"\n" ++
    "  \x7d\n\x7d"

def copyCodec : Codec where
  serialize := serializeCopy
  sha256 bytes :=
    if bytes = parts [utf8 "A.java", utf8 "class A {}"] then
      "2869fba82570f5f383c5395098a573092717caf108df079867c607262942776b"
    else copyDigest
  toVecPretty record := if record = copyRecord then .ok copyState else .error "unknown record"
  fromSlice text := if text = copyState then some copyRecord else none
  reads record text h := by
    split at h
    · next hrecord =>
      cases h
      rw [if_pos rfl, hrecord]
    · cases h

def copyTask (rebuild : Bool) : GeneratorTask where
  directory := ["m"]
  module := "m"
  generators := some ((∅ : BTreeMap Generator).insert "copy" copyGenerator)
  workspaceRoot := ["m"]
  name := "copy"
  generator := copyGenerator
  rebuild := rebuild
  pid := "7"
  sequence := "0"
  inputs := .ok [[.ofString "m", .ofString "A"]]
  workingDirectory := .ok [.ofString "m"]
  javaHome := .ok (.ofString "/jdk")
  searchPath := .ok (.ofString "/jdk/bin:/usr/bin")
  inherited _ := none
  executable _ := .ok [.ofString "usr", .ofString "bin", .ofString "cat"]
  before := copyFiles
  after := copyFiles
  process _ := .ok copyOutputs

def copiedWorld : World Path (Stored OutputTree) :=
  (exec (runGenerator copyCodec (copyTask false)) (.calm fun _ => none)).2

def rollbackOutcomes : List (Outcome (Stored OutputTree)) :=
  List.replicate 11 .succeeds ++ [.fails none, .succeeds, .fails none]

theorem rollback_loses_outputs :
    copiedWorld.files (copyTask true).finalRoot = some (.tree copyOutputs) ∧
      ∃ w', exec (runGenerator copyCodec (copyTask true))
          ⟨copiedWorld.files, rollbackOutcomes, []⟩ =
        (.error (ioError (copyTask true).finalRoot), w') ∧
        w'.files (copyTask true).finalRoot = none ∧
        w'.files (copyTask true).statePath = some (.text copyState) := by
  have hresult : (exec (runGenerator copyCodec (copyTask true))
      ⟨copiedWorld.files, rollbackOutcomes, []⟩).1 =
        .error (ioError (copyTask true).finalRoot) := by decide +kernel
  refine ⟨by decide +kernel, _, Prod.ext hresult rfl, by decide +kernel, by decide +kernel⟩

theorem fits_of_copy {hashed : GeneratorInputs}
    (h : (copyTask false).hashed copyCodec = .ok hashed) : ∀ piece ∈ hashed.pieces, Fits piece := by
  have hsmall : (((copyTask false).hashed copyCodec).toOption.all fun hashed =>
      hashed.pieces.all fun piece => piece.length < 1000) = true := by decide +kernel
  rw [h] at hsmall
  intro piece hp
  have hlength := of_decide_eq_true (List.all_eq_true.mp hsmall piece hp)
  show piece.length < 2 ^ 64
  omega

theorem copied_is_genuine :
    ∃ earlier ∈ [copyTask false], ∃ record produced entries,
      Produces copyCodec earlier record produced ∧
      copiedWorld.files (copyTask false).finalRoot = some (.tree entries) ∧
      ∀ output, output ∈ entries ↔ output ∈ copyGenerator.outputs := by
  have hrun : ReflTransGen (GeneratorStep copyCodec ["m"] "copy") ⟨fun _ => none, []⟩
      ⟨copiedWorld.files, [copyTask false]⟩ :=
    .single (.ran _ (copyTask false) [] rfl rfl (FileStore.leftBy_exec _ _))
  have hapart : ∀ earlier ∈ [copyTask false], KeysApart copyCodec (copyTask false) earlier := by
    intro earlier hearlier hashed hashed' h h'
    obtain rfl := List.mem_singleton.mp hearlier
    obtain rfl := Except.ok.inj (h.symm.trans h')
    refine ⟨fun piece hp => fits_of_copy h piece ?_, fun _ => rfl⟩
    rwa [List.mem_append, or_self] at hp
  have hresult : (exec (runGenerator copyCodec (copyTask false)) ⟨copiedWorld.files, [], []⟩).1 =
      .ok ⟨"m", "copy", 1, 1, true⟩ := by decide +kernel
  have hkept : (exec (runGenerator copyCodec (copyTask false))
      ⟨copiedWorld.files, [], []⟩).2.files (copyTask false).finalRoot =
        copiedWorld.files (copyTask false).finalRoot := by decide +kernel
  obtain ⟨earlier, hearlier, record, produced, entries, hproduces, -, hfinal, houtputs⟩ :=
    (generator_publication serializeCopy_faithful (by decide) (fun _ _ => rfl) hrun
      (copyTask false) rfl rfl hapart []).1 _ _ (Prod.ext hresult rfl) rfl
  rw [hkept] at hfinal
  exact ⟨earlier, hearlier, record, produced, entries, hproduces, hfinal,
    fun output => (houtputs output).1⟩

end JMan.Build
