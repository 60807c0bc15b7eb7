import Mathlib.Data.Bool.AllAny
import JMan.Build.GeneratorInputs

/-!
# JMan — compiling the tests of a module again

`compile_test_sources` of `jman-build/src/lib.rs`. The fingerprint is taken of the test
sources and the class path only, of an archive by its length, and with nothing that says
where a list or a file ends. The output is published first and the fingerprint recorded
after it.

* `skipped_iff` — when a compilation that is skipped would have been the recorded one.
-/

namespace JMan.Build

open JMan.Config
open Encoding (Bytes Distinguishes utf8 utf8_injective le8 paired paired_injective)
open FileStore (Operation Access Outcome World LeftBefore Runs Within exec act attempt lookFails)
open OsText (OsString OsPath)
open Paths (Path)
open Relation (ReflTransGen)

-- What javac is given
-- ---

structure JavaToolchain where
  javac : OsString
  version : String
  major : Nat
deriving DecidableEq

inductive EntryKind where
  /-- Neither a file nor a directory. -/
  | other
  | file (bytes : Bytes)
  /-- A symbolic link to a directory. -/
  | link
  | directory (listing : Listing)

/-- The files of the machine when tests are compiled. -/
structure TestFiles where
  read : OsPath → Except String Bytes
  entry : OsPath → EntryKind

/-- What `javac` finds at an entry of the class path. -/
inductive EntryContent where
  | nothing
  | archive (bytes : Bytes)
  | tree (files : List (OsPath × Bytes))
deriving DecidableEq

/-- What `compile_test_sources` is given. -/
structure TestRequest where
  manifest : Manifest
  toolchain : JavaToolchain
  sources : List OsPath
  classpath : List OsPath
  processors : List OsPath

/-- What `javac` is given: its options, and the files with their bytes. -/
@[ext]
structure TestInputs where
  toolchain : JavaToolchain
  release : Nat
  encoding : String
  compilerArgs : List String
  sources : List (OsPath × Bytes)
  classpath : List (OsPath × EntryContent)
  processors : List (OsPath × EntryContent)
deriving DecidableEq

section Reading

variable (files : TestFiles)

/-- `fs::read(file)`, with the file. -/
def readNamed (file : OsPath) : Except BuildError (OsPath × Bytes) := do
  let bytes ← readFile files.read file
  return (file, bytes)

def readEntry (entry : OsPath) : Except BuildError (OsPath × EntryContent) :=
  match files.entry entry with
  | .other => .ok (entry, .nothing)
  | .file bytes => .ok (entry, .archive bytes)
  | .link => .error (symbolicLink entry.absolute.toStringLossy)
  | .directory listing => do
    let found ← inputFiles entry listing
    let contents ← found.mapM (readNamed files)
    return (entry, .tree contents)

def TestRequest.inputs (request : TestRequest) : Except BuildError TestInputs := do
  let sources ← request.sources.mapM (readNamed files)
  let classpath ← request.classpath.mapM (readEntry files)
  let processors ← request.processors.mapM (readEntry files)
  return { toolchain := request.toolchain
           release := request.manifest.project.javaRelease
           encoding := (request.manifest.build.map Build.encoding).getD "UTF-8"
           compilerArgs := (request.manifest.build.map Build.compilerArgs).getD []
           sources := sources
           classpath := classpath
           processors := processors }

end Reading

/-- `env::join_paths(paths)` -/
def joinPaths (paths : List OsPath) : Except BuildError OsString :=
  if paths.any fun path => path.absolute.bytes.contains 58 then
    .error (.invalid ("could not construct Java classpath: path segment contains separator " ++
      "`:`"))
  else .ok ⟨[58].intercalate (paths.map fun path => path.absolute.bytes)⟩

/-- The arguments of `javac`, when it writes to these directories. -/
def TestInputs.arguments (temporary generated : OsString) (inputs : TestInputs) :
    Except BuildError (List OsString) := do
  let classpath ← joinPaths (inputs.classpath.map Prod.fst)
  let processors ←
    if inputs.processors.isEmpty then pure []
    else do
      let joined ← joinPaths (inputs.processors.map Prod.fst)
      pure [.ofString "-processorpath", joined]
  let full := if 23 ≤ inputs.toolchain.major ∧ inputs.release < 23 then ["-proc:full"] else []
  return [.ofString "-d", temporary, .ofString "-s", generated, .ofString "--release",
      .ofString (toString inputs.release), .ofString "-encoding", .ofString inputs.encoding,
      .ofString "-classpath", classpath] ++
    inputs.compilerArgs.map .ofString ++ full.map .ofString ++ processors ++
    inputs.sources.map fun source => source.1.absolute

-- The fingerprint
-- ---

def shownFiles (files : List (OsPath × Bytes)) : List (Bytes × Bytes) :=
  files.map fun file => (shown file.1.absolute, file.2)

/-- What is hashed of an entry of the class path, after its path. -/
def EntryContent.pieces : EntryContent → List Bytes
  | .nothing => []
  | .archive bytes => [le8 bytes.length]
  | .tree files => paired (shownFiles files)

def entryPieces (entry : OsPath × EntryContent) : List Bytes :=
  shown entry.1.absolute :: entry.2.pieces

/-- The arguments of `hash.update`, in order. -/
def TestInputs.pieces (inputs : TestInputs) : List Bytes :=
  [utf8 stateVersion, utf8 inputs.toolchain.version] ++
    (paired (shownFiles inputs.sources) ++
      (inputs.classpath ++ inputs.processors).flatMap entryPieces)

def testFingerprint (sha256 : Bytes → String) (inputs : TestInputs) : String :=
  "sha256:" ++ sha256 inputs.pieces.flatten

-- Inputs with one fingerprint
-- ---

/-- There are as many files, and paths that are shown alike are the same. -/
def FilesApart : List (OsPath × Bytes) → List (OsPath × Bytes) → Prop :=
  List.Forall₂ fun one other =>
    shown one.1.absolute = shown other.1.absolute → one.1 = other.1

/-- What is found is of one kind, and archives of one length are the same. -/
def EntryContent.Apart : EntryContent → EntryContent → Prop
  | .nothing, .nothing => True
  | .archive bytes, .archive bytes' => le8 bytes.length = le8 bytes'.length → bytes = bytes'
  | .tree files, .tree files' => FilesApart files files'
  | _, _ => False

def EntriesApart : List (OsPath × EntryContent) → List (OsPath × EntryContent) → Prop :=
  List.Forall₂ fun one other =>
    (shown one.1.absolute = shown other.1.absolute → one.1 = other.1) ∧ one.2.Apart other.2

/-- Two compilations agree on what a fingerprint leaves open: all that is not hashed, and how
what is hashed falls into its parts. -/
structure SameTestReading (left right : TestInputs) : Prop where
  javac : left.toolchain.javac = right.toolchain.javac
  major : left.toolchain.major = right.toolchain.major
  release : left.release = right.release
  encoding : left.encoding = right.encoding
  compilerArgs : left.compilerArgs = right.compilerArgs
  sources : FilesApart left.sources right.sources
  classpath : EntriesApart left.classpath right.classpath
  processors : EntriesApart left.processors right.processors
  pieces : left.pieces.map List.length = right.pieces.map List.length

section Fingerprints

variable {left right : TestInputs}

theorem FilesApart.refl (files : List (OsPath × Bytes)) : FilesApart files files :=
  List.forall₂_same.mpr fun _ _ _ => rfl

theorem EntryContent.Apart.refl (content : EntryContent) : content.Apart content := by
  cases content with
  | nothing => trivial
  | archive bytes => exact fun _ => rfl
  | tree files => exact FilesApart.refl files

theorem EntriesApart.refl (entries : List (OsPath × EntryContent)) : EntriesApart entries entries :=
  List.forall₂_same.mpr fun entry _ => ⟨fun _ => rfl, .refl entry.2⟩

theorem SameTestReading.refl (inputs : TestInputs) : SameTestReading inputs inputs where
  javac := rfl
  major := rfl
  release := rfl
  encoding := rfl
  compilerArgs := rfl
  sources := .refl _
  classpath := .refl _
  processors := .refl _
  pieces := rfl

theorem FilesApart.eq {files files' : List (OsPath × Bytes)} (h : FilesApart files files')
    (hshown : shownFiles files = shownFiles files') : files = files' := by
  unfold shownFiles at hshown
  induction h with
  | nil => rfl
  | cons hfile _ ih =>
    rw [List.map_cons, List.map_cons, List.cons.injEq, Prod.mk.injEq] at hshown
    obtain ⟨⟨hpath, hbytes⟩, hrest⟩ := hshown
    rw [Prod.ext (hfile hpath) hbytes, ih hrest]

theorem FilesApart.length_paired {files files' : List (OsPath × Bytes)}
    (h : FilesApart files files') :
    (paired (shownFiles files)).length = (paired (shownFiles files')).length := by
  rw [Encoding.length_paired, Encoding.length_paired, shownFiles, shownFiles, List.length_map,
    List.length_map, List.Forall₂.length_eq h]

theorem EntryContent.Apart.length_pieces {content content' : EntryContent}
    (h : content.Apart content') : content.pieces.length = content'.pieces.length := by
  cases content with
  | nothing =>
    cases content' with
    | nothing => rfl
    | archive bytes => cases h
    | tree files => cases h
  | archive bytes =>
    cases content' with
    | nothing => cases h
    | archive bytes' => rfl
    | tree files => cases h
  | tree files =>
    cases content' with
    | nothing => cases h
    | archive bytes => cases h
    | tree files' => exact FilesApart.length_paired h

theorem EntryContent.Apart.eq {content content' : EntryContent} (h : content.Apart content')
    (hpieces : content.pieces = content'.pieces) : content = content' := by
  cases content with
  | nothing =>
    cases content' with
    | nothing => rfl
    | archive bytes => cases h
    | tree files => cases h
  | archive bytes =>
    cases content' with
    | nothing => cases h
    | archive bytes' => rw [h (List.cons.inj hpieces).1]
    | tree files => cases h
  | tree files =>
    cases content' with
    | nothing => cases h
    | archive bytes => cases h
    | tree files' => rw [FilesApart.eq h (paired_injective hpieces)]

theorem EntriesApart.eq {entries entries' : List (OsPath × EntryContent)}
    (h : EntriesApart entries entries')
    (hpieces : entries.flatMap entryPieces = entries'.flatMap entryPieces) : entries = entries' := by
  induction h with
  | nil => rfl
  | @cons one other rest rest' hentry _ ih =>
    obtain ⟨hpath, hcontent⟩ := hentry
    have hlength : (entryPieces one).length = (entryPieces other).length := by
      rw [entryPieces, entryPieces, List.length_cons, List.length_cons, hcontent.length_pieces]
    obtain ⟨hfirst, hrest⟩ := List.append_inj hpieces hlength
    obtain ⟨hshown, hcontents⟩ := List.cons.inj hfirst
    rw [Prod.ext (hpath hshown) (hcontent.eq hcontents), ih hrest]

theorem SameTestReading.eq_of_pieces (h : SameTestReading left right)
    (hpieces : left.pieces = right.pieces) : left = right := by
  obtain ⟨hheads, hrest⟩ := List.append_inj hpieces rfl
  obtain ⟨hsources, hentries⟩ := List.append_inj hrest h.sources.length_paired
  have hversion : left.toolchain.version = right.toolchain.version :=
    utf8_injective (List.cons.inj (List.cons.inj hheads).2).1
  have happend : EntriesApart (left.classpath ++ left.processors)
      (right.classpath ++ right.processors) := List.rel_append h.classpath h.processors
  obtain ⟨hclasspath, hprocessors⟩ := List.append_inj (happend.eq hentries)
    (List.Forall₂.length_eq h.classpath)
  have htoolchain : left.toolchain = right.toolchain := by
    rw [JavaToolchain.mk.injEq]
    exact ⟨h.javac, hversion, h.major⟩
  exact TestInputs.ext htoolchain h.release h.encoding h.compilerArgs
    (h.sources.eq (paired_injective hsources)) hclasspath hprocessors

/-- **Compilations with one fingerprint are the same if they agree on what is not hashed**
and on where each part of what is hashed ends. -/
theorem inputs_eq_iff {sha256 : Bytes → String}
    (hsha : Distinguishes sha256 left.pieces.flatten right.pieces.flatten)
    (h : testFingerprint sha256 left = testFingerprint sha256 right) :
    left = right ↔ SameTestReading left right := by
  constructor
  · rintro rfl
    exact .refl left
  · intro hreading
    have htext := hsha ((String.append_right_inj "sha256:").mp h)
    exact hreading.eq_of_pieces (List.eq_iff_flatten_eq.mpr ⟨htext, hreading.pieces⟩)

end Fingerprints

-- The function
-- ---

/-- What is in a directory of the module, by what it was made of. -/
inductive TestTree where
  | empty
  | classes (inputs : TestInputs)
  /-- What annotation processors wrote. -/
  | generated (inputs : TestInputs)

/-- `.jman/output/test-classes` -/
def testOutput (directory : Path) : Path := directory ++ [".jman", "output", "test-classes"]

/-- `.jman/test.sha256` -/
def testState (directory : Path) : Path := directory ++ [".jman", "test.sha256"]

/-- `.jman/test-classes.tmp.{pid}` -/
def testTemporary (pid : String) (directory : Path) : Path :=
  directory ++ [".jman", "test-classes.tmp." ++ pid]

/-- `.jman/output/generated/test-sources/annotations` -/
def testGenerated (directory : Path) : Path :=
  directory ++ [".jman", "output", "generated", "test-sources", "annotations"]

section Compile

variable (sha256 : Bytes → String) (javac : OsString → List OsString → TestInputs → Except String Unit)

def testsUpToDate (directory : Path) (fingerprint : String) : Action (Stored TestTree) Bool := do
  if ← recordedIs (testState directory) fingerprint then isDirectory (testOutput directory)
  else return false

/-- The classes are prepared beside the output. -/
def prepareTests (pid name : String) (directory : Path) (inputs : TestInputs) :
    Action (Stored TestTree) Unit := do
  let temporary := testTemporary pid directory
  let generated := testGenerated directory
  whenThere temporary (.clear temporary)
  act (ioError temporary) (.write temporary (.tree .empty))
  whenThere generated (.clear generated)
  act (ioError generated) (.write generated (.tree .empty))
  let arguments ← ofExcept (inputs.arguments (osPath temporary) (osPath generated))
  match javac inputs.toolchain.javac arguments inputs with
  | .error diagnostics => do
    attempt (.clear temporary)
    throw (.compilation (name ++ " tests") diagnostics)
  | .ok () => do
    act (.javac inputs.toolchain.javac.toStringLossy "input/output error")
      (.write generated (.tree (.generated inputs)))
    act (.javac inputs.toolchain.javac.toStringLossy "input/output error")
      (.write temporary (.tree (.classes inputs)))

/-- `compile_test_sources`, after what it has read of its inputs: whether it compiled. -/
def compileTests (pid name : String) (directory : Path) (inputs : TestInputs) :
    Action (Stored TestTree) Bool := do
  if ← testsUpToDate directory (testFingerprint sha256 inputs) then return false
  prepareTests javac pid name directory inputs
  replaceDirectory pid (testTemporary pid directory) (testOutput directory)
  act (ioError (testState directory))
    (.write (testState directory) (.text (testFingerprint sha256 inputs ++ "\n")))
  return true

def compileTestSources (files : TestFiles) (pid : String) (directory : Path) (request : TestRequest) :
    Action (Stored TestTree) Bool := do
  let inputs ← ofExcept (request.inputs files)
  compileTests sha256 javac pid request.manifest.project.name directory inputs

end Compile

-- The paths of the tests
-- ---

section Paths

variable {pid : String} {directory : Path}

theorem testOutput_ne_nil : testOutput directory ≠ [] :=
  List.append_ne_nil_of_right_ne_nil _ (List.cons_ne_nil _ _)

theorem backupOf_testOutput : backupOf pid (testOutput directory) =
    directory ++ [".jman", "output", "test-classes.old." ++ pid] := by
  have hlast : (testOutput directory).getLast? = some "test-classes" := by
    rw [testOutput, List.getLast?_append]
    rfl
  have hinit : (testOutput directory).dropLast = directory ++ [".jman", "output"] := by
    rw [testOutput, List.dropLast_append_of_ne_nil (List.cons_ne_nil _ _)]
    rfl
  have hstem : Paths.fileStem "test-classes".toList = "test-classes".toList := by decide
  have hname : String.ofList ("test-classes".toList ++ '.' :: ("old." ++ pid).toList) =
      "test-classes.old." ++ pid := by
    rw [← String.toList_inj, String.toList_ofList, String.toList_append, String.toList_append]
    rfl
  rw [backupOf, Paths.withExtension, hlast]
  show (testOutput directory).dropLast ++ _ = _
  rw [hinit, hstem, hname, List.append_assoc]
  rfl

theorem below_ne {names names' : List String} (h : names.length ≠ names'.length) :
    directory ++ names ≠ directory ++ names' := by
  intro heq
  exact h (congrArg List.length (List.append_cancel_left heq))

theorem testTemporary_ne_output : testTemporary pid directory ≠ testOutput directory :=
  below_ne (by simp)

theorem testTemporary_ne_backup :
    testTemporary pid directory ≠ backupOf pid (testOutput directory) := by
  rw [backupOf_testOutput]
  exact below_ne (by simp)

theorem testState_ne_temporary : testState directory ≠ testTemporary pid directory := by
  refine stateName_ne fun h => ?_
  have hhead := congrArg (fun name => name.toList[4]?) h
  rw [String.toList_append] at hhead
  cases hhead

def testScratch (pid : String) (directory : Path) : Set Path :=
  {testTemporary pid directory, testGenerated directory}

theorem testState_notMem_scratch : testState directory ∉ testScratch pid directory := by
  rintro (h | h)
  · exact testState_ne_temporary h
  · exact below_ne (by simp) h

theorem testOutput_notMem_scratch : testOutput directory ∉ testScratch pid directory := by
  rintro (h | h)
  · exact testTemporary_ne_output h.symm
  · exact below_ne (by simp) h

theorem testState_notMem : testState directory ∉
    ({testTemporary pid directory, testOutput directory,
      backupOf pid (testOutput directory)} : Set Path) := by
  rw [backupOf_testOutput]
  rintro (h | h | h)
  · exact testState_ne_temporary h
  · exact below_ne (by simp) h
  · exact below_ne (by simp) h

end Paths

-- One run
-- ---

section Run

variable {sha256 : Bytes → String} {javac : OsString → List OsString → TestInputs → Except String Unit}
  {pid name : String} {directory : Path} {inputs : TestInputs} {fingerprint : String}
  {w w' : World Path (Stored TestTree)}

theorem within_testsUpToDate (S : Set Path) :
    Within S (testsUpToDate directory fingerprint) := by
  unfold testsUpToDate
  refine .bind (within_recordedIs S _) fun recorded => ?_
  split
  · exact ⟨fun p hp => by simp [Operation.accesses] at hp, fun _ => trivial⟩
  · trivial

theorem exec_testsUpToDate_eq_ok (h : exec (testsUpToDate directory fingerprint) w = (.ok true, w')) :
    ∃ text tree, w.files (testState directory) = some (.text text) ∧ trim text = fingerprint ∧
      w.files (testOutput directory) = some (.tree tree) := by
  unfold testsUpToDate at h
  obtain ⟨recorded, v, hrecorded, h⟩ := FileStore.exec_bind_eq_ok.mp h
  have hv : v.files (testOutput directory) = w.files (testOutput directory) :=
    (within_recordedIs ∅ _).exec hrecorded (Set.notMem_empty _)
  cases recorded with
  | false => cases h
  | true =>
    obtain ⟨text, htext, htrim⟩ := exec_recordedIs_eq_ok hrecorded
    obtain ⟨tree, htree⟩ := exec_isDirectory_eq_ok h
    exact ⟨text, tree, htext, htrim, hv ▸ htree⟩

theorem within_prepareTests :
    Within (testScratch pid directory) (prepareTests javac pid name directory inputs) := by
  have hclear : ∀ path ∈ testScratch pid directory, ∀ p, Access.changes p ∈
      (Operation.clear path : Operation Path (Stored TestTree)).accesses →
        p ∈ testScratch pid directory := by
    intro path hpath p hp
    have hp : p = path := by simpa [Operation.accesses] using hp
    exact hp ▸ hpath
  have hwrite : ∀ path ∈ testScratch pid directory, ∀ (stored : Stored TestTree) (p : Path),
      Access.changes p ∈ (Operation.write path stored).accesses → p ∈ testScratch pid directory := by
    intro path hpath stored p hp
    have hp : p = path := by simpa [Operation.accesses] using hp
    exact hp ▸ hpath
  have htemporary : testTemporary pid directory ∈ testScratch pid directory := Or.inl rfl
  have hgenerated : testGenerated directory ∈ testScratch pid directory := Or.inr rfl
  unfold prepareTests
  refine .bind (within_whenThere _ (hclear _ htemporary)) fun _ => ?_
  refine .bind (.act (hwrite _ htemporary _)) fun _ => ?_
  refine .bind (within_whenThere _ (hclear _ hgenerated)) fun _ => ?_
  refine .bind (.act (hwrite _ hgenerated _)) fun _ => ?_
  refine .bind (within_ofExcept _ _) fun arguments => ?_
  split
  · exact .bind (.attempt (hclear _ htemporary)) fun _ => trivial
  · exact .bind (.act (hwrite _ hgenerated _)) fun _ => .act (hwrite _ htemporary _)

theorem exec_prepareTests_eq_ok (h : exec (prepareTests javac pid name directory inputs) w = (.ok (), w')) :
    w'.files (testTemporary pid directory) = some (.tree (.classes inputs)) := by
  unfold prepareTests at h
  obtain ⟨⟨⟩, w₁, -, h⟩ := FileStore.exec_bind_eq_ok.mp h
  obtain ⟨⟨⟩, w₂, -, h⟩ := FileStore.exec_bind_eq_ok.mp h
  obtain ⟨⟨⟩, w₃, -, h⟩ := FileStore.exec_bind_eq_ok.mp h
  obtain ⟨⟨⟩, w₄, -, h⟩ := FileStore.exec_bind_eq_ok.mp h
  obtain ⟨arguments, w₅, -, h⟩ := FileStore.exec_bind_eq_ok.mp h
  split at h
  · obtain ⟨⟨⟩, w₆, -, hthrow⟩ := FileStore.exec_bind_eq_ok.mp h
    cases hthrow
  · obtain ⟨⟨⟩, w₆, -, h⟩ := FileStore.exec_bind_eq_ok.mp h
    rw [(FileStore.exec_act_eq_ok h).2]
    exact Function.update_self ..

theorem exec_compileTests_eq_ok {built : Bool}
    (h : exec (compileTests sha256 javac pid name directory inputs) w = (.ok built, w')) :
    (built = false ∧ w'.files (testState directory) = w.files (testState directory) ∧
      w'.files (testOutput directory) = w.files (testOutput directory) ∧
      ∃ text tree, w.files (testState directory) = some (.text text) ∧
        trim text = testFingerprint sha256 inputs ∧
        w.files (testOutput directory) = some (.tree tree)) ∨
    (built = true ∧
      w'.files (testState directory) = some (.text (testFingerprint sha256 inputs ++ "\n")) ∧
      w'.files (testOutput directory) = some (.tree (.classes inputs))) := by
  obtain ⟨current, w₁, hcurrent, h⟩ := FileStore.exec_bind_eq_ok.mp h
  have hw₁ : ∀ p, w₁.files p = w.files p := fun p =>
    (within_testsUpToDate ∅).exec hcurrent (Set.notMem_empty p)
  cases current with
  | true =>
    cases h
    exact Or.inl ⟨rfl, hw₁ _, hw₁ _, exec_testsUpToDate_eq_ok hcurrent⟩
  | false =>
    obtain ⟨⟨⟩, w₂, hprepare, h⟩ := FileStore.exec_bind_eq_ok.mp h
    obtain ⟨⟨⟩, w₃, hreplace, h⟩ := FileStore.exec_bind_eq_ok.mp h
    obtain ⟨⟨⟩, w₄, hrecord, h⟩ := FileStore.exec_bind_eq_ok.mp h
    cases h
    have houtput := (exec_replaceBy_eq_ok testOutput_ne_nil testTemporary_ne_backup
      testTemporary_ne_output hreplace).2
    have hne : testOutput directory ≠ testState directory := fun heq =>
      @testState_notMem pid directory (Or.inr (Or.inl heq.symm))
    rw [(FileStore.exec_act_eq_ok hrecord).2]
    refine Or.inr ⟨rfl, Function.update_self .., ?_⟩
    show Function.update w₃.files (testState directory) _ (testOutput directory) = _
    rw [Function.update_of_ne hne, houtput, exec_prepareTests_eq_ok hprepare]

/-- The new classes have been moved in, or a look has failed. -/
def publishesTests (directory : Path) (pid : String) (operation : Operation Path (Stored TestTree))
    (w : World Path (Stored TestTree)) : Prop :=
  lookFails operation w ∨
    operation = .rename (testTemporary pid directory) (testOutput directory) ∧ w.next = .succeeds

/-- What a step can leave at the two paths that decide whether tests are compiled again. -/
structure KeepsRecord (directory : Path) (before after : Path → Option (Stored TestTree)) : Prop where
  state : after (testState directory) = before (testState directory)
  output : after (testOutput directory) = before (testOutput directory) ∨
    after (testOutput directory) = none

theorem leftBefore_compileTests {files : Path → Option (Stored TestTree)}
    (h : LeftBefore (publishesTests directory pid)
      (compileTests sha256 javac pid name directory inputs) w files) :
    KeepsRecord directory w.files files := by
  rcases h.of_bind with hleft | ⟨current, w₁, hcurrent, -, hleft⟩
  · have hkept : ∀ p, files p = w.files p := fun p =>
      (within_testsUpToDate ∅).leftBy hleft.leftBy (Set.notMem_empty p)
    exact ⟨hkept _, Or.inl (hkept _)⟩
  have hw₁ : ∀ p, w₁.files p = w.files p := fun p =>
    (within_testsUpToDate ∅).exec hcurrent (Set.notMem_empty p)
  cases current with
  | true =>
    obtain rfl : files = w₁.files := hleft
    exact ⟨hw₁ _, Or.inl (hw₁ _)⟩
  | false =>
    rcases hleft.of_bind with hleft | ⟨⟨⟩, w₂, hprepare, -, hleft⟩
    · have hkept : ∀ p, p ∉ testScratch pid directory → files p = w.files p := fun p hp =>
        (within_prepareTests.leftBy hleft.leftBy hp).trans (hw₁ p)
      exact ⟨hkept _ testState_notMem_scratch, Or.inl (hkept _ testOutput_notMem_scratch)⟩
    have hw₂ : ∀ p, p ∉ testScratch pid directory → w₂.files p = w.files p := fun p hp =>
      (within_prepareTests.exec hprepare hp).trans (hw₁ p)
    -- the replacement can move the output away and cannot publish
    have hruns : Runs (publishesTests directory pid) _ _ _
        (replaceDirectory pid (testTemporary pid directory) (testOutput directory)) w₂ :=
      runs_replaceBy True False testOutput_ne_nil testTemporary_ne_backup testTemporary_ne_output
        (fun _ _ => Or.inl) (fun _ _ _ _ => trivial) fun v hnext hgood => hgood (Or.inr ⟨rfl, hnext⟩)
    rcases hleft.of_bind with hleft | ⟨⟨⟩, w₃, hreplace, havoids, -⟩
    · refine ⟨?_, ?_⟩
      · rw [within_replaceBy.leftBy hleft.leftBy testState_notMem, hw₂ _ testState_notMem_scratch]
      · rw [← hw₂ _ testOutput_notMem_scratch]
        rcases hruns.during files hleft with hold | hnone | hnew
        · exact Or.inl hold
        · exact Or.inr hnone.2
        · exact hnew.1.elim
    · exact (hruns.done () w₃ hreplace havoids).1.elim

end Run

-- Histories
-- ---

section History

variable {sha256 : Bytes → String} {javac : OsString → List OsString → TestInputs → Except String Unit}
  {directory : Path} {files files' start : Path → Option (Stored TestTree)}

/-- Tests are compiled or found compiled; a compilation ends before it publishes; or
something else happens on the machine, that keeps what is recorded, and the output unless it
removes it. -/
inductive TestStep (sha256 : Bytes → String)
    (javac : OsString → List OsString → TestInputs → Except String Unit) (directory : Path) :
    (Path → Option (Stored TestTree)) → (Path → Option (Stored TestTree)) → Prop where
  | returned {files : Path → Option (Stored TestTree)} (machine : TestFiles) (pid : String)
      (request : TestRequest) (outcomes : List (Outcome (Stored TestTree))) {built : Bool}
      {w' : World Path (Stored TestTree)}
      (h : exec (compileTestSources sha256 javac machine pid directory request)
        ⟨files, outcomes, []⟩ = (.ok built, w')) : TestStep sha256 javac directory files w'.files
  | ended {files files' : Path → Option (Stored TestTree)} (machine : TestFiles) (pid : String)
      (request : TestRequest) (outcomes : List (Outcome (Stored TestTree)))
      (h : LeftBefore (publishesTests directory pid)
        (compileTestSources sha256 javac machine pid directory request) ⟨files, outcomes, []⟩ files') :
      TestStep sha256 javac directory files files'
  | elsewhere {files files' : Path → Option (Stored TestTree)} (h : KeepsRecord directory files files') :
      TestStep sha256 javac directory files files'

/-- The recorded fingerprint is that of what the output was compiled from. -/
def RecordedTests (sha256 : Bytes → String) (directory : Path)
    (files : Path → Option (Stored TestTree)) : Prop :=
  ∀ text tree, files (testState directory) = some (.text text) →
    files (testOutput directory) = some (.tree tree) →
      ∃ inputs, trim text = testFingerprint sha256 inputs ∧ tree = .classes inputs

theorem KeepsRecord.recorded (h : KeepsRecord directory files files')
    (hrecorded : RecordedTests sha256 directory files) : RecordedTests sha256 directory files' := by
  intro text tree htext htree
  rcases h.output with houtput | houtput
  · exact hrecorded text tree (h.state.symm.trans htext) (houtput.symm.trans htree)
  · rw [houtput] at htree
    cases htree

/-- `hex::encode` writes no white space. -/
def WritesHex (sha256 : Bytes → String) : Prop :=
  ∀ bytes, ∀ c ∈ (sha256 bytes).toList, whiteSpace c = false

theorem trim_line {text : String} (h : ∀ c ∈ text.toList, whiteSpace c = false) :
    trim (text ++ "\n") = text := by
  have hkeep : ∀ chars : List Char, (∀ c ∈ chars, whiteSpace c = false) →
      chars.dropWhile whiteSpace = chars := fun chars hchars =>
    Lines.trimStart_of_first fun c hc => hchars c (List.mem_of_mem_head? hc)
  by_cases hempty : text = ""
  · rw [hempty]
    decide
  · have hfilled : text.toList ++ ['\n'] = (text.toList ++ ['\n']).dropWhile whiteSpace := by
      rw [List.dropWhile_append, hkeep _ h,
        if_neg fun hnil => hempty (String.toList_inj.mp (List.isEmpty_iff.mp hnil))]
    have hnewline : whiteSpace '\n' = true := by decide
    rw [trim, String.toList_append]
    show String.ofList (((text.toList ++ ['\n']).dropWhile whiteSpace).reverse.dropWhile
      whiteSpace).reverse = text
    rw [← hfilled, List.reverse_append, List.reverse_singleton, List.singleton_append,
      List.dropWhile_cons_of_pos hnewline, hkeep _ fun c hc => h c (List.mem_reverse.mp hc),
      List.reverse_reverse, String.ofList_toList]

theorem trim_testFingerprint (hhex : WritesHex sha256) (inputs : TestInputs) :
    trim (testFingerprint sha256 inputs ++ "\n") = testFingerprint sha256 inputs := by
  have hname : ∀ c ∈ "sha256:".toList, whiteSpace c = false :=
    List.all_iff_forall_prop.mp (by decide)
  refine trim_line fun c hc => ?_
  rw [testFingerprint, String.toList_append] at hc
  rcases List.mem_append.mp hc with hc | hc
  · exact hname c hc
  · exact hhex _ c hc

theorem testsRecorded_step (hhex : WritesHex sha256)
    (h : TestStep sha256 javac directory files files')
    (hrecorded : RecordedTests sha256 directory files) : RecordedTests sha256 directory files' := by
  cases h with
  | elsewhere h => exact h.recorded hrecorded
  | ended machine pid request outcomes h =>
    rcases h.of_bind with hleft | ⟨inputs, w, hinputs, -, hleft⟩
    · have hkept : ∀ p, files' p = files p := fun p =>
        (within_ofExcept ∅ _).leftBy hleft.leftBy (Set.notMem_empty p)
      exact KeepsRecord.recorded ⟨hkept _, Or.inl (hkept _)⟩ hrecorded
    · obtain ⟨-, rfl⟩ := exec_ofExcept_eq_ok hinputs
      exact (leftBefore_compileTests hleft).recorded hrecorded
  | returned machine pid request outcomes h =>
    obtain ⟨inputs, w, hinputs, h⟩ := FileStore.exec_bind_eq_ok.mp h
    obtain ⟨-, rfl⟩ := exec_ofExcept_eq_ok hinputs
    intro text tree htext htree
    rcases exec_compileTests_eq_ok h with ⟨-, hstate, houtput, -⟩ | ⟨-, hstate, houtput⟩
    · exact hrecorded text tree (hstate.symm.trans htext) (houtput.symm.trans htree)
    · obtain rfl := Stored.text.inj (Option.some.inj (hstate.symm.trans htext))
      obtain rfl := Stored.tree.inj (Option.some.inj (houtput.symm.trans htree))
      exact ⟨inputs, trim_testFingerprint hhex inputs, rfl⟩

/-- **In every history the recorded fingerprint is that of what the output was compiled
from.** -/
theorem testsRecorded_run (hhex : WritesHex sha256) (hfresh : start (testState directory) = none)
    (h : ReflTransGen (TestStep sha256 javac directory) start files) :
    RecordedTests sha256 directory files := by
  induction h with
  | refl =>
    intro text tree htext
    rw [hfresh] at htext
    cases htext
  | tail _ hstep ih => exact testsRecorded_step hhex hstep ih

/-- **Tests that are not compiled again were compiled from the same inputs exactly if these
agree on what the fingerprint leaves out.** -/
theorem skipped_iff (hhex : WritesHex sha256) (hfresh : start (testState directory) = none)
    (hrun : ReflTransGen (TestStep sha256 javac directory) start files)
    {machine : TestFiles} {pid : String} {request : TestRequest}
    {outcomes : List (Outcome (Stored TestTree))} {w' : World Path (Stored TestTree)}
    (h : exec (compileTestSources sha256 javac machine pid directory request) ⟨files, outcomes, []⟩ =
      (.ok false, w')) :
    ∃ inputs compiled, request.inputs machine = .ok inputs ∧
      w'.files (testOutput directory) = some (.tree (.classes compiled)) ∧
      (Distinguishes sha256 compiled.pieces.flatten inputs.pieces.flatten →
        (compiled = inputs ↔ SameTestReading compiled inputs)) := by
  obtain ⟨inputs, w, hread, h⟩ := FileStore.exec_bind_eq_ok.mp h
  obtain ⟨hinputs, rfl⟩ := exec_ofExcept_eq_ok hread
  rcases exec_compileTests_eq_ok h with ⟨-, -, houtput, text, tree, htext, htrim, htree⟩ | ⟨hbuilt, -⟩
  · obtain ⟨compiled, hcompiled, rfl⟩ := testsRecorded_run hhex hfresh hrun text tree htext htree
    refine ⟨inputs, compiled, hinputs, houtput.trans htree, fun hsha => ?_⟩
    exact inputs_eq_iff hsha (hcompiled.symm.trans htrim)
  · cases hbuilt

end History

-- A release that is changed
-- ---

def sampleTests (release : Nat) : TestRequest where
  manifest := { bareManifest with project := { bareManifest.project with javaRelease := release } }
  toolchain := { javac := .ofString "/jdk/bin/javac"
                 version := "javac 21.0.2"
                 major := 21 }
  sources := [["m", "src", "test", "java", "ATest.java"].map .ofString]
  classpath := []
  processors := []

def sampleTestFiles : TestFiles where
  read _ := .ok (utf8 "class ATest \x7b\x7d\n")
  entry _ := .other

def sampleTestInputs (release : Nat) : TestInputs where
  toolchain := (sampleTests release).toolchain
  release := release
  encoding := "UTF-8"
  compilerArgs := []
  sources := [(["m", "src", "test", "java", "ATest.java"].map .ofString,
    utf8 "class ATest \x7b\x7d\n")]
  classpath := []
  processors := []

def testDigest : String := "1b00c915d35de8d4a1f8fa9d5c8c919aba6824cc32326ce723d43b2e065fd141"

def runSampleTests (pid : String) (release : Nat) (files : Path → Option (Stored TestTree)) :
    Except BuildError Bool × World Path (Stored TestTree) :=
  exec (compileTestSources (fun _ => testDigest) (fun _ _ _ => .ok ()) sampleTestFiles pid ["m"]
    (sampleTests release)) ⟨files, [], []⟩

def compiledTests : Path → Option (Stored TestTree) := (runSampleTests "7" 21 fun _ => none).2.files

theorem run_of_compiledTests : ReflTransGen
    (TestStep (fun _ => testDigest) (fun _ _ _ => .ok ()) ["m"]) (fun _ => none) compiledTests := by
  have hrun : (runSampleTests "7" 21 fun _ => none).1 = .ok true := rfl
  exact .single (.returned sampleTestFiles "7" (sampleTests 21) [] (Prod.ext hrun rfl))

/-- The release is changed to 17, and the tests stay as they were compiled for 21. -/
theorem changed_release_is_skipped :
    ∃ files, ReflTransGen (TestStep (fun _ => testDigest) (fun _ _ _ => .ok ()) ["m"])
        (fun _ => none) files ∧
      ∃ w', exec (compileTestSources (fun _ => testDigest) (fun _ _ _ => .ok ()) sampleTestFiles "8"
          ["m"] (sampleTests 17)) ⟨files, [], []⟩ = (.ok false, w') ∧
        (sampleTests 17).inputs sampleTestFiles = .ok (sampleTestInputs 17) ∧
        w'.files (testOutput ["m"]) = some (.tree (.classes (sampleTestInputs 21))) ∧
        sampleTestInputs 21 ≠ sampleTestInputs 17 := by
  have hskipped : (runSampleTests "8" 17 compiledTests).1 = .ok false := rfl
  exact ⟨compiledTests, run_of_compiledTests, (runSampleTests "8" 17 compiledTests).2,
    Prod.ext hskipped rfl, rfl, rfl, by decide +kernel⟩

theorem same_release_is_skipped :
    ∃ inputs compiled, (sampleTests 21).inputs sampleTestFiles = .ok inputs ∧
      (runSampleTests "8" 21 compiledTests).2.files (testOutput ["m"]) =
        some (.tree (.classes compiled)) ∧
      (Distinguishes (fun _ => testDigest) compiled.pieces.flatten inputs.pieces.flatten →
        (compiled = inputs ↔ SameTestReading compiled inputs)) := by
  have hhex : ∀ c ∈ testDigest.toList, whiteSpace c = false :=
    List.all_iff_forall_prop.mp (by decide)
  have hskipped : (runSampleTests "8" 21 compiledTests).1 = .ok false := rfl
  exact skipped_iff (fun _ => hhex) rfl run_of_compiledTests (Prod.ext hskipped rfl)

end JMan.Build
