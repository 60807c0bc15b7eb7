import JMan.Build.FatJar
import JMan.Build.Fingerprint

/-!
# JMan — packages and their keys

The four packages of a module and `package_input_key` of `jman-build/src/lib.rs`, which
hashes what a package of a kind is made from. What is hashed is kept as a value
(`PackageView`): two modules with the same view are packaged alike, but for what Javadoc
is told by the environment alone (`package_eq_of_view`).
-/

namespace JMan.Build

open JMan.Config JMan.Resolver
open Encoding (Bytes utf8 part parts le8)
open OsText (OsString OsPath)
open Paths (Path)

inductive PackageKind where
  | thin
  | sources
  | javadoc
  | fat
deriving DecidableEq

def PackageKind.text : PackageKind → String
  | .thin => "thin"
  | .sources => "sources"
  | .javadoc => "javadoc"
  | .fat => "fat"

def packageFilename (manifest : Manifest) (kind : PackageKind) : String :=
  let base := manifest.project.name ++ "-" ++ manifest.project.version
  match kind with
  | .thin => base ++ ".jar"
  | kind => base ++ "-" ++ kind.text ++ ".jar"

/-- What there is when a module is packaged: the workspace with its files, the JDK, and
the environment. Directories are relative to the workspace. -/
structure PackageInputs where
  modules : List Module
  index : Nat
  manifest : Manifest
  directory : Nat → OsPath
  output : Nat → OsPath
  generatedSources : OsPath
  below : OsPath → ClassTree
  lockFile : Nat → Option ByteArray
  location : Location
  javac : OsPath
  version : String
  environment : String → Option OsString
  userClasspath : ClassTree

/-- What `javadoc` is run on: its arguments with the files they name, its environment,
and the classes it finds where it looks when it is given no class path. -/
structure JavadocRun where
  executable : OsPath
  release : Nat
  encoding : String
  sources : List (OsPath × Bytes)
  classes : List ClassTree
  archives : List ByteArray
  environment : String → Option OsString
  userClasspath : ClassTree

-- What is read
-- ---

def osExtension (name : OsString) : Option Bytes :=
  match name.bytes.reverse.dropWhile (· ≠ 46) with
  | _ :: _ :: _ => some (name.bytes.reverse.takeWhile (· ≠ 46)).reverse
  | _ => none

/-- `java_sources`, of a directory with this tree. -/
def javaSources (tree : ClassTree) : ClassTree :=
  tree.filter fun file => (file.path.getLast?.bind osExtension) = some (utf8 "java")

/-- The name of a file below a directory in an archive, with its bytes. -/
def namedFile (file : ClassFile) : Except BuildError (String × Bytes) := do
  let name ← archiveName file.path
  return (name, file.bytes)

abbrev NamedFiles := List (String × Bytes)

def namedFiles (tree : ClassTree) : Except BuildError NamedFiles := tree.mapM namedFile

section Reading

variable (format : Format) (roots : Manifest → List OsPath) (inputs : PackageInputs)

def PackageInputs.lockPath (index : Nat) : String :=
  let path : OsPath :=
    inputs.location.workspace ++ inputs.directory index ++ [OsString.ofString "jman.lock"]
  path.absolute.toStringLossy

/-- `read_lock`, of a module. -/
def PackageInputs.readLock (index : Nat) : Except BuildError Lockfile :=
  (Lockfile.read format (inputs.lockPath index) (inputs.lockFile index)).mapError
    (.config (inputs.lockPath index))

def PackageInputs.locks (index : Nat) : Lockfile :=
  (inputs.readLock format index).toOption.getD ⟨0, "", "", "", 0, [], [], ⟨[], [], [], []⟩⟩

def PackageKind.usage : PackageKind → DependencyUsage
  | .fat => .runtime
  | _ => .compile

def PackageInputs.upstream (usage : DependencyUsage) : List Nat :=
  upstreamOf usage inputs.modules inputs.index

/-- The directories with sources: those of the module, then those generated. -/
def PackageInputs.sourceRoots : List OsPath :=
  (inputs.directory inputs.index ++ [.ofString "src", .ofString "main", .ofString "java"]) ::
    inputs.generatedSources :: roots inputs.manifest

def PackageInputs.readArtifact (path : Path) : Except BuildError (Path × ByteArray) :=
  match inputs.location.files (.cache (Paths.locate path)) with
  | none => .error (.io (Paths.display path) "No such file or directory (os error 2)")
  | some bytes => .ok (path, bytes)

def PackageInputs.dependencies (usage : DependencyUsage) : Except BuildError (List Path) := do
  (inputs.upstream usage).forM fun index => do
    let _ ← inputs.readLock format index
  upstreamArtifactPaths inputs.location.cacheDir inputs.location.files (inputs.locks format) usage
    (inputs.upstream usage)

def PackageInputs.ownArtifacts (usage : DependencyUsage) : Except BuildError (List Path) := do
  let _ ← inputs.readLock format inputs.index
  lockedArtifacts inputs.location.cacheDir inputs.location.files (inputs.locks format) usage
    inputs.index

end Reading

-- What is hashed
-- ---

/-- What `hash_classpath` hashes. -/
structure ClasspathView where
  lock : Bytes
  upstream : List NamedFiles
  dependencies : List (Path × ByteArray)
  own : List (Path × ByteArray)

/-- What `package_input_key` hashes, with the manifest that is hashed as its text. -/
structure PackageView where
  kind : PackageKind
  manifest : Manifest
  toml : String
  settings : List Bytes
  trees : List (String × NamedFiles)
  classpath : Option ClasspathView

def javadocVariables : List String :=
  ["LANG", "LANGUAGE", "LC_ALL", "LC_CTYPE", "LC_MESSAGES", "TZ", "JAVA_TOOL_OPTIONS",
    "JDK_JAVA_OPTIONS", "_JAVA_OPTIONS"]

section Views

variable (format : Format) (roots : Manifest → List OsPath) (inputs : PackageInputs)

/-- The bytes `hash_file` hashes of the lock. -/
def PackageInputs.readLockFile : Except BuildError Bytes :=
  match inputs.lockFile inputs.index with
  | none => .error (.io (inputs.lockPath inputs.index) "No such file or directory (os error 2)")
  | some bytes => .ok bytes.data.toList

def PackageInputs.classpathView (usage : DependencyUsage) : Except BuildError ClasspathView := do
  let lock ← inputs.readLockFile
  let upstream ← (inputs.upstream usage).mapM fun index => namedFiles (inputs.below (inputs.output index))
  let dependencies ← inputs.dependencies format usage
  let dependencies ← dependencies.mapM inputs.readArtifact
  let own ← inputs.ownArtifacts format usage
  let own ← own.mapM inputs.readArtifact
  return ⟨lock, upstream, dependencies, own⟩

/-- What is hashed of the JDK and the environment. -/
def PackageInputs.javadocSettings : List Bytes :=
  utf8 inputs.version :: shown inputs.javac.absolute ::
    javadocVariables.flatMap fun name =>
      [utf8 name, shown ((inputs.environment name).getD ⟨[]⟩)]

def labelled (label : String) (tree : ClassTree) : Except BuildError (String × NamedFiles) := do
  let files ← namedFiles tree
  return (label, files)

def rootLabel (index : Nat) : String :=
  if index = 0 then "sources" else if index = 1 then "generated"
  else "generator-" ++ toString (index - 2)

/-- What is hashed of a directory with sources: for Javadoc, all files of the first one. -/
def PackageInputs.hashedRoot (kind : PackageKind) (root : OsPath × Nat) :
    Except BuildError (String × NamedFiles) :=
  let tree := inputs.below root.1
  labelled (rootLabel root.2) (if kind = .javadoc ∧ root.2 = 0 then tree else javaSources tree)

def PackageInputs.sourceTrees (kind : PackageKind) :
    Except BuildError (List (String × NamedFiles)) :=
  (inputs.sourceRoots roots).zipIdx.mapM (inputs.hashedRoot kind)

def PackageInputs.hashedTrees (kind : PackageKind) :
    Except BuildError (List (String × NamedFiles)) :=
  match kind with
  | .thin | .fat => do
    let classes ← labelled "classes" (inputs.below (inputs.output inputs.index))
    return [classes]
  | .sources | .javadoc => inputs.sourceTrees roots kind

def PackageInputs.hashedClasspath (kind : PackageKind) : Except BuildError (Option ClasspathView) :=
  match kind with
  | .thin | .sources => .ok none
  | .javadoc | .fat => do
    let classpath ← inputs.classpathView format kind.usage
    return some classpath

def PackageInputs.view (kind : PackageKind) : Except BuildError PackageView := do
  let toml ← (inputs.manifest.toToml format).mapError (.config "jman.toml")
  let trees ← inputs.hashedTrees roots kind
  let classpath ← inputs.hashedClasspath format kind
  return { kind := kind
           manifest := inputs.manifest
           toml := toml
           settings := if kind = .javadoc then inputs.javadocSettings else []
           trees := trees
           classpath := classpath }

end Views

/-- `hash_tree`, of a tree that has been read. -/
def treeBytes (tree : String × NamedFiles) : Bytes :=
  part (utf8 tree.1) ++ (le8 tree.2.length ++
    tree.2.flatMap fun file => part (utf8 file.1) ++ part file.2)

/-- What is hashed of a class path after the lock: trees and archives, each after its
index. -/
inductive ClasspathItem where
  | tree (index : Nat) (files : NamedFiles)
  | archive (index : Nat) (path : Path) (bytes : ByteArray)

def ClasspathItem.bytes : ClasspathItem → Bytes
  | .tree index files => part (le8 index) ++ treeBytes ("upstream", files)
  | .archive index path bytes =>
    part (le8 index) ++ (part (utf8 (Paths.display path)) ++ part bytes.data.toList)

def ClasspathView.items (classpath : ClasspathView) : List ClasspathItem :=
  classpath.upstream.zipIdx.map (fun tree => .tree tree.2 tree.1) ++
    (classpath.dependencies.zipIdx.map (fun archive => .archive archive.2 archive.1.1 archive.1.2) ++
      classpath.own.zipIdx.map fun archive => .archive archive.2 archive.1.1 archive.1.2)

def ClasspathView.bytes (classpath : ClasspathView) : Bytes :=
  part classpath.lock ++ classpath.items.flatMap ClasspathItem.bytes

section Key

variable (crate : String) (sha256 : Bytes → String) (format : Format)
  (roots : Manifest → List OsPath)

def PackageView.bytes (view : PackageView) : Bytes :=
  parts [utf8 "jman-package-v1", utf8 crate, utf8 view.kind.text,
      utf8 (packageFilename view.manifest view.kind), utf8 view.toml] ++
    (parts view.settings ++
      (view.trees.flatMap treeBytes ++ view.classpath.elim [] ClasspathView.bytes))

def packageInputKey (kind : PackageKind) (inputs : PackageInputs) : Except BuildError String := do
  let view ← inputs.view format roots kind
  return "sha256:" ++ sha256 (view.bytes crate)

end Key

-- What is packaged
-- ---

def manifestEntry (manifest : Manifest) : String × Bytes :=
  ("META-INF/MANIFEST.MF", utf8 (jarManifest manifest))

def insertEntry (context : String) (archive : BTreeMap Bytes) (file : String × Bytes) :
    Except BuildError (BTreeMap Bytes) :=
  match archive[file.1]? with
  | some existing =>
    if existing ≠ file.2 then
      .error (.invalid ("conflicting JAR entry `" ++ file.1 ++ "` from " ++ context))
    else .ok archive
  | none => .ok (archive.insert file.1 file.2)

def pathKey (path : OsPath) : List (List UInt8) := path.map OsString.bytes

section Package

variable (format : Format) (roots : Manifest → List OsPath)
  (unzip : ByteArray → Except String (List ZipEntry))
  (javadoc : JavadocRun → Except String ClassTree) (inputs : PackageInputs)

def packageModule : Except BuildError NamedFiles := do
  let files ← namedFiles (inputs.below (inputs.output inputs.index))
  let entries := files.filter fun file => toAsciiUppercase file.1 ≠ "META-INF/MANIFEST.MF"
  return manifestEntry inputs.manifest ::
    entries.insertionSort fun left right => left.1 ≤ right.1

def packageSources : Except BuildError NamedFiles := do
  let archive ← (inputs.sourceRoots roots).foldlM (fun archive root => do
    let files ← namedFiles (javaSources (inputs.below root))
    files.foldlM (insertEntry "source JAR") archive) ∅
  return manifestEntry inputs.manifest :: archive.toList

def PackageInputs.javadocSources : List (OsPath × Bytes) :=
  (((inputs.sourceRoots roots).flatMap fun root =>
    (javaSources (inputs.below root)).map fun file =>
      (inputs.location.workspace ++ root ++ file.path, file.bytes))
    |>.insertionSort fun left right => pathKey left.1 ≤ pathKey right.1).dedup

def PackageInputs.javadocRun (archives : List ByteArray) : JavadocRun where
  executable := inputs.javac.dropLast ++ [.ofString "javadoc"]
  release := inputs.manifest.project.javaRelease
  encoding := inputs.manifest.build.elim "UTF-8" Config.Build.encoding
  sources := inputs.javadocSources roots
  classes := (inputs.upstream .compile).map fun index => inputs.below (inputs.output index)
  archives := archives
  environment := inputs.environment
  userClasspath := inputs.userClasspath

def packageJavadoc : Except BuildError NamedFiles := do
  let tree ← if inputs.javadocSources roots = [] then pure [] else do
    let dependencies ← inputs.dependencies format .compile
    let dependencies ← dependencies.mapM inputs.readArtifact
    let own ← inputs.ownArtifacts format .compile
    let own ← own.mapM inputs.readArtifact
    (javadoc (inputs.javadocRun roots ((dependencies ++ own).map Prod.snd))).mapError
      (.compilation (inputs.manifest.project.name ++ " Javadoc"))
  let files ← namedFiles tree
  return manifestEntry inputs.manifest :: files

def PackageInputs.fatProject : FatProject where
  modules := inputs.modules
  locks := inputs.locks format
  index := inputs.index
  manifest := inputs.manifest
  output := inputs.output
  classes := fun index => inputs.below (inputs.output index)

def packageFatInputs : Except BuildError NamedFiles := do
  let _ ← inputs.dependencies format .runtime
  let _ ← inputs.ownArtifacts format .runtime
  packageFat unzip (inputs.fatProject format) inputs.location

def packageEntries (kind : PackageKind) : Except BuildError NamedFiles :=
  match kind with
  | .thin => packageModule inputs
  | .sources => packageSources roots inputs
  | .javadoc => packageJavadoc format roots javadoc inputs
  | .fat => packageFatInputs format unzip inputs

end Package

-- Packages from views
-- ---

section Files

variable {tree tree' : ClassTree} {names : NamedFiles}

/-- **Trees are told apart by the names and bytes of their files.** -/
theorem namedFiles_injective (h : namedFiles tree = .ok names) (h' : namedFiles tree' = .ok names) :
    tree = tree' := by
  have hfile : ∀ (file file' : ClassFile) (named : String × Bytes), namedFile file = .ok named →
      namedFile file' = .ok named → file = file' := by
    intro file file' named hnamed hnamed'
    obtain ⟨name, hname, hpair⟩ := Fallible.bind_eq_ok.mp hnamed
    obtain ⟨name', hname', hpair'⟩ := Fallible.bind_eq_ok.mp hnamed'
    obtain rfl := Except.ok.inj hpair
    obtain ⟨rfl, hbytes⟩ := Prod.mk.inj (Except.ok.inj hpair')
    have hpath := archiveName_injective file.named file'.named hname hname'
    cases file
    cases file'
    cases hpath
    cases hbytes
    rfl
  unfold namedFiles at h h'
  rw [Fallible.mapM_eq_ok] at h h'
  induction h generalizing tree' with
  | nil => exact (List.forall₂_nil_right_iff.mp h').symm
  | @cons file named tree names hnamed _ ih =>
    obtain ⟨file', rest, hnamed', hrest, rfl⟩ := List.forall₂_cons_right_iff.mp h'
    rw [hfile file file' named hnamed hnamed', ih hrest]

end Files

section Congruence

variable {unzip : ByteArray → Except String (List ZipEntry)} {project project' : FatProject}
  {location location' : Location} {dependencies own : List Path}

theorem mergeDependencyJar_congr {jar : Path}
    (h : location.files (.cache (Paths.locate jar)) = location'.files (.cache (Paths.locate jar)))
    (archive : FatArchive) (coordinate : String) :
    mergeDependencyJar unzip location.files archive jar coordinate =
      mergeDependencyJar unzip location'.files archive jar coordinate := by
  rw [mergeDependencyJar, mergeDependencyJar, readJarEntries, readJarEntries, h]

theorem mergedArchive_eq
    (hdependencies : upstreamArtifactPaths location.cacheDir location.files project.locks .runtime
      (upstreamOf .runtime project.modules project.index) = .ok dependencies)
    (hown : lockedArtifacts location.cacheDir location.files project.locks .runtime project.index =
      .ok own) :
    mergedArchive unzip project location = (do
      let archive ← addDirectoryEntries .default [] (project.classes project.index)
        "application output"
      let archive ← ((upstreamOf .runtime project.modules project.index).map project.classes).foldlM
        (fun archive tree => addDirectoryEntries archive [] tree "workspace dependency") archive
      let archive ← dependencies.foldlM (fun archive jar => mergeDependencyJar unzip location.files
        archive jar ("workspace dependency " ++ Paths.display jar)) archive
      own.foldlM (fun archive jar => mergeDependencyJar unzip location.files archive jar
        (coordinateOf (project.locks project.index) jar)) archive) := by
  rw [mergedArchive, hdependencies, hown]
  simp only [addDirectoryEntries_root _ _ [], List.foldlM_map]
  rfl

/-- **A fat JAR is made from the trees, the archives and the lock.** -/
theorem packageFat_congr
    (hdependencies : upstreamArtifactPaths location.cacheDir location.files project.locks .runtime
      (upstreamOf .runtime project.modules project.index) = .ok dependencies)
    (hdependencies' : upstreamArtifactPaths location'.cacheDir location'.files project'.locks .runtime
      (upstreamOf .runtime project'.modules project'.index) = .ok dependencies)
    (hown : lockedArtifacts location.cacheDir location.files project.locks .runtime project.index =
      .ok own)
    (hown' : lockedArtifacts location'.cacheDir location'.files project'.locks .runtime
      project'.index = .ok own)
    (hclasses : project.classes project.index = project'.classes project'.index)
    (hupstream : (upstreamOf .runtime project.modules project.index).map project.classes =
      (upstreamOf .runtime project'.modules project'.index).map project'.classes)
    (hlock : project.locks project.index = project'.locks project'.index)
    (hmanifest : project.manifest = project'.manifest)
    (hfiles : ∀ jar ∈ dependencies ++ own, location.files (.cache (Paths.locate jar)) =
      location'.files (.cache (Paths.locate jar))) :
    packageFat unzip project location = packageFat unzip project' location' := by
  rw [packageFat, packageFat, mergedArchive_eq hdependencies hown,
    mergedArchive_eq hdependencies' hown', hclasses, hupstream, hlock, hmanifest]
  have hjars : ∀ (archive : FatArchive), ∀ jar ∈ dependencies,
      mergeDependencyJar unzip location.files archive jar
        ("workspace dependency " ++ Paths.display jar) =
      mergeDependencyJar unzip location'.files archive jar
        ("workspace dependency " ++ Paths.display jar) := fun archive jar hjar =>
    mergeDependencyJar_congr (hfiles jar (List.mem_append_left _ hjar)) archive _
  have hjars' : ∀ (archive : FatArchive), ∀ jar ∈ own,
      mergeDependencyJar unzip location.files archive jar
        (coordinateOf (project'.locks project'.index) jar) =
      mergeDependencyJar unzip location'.files archive jar
        (coordinateOf (project'.locks project'.index) jar) := fun archive jar hjar =>
    mergeDependencyJar_congr (hfiles jar (List.mem_append_right _ hjar)) archive _
  simp only [Fallible.foldlM_congr hjars, Fallible.foldlM_congr hjars']

end Congruence

section Views

variable {format : Format} {roots : Manifest → List OsPath} {inputs inputs' : PackageInputs}
  {kind : PackageKind} {view : PackageView} {usage : DependencyUsage} {classpath : ClasspathView}

theorem view_eq_ok (h : inputs.view format roots kind = .ok view) :
    view.kind = kind ∧ view.manifest = inputs.manifest ∧
      inputs.manifest.toToml format = .ok view.toml ∧
      view.settings = (if kind = .javadoc then inputs.javadocSettings else []) ∧
      inputs.hashedTrees roots kind = .ok view.trees ∧
      inputs.hashedClasspath format kind = .ok view.classpath := by
  obtain ⟨toml, htoml, h⟩ := Fallible.bind_eq_ok.mp h
  obtain ⟨trees, htrees, h⟩ := Fallible.bind_eq_ok.mp h
  obtain ⟨classpath, hclasspath, h⟩ := Fallible.bind_eq_ok.mp h
  cases h
  exact ⟨rfl, rfl, Fallible.mapError_eq_ok.mp htoml, rfl, htrees, hclasspath⟩

theorem labelled_eq_ok {label : String} {tree : ClassTree} {named : String × NamedFiles}
    (h : labelled label tree = .ok named) : named.1 = label ∧ namedFiles tree = .ok named.2 := by
  obtain ⟨files, hfiles, h⟩ := Fallible.bind_eq_ok.mp h
  cases h
  exact ⟨rfl, hfiles⟩

theorem labelled_injective {label : String} {tree tree' : ClassTree} {named : String × NamedFiles}
    (h : labelled label tree = .ok named) (h' : labelled label tree' = .ok named) : tree = tree' :=
  namedFiles_injective (labelled_eq_ok h).2 (labelled_eq_ok h').2

theorem javaSources_eq {root root' : OsPath} {index : Nat} {named : String × NamedFiles}
    (h : inputs.hashedRoot kind (root, index) = .ok named)
    (h' : inputs'.hashedRoot kind (root', index) = .ok named) :
    javaSources (inputs.below root) = javaSources (inputs'.below root') := by
  have htrees := labelled_injective h h'
  dsimp only at htrees
  split at htrees
  · rw [htrees]
  · exact htrees

theorem map_javaSources_eq {rs rs' : List OsPath} {n : Nat} {trees : List (String × NamedFiles)}
    (h : (rs.zipIdx n).mapM (inputs.hashedRoot kind) = .ok trees)
    (h' : (rs'.zipIdx n).mapM (inputs'.hashedRoot kind) = .ok trees) :
    rs.map (fun root => javaSources (inputs.below root)) =
      rs'.map fun root => javaSources (inputs'.below root) := by
  rw [Fallible.mapM_eq_ok] at h h'
  induction rs generalizing rs' n trees with
  | nil =>
    cases h
    rw [List.zipIdx_eq_nil_iff.mp (List.forall₂_nil_right_iff.mp h')]
    rfl
  | cons root rs ih =>
    rw [List.zipIdx_cons] at h
    cases rs' with
    | nil =>
      rw [List.zipIdx_nil, List.forall₂_nil_left_iff] at h'
      rw [h'] at h
      cases h
    | cons root' rs' =>
      rw [List.zipIdx_cons] at h'
      obtain ⟨named, rest, hnamed, hrest, rfl⟩ := List.forall₂_cons_left_iff.mp h
      obtain ⟨hnamed', hrest'⟩ := List.forall₂_cons.mp h'
      rw [List.map_cons, List.map_cons, javaSources_eq hnamed hnamed', ih hrest hrest']

theorem classpathView_eq_ok (h : inputs.classpathView format usage = .ok classpath) :
    (∃ bytes, inputs.lockFile inputs.index = some bytes ∧ classpath.lock = bytes.data.toList) ∧
      (inputs.upstream usage).mapM (fun index => namedFiles (inputs.below (inputs.output index))) =
        .ok classpath.upstream ∧
      inputs.dependencies format usage = .ok (classpath.dependencies.map Prod.fst) ∧
      inputs.ownArtifacts format usage = .ok (classpath.own.map Prod.fst) ∧
      (classpath.dependencies.map Prod.fst).mapM inputs.readArtifact = .ok classpath.dependencies ∧
      (classpath.own.map Prod.fst).mapM inputs.readArtifact = .ok classpath.own := by
  have hpaths : ∀ {paths : List Path} {archives : List (Path × ByteArray)},
      paths.mapM inputs.readArtifact = .ok archives → archives.map Prod.fst = paths := by
    intro paths archives hread
    rw [Fallible.mapM_eq_ok] at hread
    induction hread with
    | nil => rfl
    | @cons path archive _ _ hpath _ ih =>
      unfold PackageInputs.readArtifact at hpath
      split at hpath
      · cases hpath
      · cases hpath
        rw [List.map_cons, ih]
  obtain ⟨lock, hlock, h⟩ := Fallible.bind_eq_ok.mp h
  obtain ⟨upstream, hupstream, h⟩ := Fallible.bind_eq_ok.mp h
  obtain ⟨dependencies, hdependencies, h⟩ := Fallible.bind_eq_ok.mp h
  obtain ⟨archives, harchives, h⟩ := Fallible.bind_eq_ok.mp h
  obtain ⟨own, hown, h⟩ := Fallible.bind_eq_ok.mp h
  obtain ⟨archives', harchives', h⟩ := Fallible.bind_eq_ok.mp h
  cases h
  have hbytes : ∃ bytes, inputs.lockFile inputs.index = some bytes ∧ lock = bytes.data.toList := by
    unfold PackageInputs.readLockFile at hlock
    split at hlock
    · cases hlock
    · next bytes hfile =>
      cases hlock
      exact ⟨bytes, hfile, rfl⟩
  rw [← hpaths harchives] at hdependencies harchives
  rw [← hpaths harchives'] at hown harchives'
  exact ⟨hbytes, hupstream, hdependencies, hown, harchives, harchives'⟩

theorem files_eq {archives : List (Path × ByteArray)}
    (h : (archives.map Prod.fst).mapM inputs.readArtifact = .ok archives)
    (h' : (archives.map Prod.fst).mapM inputs'.readArtifact = .ok archives) :
    ∀ jar ∈ archives.map Prod.fst, inputs.location.files (.cache (Paths.locate jar)) =
      inputs'.location.files (.cache (Paths.locate jar)) := by
  have hbytes : ∀ {found : PackageInputs}, (archives.map Prod.fst).mapM found.readArtifact =
      .ok archives → ∀ archive ∈ archives,
        found.location.files (.cache (Paths.locate archive.1)) = some archive.2 := by
    intro found hread archive harchive
    obtain ⟨path, -, hpath⟩ := Fallible.exists_of_mem_mapM hread harchive
    unfold PackageInputs.readArtifact at hpath
    split at hpath
    · cases hpath
    · next bytes hfile =>
      cases hpath
      exact hfile
  intro jar hjar
  obtain ⟨archive, harchive, rfl⟩ := List.mem_map.mp hjar
  rw [hbytes h archive harchive, hbytes h' archive harchive]

theorem map_upstream_eq {upstream : List NamedFiles}
    (h : (inputs.upstream usage).mapM (fun index => namedFiles (inputs.below (inputs.output index))) =
      .ok upstream)
    (h' : (inputs'.upstream usage).mapM
      (fun index => namedFiles (inputs'.below (inputs'.output index))) = .ok upstream) :
    (inputs.upstream usage).map (fun index => inputs.below (inputs.output index)) =
      (inputs'.upstream usage).map fun index => inputs'.below (inputs'.output index) := by
  rw [Fallible.mapM_eq_ok] at h h'
  generalize inputs.upstream usage = indices at h ⊢
  generalize inputs'.upstream usage = indices' at h' ⊢
  induction h generalizing indices' with
  | nil => rw [List.forall₂_nil_right_iff.mp h']; rfl
  | cons hindex _ ih =>
    obtain ⟨index', rest, hindex', hrest, rfl⟩ := List.forall₂_cons_right_iff.mp h'
    rw [List.map_cons, List.map_cons, namedFiles_injective hindex hindex', ih rest hrest]

theorem readText_eq {path path' text text' : String} {contents : Option ByteArray}
    (h : readText path contents = .ok text) (h' : readText path' contents = .ok text') :
    text = text' := by
  cases contents with
  | none => cases h
  | some bytes =>
    unfold readText at h h'
    dsimp only at h h'
    split at h
    · cases h
    · next found hfound =>
      rw [hfound] at h'
      exact (Except.ok.inj h).symm.trans (Except.ok.inj h')

theorem lockfile_read_eq {path path' : String} {contents : Option ByteArray}
    {lock lock' : Lockfile} (h : Lockfile.read format path contents = .ok lock)
    (h' : Lockfile.read format path' contents = .ok lock') : lock = lock' := by
  obtain ⟨text, htext, h⟩ := Fallible.bind_eq_ok.mp h
  obtain ⟨text', htext', h'⟩ := Fallible.bind_eq_ok.mp h'
  obtain ⟨parsed, hparsed, h⟩ := Fallible.bind_eq_ok.mp h
  obtain ⟨parsed', hparsed', h'⟩ := Fallible.bind_eq_ok.mp h'
  obtain ⟨-, -, h⟩ := Fallible.bind_eq_ok.mp h
  obtain ⟨-, -, h'⟩ := Fallible.bind_eq_ok.mp h'
  cases h
  cases h'
  obtain rfl := readText_eq htext htext'
  exact Except.ok.inj ((Fallible.mapError_eq_ok.mp hparsed).symm.trans
    (Fallible.mapError_eq_ok.mp hparsed'))

/-- **A lock that is hashed alike is read alike.** -/
theorem locks_eq {paths paths' : List Path} (hlock : inputs.lockFile inputs.index =
      inputs'.lockFile inputs'.index) (h : inputs.ownArtifacts format usage = .ok paths)
    (h' : inputs'.ownArtifacts format usage = .ok paths') :
    inputs.locks format inputs.index = inputs'.locks format inputs'.index := by
  obtain ⟨lock, hread, -⟩ := Fallible.bind_eq_ok.mp h
  obtain ⟨lock', hread', -⟩ := Fallible.bind_eq_ok.mp h'
  have hfile := Fallible.mapError_eq_ok.mp hread
  have hfile' := Fallible.mapError_eq_ok.mp hread'
  rw [hlock] at hfile
  rw [PackageInputs.locks, PackageInputs.locks, hread, hread', lockfile_read_eq hfile hfile']

theorem lockedArtifacts_of_own {paths : List Path} (h : inputs.ownArtifacts format usage = .ok paths) :
    lockedArtifacts inputs.location.cacheDir inputs.location.files (inputs.locks format) usage
      inputs.index = .ok paths := by
  obtain ⟨lock, -, h⟩ := Fallible.bind_eq_ok.mp h
  exact h

theorem upstreamArtifactPaths_of_dependencies {paths : List Path}
    (h : inputs.dependencies format usage = .ok paths) :
    upstreamArtifactPaths inputs.location.cacheDir inputs.location.files (inputs.locks format) usage
      (inputs.upstream usage) = .ok paths := by
  obtain ⟨-, -, h⟩ := Fallible.bind_eq_ok.mp h
  exact h

end Views

-- Surroundings
-- ---

/-- Javadoc is made from its arguments with the files they name, from the variables it
reads, and from what it finds where it looks when it is given no class path. -/
def JavadocDocumented (javadoc : JavadocRun → Except String ClassTree) : Prop :=
  ∀ run run' : JavadocRun, run.executable = run'.executable → run.release = run'.release →
    run.encoding = run'.encoding → run.sources = run'.sources → run.classes = run'.classes →
    run.archives = run'.archives →
    (∀ name ∈ "JDK_JAVADOC_OPTIONS" :: javadocVariables,
      (run.environment name).getD ⟨[]⟩ = (run'.environment name).getD ⟨[]⟩) →
    (run.classes = [] → run.archives = [] → run.userClasspath = run'.userClasspath) →
    javadoc run = javadoc run'

/-- What is not hashed is the same: the directories, the options for Javadoc in the
environment, and the classes it finds when it is given no class path. What is hashed as
it is shown is the same if it is shown alike. -/
structure SameSurroundings (format : Format) (roots : Manifest → List OsPath)
    (inputs inputs' : PackageInputs) : Prop where
  workspace : inputs.location.workspace = inputs'.location.workspace
  directory : inputs.directory inputs.index = inputs'.directory inputs'.index
  generated : inputs.generatedSources = inputs'.generatedSources
  options : inputs.environment "JDK_JAVADOC_OPTIONS" = inputs'.environment "JDK_JAVADOC_OPTIONS"
  userClasspath : inputs.upstream .compile = [] →
    (inputs.locks format inputs.index).classpath.compile = [] →
    inputs.userClasspath = inputs'.userClasspath
  javac : shown inputs.javac.absolute = shown inputs'.javac.absolute → inputs.javac = inputs'.javac
  values : ∀ name ∈ javadocVariables,
    shown ((inputs.environment name).getD ⟨[]⟩) = shown ((inputs'.environment name).getD ⟨[]⟩) →
    (inputs.environment name).getD ⟨[]⟩ = (inputs'.environment name).getD ⟨[]⟩

section Packages

variable {format : Format} {roots : Manifest → List OsPath}
  {unzip : ByteArray → Except String (List ZipEntry)} {javadoc : JavadocRun → Except String ClassTree}
  {inputs inputs' : PackageInputs} {kind : PackageKind} {view : PackageView}

theorem packageModule_eq (h : inputs.view format roots .thin = .ok view)
    (h' : inputs'.view format roots .thin = .ok view) : packageModule inputs = packageModule inputs' := by
  obtain ⟨-, hmanifest, -, -, htrees, -⟩ := view_eq_ok h
  obtain ⟨-, hmanifest', -, -, htrees', -⟩ := view_eq_ok h'
  obtain ⟨classes, hclasses, hview⟩ := Fallible.bind_eq_ok.mp htrees
  obtain ⟨classes', hclasses', hview'⟩ := Fallible.bind_eq_ok.mp htrees'
  have hsame : classes = classes' :=
    List.head_eq_of_cons_eq (Except.ok.inj (hview.trans (congrArg _ (Except.ok.inj hview'.symm))))
  subst hsame
  rw [packageModule, packageModule, labelled_injective hclasses hclasses', ← hmanifest, ← hmanifest']

theorem sources_eq (hkind : kind = .sources ∨ kind = .javadoc)
    (h : inputs.view format roots kind = .ok view) (h' : inputs'.view format roots kind = .ok view) :
    (inputs.sourceRoots roots).map (fun root => javaSources (inputs.below root)) =
      (inputs'.sourceRoots roots).map fun root => javaSources (inputs'.below root) := by
  obtain ⟨-, -, -, -, htrees, -⟩ := view_eq_ok h
  obtain ⟨-, -, -, -, htrees', -⟩ := view_eq_ok h'
  rcases hkind with rfl | rfl
  · exact map_javaSources_eq htrees htrees'
  · exact map_javaSources_eq htrees htrees'

theorem packageSources_eq (h : inputs.view format roots .sources = .ok view)
    (h' : inputs'.view format roots .sources = .ok view) :
    packageSources roots inputs = packageSources roots inputs' := by
  obtain ⟨-, hmanifest, -⟩ := view_eq_ok h
  obtain ⟨-, hmanifest', -⟩ := view_eq_ok h'
  have hsources := sources_eq (Or.inl rfl) h h'
  have hfold : ∀ found : PackageInputs, packageSources roots found = (do
      let archive ← ((found.sourceRoots roots).map fun root => javaSources (found.below root)).foldlM
        (fun archive tree => do
          let files ← namedFiles tree
          files.foldlM (insertEntry "source JAR") archive) ∅
      return manifestEntry found.manifest :: archive.toList) := fun found => by
    rw [packageSources, List.foldlM_map]
  rw [hfold inputs, hfold inputs', hsources, ← hmanifest, ← hmanifest']

/-- The class path of two modules that are hashed alike. -/
structure SameClasspath (format : Format) (usage : DependencyUsage) (inputs inputs' : PackageInputs)
    (archives artifacts : List (Path × ByteArray)) : Prop where
  dependencies : inputs.dependencies format usage = .ok (archives.map Prod.fst)
  dependencies' : inputs'.dependencies format usage = .ok (archives.map Prod.fst)
  own : inputs.ownArtifacts format usage = .ok (artifacts.map Prod.fst)
  own' : inputs'.ownArtifacts format usage = .ok (artifacts.map Prod.fst)
  read : (archives.map Prod.fst).mapM inputs.readArtifact = .ok archives
  read' : (archives.map Prod.fst).mapM inputs'.readArtifact = .ok archives
  readOwn : (artifacts.map Prod.fst).mapM inputs.readArtifact = .ok artifacts
  readOwn' : (artifacts.map Prod.fst).mapM inputs'.readArtifact = .ok artifacts
  upstream : (inputs.upstream usage).map (fun index => inputs.below (inputs.output index)) =
    (inputs'.upstream usage).map fun index => inputs'.below (inputs'.output index)
  lock : inputs.locks format inputs.index = inputs'.locks format inputs'.index

theorem sameClasspath_of_view {usage : DependencyUsage} {classpath : ClasspathView}
    (h : inputs.classpathView format usage = .ok classpath)
    (h' : inputs'.classpathView format usage = .ok classpath) :
    SameClasspath format usage inputs inputs' classpath.dependencies classpath.own := by
  obtain ⟨⟨bytes, hfile, hbytes⟩, hupstream, hdependencies, hown, hread, hreadOwn⟩ :=
    classpathView_eq_ok h
  obtain ⟨⟨bytes', hfile', hbytes'⟩, hupstream', hdependencies', hown', hread', hreadOwn'⟩ :=
    classpathView_eq_ok h'
  have hlock : inputs.lockFile inputs.index = inputs'.lockFile inputs'.index := by
    rw [hfile, hfile', ByteArray.ext (Array.toList_inj.mp (hbytes.symm.trans hbytes'))]
  exact ⟨hdependencies, hdependencies', hown, hown', hread, hread', hreadOwn, hreadOwn',
    map_upstream_eq hupstream hupstream', locks_eq hlock hown hown'⟩

theorem hashedClasspath_eq_ok (hkind : kind = .javadoc ∨ kind = .fat)
    (h : inputs.view format roots kind = .ok view) :
    ∃ classpath, view.classpath = some classpath ∧
      inputs.classpathView format kind.usage = .ok classpath := by
  obtain ⟨-, -, -, -, -, hclasspath⟩ := view_eq_ok h
  rcases hkind with rfl | rfl
  · obtain ⟨classpath, hview, hsome⟩ := Fallible.bind_eq_ok.mp hclasspath
    exact ⟨classpath, (Except.ok.inj hsome).symm, hview⟩
  · obtain ⟨classpath, hview, hsome⟩ := Fallible.bind_eq_ok.mp hclasspath
    exact ⟨classpath, (Except.ok.inj hsome).symm, hview⟩

theorem sameClasspath (hkind : kind = .javadoc ∨ kind = .fat)
    (h : inputs.view format roots kind = .ok view) (h' : inputs'.view format roots kind = .ok view) :
    ∃ archives artifacts, SameClasspath format kind.usage inputs inputs' archives artifacts := by
  obtain ⟨classpath, hview, hclasspath⟩ := hashedClasspath_eq_ok hkind h
  obtain ⟨classpath', hview', hclasspath'⟩ := hashedClasspath_eq_ok hkind h'
  obtain rfl := Option.some.inj (hview.symm.trans hview')
  exact ⟨_, _, sameClasspath_of_view hclasspath hclasspath'⟩

theorem packageFatInputs_eq (h : inputs.view format roots .fat = .ok view)
    (h' : inputs'.view format roots .fat = .ok view) :
    packageFatInputs format unzip inputs = packageFatInputs format unzip inputs' := by
  obtain ⟨-, hmanifest, -, -, htrees, -⟩ := view_eq_ok h
  obtain ⟨-, hmanifest', -, -, htrees', -⟩ := view_eq_ok h'
  obtain ⟨classes, hclasses, hview⟩ := Fallible.bind_eq_ok.mp htrees
  obtain ⟨classes', hclasses', hview'⟩ := Fallible.bind_eq_ok.mp htrees'
  have hsame : classes = classes' :=
    List.head_eq_of_cons_eq (Except.ok.inj (hview.trans (congrArg _ (Except.ok.inj hview'.symm))))
  subst hsame
  obtain ⟨archives, artifacts, hclasspath⟩ := sameClasspath (Or.inr rfl) h h'
  have hfiles : ∀ jar ∈ archives.map Prod.fst ++ artifacts.map Prod.fst,
      inputs.location.files (.cache (Paths.locate jar)) =
        inputs'.location.files (.cache (Paths.locate jar)) := by
    intro jar hjar
    rcases List.mem_append.mp hjar with hjar | hjar
    · exact files_eq hclasspath.read hclasspath.read' jar hjar
    · exact files_eq hclasspath.readOwn hclasspath.readOwn' jar hjar
  have hfat : packageFat unzip (inputs.fatProject format) inputs.location =
      packageFat unzip (inputs'.fatProject format) inputs'.location :=
    packageFat_congr (upstreamArtifactPaths_of_dependencies hclasspath.dependencies)
      (upstreamArtifactPaths_of_dependencies hclasspath.dependencies')
      (lockedArtifacts_of_own hclasspath.own) (lockedArtifacts_of_own hclasspath.own')
      (labelled_injective hclasses hclasses') hclasspath.upstream hclasspath.lock
      (hmanifest.symm.trans hmanifest') hfiles
  rw [packageFatInputs, packageFatInputs, hfat]
  have hok := hclasspath.dependencies
  have hok' := hclasspath.dependencies'
  have hown := hclasspath.own
  have hown' := hclasspath.own'
  rw [show PackageKind.usage .fat = .runtime from rfl] at hok hok' hown hown'
  rw [hok, hok', hown, hown']

theorem javadocSources_eq (hsame : SameSurroundings format roots inputs inputs')
    (hmanifest : inputs.manifest = inputs'.manifest)
    (hsources : (inputs.sourceRoots roots).map (fun root => javaSources (inputs.below root)) =
      (inputs'.sourceRoots roots).map fun root => javaSources (inputs'.below root)) :
    inputs.javadocSources roots = inputs'.javadocSources roots := by
  have hroots : inputs.sourceRoots roots = inputs'.sourceRoots roots := by
    rw [PackageInputs.sourceRoots, PackageInputs.sourceRoots, hsame.directory, hsame.generated,
      hmanifest]
  rw [← hroots] at hsources
  have htrees := List.map_inj_left.mp hsources
  rw [PackageInputs.javadocSources, PackageInputs.javadocSources, ← hroots, ← hsame.workspace,
    List.flatMap_congr fun root hroot => by rw [htrees root hroot]]

theorem environment_eq (hsame : SameSurroundings format roots inputs inputs')
    (h : inputs.javadocSettings = inputs'.javadocSettings) :
    inputs.javac = inputs'.javac ∧ ∀ name ∈ javadocVariables,
      (inputs.environment name).getD ⟨[]⟩ = (inputs'.environment name).getD ⟨[]⟩ := by
  obtain ⟨-, hjavac, hvalues⟩ := by
    rw [PackageInputs.javadocSettings, PackageInputs.javadocSettings, List.cons.injEq,
      List.cons.injEq] at h
    exact h
  refine ⟨hsame.javac hjavac, fun name hname => hsame.values name hname ?_⟩
  have hpairs : ∀ names : List String,
      names.flatMap (fun name => [utf8 name, shown ((inputs.environment name).getD ⟨[]⟩)]) =
        names.flatMap (fun name => [utf8 name, shown ((inputs'.environment name).getD ⟨[]⟩)]) →
      ∀ name ∈ names, shown ((inputs.environment name).getD ⟨[]⟩) =
        shown ((inputs'.environment name).getD ⟨[]⟩) := by
    intro names
    induction names with
    | nil =>
      intro _ name hname
      cases hname
    | cons first names ih =>
      intro hlists
      rw [List.flatMap_cons, List.flatMap_cons] at hlists
      obtain ⟨hfirst, hrest⟩ := List.append_inj hlists rfl
      refine List.forall_mem_cons.mpr ⟨?_, ih hrest⟩
      exact (List.cons.inj (List.cons.inj hfirst).2).1
  exact hpairs javadocVariables hvalues name hname

theorem packageJavadoc_eq (hdocumented : JavadocDocumented javadoc)
    (h : inputs.view format roots .javadoc = .ok view)
    (h' : inputs'.view format roots .javadoc = .ok view)
    (hsame : SameSurroundings format roots inputs inputs') :
    packageJavadoc format roots javadoc inputs = packageJavadoc format roots javadoc inputs' := by
  obtain ⟨-, hview, -, hsettings, -⟩ := view_eq_ok h
  obtain ⟨-, hview', -, hsettings', -⟩ := view_eq_ok h'
  have hmanifest : inputs.manifest = inputs'.manifest := hview.symm.trans hview'
  rw [if_pos rfl] at hsettings hsettings'
  obtain ⟨hjavac, hvalues⟩ := environment_eq hsame (hsettings.symm.trans hsettings')
  have hsources := javadocSources_eq hsame hmanifest (sources_eq (Or.inr rfl) h h')
  obtain ⟨archives, artifacts, hclasspath⟩ := sameClasspath (Or.inl rfl) h h'
  have hrun : javadoc (inputs.javadocRun roots ((archives ++ artifacts).map Prod.snd)) =
      javadoc (inputs'.javadocRun roots ((archives ++ artifacts).map Prod.snd)) := by
    refine hdocumented _ _ ?_ ?_ ?_ hsources hclasspath.upstream rfl ?_ ?_
    · rw [PackageInputs.javadocRun, PackageInputs.javadocRun, hjavac]
    · rw [PackageInputs.javadocRun, PackageInputs.javadocRun, hmanifest]
    · rw [PackageInputs.javadocRun, PackageInputs.javadocRun, hmanifest]
    · refine List.forall_mem_cons.mpr ⟨?_, hvalues⟩
      exact congrArg (Option.getD · ⟨[]⟩) hsame.options
    · intro hclasses harchives
      refine hsame.userClasspath (List.map_eq_nil_iff.mp hclasses) ?_
      have hartifacts : artifacts = [] :=
        (List.append_eq_nil_iff.mp (List.map_eq_nil_iff.mp harchives)).2
      have hpaths := lockedArtifacts_of_own hclasspath.own
      rw [hartifacts, List.map_nil] at hpaths
      exact List.forall₂_nil_right_iff.mp (Fallible.mapM_eq_ok.mp hpaths)
  have hdependencies := hclasspath.dependencies
  have hdependencies' := hclasspath.dependencies'
  have hown := hclasspath.own
  have hown' := hclasspath.own'
  rw [show PackageKind.usage .javadoc = .compile from rfl] at hdependencies hdependencies' hown hown'
  have hread := hclasspath.read
  have hread' := hclasspath.read'
  have hreadOwn := hclasspath.readOwn
  have hreadOwn' := hclasspath.readOwn'
  unfold packageJavadoc
  rw [hdependencies, hdependencies', hown, hown', hsources, ← hmanifest]
  show (do
      let tree ← if inputs'.javadocSources roots = [] then pure [] else do
        let dependencies ← (archives.map Prod.fst).mapM inputs.readArtifact
        let own ← (artifacts.map Prod.fst).mapM inputs.readArtifact
        (javadoc (inputs.javadocRun roots ((dependencies ++ own).map Prod.snd))).mapError _
      _) = (do
      let tree ← if inputs'.javadocSources roots = [] then pure [] else do
        let dependencies ← (archives.map Prod.fst).mapM inputs'.readArtifact
        let own ← (artifacts.map Prod.fst).mapM inputs'.readArtifact
        (javadoc (inputs'.javadocRun roots ((dependencies ++ own).map Prod.snd))).mapError _
      _)
  rw [hread, hread', hreadOwn, hreadOwn']
  show (do
      let tree ← if inputs'.javadocSources roots = [] then pure [] else
        (javadoc (inputs.javadocRun roots ((archives ++ artifacts).map Prod.snd))).mapError _
      _) = _
  rw [hrun]
  rfl

/-- **Modules that are hashed alike are packaged alike,** Javadoc in the same surroundings. -/
theorem package_eq_of_view (hdocumented : JavadocDocumented javadoc)
    (h : inputs.view format roots kind = .ok view) (h' : inputs'.view format roots kind = .ok view)
    (hsame : kind = .javadoc → SameSurroundings format roots inputs inputs') :
    packageEntries format roots unzip javadoc inputs kind =
      packageEntries format roots unzip javadoc inputs' kind := by
  cases kind with
  | thin => exact packageModule_eq h h'
  | sources => exact packageSources_eq h h'
  | javadoc => exact packageJavadoc_eq hdocumented h h' (hsame rfl)
  | fat => exact packageFatInputs_eq h h'

end Packages

end JMan.Build
