import JMan.Cli.Translate

/-!
# JMan — synchronization

`lock_is_current`, `hash_workspace_manifests`, `sync_one` and `sync_project` of
`jman-cli/src/main.rs`, less progress and reports.

A synchronization writes the lock of its directory and nothing else
(`touches_syncOne`), and that of a workspace root the locks of its modules
(`touches_syncProject`).
-/

namespace JMan.Cli

open JMan.Config JMan.Resolver
open Paths (Path)
open FileStore (exec Touches Guarantees)

-- When a lock is current
-- ---

abbrev ArtifactCache := String → Option ByteArray

section Machine

variable (machine : Machine)

/-- The artifact of a package is in the cache: a file of its size, or, if
`verifyIntegrity`, one with its checksum. -/
def artifactIsCurrent (cache : ArtifactCache) (verifyIntegrity : Bool) (package : LockedPackage) :
    Bool :=
  match package.artifactChecksum, package.artifactSize with
  | none, none => true
  | some checksum, some expectedSize =>
    match digestOf? checksum with
    | none => false
    | some digest =>
      match cache (digest ++ "." ++ package.extension) with
      | none => false
      | some bytes =>
        bytes.size = expectedSize && (!verifyIntegrity || machine.sha256 bytes = checksum)
  | _, _ => false

def lockIsCurrent (lock : Lockfile) (manifestHash workspaceHash : String) (javaRelease : Nat)
    (cache : ArtifactCache) (verifyIntegrity : Bool) : Bool :=
  lock.manifestHash = manifestHash && lock.workspaceHash = workspaceHash &&
    lock.platform = machine.platformId && lock.javaRelease = javaRelease &&
    lock.packages.all (artifactIsCurrent machine cache verifyIntegrity)

/-- The bytes `hash_workspace_manifests` digests. -/
def hashInput (inputs : List (Path × ByteArray)) : ByteArray :=
  inputs.foldl
    (fun digest input =>
      digest ++ ("/".intercalate input.1).toUTF8 ++ ⟨#[0]⟩ ++ input.2 ++ ⟨#[0]⟩)
    ByteArray.empty

def hashWorkspaceManifests (root : Path) : Command String := do
  let canonicalRoot ← check
    (canonicalize machine ("could not canonicalize " ++ Paths.display root) root)
  let directories ← workspaceDirectories machine canonicalRoot
  let inputs ← directories.mapM fun directory => do
    let context := "could not read " ++ pathOf directory .manifest
    match ← contentsOf machine (.context context (.io "input/output error")) directory .manifest with
    | none => throw (.context context (.io "No such file or directory (os error 2)"))
    | some bytes => return (directory.drop canonicalRoot.length ++ [FileName.manifest.text], bytes)
  return machine.sha256 (hashInput (inputs.insertionSort fun left right => left.1 ≤ right.1))

-- One directory
-- ---

/-- `Lockfile::read`, whose errors `sync_one` drops. -/
def readLock? (directory : Path) : Command (Option Lockfile) := do
  let contents ← tryCatch (contentsOf machine (.io "input/output error") directory .lock)
    fun _ => pure none
  return (Lockfile.read machine.format (pathOf directory .lock) contents).toOption

/-- A refresh does not look at the lock that is there. -/
def existingLock? (directory : Path) (refresh : Bool) : Command (Option Lockfile) :=
  if refresh then pure none else readLock? machine directory

def resolveLock (target root : Path) (manifest : Manifest) (manifestText workspaceHash : String)
    (offline : Bool) : Command Lockfile := do
  let projects ← manifestProjects machine root
  let canonicalTarget ← check
    (canonicalize machine ("could not canonicalize " ++ Paths.display target) target)
  let some project := projectIn? projects canonicalTarget
    | throw (.message (Paths.display target ++ " is not a module in the JMAN workspace rooted at " ++
        Paths.display root))
  let graph ← check ((machine.resolve (manifest.repositories.map (·.url)) offline project.effective
    projects).mapError fun e => .context "dependency resolution failed" (.resolver e))
  let workspaceDependencies ← check
    (workspaceDependenciesFromManifest machine canonicalTarget manifest projects)
  return lockFromGraph machine manifestText workspaceHash manifest.project.javaRelease
    workspaceDependencies graph

/-- `RepositoryClient::with_default_cache_mode`, which may not find its HTTP client. -/
def initializeClient : Command Unit :=
  FileStore.act (.context "could not initialize Maven repositories" (.io "client initialization"))
    .step

def syncOne (cache : ArtifactCache) (target : Path) (refresh offline : Bool) :
    Command (Manifest × Lockfile × Bool) := do
  let root ← findWorkspaceRoot machine target
  let manifest ← readManifest machine ("could not read " ++ pathOf target .manifest) target
  let manifestText ← check ((manifest.toToml machine.format).mapError
    fun e => .context "could not serialize jman.toml" (.config e))
  let workspaceHash ← hashWorkspaceManifests machine root
  initializeClient
  let existing ← existingLock? machine target refresh
  match existing.filter fun lock =>
    lockIsCurrent machine lock (machine.sha256 manifestText.toUTF8) workspaceHash
      manifest.project.javaRelease cache offline with
  | some lock => return (manifest, lock, true)
  | none =>
    let lock ← resolveLock machine target root manifest manifestText workspaceHash offline
    let lockText ← check ((lock.toToml machine.format).mapError
      fun e => .context "could not generate jman.lock" (.config e))
    writeAtomically machine target .lock lockText
    return (manifest, lock, false)

-- A project
-- ---

/-- The directories `sync_project` synchronizes: those of the workspace when the
target is its root, else the target alone. -/
def synchronizedDirectories (target : Path) : Command (List Path) := do
  let root ← findWorkspaceRoot machine target
  if target = root then
    let manifest ← readManifest machine ("could not read " ++ pathOf target .manifest) target
    if manifest.project.modules ≠ [] then
      return ← workspaceDirectories machine root
  return [target]

/-- `caches` is the artifact cache each directory finds when its turn comes. -/
def syncProject (caches : Path → ArtifactCache) (target : Path) (refresh offline : Bool) :
    Command Unit := do
  let found ← manifestIsFile target
  unless found do
    throw (.message ("cannot synchronize " ++ Paths.display target ++ ": jman.toml was not found"))
  let directories ← synchronizedDirectories machine target
  directories.forM fun directory => discard (syncOne machine (caches directory) directory refresh offline)
where
  /-- `target.join("jman.toml").is_file()` -/
  manifestIsFile (target : Path) : Command Bool :=
    match machine.layout.canonicalize target with
    | none => pure false
    | some d => FileStore.isThere ⟨d, .manifest⟩

-- What a synchronization writes
-- ---

variable {S : Set WorkspaceFile}

theorem touches_hashWorkspaceManifests (root : Path) :
    Touches S (hashWorkspaceManifests machine root) := by
  refine (touches_check _).bind fun canonicalRoot => ?_
  refine (touches_workspaceDirectories machine canonicalRoot).bind fun directories => ?_
  refine Guarantees.bind (.mapM fun directory _ => ?_) fun inputs => .pure _
  refine (touches_contentsOf machine _ directory .manifest).bind fun contents => ?_
  cases contents with
  | none => exact .throw _
  | some bytes => exact .pure _

theorem touches_readLock? (directory : Path) : Touches S (readLock? machine directory) :=
  (Guarantees.tryCatch (touches_contentsOf machine _ directory .lock) fun _ => .pure none).bind
    fun _ => .pure _

theorem touches_existingLock? (directory : Path) (refresh : Bool) :
    Touches S (existingLock? machine directory refresh) := by
  cases refresh with
  | true => exact .pure none
  | false => exact touches_readLock? machine directory

theorem touches_initializeClient : Touches S initializeClient := Touches.step _

theorem touches_resolveLock (target root : Path) (manifest : Manifest)
    (manifestText workspaceHash : String) (offline : Bool) :
    Touches S (resolveLock machine target root manifest manifestText workspaceHash offline) := by
  refine (touches_manifestProjects machine root).bind fun projects => ?_
  refine (touches_check _).bind fun canonicalTarget => ?_
  cases projectIn? projects canonicalTarget with
  | none => exact .throw _
  | some project =>
    refine (touches_check _).bind fun graph => ?_
    exact (touches_check _).bind fun workspaceDependencies => .pure _

/-- **A synchronization writes the lock of its directory and nothing else.** -/
theorem touches_syncOne (cache : ArtifactCache) {target : Path} (refresh offline : Bool)
    (htemporary : ∀ f : WorkspaceFile, f.name = .temporary → f ∈ S)
    (hlock : ∀ d, machine.layout.canonicalize target = some d → ⟨d, .lock⟩ ∈ S) :
    Touches S (syncOne machine cache target refresh offline) := by
  refine (touches_findWorkspaceRoot machine target).bind fun root => ?_
  refine (touches_readManifest machine _ target).bind fun manifest => ?_
  refine (touches_check _).bind fun manifestText => ?_
  refine (touches_hashWorkspaceManifests machine root).bind fun workspaceHash => ?_
  refine touches_initializeClient.bind fun _ => ?_
  refine (touches_existingLock? machine target refresh).bind fun existing => ?_
  split
  · exact .pure _
  · refine (touches_resolveLock machine target root manifest _ _ offline).bind fun lock => ?_
    refine (touches_check _).bind fun lockText => ?_
    exact (touches_writeAtomically machine lockText htemporary hlock).bind fun _ => .pure _

theorem touches_manifestIsFile (target : Path) :
    Touches S (syncProject.manifestIsFile machine target) := by
  unfold syncProject.manifestIsFile
  split
  · exact .pure false
  · exact .isThere _

theorem touches_synchronizedDirectories (target : Path) :
    Touches S (synchronizedDirectories machine target) := by
  refine (touches_findWorkspaceRoot machine target).bind fun root => ?_
  split
  · refine (touches_readManifest machine _ target).bind fun manifest => ?_
    split
    · exact touches_workspaceDirectories machine root
    · exact .pure _
  · exact .pure _

theorem exec_synchronizedDirectories_eq_ok {machine : Machine} {target : Path} {ds : List Path}
    {w w' : FileStore.World WorkspaceFile ByteArray}
    (h : exec (synchronizedDirectories machine target) w = (.ok ds, w')) :
    ds = [target] ∨ ∃ v v', v.files = w.files ∧
      exec (workspaceDirectories machine target) v = (.ok ds, v') := by
  obtain ⟨root, v, hroot, h⟩ := FileStore.exec_bind_eq_ok.mp h
  have hv := (touches_findWorkspaceRoot machine target).files_eq hroot
  split at h
  · next heq =>
    subst heq
    obtain ⟨manifest, u, hmanifest, h⟩ := FileStore.exec_bind_eq_ok.mp h
    have hu := (touches_readManifest machine _ target).files_eq hmanifest
    split at h
    · exact Or.inr ⟨u, w', hu.trans hv, h⟩
    · cases h
      exact Or.inl rfl
  · cases h
    exact Or.inl rfl

/-- **A synchronization writes the locks of the directories it synchronizes and
nothing else.** -/
theorem exec_syncProject_keeps {machine : Machine} {caches : Path → ArtifactCache} {target : Path}
    {refresh offline : Bool} {w w' : FileStore.World WorkspaceFile ByteArray}
    {result : Except Failure Unit}
    (h : exec (syncProject machine caches target refresh offline) w = (result, w'))
    {f : WorkspaceFile} (htemporary : f.name ≠ .temporary)
    (hlock : f.name = .lock → ∀ ds v v', v.files = w.files →
      exec (synchronizedDirectories machine target) v = (.ok ds, v') →
        ∀ d ∈ ds, machine.layout.canonicalize d ≠ some f.directory) :
    w'.files f = w.files f := by
  rcases FileStore.exec_bind_cases h with ⟨e, hfound, -⟩ | ⟨found, v, hfound, h⟩
  · rw [(touches_manifestIsFile machine target).files_eq hfound]
  have hv := (touches_manifestIsFile machine target).files_eq hfound
  cases found with
  | false =>
    cases h
    rw [hv]
  | true =>
    rcases FileStore.exec_bind_cases h with ⟨e, hds, -⟩ | ⟨ds, u, hds, h⟩
    · rw [(touches_synchronizedDirectories machine target).files_eq hds, hv]
    have hu := (touches_synchronizedDirectories machine target).files_eq hds
    -- each turn writes the lock of its directory, which is not `f`
    have hturns : Touches {g | g.name = .temporary ∨
        g.name = .lock ∧ ∃ d ∈ ds, machine.layout.canonicalize d = some g.directory}
        (ds.forM fun directory =>
          discard (syncOne machine (caches directory) directory refresh offline)) := by
      refine .forM fun directory hdirectory => .map (touches_syncOne machine _ refresh offline ?_ ?_)
      · exact fun g hg => Or.inl hg
      · exact fun d hd => Or.inr ⟨rfl, directory, hdirectory, hd⟩
    rw [hturns.of_exec h f, hu, hv]
    rintro (hf | ⟨hf, d, hd, hcanonical⟩)
    · exact htemporary hf
    · exact hlock hf ds v u hv hds d hd hcanonical

end Machine

-- A small workspace
-- ---

def sampleManifest (name : String) (modules : List String) (core : Option String) : Manifest where
  manifestVersion := manifestSchema
  project := { group := "org.example"
               name := name
               version := "1"
               javaRelease := 21
               packaging := "jar"
               modules := modules
               mainClass := none }
  toolchain := none
  maven := none
  build := none
  repositories := []
  dependencies :=
    { compile := Std.ExtTreeMap.ofList
        (core.toList.map fun version => ("org.example:core", DependencySpec.version version))
      runtime := ∅
      provided := ∅
      test := ∅ }
  annotationProcessors := ∅
  sections := ""

def sampleMachine : Machine where
  layout := Layout.ofDirectories [["ws"], ["ws", "app"], ["ws", "lib"]]
  format := Format.ofTable
    [("root", sampleManifest "root" ["app", "lib"] none),
     ("root, core 1", sampleManifest "root" ["app", "lib"] (some "1")),
     ("root, core 2", sampleManifest "root" ["app", "lib"] (some "2")),
     ("app", sampleManifest "app" [] none),
     ("app, core 1", sampleManifest "app" [] (some "1")),
     ("lib", sampleManifest "lib" [] none)]
  sha256 bytes := "sha256:" ++ toString bytes.size
  platformId := "linux-x86_64"
  resolve _ _ project _ :=
    if project.coordinate.artifact = "lib" then .error (.httpStatus "https://repo.example" 503)
    else .ok ⟨[], [], [], [], []⟩

theorem sampleMachine_roundTrips : sampleMachine.format.RoundTrips :=
  Format.ofTable_roundTrips (by decide)

def sampleFiles (root : String) (f : WorkspaceFile) : Option ByteArray :=
  if f = ⟨["ws"], .manifest⟩ then some root.toUTF8
  else if f = ⟨["ws", "app"], .manifest⟩ then some "app".toUTF8
  else if f = ⟨["ws", "lib"], .manifest⟩ then some "lib".toUTF8
  else none

end JMan.Cli
