import Mathlib.Data.List.DropRight
import JMan.Lib.FileStore
import JMan.Lib.Path
import JMan.Resolver.Model

/-!
# JMan — the repository client

`RepositoryClient` of `jman-resolver/src/repository.rs`: how artifacts, POMs and
metadata are found in the cache, fetched from the repositories in their order,
and written to the cache. Files are those of a `FileStore`, so every read, write
and rename can fail; a file of the cache and one of a `file://` repository are
kept apart, even where two paths lead to the same place.

Outside the crate are SHA-256, the XML of metadata documents and what a server
answers; they are parameters.
-/

namespace JMan.Resolver

open Paths (Path)
open FileStore (Program exec)

-- Names of files

/-- `group.replace('.', "/")`. -/
def groupPath (group : String) : String := group.map fun c => if c = '.' then '/' else c

def classifierSuffix (classifier : Option String) : String :=
  classifier.elim "" fun value => "-" ++ value

def Coordinate.repositoryPath (c : Coordinate) : String :=
  groupPath c.group ++ "/" ++ c.artifact ++ "/" ++ c.version ++ "/" ++ c.artifact ++ "-" ++
    c.version ++ classifierSuffix c.classifier ++ "." ++ c.extension

def snapshotSuffix : String := "-SNAPSHOT"

/-- `version.ends_with("-SNAPSHOT")`. -/
def isSnapshotVersion (version : String) : Bool :=
  snapshotSuffix.toList.isSuffixOf version.toList

def Coordinate.metadataPath (c : Coordinate) : String :=
  groupPath c.group ++ "/" ++ c.artifact ++ "/" ++ c.version ++ "/maven-metadata.xml"

def Coordinate.snapshotPath (c : Coordinate) (value : String) : String :=
  groupPath c.group ++ "/" ++ c.artifact ++ "/" ++ c.version ++ "/" ++ c.artifact ++ "-" ++ value ++
    classifierSuffix c.classifier ++ "." ++ c.extension

def catalogPath (group artifact : String) : String :=
  groupPath group ++ "/" ++ artifact ++ "/maven-metadata.xml"

/-- `file_stem`: what is before the last dot, if that is not the first character. -/
def fileStem (name : String) : String :=
  let stem := ((name.toList.reverse.dropWhile (· ≠ '.')).drop 1).reverse
  if stem = [] then name else String.ofList stem

/-- `Path::with_extension`: a path without a file name stays as it is. -/
def withExtension (path : Path) (extension : String) : Path :=
  match path.getLast? with
  | none => path
  | some name =>
    if name = ".." then path else path.dropLast ++ [fileStem name ++ "." ++ extension]

-- The client

def IsHex (text : String) : Prop :=
  text.toList.length = 64 ∧ ∀ c ∈ text.toList, c ∈ "0123456789abcdef".toList

structure Digest where
  hex : ByteArray → String
  isHex : ∀ bytes, IsHex (hex bytes)

def repeated (digit : Char) : String := String.ofList (List.replicate 64 digit)

theorem isHex_repeated {digit : Char} (h : digit ∈ "0123456789abcdef".toList) :
    IsHex (repeated digit) := by
  have htext : (repeated digit).toList = List.replicate 64 digit := String.toList_ofList
  have hlength : (repeated digit).toList.length = 64 := by rw [htext, List.length_replicate]
  have hdigits : ∀ c ∈ (repeated digit).toList, c ∈ "0123456789abcdef".toList := by
    rw [htext]
    intro c hc
    rw [(List.mem_replicate.mp hc).2]
    exact h
  exact And.intro hlength hdigits

def zeros : String := repeated '0'

theorem isHex_zeros : IsHex zeros := isHex_repeated (by decide)

/-- What a metadata document says of snapshots. -/
structure SnapshotMetadata where
  /-- the `snapshotVersion` elements: extension, classifier, value -/
  versions : List (Option String × Option String × Option String)
  timestamp : Option String
  buildNumber : Option String

structure VersionCatalog where
  versions : List String
  latest : Option String
  release : Option String
  source : String
deriving DecidableEq

inductive Response where
  | notFound
  | body (bytes : Except String ByteArray)
  | status (code : Nat)
  | failed (source : String)

structure RepositoryClient where
  cacheDir : Path
  repositories : List String
  /-- without repositories there is Maven Central -/
  nonempty : repositories ≠ []
  offline : Bool
  /-- where the roots of `file://` repositories begin that are relative -/
  workingDirectory : Path
  digest : Digest
  /-- what follows `tmp-` in the extension of temporary files -/
  temporary : String
  snapshotMetadata : String → Except String SnapshotMetadata
  versionCatalog : (source : String) → ByteArray → Except ResolverError VersionCatalog

abbrev Network := String → Nat → Response

/-- A file a client opens, at the place its path leads to. -/
inductive FilePlace where
  | cache (file : Path)
  | repository (url : String) (file : Path)
deriving DecidableEq

abbrev Fetch (α : Type) := Program FilePlace ByteArray ResolverError α

/-- `strip_prefix("file://")`. -/
def fileRoot? (repository : String) : Option String :=
  if "file://".toList.isPrefixOf repository.toList then
    some (String.ofList (repository.toList.drop 7))
  else none

def trimEndSlashes (repository : String) : String :=
  String.ofList (repository.toList.rdropWhile (· = '/'))

namespace RepositoryClient

structure CachedFile where
  path : Path
  checksum : String
  bytes : ByteArray
  source : String

variable (client : RepositoryClient) (network : Network)

def sha256 (bytes : ByteArray) : String := "sha256:" ++ client.digest.hex bytes

/-- The directory of a repository's entries below the cache. -/
def repositoryKey (repository : String) : String :=
  String.ofList ((client.digest.hex (trimEndSlashes repository).toUTF8).toList.take 24)

def repositoryCachePath (repository relative : String) : Path :=
  Paths.join (client.cacheDir ++ ["repository", client.repositoryKey repository]) relative

def artifactPath (digest extension : String) : Path :=
  Paths.join (client.cacheDir ++ ["artifacts"]) (digest ++ "." ++ extension)

/-- The root of a `file://` repository. -/
def repositoryRoot (root : String) : Path := Paths.join client.workingDirectory root

-- The cache

/-- `if let Ok(bytes) = tokio::fs::read(path)`. -/
def readCached (path : Path) : Fetch (Option ByteArray) :=
  tryCatch (FileStore.read (.cache (Paths.display path) "input/output error")
    (.cache (Paths.locate path))) fun _ => pure none

/-- The rename of `write_atomic`: where it fails but there is a file, the file is
taken for what was to be written. -/
def moveIntoPlace (temporary path : Path) : Fetch Unit :=
  tryCatch
    (FileStore.act (.cache (Paths.display path) "input/output error")
      (.rename (.cache (Paths.locate temporary)) (.cache (Paths.locate path))))
    fun error => do
      if ← FileStore.isThere (FilePlace.cache (Paths.locate path)) then
        tryCatch (FileStore.act error (.remove (.cache (Paths.locate temporary)))) fun _ => pure ()
      else throw error

def writeAtomic (path : Path) (bytes : ByteArray) : Fetch Unit := do
  if path = [] then
    throw (.cache (Paths.display path) "cache path has no parent")
  -- `create_dir_all`
  FileStore.act (.cache (Paths.display path.dropLast) "input/output error") .step
  let temporary := withExtension path ("tmp-" ++ client.temporary)
  FileStore.act (.cache (Paths.display temporary) "input/output error")
    (.write (.cache (Paths.locate temporary)) bytes)
  moveIntoPlace temporary path

/-- `content_addressed_path`: the artifact under its digest, written again unless
the file there has that digest. -/
def contentAddressedPath (coordinate : Coordinate) (checksum : String) (bytes : ByteArray)
    (entry : Path) : Fetch Path :=
  if coordinate.extension = "pom" then pure entry
  else do
    let path := client.artifactPath (client.digest.hex bytes) coordinate.extension
    let existing ← readCached path
    if existing.any fun found => client.sha256 found = checksum then
      return path
    client.writeAtomic path bytes
    return path

-- The repositories

def request (url : String) : (left : Nat) → (attempt : Nat) → Except ResolverError (Option ByteArray)
  | left, attempt =>
    match network url attempt with
    | .notFound => .ok none
    | .body (.ok bytes) => .ok (some bytes)
    | .body (.error source) => .error (.request url source)
    | .status code =>
      if (500 ≤ code ∧ code < 600) ∨ code = 429 then
        match left with
        | 0 => .error (.httpStatus url code)
        | left + 1 => request url left (attempt + 1)
      else .error (.httpStatus url code)
    | .failed source =>
      match left with
      | 0 => .error (.request url source)
      | left + 1 => request url left (attempt + 1)

def liftExcept {α : Type} : Except ResolverError α → Fetch α
  | .ok a => pure a
  | .error e => throw e

def fetchRepositoryBytes (repository relative : String) : Fetch (Option ByteArray) :=
  match fileRoot? repository with
  | some root =>
    let path := Paths.join (client.repositoryRoot root) relative
    FileStore.read (.cache (Paths.display path) "input/output error")
      (.repository repository (Paths.locate path))
  | none =>
    if client.offline then pure none
    else liftExcept (request network (trimEndSlashes repository ++ "/" ++ relative) 2 0)

/-- `trim_end_matches("-SNAPSHOT")`. -/
def trimSnapshot (version : String) : String :=
  String.ofList (trim version.toList version.toList.length)
where
  trim (version : List Char) : Nat → List Char
    | 0 => version
    | fuel + 1 =>
      if snapshotSuffix.toList.isSuffixOf version then
        trim (version.take (version.length - snapshotSuffix.toList.length)) fuel
      else version

def snapshotValue (metadata : SnapshotMetadata) (coordinate : Coordinate) : Option String :=
  match metadata.versions.find? fun item =>
      item.1 = some coordinate.extension ∧ item.2.1 = coordinate.classifier with
  | some item => item.2.2
  | none =>
    match metadata.timestamp, metadata.buildNumber with
    | some timestamp, some build =>
      some (trimSnapshot coordinate.version ++ "-" ++ timestamp ++ "-" ++ build)
    | _, _ => none

def snapshotPathIn (coordinate : Coordinate) (bytes : ByteArray) :
    Except ResolverError (Option String) :=
  match String.fromUTF8? bytes with
  | none => .error (.invalidPom "invalid utf-8 sequence")
  | some xml =>
    match client.snapshotMetadata xml with
    | .error source => .error (.invalidPom source)
    | .ok metadata => .ok ((snapshotValue metadata coordinate).map coordinate.snapshotPath)

def versionMetadata (repository : String) (coordinate : Coordinate) : Fetch (Option ByteArray) := do
  let entry := client.repositoryCachePath repository coordinate.metadataPath
  match ← readCached entry with
  | some bytes => return some bytes
  | none =>
    match ← client.fetchRepositoryBytes network repository coordinate.metadataPath with
    | some bytes =>
      client.writeAtomic entry bytes
      return some bytes
    | none => return none

def snapshotRepositoryPath (repository : String) (coordinate : Coordinate) :
    Fetch (Option String) := do
  match ← client.versionMetadata network repository coordinate with
  | some bytes => liftExcept (client.snapshotPathIn coordinate bytes)
  | none => return none

/-- What is tried where a repository does not have the plain path. -/
def fetchSnapshotBytes (repository : String) (coordinate : Coordinate) :
    Fetch (Option ByteArray) := do
  match ← client.snapshotRepositoryPath network repository coordinate with
  | some path => client.fetchRepositoryBytes network repository path
  | none => return none

def fetchFrom (repository : String) (coordinate : Coordinate) : Fetch (Option ByteArray) := do
  match ← client.fetchRepositoryBytes network repository coordinate.repositoryPath with
  | some bytes => return some bytes
  | none =>
    if isSnapshotVersion coordinate.version then
      client.fetchSnapshotBytes network repository coordinate
    else return none

-- Fetching

/-- The file of bytes that were found, with its content-addressed copy. -/
def cachedFile (repository : String) (coordinate : Coordinate) (entry : Path) (bytes : ByteArray) :
    Fetch CachedFile := do
  let path ← client.contentAddressedPath coordinate (client.sha256 bytes) bytes entry
  return ⟨path, client.sha256 bytes, bytes, repository⟩

/-- `fetch_uncached`: the first repository that has the artifact. -/
def fetchUncached (coordinate : Coordinate) : List String → Fetch CachedFile
  | [] =>
    if client.offline then throw (.offlineMiss coordinate.toString)
    else throw (.httpStatus coordinate.repositoryPath 404)
  | repository :: repositories => do
    let entry := client.repositoryCachePath repository coordinate.repositoryPath
    match ← readCached entry with
    | some bytes => client.cachedFile repository coordinate entry bytes
    | none =>
      match ← client.fetchFrom network repository coordinate with
      | some bytes =>
        client.writeAtomic entry bytes
        client.cachedFile repository coordinate entry bytes
      | none => fetchUncached coordinate repositories

/-- The files a client remembers, by repository path. -/
abbrev Memory := String → Option CachedFile

/-- `fetch`; a second one waits for the first and then finds its file. -/
def fetch (memory : Memory) (coordinate : Coordinate) : Fetch (CachedFile × Memory) :=
  match memory coordinate.repositoryPath with
  | some cached => pure (cached, memory)
  | none => do
    let fetched ← client.fetchUncached network coordinate client.repositories
    return (fetched, Function.update memory coordinate.repositoryPath (some fetched))

def loadPom (memory : Memory) (coordinate : Coordinate) : Fetch (String × Memory) := do
  let (cached, memory) ← client.fetch network memory coordinate.toPom
  match String.fromUTF8? cached.bytes with
  | none => throw (.invalidPom "invalid utf-8 sequence")
  | some text => return (text, memory)

-- Catalogs

def cachedCatalog (source relative : String) (missing : ResolverError) :
    List String → Fetch VersionCatalog
  | [] => throw missing
  | repository :: repositories => do
    match ← readCached (client.repositoryCachePath repository relative) with
    | some bytes => liftExcept (client.versionCatalog source bytes)
    | none => cachedCatalog source relative missing repositories

def advertised (repository relative : String) :
    Fetch (Except ResolverError (Option (ByteArray × VersionCatalog))) :=
  tryCatch
    (do
      match ← client.fetchRepositoryBytes network repository relative with
      | some bytes =>
        let catalog ← liftExcept (client.versionCatalog repository bytes)
        return .ok (some (bytes, catalog))
      | none => return .ok none)
    fun error => return .error error

/-- The repositories in their order, then the last error or the stale catalogs. -/
def refreshedCatalog (relative : String) : (last : Option ResolverError) → List String →
    Fetch VersionCatalog
  | last, [] =>
    client.cachedCatalog "stale-cache" relative (last.getD (.httpStatus relative 404))
      client.repositories
  | last, repository :: repositories => do
    match ← client.advertised network repository relative with
    | .ok (some (bytes, catalog)) =>
      client.writeAtomic (client.repositoryCachePath repository relative) bytes
      return catalog
    | .ok none => refreshedCatalog relative last repositories
    | .error error => refreshedCatalog relative (some error) repositories

def availableVersions (group artifact : String) : Fetch VersionCatalog :=
  if client.offline then
    client.cachedCatalog "cache" (catalogPath group artifact)
      (.offlineMiss (group ++ ":" ++ artifact ++ " metadata")) client.repositories
  else client.refreshedCatalog network (catalogPath group artifact) none client.repositories

-- Reading the cache

theorem exec_readCached (path : Path) {w : FileStore.World FilePlace ByteArray}
    (h : w.next = .succeeds) : exec (readCached path) w =
      (.ok (w.files (.cache (Paths.locate path))),
        ⟨w.files, w.outcomes.tail, w.trace ++ [.reads (.cache (Paths.locate path))]⟩) := by
  refine FileStore.exec_tryCatch_ok ?_
  simp [FileStore.read, exec, FileStore.Operation.perform, h, FileStore.Operation.report,
    FileStore.Operation.succeed, FileStore.Operation.accesses]

theorem exec_readCached_fails (path : Path) {w : FileStore.World FilePlace ByteArray}
    {left : Option ByteArray} (h : w.next = .fails left) : exec (readCached path) w =
      (.ok none, ⟨w.files, w.outcomes.tail, w.trace ++ [.reads (.cache (Paths.locate path))]⟩) := by
  have hread : exec (FileStore.read (.cache (Paths.display path) "input/output error")
      (FilePlace.cache (Paths.locate path))) w =
      ((.error (.cache (Paths.display path) "input/output error") : Except ResolverError _),
        ⟨w.files, w.outcomes.tail, w.trace ++ [.reads (.cache (Paths.locate path))]⟩) := by
    simp [FileStore.read, exec, FileStore.Operation.perform, h, FileStore.Operation.fail,
      FileStore.Operation.accesses]
  exact FileStore.exec_tryCatch_error hread

end RepositoryClient

end JMan.Resolver
