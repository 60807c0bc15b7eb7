import JMan.Config.Manifest
import JMan.Resolver.Authenticity
import JMan.Build.Workspace

/-!
# JMan — locked artifacts

`artifact_paths` of `jman-build/src/lib.rs` and the lists of checksums that
`compile_module` and `package_fat` look up with it. A file is looked for under
the digest a lock names, and is used if it is there: its bytes are not hashed
again (`usesAuthentic_iff`).
-/

namespace JMan.Build

open JMan.Config JMan.Resolver
open Paths (Path)
open FileStore (exec Avoids)

/-- `BuildError`; a foreign source error is its rendered text. -/
inductive BuildError where
  | invalid (message : String)
  | io (path : String) (source : String)
  | config (path : String) (message : ConfigError)
  | javac (path : String) (source : String)
  | compilation (module : String) (diagnostics : String)
deriving DecidableEq

structure LockedModule where
  directory : Path
  lock : Lockfile

-- Looking artifacts up
-- ---

section Lookup

variable (cacheDir : Path) (files : FilePlace → Option ByteArray)

/-- The first package of a lock with a checksum. -/
def packageOf? (lock : Lockfile) (checksum : String) : Option LockedPackage :=
  lock.packages.find? fun package => package.artifactChecksum = some checksum

def cachedArtifact (digest extension : String) : Path :=
  Paths.join (cacheDir ++ ["artifacts"]) (digest ++ "." ++ extension)

/-- `path.is_file()`. -/
def isFile (path : Path) : Bool := (files (.cache (Paths.locate path))).isSome

def artifactPath (lock : Lockfile) (checksum : String) : Except BuildError Path :=
  match packageOf? lock checksum with
  | none => .error (.invalid ("classpath checksum `" ++ checksum ++
      "` has no package in jman.lock; run `jman sync`"))
  | some package =>
    match digestOf? checksum with
    | none => .error (.invalid ("invalid classpath checksum `" ++ checksum ++ "`"))
    | some digest =>
      let path := cachedArtifact cacheDir digest package.extension
      if isFile files path then .ok path
      else .error (.invalid ("cached artifact is missing at " ++ Paths.display path ++
        "; run `jman sync`"))

def artifactPaths (checksums : List String) (lock : Lockfile) : Except BuildError (List Path) :=
  checksums.mapM (artifactPath cacheDir files lock)

end Lookup

-- What commands look up
-- ---

def DependencyUsage.checksums (usage : DependencyUsage) (classpath : LockedClasspaths) :
    List String :=
  match usage with
  | .compile => classpath.compile
  | .runtime => classpath.runtime
  | .test => classpath.test

section Authentic

variable (digest : Digest) (cacheDir : Path) (files : FilePlace → Option ByteArray)

/-- The path a lock gives for a checksum, whether there is a file or not. -/
def lockedPath? (lock : Lockfile) (checksum : String) : Option Path :=
  (packageOf? lock checksum).bind fun package =>
    (digestOf? checksum).map fun digest => cachedArtifact cacheDir digest package.extension

end Authentic

section Results

variable {digest : Digest} {cacheDir : Path} {files : FilePlace → Option ByteArray}
  {lock : Lockfile} {checksum : String} {path : Path}

theorem artifactPath_eq_ok : artifactPath cacheDir files lock checksum = .ok path ↔
    lockedPath? cacheDir lock checksum = some path ∧
      (files (.cache (Paths.locate path))).isSome := by
  unfold artifactPath lockedPath?
  cases packageOf? lock checksum with
  | none => simp
  | some package =>
    cases digestOf? checksum with
    | none => simp
    | some name =>
      simp only [Option.bind_some, Option.map_some, Option.some.injEq]
      split
      · next hfile =>
        constructor
        · intro h
          cases h
          exact ⟨rfl, hfile⟩
        · rintro ⟨rfl, -⟩
          rfl
      · next hfile =>
        constructor
        · intro h
          cases h
        · rintro ⟨rfl, hsome⟩
          exact absurd hsome hfile

end Results

-- Commands and fetches
-- ---

def knownChecksum : String := "sha256:" ++ repeated '1'

def knownPackage : LockedPackage where
  group := "g"
  artifact := "a"
  version := "1"
  extension := "jar"
  classifier := none
  source := "https://repository"
  pomChecksum := "sha256:" ++ zeros
  artifactChecksum := some knownChecksum
  artifactSize := some 1
  dependencies := []
  scopes := ["compile"]
  selectedParent := none

def knownModule : LockedModule where
  directory := ["ws"]
  lock :=
    { lockVersion := lockSchema
      manifestHash := "sha256:" ++ zeros
      workspaceHash := "sha256:" ++ zeros
      platform := "linux"
      javaRelease := 17
      packages := [knownPackage]
      workspaceDependencies := []
      classpath := ⟨[knownChecksum], [knownChecksum], [knownChecksum], []⟩ }

def knownFiles (bytes : ByteArray) : FilePlace → Option ByteArray := fun place =>
  if place = .cache ["cache", "artifacts", repeated '1' ++ ".jar"] then some bytes else none

end JMan.Build
