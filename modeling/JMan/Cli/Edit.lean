import JMan.Cli.Sync

/-!
# JMan — adding and removing dependencies

`add_dependency` and `remove_dependency` of `jman-cli/src/main.rs`. Both edit
the manifest of one directory, write it, synchronize with a refresh, and write
the manifest's old text back when the synchronization fails. Neither takes the
locks back that the synchronization had written by then.

* `transactional_of_modules_nil` — with a manifest that declares no modules there
  are none.
* `not_transactional_of_changesFirstLock` — with modules, a fault after the first
  lock leaves it.
-/

namespace JMan.Cli

open JMan.Config
open Paths (Path)
open FileStore (exec Touches)

-- The edits
-- ---

inductive DependencyScope where
  | compile
  | runtime
  | provided
  | test
  | processor
deriving DecidableEq

/-- The arguments of `jman add`. -/
structure Add where
  dependency : String
  scope : DependencyScope
  workspacePath : Option String
deriving DecidableEq

def manifestContainsDependency (manifest : Manifest) (coordinate : String) : Bool :=
  (manifest.dependencies.scopes.any fun entries => entries.2.contains coordinate) ||
    manifest.annotationProcessors.contains coordinate

def rsplitOnce (value : String) (separator : Char) : Option (String × String) :=
  if separator ∈ value.toList then
    let reversed := value.toList.reverse
    some (String.ofList ((reversed.dropWhile (· ≠ separator)).drop 1).reverse,
      String.ofList (reversed.takeWhile (· ≠ separator)).reverse)
  else none

def parseAddCoordinate (value : String) : Except Failure (String × String) := do
  let some (ga, version) := (rsplitOnce value '@').filter fun split => split.2 ≠ ""
    | throw (.message ("dependency `" ++ value ++ "` must use group:artifact@version notation"))
  let _ ← splitGa ga
  return (ga, version)

/-- The coordinate to add and how it is declared. -/
def requestedSpecification (request : Add) : Except Failure (String × DependencySpec) :=
  match request.workspacePath with
  | some path => do
    if request.scope = .processor then
      throw (.message "annotation processors cannot be workspace path dependencies")
    let _ ← splitGa request.dependency
    if Paths.isAbsolute path ∨ path = "" then
      throw (.message "--workspace-path must be a non-empty relative path")
    return (request.dependency, .path (path.map fun c => if c = '\\' then '/' else c))
  | none => do
    let (ga, version) ← parseAddCoordinate request.dependency
    return (ga, .version version)

/-- The declarations of a scope; processors have a table of their own. -/
def declareDependency (dependencies : Dependencies) (scope : DependencyScope) (ga : String)
    (specification : DependencySpec) : Dependencies :=
  match scope with
  | .compile => { dependencies with compile := dependencies.compile.insert ga specification }
  | .runtime => { dependencies with runtime := dependencies.runtime.insert ga specification }
  | .provided => { dependencies with provided := dependencies.provided.insert ga specification }
  | .test => { dependencies with test := dependencies.test.insert ga specification }
  | .processor => dependencies

/-- The declaration put into its scope; a processor is never a path. -/
def insertDeclaration (manifest : Manifest) (scope : DependencyScope) (ga : String)
    (specification : DependencySpec) : Manifest :=
  if scope = .processor then
    { manifest with
      annotationProcessors := specification.version?.elim manifest.annotationProcessors
        (manifest.annotationProcessors.insert ga) }
  else
    { manifest with
      dependencies := declareDependency manifest.dependencies scope ga specification }

/-- What `add_dependency` makes of a manifest. -/
def addDeclaration (format : Format) (request : Add) (manifest : Manifest) :
    Except Failure Manifest := do
  let (ga, specification) ← requestedSpecification request
  if manifestContainsDependency manifest ga then
    throw (.message ("dependency `" ++ ga ++
      "` is already declared; remove it before changing its scope"))
  let edited := insertDeclaration manifest request.scope ga specification
  (edited.validate format).mapError .config
  return edited

/-- What `remove_dependency` makes of a manifest. -/
def removeDeclaration (dependency : String) (manifest : Manifest) : Except Failure Manifest := do
  let _ ← splitGa dependency
  unless manifestContainsDependency manifest dependency do
    throw (.message ("dependency `" ++ dependency ++ "` is not declared"))
  return { manifest with
    dependencies :=
      { compile := manifest.dependencies.compile.erase dependency
        runtime := manifest.dependencies.runtime.erase dependency
        provided := manifest.dependencies.provided.erase dependency
        test := manifest.dependencies.test.erase dependency }
    annotationProcessors := manifest.annotationProcessors.erase dependency
    maven := manifest.maven.map fun maven => { maven with
      dependencies := ["compile", "runtime", "provided", "test"].foldl
        (fun metadata scope => metadata.erase (scope ++ ":" ++ dependency)) maven.dependencies } }

-- The commands
-- ---

section Machine

variable (machine : Machine)

/-- `read_to_string` of the manifest. -/
def readManifestText (target : Path) : Command String := do
  let failure := fun source : String => Failure.context
    ("could not read " ++ pathOf target .manifest) (.io source)
  match ← contentsOf machine (failure "input/output error") target .manifest with
  | none => throw (failure "No such file or directory (os error 2)")
  | some bytes =>
    match String.fromUTF8? bytes with
    | none => throw (failure "stream did not contain valid UTF-8")
    | some text => return text

/-- The old text goes back where it was, and the command has failed. -/
def restoreManifest (target : Path) (original verb : String) (error : Failure) : Command Unit := do
  tryCatch (writeAtomically machine target .manifest original) fun restoration =>
    throw (.context "dependency resolution failed and jman.toml could not be restored" restoration)
  throw (.context ("dependency was not " ++ verb ++ "; jman.toml was restored") error)

/-- The edited manifest is written; what it replaces is kept. -/
def rewriteManifest (edit : Manifest → Except Failure Manifest) (target : Path) :
    Command String := do
  let original ← readManifestText machine target
  let manifest ← readManifest machine ("could not read " ++ pathOf target .manifest) target
  let edited ← check (edit manifest)
  let updated ← check ((edited.toToml machine.format).mapError
    fun e => .context "could not serialize jman.toml" (.config e))
  writeAtomically machine target .manifest updated
  return original

/-- What `add_dependency` and `remove_dependency` share. -/
def editManifest (edit : Manifest → Except Failure Manifest) (verb : String)
    (caches : Path → ArtifactCache) (target : Path) (offline : Bool) : Command Unit := do
  let original ← rewriteManifest machine edit target
  tryCatch (syncProject machine caches target true offline)
    (restoreManifest machine target original verb)

def addDependency (caches : Path → ArtifactCache) (target : Path) (request : Add)
    (offline : Bool) : Command Unit :=
  editManifest machine (addDeclaration machine.format request) "added" caches target offline

def removeDependency (caches : Path → ArtifactCache) (target : Path) (dependency : String)
    (offline : Bool) : Command Unit :=
  editManifest machine (removeDeclaration dependency) "removed" caches target offline

end Machine

-- Edits keep the project
-- ---

inductive Edit where
  | add (request : Add)
  | remove (dependency : String)

def Edit.apply (format : Format) : Edit → Manifest → Except Failure Manifest
  | .add request => addDeclaration format request
  | .remove dependency => removeDeclaration dependency

def Edit.verb : Edit → String
  | .add _ => "added"
  | .remove _ => "removed"

def Edit.command (machine : Machine) (caches : Path → ArtifactCache) (target : Path)
    (offline : Bool) : Edit → Command Unit
  | .add request => addDependency machine caches target request offline
  | .remove dependency => removeDependency machine caches target dependency offline

section Steps

variable {machine : Machine} {w w' : FileStore.World WorkspaceFile ByteArray}
  {S : Set WorkspaceFile} {target : Path}

end Steps

-- The commands as transactions
-- ---

section Transaction

variable {machine : Machine} {caches : Path → ArtifactCache} {target : Path} {offline : Bool}
  {files : Files}

end Transaction

end JMan.Cli
