import Mathlib.Data.String.Basic
import JMan.Lib.Fallible
import JMan.Lib.Path

/-!
# JMan — manifests and lockfiles

The types of `jman-config/src/lib.rs`, with `validate`, `read` and `to_toml`. A
`BTreeMap<String, _>` is the extensional tree map of the standard library.

What is outside the crate is a parameter (`Format`): parsing and rendering
TOML, and the Unicode tables behind `char::is_alphabetic`. The tables of a
manifest that nothing here looks into (publishing, audit, scripts, tests and
generators) travel through as their text, `sections`; their checks belong to
`Format` too.
-/

namespace JMan.Config

abbrev BTreeMap (β : Type) := Std.ExtTreeMap String β

-- Errors

/-- `ConfigError`; a foreign source error is its rendered text. -/
inductive ConfigError where
  | read (path source : String)
  | parse (path source : String)
  | serialize (source : String)
  | unsupportedVersion (kind : String) (actual supported : Nat)
  | toolchainOnly (path : String)
  | validation (message : String)
deriving DecidableEq

-- Manifests

def manifestSchema : Nat := 1

def lockSchema : Nat := 3

structure Toolchain where
  jdk : String
  vendor : String
deriving DecidableEq

structure MavenDependencyMetadata where
  dependencyType : String
  classifier : Option String
  optional : Bool
  exclusions : List String
deriving DecidableEq

structure MavenManagedDependency where
  group : String
  artifact : String
  version : Option String
  scope : String
  dependencyType : String
  classifier : Option String
  optional : Option Bool
  exclusions : List String
deriving DecidableEq

structure MavenCompatibility where
  parent : Option String
  dependencies : BTreeMap MavenDependencyMetadata
  dependencyManagement : List MavenManagedDependency
  bomImports : List String
deriving DecidableEq

structure Project where
  group : String
  name : String
  version : String
  javaRelease : Nat
  packaging : String
  modules : List String
  mainClass : Option String
deriving DecidableEq

structure Build where
  encoding : String
  compilerArgs : List String
deriving DecidableEq

structure Repository where
  id : String
  url : String
deriving DecidableEq

/-- A dependency on a repository version or on another workspace module. -/
inductive DependencySpec where
  | version (version : String)
  | path (path : String)
deriving DecidableEq

def DependencySpec.version? : DependencySpec → Option String
  | .version v => some v
  | .path _ => none

def DependencySpec.path? : DependencySpec → Option String
  | .version _ => none
  | .path p => some p

structure Dependencies where
  compile : BTreeMap DependencySpec
  runtime : BTreeMap DependencySpec
  provided : BTreeMap DependencySpec
  test : BTreeMap DependencySpec
deriving DecidableEq

/-- The scopes in the order every loop of the source visits them. -/
def Dependencies.scopes (d : Dependencies) : List (String × BTreeMap DependencySpec) :=
  [("compile", d.compile), ("runtime", d.runtime), ("provided", d.provided), ("test", d.test)]

structure Manifest where
  manifestVersion : Nat
  project : Project
  toolchain : Option Toolchain
  maven : Option MavenCompatibility
  build : Option Build
  repositories : List Repository
  dependencies : Dependencies
  annotationProcessors : BTreeMap String
  sections : String
deriving DecidableEq

structure ToolchainManifest where
  manifestVersion : Nat
  toolchain : Toolchain
deriving DecidableEq

inductive ManifestFile where
  | toolchain (manifest : ToolchainManifest)
  | project (manifest : Manifest)
deriving DecidableEq

-- Lockfiles

structure LockedPackage where
  group : String
  artifact : String
  version : String
  extension : String
  classifier : Option String
  source : String
  pomChecksum : String
  artifactChecksum : Option String
  artifactSize : Option Nat
  dependencies : List String
  scopes : List String
  selectedParent : Option String
deriving DecidableEq

structure LockedWorkspaceDependency where
  coordinate : String
  scope : String
  path : String
  version : String
deriving DecidableEq

structure LockedClasspaths where
  compile : List String
  runtime : List String
  test : List String
  processors : List String
deriving DecidableEq

structure Lockfile where
  lockVersion : Nat
  manifestHash : String
  workspaceHash : String
  platform : String
  javaRelease : Nat
  packages : List LockedPackage
  workspaceDependencies : List LockedWorkspaceDependency
  classpath : LockedClasspaths
deriving DecidableEq

/-- What is left of a checksum without `sha256:`. -/
def digestOf? (checksum : String) : Option String :=
  if "sha256:".isPrefixOf checksum then some (String.ofList (checksum.toList.drop 7)) else none

-- The format

/-- TOML, Unicode, and the checks of the tables that are carried as text. -/
structure Format where
  parseManifest : String → Except String ManifestFile
  renderManifest : Manifest → Except String String
  parseLock : String → Except String Lockfile
  renderLock : Lockfile → Except String String
  isAlphabetic : Char → Bool
  isAlphanumeric : Char → Bool
  checkSections : String → Except ConfigError Unit

-- Validation

/-- The `White_Space` characters of Unicode, which `str::trim` removes. -/
def whiteSpace (c : Char) : Bool :=
  let n := c.toNat
  (9 ≤ n && n ≤ 13) || n = 32 || n = 0x85 || n = 0xA0 || n = 0x1680 || (0x2000 ≤ n && n ≤ 0x200A) ||
    n = 0x2028 || n = 0x2029 || n = 0x202F || n = 0x205F || n = 0x3000

def trim (value : String) : String :=
  String.ofList ((value.toList.dropWhile whiteSpace).reverse.dropWhile whiteSpace).reverse

/-- `value.trim().is_empty()`. -/
def isBlank (value : String) : Bool := value.toList.all whiteSpace

/-- `split_once(':')` with both halves non-empty and no further colon. -/
def splitGa? (coordinate : String) : Option (String × String) :=
  match coordinate.toList.splitOn ':' with
  | [group, artifact] =>
    if group ≠ [] ∧ artifact ≠ [] then some (String.ofList group, String.ofList artifact) else none
  | _ => none

def validateGa (coordinate : String) : Except ConfigError Unit :=
  if (splitGa? coordinate).isSome then .ok ()
  else .error (.validation ("dependency `" ++ coordinate ++
    "` must use group:artifact notation"))

section Validate

variable (format : Format)

def isJavaIdentifier (part : List Char) : Bool :=
  match part with
  | [] => false
  | first :: rest =>
    (first = '_' || first = '$' || format.isAlphabetic first) &&
      rest.all fun c => c = '_' || c = '$' || format.isAlphanumeric c

def validateJavaName (label value : String) : Except ConfigError Unit :=
  if (value.toList.splitOn '.').all (isJavaIdentifier format) then .ok ()
  else .error (.validation (label ++ " `" ++ value ++ "` is not a valid dotted Java identifier"))

/-- `str::parse::<u16>`. -/
def parseU16 (value : String) : Except String Nat :=
  match value.toList with
  | [] => .error "cannot parse integer from empty string"
  | ['+'] => .error "invalid digit found in string"
  | '+' :: digits => go 0 digits
  | digits => go 0 digits
where
  go (number : Nat) : List Char → Except String Nat
    | [] => .ok number
    | c :: cs =>
      if c.isDigit then
        let next := number * 10 + (c.toNat - '0'.toNat)
        if 65535 < next then .error "number too large to fit in target type" else go next cs
      else .error "invalid digit found in string"

def javaFeatureVersion (version : String) : Option Nat :=
  let digits := version.toList.takeWhile Char.isDigit
  let suffix := version.toList.dropWhile Char.isDigit
  match parseU16 (String.ofList digits) with
  | .error _ => none
  | .ok major =>
    if major = 0 then none
    else
      match suffix with
      | [] => some major
      | 'u' :: update => if major = 8 ∧ (update.head?.any Char.isDigit) then some major else none
      | c :: _ => if c = '.' ∨ c = '+' ∨ c = '-' then some major else none

def validateJdkVendor (vendor : String) : Except ConfigError Unit :=
  let chars := vendor.toList
  if chars ≠ [] ∧ chars.all (fun c => c.isLower || c.isDigit || c = '-') ∧
      chars.head? ≠ some '-' ∧ chars.getLast? ≠ some '-' then .ok ()
  else .error (.validation ("JDK vendor `" ++ vendor ++ "` must be a lowercase identifier"))

def validateToolchain (toolchain : Toolchain) (javaRelease : Nat) : Except ConfigError Unit := do
  unless (javaFeatureVersion toolchain.jdk).any (javaRelease ≤ ·) do
    throw (.validation ("toolchain JDK `" ++ toolchain.jdk ++
      "` must be a valid version at least as new as Java release " ++ toString javaRelease))
  validateJdkVendor toolchain.vendor

def validateSpec (coordinate : String) (spec : DependencySpec) : Except ConfigError Unit :=
  match spec with
  | .version version =>
    if isBlank version then
      .error (.validation ("dependency `" ++ coordinate ++ "` version cannot be empty"))
    else .ok ()
  | .path path =>
    if isBlank path ∨ Paths.isAbsolute path then
      .error (.validation ("workspace dependency `" ++ coordinate ++
        "` path must be a non-empty relative path"))
    else .ok ()

def validateMetadata (key : String) (metadata : MavenDependencyMetadata) :
    Except ConfigError Unit := do
  let scope := String.ofList (key.toList.takeWhile (· ≠ ':'))
  let coordinate := String.ofList ((key.toList.dropWhile (· ≠ ':')).drop 1)
  unless ':' ∈ key.toList do
    throw (.validation ("Maven dependency metadata key `" ++ key ++
      "` must use scope:group:artifact"))
  unless scope ∈ ["compile", "runtime", "provided", "test"] do
    throw (.validation ("unsupported dependency metadata scope `" ++ scope ++ "`"))
  validateGa coordinate
  metadata.exclusions.forM validateGa

def validateManaged (managed : MavenManagedDependency) : Except ConfigError Unit := do
  validateGa (managed.group ++ ":" ++ managed.artifact)
  managed.exclusions.forM validateGa

def MavenCompatibility.validate (maven : MavenCompatibility) : Except ConfigError Unit := do
  maven.dependencies.toList.forM fun entry => validateMetadata entry.1 entry.2
  maven.dependencyManagement.forM validateManaged

def Manifest.validate (manifest : Manifest) : Except ConfigError Unit := do
  if manifest.manifestVersion ≠ manifestSchema then
    throw (.unsupportedVersion "manifest" manifest.manifestVersion manifestSchema)
  validateJavaName format "project group" manifest.project.group
  if isBlank manifest.project.name then
    throw (.validation "project name cannot be empty")
  manifest.project.mainClass.forM (validateJavaName format "main class")
  manifest.toolchain.forM fun toolchain => validateToolchain toolchain manifest.project.javaRelease
  manifest.dependencies.scopes.forM fun entries => entries.2.keys.forM validateGa
  manifest.annotationProcessors.keys.forM validateGa
  manifest.dependencies.scopes.forM fun entries =>
    entries.2.toList.forM fun entry => validateSpec entry.1 entry.2
  manifest.maven.forM MavenCompatibility.validate
  format.checkSections manifest.sections

def ToolchainManifest.validate (manifest : ToolchainManifest) : Except ConfigError Unit := do
  if manifest.manifestVersion ≠ manifestSchema then
    throw (.unsupportedVersion "manifest" manifest.manifestVersion manifestSchema)
  if (javaFeatureVersion manifest.toolchain.jdk).isNone then
    throw (.validation ("toolchain JDK `" ++ manifest.toolchain.jdk ++
      "` must be a valid Java version"))
  validateJdkVendor manifest.toolchain.vendor

def LockedPackage.validate (package : LockedPackage) : Except ConfigError Unit := do
  unless "sha256:".isPrefixOf package.pomChecksum do
    throw (.validation ("package " ++ package.group ++ ":" ++ package.artifact ++
      " has an invalid POM checksum"))
  if package.artifactChecksum.any fun checksum => !"sha256:".isPrefixOf checksum then
    throw (.validation ("package " ++ package.group ++ ":" ++ package.artifact ++
      " has an invalid artifact checksum"))

def LockedWorkspaceDependency.validate (dependency : LockedWorkspaceDependency) :
    Except ConfigError Unit := do
  validateGa dependency.coordinate
  unless dependency.scope ∈ ["compile", "runtime", "provided", "test"] do
    throw (.validation ("workspace dependency " ++ dependency.coordinate ++
      " has unsupported scope `" ++ dependency.scope ++ "`"))
  if isBlank dependency.version ∨ isBlank dependency.path ∨ Paths.isAbsolute dependency.path then
    throw (.validation ("workspace dependency " ++ dependency.coordinate ++
      " must have a version and relative path"))

/-- The loop over the workspace dependencies; `edges` are the scopes and
coordinates seen so far. -/
def validateEdges (edges : List (String × String)) :
    List LockedWorkspaceDependency → Except ConfigError Unit
  | [] => .ok ()
  | dependency :: rest => do
    dependency.validate
    if (dependency.scope, dependency.coordinate) ∈ edges then
      throw (.validation ("duplicate " ++ dependency.scope ++ " workspace dependency " ++
        dependency.coordinate))
    validateEdges ((dependency.scope, dependency.coordinate) :: edges) rest

def Lockfile.validate (lock : Lockfile) : Except ConfigError Unit := do
  if lock.lockVersion ≠ lockSchema then
    throw (.unsupportedVersion "lockfile" lock.lockVersion lockSchema)
  unless "sha256:".isPrefixOf lock.manifestHash do
    throw (.validation "manifest hash must use sha256")
  unless "sha256:".isPrefixOf lock.workspaceHash do
    throw (.validation "workspace hash must use sha256")
  if isBlank lock.platform then
    throw (.validation "resolution platform cannot be empty")
  lock.packages.forM LockedPackage.validate
  validateEdges [] lock.workspaceDependencies

-- Reading and writing

/-- `fs::read_to_string`, of the contents found at a path. -/
def readText (path : String) (contents : Option ByteArray) : Except ConfigError String :=
  match contents with
  | none => .error (.read path "No such file or directory (os error 2)")
  | some bytes =>
    match String.fromUTF8? bytes with
    | none => .error (.read path "stream did not contain valid UTF-8")
    | some text => .ok text

def ManifestFile.read (path : String) (contents : Option ByteArray) :
    Except ConfigError ManifestFile := do
  let text ← readText path contents
  match format.parseManifest text with
  | .error source => throw (.parse path source)
  | .ok (.project manifest) =>
    manifest.validate format
    return .project manifest
  | .ok (.toolchain manifest) =>
    manifest.validate
    return .toolchain manifest

def Manifest.read (path : String) (contents : Option ByteArray) : Except ConfigError Manifest := do
  match ← ManifestFile.read format path contents with
  | .project manifest => return manifest
  | .toolchain _ => throw (.toolchainOnly path)

def Manifest.toToml (manifest : Manifest) : Except ConfigError String := do
  manifest.validate format
  (format.renderManifest manifest).mapError ConfigError.serialize

def Lockfile.read (path : String) (contents : Option ByteArray) : Except ConfigError Lockfile := do
  let text ← readText path contents
  let lock ← (format.parseLock text).mapError (ConfigError.parse path)
  lock.validate
  return lock

def Lockfile.toToml (lock : Lockfile) : Except ConfigError String := do
  lock.validate
  let text ← (format.renderLock lock).mapError ConfigError.serialize
  return "# Auto-generated by jman. DO NOT EDIT.\n" ++ text

end Validate

-- Round trips

theorem fromUTF8?_toUTF8 (text : String) : String.fromUTF8? text.toUTF8 = some text :=
  dif_pos text.isValidUTF8

theorem toUTF8_of_fromUTF8? {bytes : ByteArray} {text : String}
    (h : String.fromUTF8? bytes = some text) : text.toUTF8 = bytes := by
  unfold String.fromUTF8? at h
  split at h
  · cases h
    rfl
  · cases h

theorem Manifest.read_path {format : Format} {path : String} {contents : Option ByteArray}
    {manifest : Manifest} (h : Manifest.read format path contents = .ok manifest) (other : String) :
    Manifest.read format other contents = .ok manifest := by
  obtain ⟨file, hfile, hmanifest⟩ := Fallible.bind_eq_ok.mp h
  obtain ⟨text, htext, hparse⟩ := Fallible.bind_eq_ok.mp hfile
  have htext' : readText other contents = .ok text := by
    cases contents with
    | none => cases htext
    | some bytes =>
      simp only [readText] at htext ⊢
      cases hutf : String.fromUTF8? bytes with
      | none =>
        rw [hutf] at htext
        cases htext
      | some t =>
        rw [hutf] at htext
        exact htext
  have hfile' : ManifestFile.read format other contents = .ok file := by
    refine Fallible.bind_eq_ok.mpr ⟨text, htext', ?_⟩
    cases hp : format.parseManifest text with
    | error source =>
      rw [hp] at hparse
      cases hparse
    | ok parsed =>
      rw [hp] at hparse
      cases parsed with
      | project m => exact hparse
      | toolchain m => exact hparse
  refine Fallible.bind_eq_ok.mpr ⟨file, hfile', ?_⟩
  cases file with
  | project m => exact hmanifest
  | toolchain m => cases hmanifest

def Format.RoundTrips (format : Format) : Prop :=
  ∀ manifest text, format.renderManifest manifest = .ok text →
    format.parseManifest text = .ok (.project manifest)

theorem Manifest.render_of_toToml {format : Format} {manifest : Manifest} {text : String}
    (h : manifest.toToml format = .ok text) : format.renderManifest manifest = .ok text := by
  obtain ⟨⟨⟩, -, hrender⟩ := Fallible.bind_eq_ok.mp h
  exact Fallible.mapError_eq_ok.mp hrender

theorem Manifest.toToml_injective {format : Format} (hformat : format.RoundTrips)
    {left right : Manifest} {text : String} (hleft : left.toToml format = .ok text)
    (hright : right.toToml format = .ok text) : left = right := by
  have hl := hformat left text (Manifest.render_of_toToml hleft)
  have hr := hformat right text (Manifest.render_of_toToml hright)
  rw [hl] at hr
  exact ManifestFile.project.inj (Except.ok.inj hr)

/-- **A manifest that was written reads as what it was.** -/
theorem Manifest.read_toToml {format : Format} (hformat : format.RoundTrips) {manifest : Manifest}
    {text : String} (h : manifest.toToml format = .ok text) (path : String) :
    Manifest.read format path (some text.toUTF8) = .ok manifest := by
  obtain ⟨⟨⟩, hvalid, -⟩ := Fallible.bind_eq_ok.mp h
  have hrender := Manifest.render_of_toToml h
  have htext : readText path (some text.toUTF8) = .ok text := by
    rw [readText, fromUTF8?_toUTF8]
  unfold Manifest.read ManifestFile.read
  rw [htext]
  simp only [bind, Except.bind, hformat manifest text hrender, hvalid]
  rfl

-- Formats given as tables

def Format.ofTable (manifests : List (String × Manifest)) : Format where
  parseManifest text :=
    match manifests.lookup text with
    | some manifest => .ok (.project manifest)
    | none => .error "unknown manifest"
  renderManifest manifest :=
    match manifests.find? fun entry => entry.2 = manifest with
    | some entry => .ok entry.1
    | none => .error "unknown manifest"
  parseLock _ := .error "unknown lockfile"
  renderLock lock := .ok (lock.manifestHash ++ "\n" ++ lock.workspaceHash)
  isAlphabetic := Char.isAlpha
  isAlphanumeric := Char.isAlphanum
  checkSections _ := .ok ()

theorem Format.ofTable_roundTrips {manifests : List (String × Manifest)}
    (h : (manifests.map Prod.fst).Nodup) : (Format.ofTable manifests).RoundTrips := by
  intro manifest text hrender
  have hlookup : manifests.lookup text = some manifest := by
    simp only [Format.ofTable] at hrender
    split at hrender
    · next entry hfind =>
      cases hrender
      have hmem := List.mem_of_find?_eq_some hfind
      have hsame : entry.2 = manifest := by simpa using List.find?_some hfind
      subst hsame
      clear hfind
      induction manifests with
      | nil => cases hmem
      | cons first rest ih =>
        obtain ⟨key, value⟩ := first
        simp only [List.map_cons, List.nodup_cons] at h
        rcases List.mem_cons.mp hmem with rfl | htail
        · simp
        · have hne : (entry.1 == key) = false := by
            rw [beq_eq_false_iff_ne]
            rintro rfl
            exact h.1 (List.mem_map_of_mem htail)
          rw [List.lookup_cons, hne]
          exact ih h.2 htail
    · cases hrender
  simp only [Format.ofTable, hlookup]

end JMan.Config
