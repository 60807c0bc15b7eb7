import Mathlib.Data.List.Sort
import Mathlib.Order.Basic
import JMan.Build.Artifacts
import JMan.Build.ToolchainStore

/-!
# JMan — the JDK catalog

`jman-build/src/toolchain/catalog/foojay.rs`: the packages that the provider offers become
releases, and one of them is resolved to an archive. The answers of the provider are
parameters.

* `chooseRelease_spec`, `chosen_of_resolve` — the release that is resolved is one of the
  vendor, of the version or of the major version that was asked for.
-/

namespace JMan.Build.Toolchains

open Fallible (orError)

-- Packages
-- ---

structure FoojayPackage where
  id : String
  archiveType : String
  distribution : String
  majorVersion : Nat
  javaVersion : String
  releaseStatus : String
  termOfSupport : String
  operatingSystem : String
  libCType : String
  architecture : String
  packageType : String
  javafxBundled : Bool
  directlyDownloadable : Bool
  filename : String
  freeUseInProduction : Bool
deriving DecidableEq

structure FoojayPackageInfo where
  directDownloadUri : String
  checksum : String
  checksumType : String
deriving DecidableEq

structure CatalogRelease where
  vendor : String
  version : String
  major : Nat
  lts : Bool
  os : String
  architecture : String
  archiveType : String
  filename : String
  sourceId : String
deriving DecidableEq

structure ResolvedArtifact where
  release : CatalogRelease
  downloadUrl : String
  checksumSha256 : String
deriving DecidableEq

/-- The answers of the provider, and `Url::parse`. -/
structure Provider where
  packages : String → String → Except BuildError (List FoojayPackage)
  details : String → Except BuildError (List FoojayPackageInfo)
  parseUrl : String → Except String String

-- Names
-- ---

/-- The distributions: the provider's names, and JMAN's. -/
def distributions : List (String × String) :=
  [("aoj", "adoptopenjdk"), ("aoj_openj9", "adoptopenjdk-openj9"), ("bisheng", "bisheng"),
    ("corretto", "corretto"), ("dragonwell", "dragonwell"), ("eliya", "eliya"),
    ("gluon_graalvm", "gluon-graalvm"), ("graalvm", "graalvm"),
    ("graalvm_community", "graalvm-community"), ("graalvm_ce8", "graalvm-ce-8"),
    ("graalvm_ce11", "graalvm-ce-11"), ("graalvm_ce16", "graalvm-ce-16"),
    ("graalvm_ce17", "graalvm-ce-17"), ("graalvm_ce19", "graalvm-ce-19"),
    ("jetbrains", "jetbrains"), ("kona", "kona"), ("liberica", "liberica"),
    ("liberica_native", "liberica-native"), ("mandrel", "mandrel"), ("microsoft", "microsoft"),
    ("openlogic", "openlogic"), ("oracle", "oracle"), ("oracle_open_jdk", "openjdk"),
    ("sap_machine", "sapmachine"), ("semeru", "semeru"),
    ("semeru_certified", "semeru-certified"), ("temurin", "temurin"), ("trava", "trava"),
    ("zulu", "zulu"), ("zulu_prime", "zulu-prime")]

def canonicalDistribution (value : String) : Option String := distributions.lookup value

def providerDistribution (value : String) : Option String :=
  (distributions.map Prod.swap).lookup value

def normalizeOs (value : String) : Option String :=
  match value with
  | "macos" => some "mac"
  | "linux" => some "linux"
  | "windows" => some "windows"
  | _ => none

def normalizeArch (value : String) : Option String :=
  match value with
  | "x64" | "amd64" | "x86-64" => some "x64"
  | "aarch64" | "arm64" => some "aarch64"
  | "arm" => some "arm"
  | "ppc64le" | "ppc64el" => some "ppc64le"
  | "s390x" => some "s390x"
  | "riscv64" => some "riscv64"
  | _ => none

def libcMatches (expected actual : String) : Bool :=
  expected = actual ||
    expected = "glibc" && (actual = "c_std_lib" || actual = "libc") ||
    expected = "libc" && (actual = "c_std_lib" || actual = "glibc")

/-- `8.0.504+1` of Java 8 is `8u504-b01`. -/
def normalizeVersion (version : String) (major : Nat) : String :=
  if major = 8 then
    match versionKey version with
    | 8 :: 0 :: update :: _ :: build :: _ => "8u" ++ toString update ++ "-b" ++ twoDigits build
    | 8 :: 0 :: update :: _ => "8u" ++ toString update
    | _ => version
  else version

/-- `split_once("-b")`, with nothing behind a text that is missing -/
def splitBuild : List Char → List Char × List Char
  | [] => ([], [])
  | '-' :: 'b' :: build => ([], build)
  | c :: rest => (c :: (splitBuild rest).1, (splitBuild rest).2)

def providerVersion (version : String) : String :=
  match version.toList with
  | '8' :: 'u' :: update =>
    let parts := splitBuild update
    if parts.2 = [] then "8.0." ++ String.ofList parts.1
    else
      let build := parts.2.dropWhile (· = '0')
      "8.0." ++ String.ofList parts.1 ++ "+" ++ if build = [] then "0" else String.ofList build
  | _ => version

-- Releases
-- ---

/-- The release that a package is, if it is one for this platform. -/
def translatePackage (platform : Platform) (package : FoojayPackage) : Option CatalogRelease :=
  match canonicalDistribution package.distribution with
  | none => none
  | some vendor =>
    if package.packageType ≠ "jdk" ∨ package.releaseStatus ≠ "ga" ∨
        package.directlyDownloadable = false ∨ package.javafxBundled = true ∨
        package.freeUseInProduction = false ∨ package.archiveType ≠ platform.archiveType ∨
        normalizeOs package.operatingSystem ≠ some platform.os ∨
        normalizeArch package.architecture ≠ some platform.architecture ∨
        libcMatches platform.libc package.libCType = false then
      none
    else
      some
        { vendor := vendor
          version := normalizeVersion package.javaVersion package.majorVersion
          major := package.majorVersion
          lts := package.termOfSupport = "lts"
          os := platform.os
          architecture := platform.architecture
          archiveType := package.archiveType
          filename := package.filename
          sourceId := package.id }

/-- `entry(key).or_insert(release)` -/
def insertRelease (releases : List CatalogRelease) (release : CatalogRelease) :
    List CatalogRelease :=
  if releases.any fun other => other.vendor = release.vendor && other.version = release.version
  then releases
  else releases ++ [release]

def byKey (left right : CatalogRelease) : Bool :=
  left.vendor < right.vendor || left.vendor = right.vendor && !(right.version < left.version)

/-- The vendors in their order, and for each of them the newest version first. -/
def byVendor (left right : CatalogRelease) : Bool :=
  left.vendor < right.vendor || left.vendor = right.vendor &&
    (right.major < left.major || left.major = right.major &&
      decide (versionKey right.version ≤ versionKey left.version))

def translatePackages (packages : List FoojayPackage) (platform : Platform) :
    List CatalogRelease :=
  let releases := (packages.filterMap (translatePackage platform)).foldl insertRelease []
  (releases.insertionSort fun left right => byKey left right).insertionSort
    fun left right => byVendor left right

def isHex (c : Char) : Bool := c.isDigit || 'a' ≤ c && c ≤ 'f' || 'A' ≤ c && c ≤ 'F'

/-- The release that the filter and the order of `resolve` choose. -/
def chooseRelease (vendor version : String) (exact : Bool) (releases : List CatalogRelease) :
    Option CatalogRelease :=
  ((releases.filter fun release => release.vendor = vendor &&
      if exact then release.version = version else toString release.major = version).insertionSort
    fun left right => versionKey right.version ≤ versionKey left.version).head?

def checkDetail (release : CatalogRelease) (detail : FoojayPackageInfo) :
    Except BuildError Unit :=
  if detail.checksumType.toLower ≠ "sha256" ∨ detail.checksum.utf8ByteSize ≠ 64 ∨
      detail.checksum.toList.all isHex = false then
    .error (.invalid ("Foojay returned no valid SHA-256 checksum for " ++ release.sourceId))
  else .ok ()

def resolve (provider : Provider) (platform : Platform) (vendor version : String)
    (exact : Bool) : Except BuildError ResolvedArtifact := do
  let distribution ← orError (.invalid ("unsupported JDK distribution \x60" ++ vendor ++ "\x60"))
    (providerDistribution vendor)
  let packages ← provider.packages distribution (providerVersion version)
  let release ← orError (.invalid ("no " ++ vendor ++ " JDK found for " ++ version))
    (chooseRelease vendor version exact (translatePackages packages platform))
  let details ← provider.details release.sourceId
  let detail ← orError
    (.invalid ("Foojay returned no download metadata for " ++ release.sourceId)) details.head?
  checkDetail release detail
  let url ← (provider.parseUrl detail.directDownloadUri).mapError fun error =>
    .invalid ("invalid Foojay JDK download URL: " ++ error)
  return { release := release, downloadUrl := url, checksumSha256 := detail.checksum.toLower }

theorem chooseRelease_spec {vendor version : String} {exact : Bool}
    {releases : List CatalogRelease} {release : CatalogRelease}
    (h : chooseRelease vendor version exact releases = some release) :
    release.vendor = vendor ∧
      if exact then release.version = version else toString release.major = version := by
  have hmem := List.mem_of_head? h
  rw [List.mem_insertionSort, List.mem_filter] at hmem
  cases exact with
  | true => simpa using hmem.2
  | false => simpa using hmem.2

theorem chosen_of_resolve {provider : Provider} {platform : Platform} {vendor version : String}
    {exact : Bool} {artifact : ResolvedArtifact}
    (h : resolve provider platform vendor version exact = .ok artifact) :
    ∃ distribution packages, providerDistribution vendor = some distribution ∧
      provider.packages distribution (providerVersion version) = .ok packages ∧
      chooseRelease vendor version exact (translatePackages packages platform) =
        some artifact.release := by
  rw [resolve] at h
  obtain ⟨distribution, hdistribution, h⟩ := Fallible.bind_eq_ok.mp h
  obtain ⟨packages, hpackages, h⟩ := Fallible.bind_eq_ok.mp h
  obtain ⟨release, hrelease, h⟩ := Fallible.bind_eq_ok.mp h
  obtain ⟨_, -, h⟩ := Fallible.bind_eq_ok.mp h
  obtain ⟨_, -, h⟩ := Fallible.bind_eq_ok.mp h
  obtain ⟨_, -, h⟩ := Fallible.bind_eq_ok.mp h
  obtain ⟨_, -, h⟩ := Fallible.bind_eq_ok.mp h
  rw [← Fallible.pure_eq_ok.mp h]
  exact ⟨distribution, packages, Fallible.orError_eq_ok.mp hdistribution, hpackages,
    Fallible.orError_eq_ok.mp hrelease⟩

end JMan.Build.Toolchains
