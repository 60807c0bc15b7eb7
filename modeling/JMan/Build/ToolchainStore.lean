import JMan.Lib.Numbers
import JMan.Lib.Path
import JMan.Lib.Template

/-!
# JMan — the JDK store

What `ToolchainManager::list` of `jman-build/src/toolchain.rs` makes of a directory of the
store, and the order of versions. A directory is the files in it, by their paths.

`serde_json`, which reads and writes the record of an installation, is a parameter.

* `listedAt_eq_some` — when an installation is listed.
* `listedAt_without` — a part of an installation is listed as long as it has the
  record and the compiler.
-/

namespace JMan.Build.Toolchains

open Paths (Path)

abbrev Contents := List UInt8

/-- A directory: what its files hold, by their paths in it. -/
abbrev Tree := Path → Option Contents

structure ManagedJdk where
  vendor : String
  version : String
  major : Nat
  os : String
  architecture : String
  checksum : String
  home : Path
deriving DecidableEq

structure ToolchainRequest where
  version : String
  vendor : String
deriving DecidableEq

structure Platform where
  os : String
  architecture : String
  libc : String
  archiveType : String
  windows : Bool
deriving DecidableEq

/-- `serde_json`, as far as it is used here. -/
structure RecordFormat where
  parse : Contents → Option ManagedJdk
  toVecPretty : ManagedJdk → Contents

def metadata : Path := [".jman-toolchain.json"]

def javacPath (platform : Platform) : Path :=
  ["bin", if platform.windows then "javac.exe" else "javac"]

-- Versions
-- ---

/-- `str::parse::<u32>` -/
def parseU32 : List Char → Option Nat := Numbers.parseUnsigned 4294967295

def numbersIn (text : List Char) : List Nat :=
  ((text.splitOnP fun c => !c.isDigit).filter (· ≠ [])).filterMap parseU32

/-- `split_once('+')`, with nothing behind a sign that is missing -/
def splitPlus (value : List Char) : List Char × List Char :=
  (Template.splitOnce '+' value).getD (value, [])

def versionKey (value : String) : List Nat :=
  let parts := splitPlus value.toList
  -- `resize` drops the numbers behind the fourth as well
  (numbersIn parts.1 ++ List.replicate 4 0).take 4 ++ numbersIn parts.2

/-- `rsplit_once('+')` -/
def rsplitPlus (value : List Char) : Option (List Char × List Char) :=
  (Template.splitOnce '+' value.reverse).map fun parts => (parts.2.reverse, parts.1.reverse)

/-- `{:02}` -/
def twoDigits (number : Nat) : String :=
  if number < 10 then "0" ++ toString number else toString number

/-- `strip_suffix(".0.LTS")` -/
def stripLts (version : List Char) : Option (List Char) :=
  if ".0.LTS".toList.isSuffixOf version then some (version.take (version.length - 6)) else none

/-- The version without the `.0.LTS`, with its build number decoded. -/
def withoutLts (version : String) : String :=
  match (stripLts version.toList).bind rsplitPlus with
  | none => version
  | some (core, encodedBuild) =>
    match parseU32 encodedBuild with
    | none => version
    | some build =>
      if 100 ≤ build then
        String.ofList core ++ "." ++ toString (build / 100) ++ "+" ++ toString (build % 100)
      else String.ofList core ++ "+" ++ toString build

def normalizeManagedVersion (version : String) (major : Nat) : String :=
  if major = 8 then
    match versionKey version with
    | 8 :: _ :: update :: _ :: build :: _ => "8u" ++ toString update ++ "-b" ++ twoDigits build
    | _ => withoutLts version
  else withoutLts version

-- Listing
-- ---

variable {format : RecordFormat} {platform : Platform} {home : Path} {tree : Tree}
  {jdk : ManagedJdk}

/-- The installation in a directory of the store, if it is one. -/
def listedAt (format : RecordFormat) (platform : Platform) (home : Path) (tree : Tree) :
    Option ManagedJdk :=
  match (tree metadata).bind format.parse with
  | none => none
  | some jdk =>
    let jdk := { jdk with version := normalizeManagedVersion jdk.version jdk.major }
    if jdk.os = platform.os ∧ jdk.architecture = platform.architecture ∧ jdk.home = home ∧
        (tree (javacPath platform)).isSome then
      some jdk
    else none

theorem listedAt_eq_some : listedAt format platform home tree = some jdk ↔
    ∃ record, (tree metadata).bind format.parse = some record ∧
      jdk = { record with version := normalizeManagedVersion record.version record.major } ∧
      record.os = platform.os ∧ record.architecture = platform.architecture ∧
      record.home = home ∧ (tree (javacPath platform)).isSome := by
  rw [listedAt]
  cases hrecord : (tree metadata).bind format.parse with
  | none => simp
  | some record =>
    simp only [Option.some.injEq, exists_eq_left']
    split
    case isTrue h =>
      rw [Option.some.injEq, eq_comm]
      exact ⟨fun hjdk => ⟨hjdk, h⟩, fun hjdk => hjdk.1⟩
    case isFalse h => exact ⟨fun hjdk => (by cases hjdk), fun hjdk => absurd hjdk.2 h⟩

theorem home_of_listedAt (h : listedAt format platform home tree = some jdk) : jdk.home = home := by
  obtain ⟨record, -, rfl, -, -, hhome, -⟩ := listedAt_eq_some.mp h
  exact hhome

theorem home_unique {home' : Path} {jdk' : ManagedJdk}
    (h : listedAt format platform home tree = some jdk)
    (h' : listedAt format platform home' tree = some jdk') : home = home' := by
  obtain ⟨record, hrecord, -, -, -, hhome, -⟩ := listedAt_eq_some.mp h
  obtain ⟨record', hrecord', -, -, -, hhome', -⟩ := listedAt_eq_some.mp h'
  rw [hrecord, Option.some.injEq] at hrecord'
  rw [← hhome, ← hhome', hrecord']

def Tree.without (tree : Tree) (removed : Path → Bool) : Tree :=
  fun path => if removed path then none else tree path

theorem listedAt_without (h : listedAt format platform home tree = some jdk)
    {removed : Path → Bool} (hmetadata : removed metadata = false)
    (hjavac : removed (javacPath platform) = false) :
    listedAt format platform home (tree.without removed) = some jdk := by
  obtain ⟨record, hrecord, rfl, hos, harchitecture, hhome, hcompiler⟩ := listedAt_eq_some.mp h
  refine listedAt_eq_some.mpr ⟨record, ?_, rfl, hos, harchitecture, hhome, ?_⟩
  · simpa [Tree.without, hmetadata] using hrecord
  · simpa [Tree.without, hjavac] using hcompiler

theorem of_listedAt_without {removed : Path → Bool}
    (h : listedAt format platform home (tree.without removed) = some jdk) :
    removed metadata = false ∧ removed (javacPath platform) = false ∧
      listedAt format platform home tree = some jdk := by
  obtain ⟨record, hrecord, rfl, hos, harchitecture, hhome, hcompiler⟩ := listedAt_eq_some.mp h
  rw [Tree.without] at hrecord hcompiler
  cases hmetadata : removed metadata with
  | true => simp [hmetadata] at hrecord
  | false =>
    cases hjavac : removed (javacPath platform) with
    | true => simp [hjavac] at hcompiler
    | false =>
      refine ⟨rfl, rfl, listedAt_eq_some.mpr ⟨record, ?_, rfl, hos, harchitecture, hhome, ?_⟩⟩
      · simpa [hmetadata] using hrecord
      · simpa [hjavac] using hcompiler

def recordText (jdk : ManagedJdk) : String :=
  "\x7b\n  \"vendor\": \"" ++ jdk.vendor ++ "\",\n  \"version\": \"" ++ jdk.version ++
    "\",\n  \"major\": " ++ toString jdk.major ++ ",\n  \"os\": \"" ++ jdk.os ++
    "\",\n  \"architecture\": \"" ++ jdk.architecture ++ "\",\n  \"checksum\": \"" ++
    jdk.checksum ++ "\",\n  \"home\": \"" ++ Paths.display jdk.home ++ "\"\n\x7d"

def recordBytes (jdk : ManagedJdk) : Contents := (recordText jdk).toList.map fun c => c.toNat.toUInt8

def plainRecords (known : List ManagedJdk) : RecordFormat where
  parse bytes := known.find? fun jdk => recordBytes jdk = bytes
  toVecPretty := recordBytes

theorem parse_plainRecords (jdk : ManagedJdk) :
    (plainRecords [jdk]).parse ((plainRecords [jdk]).toVecPretty jdk) = some jdk := by
  simp [plainRecords]

end JMan.Build.Toolchains
