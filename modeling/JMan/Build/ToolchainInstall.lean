import Mathlib.Logic.Function.Basic
import JMan.Build.JdkCatalog

/-!
# JMan — installing JDKs

`ToolchainManager::list`, `find` and `install_with_progress` of
`jman-build/src/toolchain.rs`. An installation records the version as the catalog has it;
what is listed, and what is compared with an exact request, is that version normalized.

Downloads, the extraction of archives and `serde_json` are parameters.

* `install_found_again_iff` — an installation is found again exactly when its version starts
  with its major version and is listed as recorded.
-/

namespace JMan.Build.Toolchains

open Paths (Path)
open Fallible (orError)

-- Requests
-- ---

def leadingMajor (version : String) : Option Nat :=
  Numbers.parseUnsigned 65535 (version.toList.takeWhile Char.isDigit)

namespace ToolchainRequest

def major (request : ToolchainRequest) : Except BuildError Nat :=
  orError (.invalid ("invalid JDK version \x60" ++ request.version ++ "\x60"))
    (leadingMajor request.version)

def exact (request : ToolchainRequest) : Bool := !request.version.toList.all Char.isDigit

def validateVendor (request : ToolchainRequest) : Except BuildError Unit :=
  let vendor := request.vendor.toList
  if vendor ≠ [] ∧ (vendor.all fun c => c.isLower || c.isDigit || c = '-') ∧
      vendor.head? ≠ some '-' ∧ vendor.getLast? ≠ some '-' then
    .ok ()
  else .error (.invalid ("invalid JDK distribution \x60" ++ request.vendor ++ "\x60"))

end ToolchainRequest

-- The store
-- ---

/-- The directories of the store, in the order in which they are read. -/
abbrev Directories := List (String × Tree)

def precedes (left right : ManagedJdk) : Bool :=
  left.vendor < right.vendor || left.vendor = right.vendor &&
    (left.major < right.major || left.major = right.major &&
      decide (versionKey left.version ≤ versionKey right.version))

def list (format : RecordFormat) (platform : Platform) (root : Path) (store : Directories) :
    List ManagedJdk :=
  (store.filterMap fun entry => listedAt format platform (root ++ [entry.1]) entry.2).insertionSort
    fun left right => precedes left right

def satisfies (request : ToolchainRequest) (major : Nat) (jdk : ManagedJdk) : Bool :=
  jdk.vendor = request.vendor && jdk.major = major &&
    (!request.exact || jdk.version = request.version)

def find (format : RecordFormat) (platform : Platform) (root : Path) (store : Directories)
    (request : ToolchainRequest) : Except BuildError (Option ManagedJdk) := do
  request.validateVendor
  let major ← request.major
  return (list format platform root store).reverse.find? (satisfies request major)

-- Installation
-- ---

def sanitize (value : String) : String :=
  String.ofList (value.toList.map fun c =>
    if c.isAlphanum || c = '.' || c = '-' || c = '_' then c else '_')

/-- The provider, the steps on the machine, which may fail, and the place at which the new
directory is read. -/
structure Environment extends Provider where
  ready : Except BuildError Unit
  extract : ResolvedArtifact → Except BuildError Tree
  settle : Except BuildError Unit
  position : Nat

/-- What an installation ends with: what it returns, the store, and what was downloaded. -/
structure Installed where
  jdk : ManagedJdk
  store : Directories
  download : Option ResolvedArtifact

def extractedJdkHome (platform : Platform) (root : Tree) : Except BuildError Tree :=
  if (root (javacPath platform)).isSome then .ok root
  else
    let macosHome : Tree := fun path => root (["Contents", "Home"] ++ path)
    if (macosHome (javacPath platform)).isSome then .ok macosHome
    else .error (.invalid "downloaded JDK archive has no compiler")

def resolveAsset (environment : Environment) (platform : Platform) (request : ToolchainRequest) :
    Except BuildError ResolvedArtifact := do
  let artifact ← resolve environment.toProvider platform request.vendor request.version
    request.exact
  if artifact.release.os ≠ platform.os ∨ artifact.release.architecture ≠ platform.architecture ∨
      artifact.release.archiveType ≠ platform.archiveType then
    .error (.invalid ("JDK catalog returned " ++ artifact.release.os ++ "-" ++
      artifact.release.architecture ++ " (" ++ artifact.release.archiveType ++ ") for a " ++
      platform.os ++ "-" ++ platform.architecture ++ " (" ++ platform.archiveType ++
      ") installation"))
  else .ok artifact

def installName (platform : Platform) (request : ToolchainRequest) (version : String) : String :=
  request.vendor ++ "-" ++ sanitize version ++ "-" ++ platform.os ++ "-" ++ platform.architecture

def managedJdk (platform : Platform) (root : Path) (request : ToolchainRequest)
    (artifact : ResolvedArtifact) : ManagedJdk :=
  { vendor := request.vendor
    version := artifact.release.version
    major := artifact.release.major
    os := platform.os
    architecture := platform.architecture
    checksum := "sha256:" ++ artifact.checksumSha256
    home := root ++ [installName platform request artifact.release.version] }

/-- The directory takes the place of one with its name. -/
def putDirectory (position : Nat) (name : String) (tree : Tree) (store : Directories) :
    Directories :=
  let others := store.filter fun entry => entry.1 ≠ name
  others.take position ++ (name, tree) :: others.drop position

def download (format : RecordFormat) (environment : Environment) (platform : Platform)
    (root : Path) (request : ToolchainRequest) (store : Directories) :
    Except BuildError Installed := do
  environment.ready
  let artifact ← resolveAsset environment platform request
  let archive ← environment.extract artifact
  let home ← extractedJdkHome platform archive
  environment.settle
  let jdk := managedJdk platform root request artifact
  let tree := Function.update home metadata (some (format.toVecPretty jdk))
  return ⟨jdk, putDirectory environment.position
    (installName platform request artifact.release.version) tree store, some artifact⟩

def install (format : RecordFormat) (environment : Environment) (platform : Platform)
    (root : Path) (request : ToolchainRequest) (offline : Bool) (store : Directories) :
    Except BuildError Installed := do
  let found ← find format platform root store request
  match found with
  | some jdk => return ⟨jdk, store, none⟩
  | none =>
    if offline then
      .error (.invalid ("JDK " ++ request.version ++
        " is not installed and offline mode forbids downloading it"))
    else download format environment platform root request store

-- Versions that are listed as they are recorded
-- ---

variable {version : String}

/-- A version with its build number coded in front of `.0.LTS`. -/
def LtsCoded (version : String) : Prop :=
  ∃ core build, version.toList = core ++ '+' :: build ++ ".0.LTS".toList ∧ '+' ∉ build ∧
    (parseU32 build).isSome

/-- A version of Java 8 with at least five numbers, or one with a coded build number. -/
def Rewritten (version : String) (major : Nat) : Prop :=
  (major = 8 ∧ (versionKey version).head? = some 8 ∧ 5 ≤ (versionKey version).length) ∨
    LtsCoded version

theorem stripLts_eq_some {version before : List Char} :
    stripLts version = some before ↔ version = before ++ ".0.LTS".toList := by
  rw [stripLts]
  constructor
  · intro h
    split at h
    case isTrue hsuffix =>
      obtain ⟨core, rfl⟩ := List.isSuffixOf_iff_suffix.mp hsuffix
      rw [Option.some.injEq] at h
      have hlength : (core ++ ".0.LTS".toList).length - 6 = core.length := by
        rw [List.length_append, show ".0.LTS".toList.length = 6 from rfl, Nat.add_sub_cancel]
      rw [hlength, List.take_left] at h
      rw [h]
    case isFalse => cases h
  · rintro rfl
    rw [if_pos (List.isSuffixOf_iff_suffix.mpr (List.suffix_append ..)), List.length_append,
      show ".0.LTS".toList.length = 6 from rfl, Nat.add_sub_cancel, List.take_left]

theorem rsplitPlus_eq_some {value before after : List Char} :
    rsplitPlus value = some (before, after) ↔ value = before ++ '+' :: after ∧ '+' ∉ after := by
  rw [rsplitPlus, Option.map_eq_some_iff]
  constructor
  · rintro ⟨⟨back, front⟩, hsplit, heq⟩
    obtain ⟨hvalue, hnot⟩ := Template.splitOnce_eq_some.mp hsplit
    rw [Prod.mk.injEq] at heq
    obtain ⟨rfl, rfl⟩ := heq
    rw [← List.reverse_inj, hvalue]
    simp [hnot]
  · rintro ⟨rfl, hnot⟩
    refine ⟨(after.reverse, before.reverse), Template.splitOnce_eq_some.mpr ⟨by simp, by simpa⟩, ?_⟩
    simp

theorem toString_toList (n : Nat) : (toString n).toList = Nat.toDigits 10 n := String.toList_ofList

theorem not_mem_toString {c : Char} (hc : c.isDigit = false) (n : Nat) : c ∉ (toString n).toList := by
  intro hmem
  rw [toString_toList] at hmem
  rw [Nat.isDigit_of_mem_toDigits (by decide : 0 < 10) (by decide) hmem] at hc
  cases hc

theorem toString_ne_nil (n : Nat) : (toString n).toList ≠ [] := by
  rw [toString_toList]
  exact Nat.toDigits_ne_nil

theorem append_toString_ne {text before : List Char} {n : Nat} :
    text ++ (toString n).toList ≠ before ++ ".0.LTS".toList := by
  intro h
  have hlast := congrArg List.getLast? h
  rw [List.getLast?_append_of_ne_nil _ (toString_ne_nil n),
    List.getLast?_append_of_ne_nil _ (by decide)] at hlast
  exact not_mem_toString (by decide : 'S'.isDigit = false) n (List.mem_of_getLast? hlast)

theorem withoutLts_of_not (h : ¬ LtsCoded version) : withoutLts version = version := by
  rw [withoutLts]
  split
  case h_1 => rfl
  case h_2 core build hsplit =>
    obtain ⟨before, hstrip, hplus⟩ := Option.bind_eq_some_iff.mp hsplit
    obtain ⟨rfl, hnot⟩ := rsplitPlus_eq_some.mp hplus
    split
    case h_1 => rfl
    case h_2 number hnumber =>
      exact absurd ⟨core, build, stripLts_eq_some.mp hstrip, hnot, by rw [hnumber]; rfl⟩ h

theorem withoutLts_ne (h : LtsCoded version) : withoutLts version ≠ version := by
  obtain ⟨core, build, hversion, hnot, hnumber⟩ := h
  obtain ⟨number, hnumber⟩ := Option.isSome_iff_exists.mp hnumber
  have hsplit : (stripLts version.toList).bind rsplitPlus = some (core, build) := by
    rw [stripLts_eq_some.mpr hversion, Option.bind_some]
    exact rsplitPlus_eq_some.mpr ⟨rfl, hnot⟩
  intro hsame
  rw [← String.toList_inj, hversion, withoutLts, hsplit] at hsame
  dsimp only at hsame
  rw [hnumber] at hsame
  dsimp only at hsame
  split at hsame
  · rw [String.toList_append] at hsame
    exact append_toString_ne hsame
  · rw [String.toList_append] at hsame
    exact append_toString_ne hsame

theorem splitPlus_of_not_mem {value : List Char} (h : '+' ∉ value) : splitPlus value = (value, []) := by
  rw [splitPlus, Template.splitOnce_eq_none.mpr h]
  rfl

theorem length_versionKey (h : '+' ∉ version.toList) : (versionKey version).length = 4 := by
  rw [versionKey, splitPlus_of_not_mem h]
  have hnone : numbersIn [] = [] := rfl
  dsimp only
  rw [hnone, List.append_nil, List.length_take, List.length_append, List.length_replicate]
  omega

theorem not_mem_twoDigits {c : Char} (hc : c.isDigit = false) (n : Nat) : c ∉ (twoDigits n).toList := by
  rw [twoDigits]
  split
  · rw [String.toList_append, List.mem_append]
    rintro (hzero | hdigits)
    · rw [List.mem_singleton.mp hzero] at hc
      cases hc
    · exact not_mem_toString hc n hdigits
  · exact not_mem_toString hc n

/-- **The versions that are listed as they are recorded.** -/
theorem normalizeManagedVersion_eq_self_iff (version : String) (major : Nat) :
    normalizeManagedVersion version major = version ↔ ¬ Rewritten version major := by
  have hlts : withoutLts version = version ↔ ¬ LtsCoded version :=
    ⟨fun h hcoded => withoutLts_ne hcoded h, withoutLts_of_not⟩
  rw [normalizeManagedVersion, Rewritten, not_or]
  split
  case isTrue hmajor =>
    split
    case h_1 _ second update fourth build rest hkey =>
      -- the result has no sign, so it has only four numbers itself
      refine ⟨fun hsame => ?_, fun hnot => absurd ⟨hmajor, by rw [hkey]; rfl, by rw [hkey]; simp⟩ hnot.1⟩
      have hplus : '+' ∉ version.toList := by
        rw [← hsame]
        simp only [String.toList_append, List.mem_append, not_or]
        exact ⟨⟨⟨by decide, not_mem_toString rfl update⟩, by decide⟩, not_mem_twoDigits rfl build⟩
      have hlength := length_versionKey hplus
      rw [hkey] at hlength
      simp at hlength
    case h_2 hshape =>
      rw [hlts, and_iff_right]
      rintro ⟨-, hhead, hlength⟩
      match hkey : versionKey version, hhead, hlength with
      | first :: second :: update :: fourth :: build :: rest, hhead, _ =>
        rw [List.head?_cons, Option.some.injEq] at hhead
        subst hhead
        exact hshape _ _ _ _ _ hkey
  case isFalse hmajor =>
    rw [hlts, and_iff_right]
    exact fun h => hmajor h.1

-- Finding
-- ---

section Finding

variable {α : Type} {p q : α → Bool} {l : List α} {a : α}

theorem find?_eq_some_of_unique (hmem : a ∈ l) (ha : p a) (hunique : ∀ b ∈ l, p b → b = a) :
    l.find? p = some a := by
  cases hfound : l.find? p with
  | none => exact absurd ha (by simpa using List.find?_eq_none.mp hfound a hmem)
  | some b => rw [hunique b (List.mem_of_find?_eq_some hfound) (List.find?_some hfound)]

theorem find?_of_imp (hfound : l.find? p = some a) (himp : ∀ b, q b → p b) (ha : q a) :
    l.find? q = some a := by
  obtain ⟨-, before, after, rfl, hbefore⟩ := List.find?_eq_some_iff_append.mp hfound
  refine List.find?_eq_some_iff_append.mpr ⟨ha, before, after, rfl, fun b hb => ?_⟩
  have hnot := hbefore b hb
  cases hq : q b with
  | false => rfl
  | true => rw [himp b hq] at hnot; exact hnot

end Finding

variable {format : RecordFormat} {platform : Platform} {root : Path} {store after : Directories}
  {request : ToolchainRequest} {jdk : ManagedJdk} {major : Nat} {environment : Environment}
  {offline : Bool} {installed : Installed}

theorem mem_list : jdk ∈ list format platform root store ↔
    ∃ name tree, (name, tree) ∈ store ∧ listedAt format platform (root ++ [name]) tree = some jdk := by
  rw [list, List.mem_insertionSort, List.mem_filterMap]
  exact ⟨fun ⟨entry, hmem, hlisted⟩ => ⟨entry.1, entry.2, hmem, hlisted⟩,
    fun ⟨name, tree, hmem, hlisted⟩ => ⟨(name, tree), hmem, hlisted⟩⟩

theorem satisfies_iff : satisfies request major jdk = true ↔
    jdk.vendor = request.vendor ∧ jdk.major = major ∧
      (request.exact = true → jdk.version = request.version) := by
  rw [satisfies]
  cases request.exact <;> simp [and_assoc]

theorem find_eq_ok {found : Option ManagedJdk} :
    find format platform root store request = .ok found ↔
      request.validateVendor = .ok () ∧ ∃ major, leadingMajor request.version = some major ∧
        (list format platform root store).reverse.find? (satisfies request major) = found := by
  rw [find, Fallible.bind_eq_ok]
  constructor
  · rintro ⟨⟨⟩, hvendor, h⟩
    obtain ⟨major, hmajor, h⟩ := Fallible.bind_eq_ok.mp h
    exact ⟨hvendor, major, Fallible.orError_eq_ok.mp hmajor, Fallible.pure_eq_ok.mp h⟩
  · rintro ⟨hvendor, major, hmajor, hfound⟩
    exact ⟨(), hvendor, Fallible.bind_eq_ok.mpr
      ⟨major, Fallible.orError_eq_ok.mpr hmajor, Fallible.pure_eq_ok.mpr hfound⟩⟩

/-- **The only installation that meets a request is found.** -/
theorem find_of_unique (hvendor : request.validateVendor = .ok ())
    (hmajor : leadingMajor request.version = some major)
    (hmem : jdk ∈ list format platform root store) (hjdk : satisfies request major jdk = true)
    (hunique : ∀ other ∈ list format platform root store, satisfies request major other = true →
      other = jdk) :
    find format platform root store request = .ok (some jdk) :=
  find_eq_ok.mpr ⟨hvendor, major, hmajor, find?_eq_some_of_unique (List.mem_reverse.mpr hmem) hjdk
    fun other hother => hunique other (List.mem_reverse.mp hother)⟩

theorem validateVendor_congr {other : ToolchainRequest} (h : other.vendor = request.vendor) :
    other.validateVendor = request.validateVendor := by
  rw [ToolchainRequest.validateVendor, ToolchainRequest.validateVendor, h]

theorem eq_of_leadingMajor {n : Nat} (h : leadingMajor (toString n) = some major) : major = n := by
  have hdigits : ∀ c ∈ Nat.toDigits 10 n, c.isDigit := fun c hc =>
    Nat.isDigit_of_mem_toDigits (by decide : 0 < 10) (by decide) hc
  rw [leadingMajor, toString_toList, List.takeWhile_eq_self_iff.mpr hdigits,
    Numbers.parseUnsigned_of_digits Nat.toDigits_ne_nil hdigits] at h
  exact Numbers.eq_of_parseFrom_toDigits h

-- Installing
-- ---

theorem resolve_of_resolveAsset {artifact : ResolvedArtifact}
    (h : resolveAsset environment platform request = .ok artifact) :
    resolve environment.toProvider platform request.vendor request.version request.exact =
      .ok artifact := by
  obtain ⟨resolved, hresolved, h⟩ := Fallible.bind_eq_ok.mp h
  split at h
  case isTrue => cases h
  case isFalse =>
    rw [hresolved]
    exact h

theorem isSome_of_extractedJdkHome {archive home : Tree}
    (h : extractedJdkHome platform archive = .ok home) : (home (javacPath platform)).isSome := by
  rw [extractedJdkHome] at h
  split at h
  case isTrue hroot =>
    cases h
    exact hroot
  case isFalse =>
    dsimp only at h
    split at h
    case isTrue hmacos =>
      cases h
      exact hmacos
    case isFalse => cases h

theorem download_eq_ok
    (h : download format environment platform root request store = .ok installed) :
    ∃ artifact home, resolveAsset environment platform request = .ok artifact ∧
      (home (javacPath platform)).isSome ∧
      installed.jdk = managedJdk platform root request artifact ∧
      installed.store = putDirectory environment.position
        (installName platform request artifact.release.version)
        (Function.update home metadata (some (format.toVecPretty installed.jdk))) store := by
  obtain ⟨_, -, h⟩ := Fallible.bind_eq_ok.mp h
  obtain ⟨artifact, hartifact, h⟩ := Fallible.bind_eq_ok.mp h
  obtain ⟨archive, -, h⟩ := Fallible.bind_eq_ok.mp h
  obtain ⟨home, hhome, h⟩ := Fallible.bind_eq_ok.mp h
  obtain ⟨_, -, h⟩ := Fallible.bind_eq_ok.mp h
  rw [← Fallible.pure_eq_ok.mp h]
  exact ⟨artifact, home, hartifact, isSome_of_extractedJdkHome hhome, rfl, rfl⟩

theorem download_of_ok {artifact : ResolvedArtifact} {archive home : Tree}
    (hready : environment.ready = .ok ())
    (hartifact : resolveAsset environment platform request = .ok artifact)
    (harchive : environment.extract artifact = .ok archive)
    (hhome : extractedJdkHome platform archive = .ok home) (hsettle : environment.settle = .ok ()) :
    download format environment platform root request store =
      .ok ⟨managedJdk platform root request artifact, putDirectory environment.position
        (installName platform request artifact.release.version)
        (Function.update home metadata
          (some (format.toVecPretty (managedJdk platform root request artifact)))) store,
        some artifact⟩ := by
  rw [download, hready, Fallible.ok_bind, hartifact, Fallible.ok_bind, harchive, Fallible.ok_bind,
    hhome, Fallible.ok_bind, hsettle]
  rfl

theorem install_of_found
    (h : find format platform root store request = .ok (some jdk)) :
    install format environment platform root request offline store = .ok ⟨jdk, store, none⟩ := by
  rw [install, h]
  rfl

theorem install_eq_ok
    (h : install format environment platform root request offline store = .ok installed) :
    (∃ jdk, find format platform root store request = .ok (some jdk) ∧
      installed = ⟨jdk, store, none⟩) ∨
    find format platform root store request = .ok none ∧
      download format environment platform root request store = .ok installed := by
  obtain ⟨found, hfound, h⟩ := Fallible.bind_eq_ok.mp h
  cases found with
  | some jdk => exact Or.inl ⟨jdk, hfound, (Fallible.pure_eq_ok.mp h).symm⟩
  | none =>
    refine Or.inr ⟨hfound, ?_⟩
    dsimp only at h
    split at h
    case isTrue => cases h
    case isFalse => exact h

theorem javacPath_ne_metadata (platform : Platform) : javacPath platform ≠ metadata := by
  intro h
  have hlength := congrArg List.length h
  simp [javacPath, metadata] at hlength

theorem mem_putDirectory {position : Nat} {name : String} {tree : Tree} {entry : String × Tree} :
    entry ∈ putDirectory position name tree store ↔
      entry = (name, tree) ∨ entry ∈ store ∧ entry.1 ≠ name := by
  have hparts := List.take_append_drop position (store.filter fun entry => entry.1 ≠ name)
  have hsplit : entry ∈ store ∧ entry.1 ≠ name ↔
      entry ∈ (store.filter fun entry => entry.1 ≠ name).take position ∨
        entry ∈ (store.filter fun entry => entry.1 ≠ name).drop position := by
    rw [← List.mem_append, hparts, List.mem_filter]
    simp
  rw [putDirectory, List.mem_append, List.mem_cons, hsplit]
  exact or_left_comm

variable (format platform root request) in
theorem listedAt_new (artifact : ResolvedArtifact) (home : Tree)
    (hhome : (home (javacPath platform)).isSome)
    (hread : format.parse (format.toVecPretty (managedJdk platform root request artifact)) =
      some (managedJdk platform root request artifact)) :
    listedAt format platform (managedJdk platform root request artifact).home
        (Function.update home metadata
          (some (format.toVecPretty (managedJdk platform root request artifact)))) =
      some { managedJdk platform root request artifact with
        version := normalizeManagedVersion artifact.release.version artifact.release.major } := by
  refine listedAt_eq_some.mpr ⟨managedJdk platform root request artifact, ?_, rfl, rfl, rfl, rfl, ?_⟩
  · rw [Function.update_self, Option.bind_some, hread]
  · rw [Function.update_of_ne (javacPath_ne_metadata platform)]
    exact hhome

-- Installations that are found again
-- ---

/-- What an installation promises about the requests after it. -/
structure FoundAgain (format : RecordFormat) (platform : Platform) (root : Path)
    (request : ToolchainRequest) (jdk : ManagedJdk) (store : Directories) : Prop where
  listed : jdk ∈ list format platform root store
  pinned : find format platform root store ⟨jdk.version, jdk.vendor⟩ = .ok (some jdk)
  newer : ∃ other, find format platform root store request = .ok (some other) ∧
    versionKey jdk.version ≤ versionKey other.version
  again : ∀ environment offline, ∃ other,
    install format environment platform root request offline store = .ok ⟨other, store, none⟩

/-- The version of what is installed already starts with its major version; or the version of
the release in the catalog does, and is listed as it is recorded. -/
def Pinnable (format : RecordFormat) (environment : Environment) (platform : Platform)
    (root : Path) (request : ToolchainRequest) (store : Directories) : Prop :=
  match find format platform root store request with
  | .ok (some jdk) => leadingMajor jdk.version = some jdk.major
  | _ => ∀ artifact, resolveAsset environment platform request = .ok artifact →
    ¬ Rewritten artifact.release.version artifact.release.major ∧
      leadingMajor artifact.release.version = some artifact.release.major

theorem leadingMajor_of_pinned
    (h : find format platform root store ⟨jdk.version, jdk.vendor⟩ = .ok (some jdk)) :
    leadingMajor jdk.version = some jdk.major := by
  obtain ⟨-, major, hmajor, hfound⟩ := find_eq_ok.mp h
  rw [(satisfies_iff.mp (List.find?_some hfound)).2.1]
  exact hmajor

theorem foundAgain_of_found
    (hfound : find format platform root store request = .ok (some jdk))
    (hmajor : leadingMajor jdk.version = some jdk.major) :
    FoundAgain format platform root request jdk store where
  listed := by
    obtain ⟨-, major, -, hfind⟩ := find_eq_ok.mp hfound
    exact List.mem_reverse.mp (List.mem_of_find?_eq_some hfind)
  pinned := by
    obtain ⟨hvendor, major, hrequest, hfind⟩ := find_eq_ok.mp hfound
    obtain ⟨hsame, hjdk, hexact⟩ := satisfies_iff.mp (List.find?_some hfind)
    refine find_eq_ok.mpr ⟨(validateVendor_congr hsame).trans hvendor, jdk.major, hmajor, ?_⟩
    refine find?_of_imp hfind (fun other hother => ?_) (satisfies_iff.mpr ⟨rfl, rfl, fun _ => rfl⟩)
    obtain ⟨hvendor', hmajor', hexact'⟩ := satisfies_iff.mp hother
    refine satisfies_iff.mpr ⟨hvendor'.trans hsame, hmajor'.trans hjdk, fun hrequest' => ?_⟩
    -- an exact request has the version of the installation
    have hversion := hexact hrequest'
    have hpin : ToolchainRequest.exact ⟨jdk.version, jdk.vendor⟩ = true := by
      rw [ToolchainRequest.exact] at hrequest' ⊢
      rw [hversion]
      exact hrequest'
    exact (hexact' hpin).trans hversion
  newer := ⟨jdk, hfound, le_refl _⟩
  again _ _ := ⟨jdk, install_of_found hfound⟩

variable (store) in
theorem eq_or_mem_of_mem_list (position : Nat) {name : String} {tree : Tree} {other : ManagedJdk}
    (hnew : listedAt format platform (root ++ [name]) tree = some jdk)
    (h : other ∈ list format platform root (putDirectory position name tree store)) :
    other = jdk ∨ other ∈ list format platform root store := by
  obtain ⟨name', tree', hentry, hlisted⟩ := mem_list.mp h
  rcases mem_putDirectory.mp hentry with hsame | ⟨hentry, -⟩
  · rw [Prod.mk.injEq] at hsame
    obtain ⟨rfl, rfl⟩ := hsame
    rw [hnew] at hlisted
    exact Or.inl (Option.some.inj hlisted).symm
  · exact Or.inr (mem_list.mpr ⟨name', tree', hentry, hlisted⟩)

theorem foundAgain_of_download (hnone : find format platform root store request = .ok none)
    (hrun : download format environment platform root request store = .ok installed)
    (hread : format.parse (format.toVecPretty installed.jdk) = some installed.jdk)
    (hkept : ¬ Rewritten installed.jdk.version installed.jdk.major)
    (hmajor : leadingMajor installed.jdk.version = some installed.jdk.major) :
    FoundAgain format platform root request installed.jdk installed.store := by
  obtain ⟨artifact, home, hartifact, hhome, hjdk, hstore⟩ := download_eq_ok hrun
  obtain ⟨_, _, -, -, hchosen⟩ := chosen_of_resolve (resolve_of_resolveAsset hartifact)
  obtain ⟨-, hversion⟩ := chooseRelease_spec hchosen
  obtain ⟨hvendor, major, hrequest, hfind⟩ := find_eq_ok.mp hnone
  rw [hjdk] at hread hkept hmajor hstore ⊢
  have hnew := listedAt_new format platform root request artifact home hhome hread
  have hrecorded : normalizeManagedVersion artifact.release.version artifact.release.major =
      artifact.release.version := (normalizeManagedVersion_eq_self_iff _ _).mpr hkept
  rw [hrecorded] at hnew
  have hunmatched : ∀ other ∈ list format platform root store,
      ¬ satisfies request major other = true := fun other hother =>
    List.find?_eq_none.mp hfind other (List.mem_reverse.mpr hother)
  have hmem : managedJdk platform root request artifact ∈
      list format platform root installed.store := by
    rw [hstore]
    exact mem_list.mpr ⟨_, _, mem_putDirectory.mpr (Or.inl rfl), hnew⟩
  -- the request is for the major version of the release, exact or not
  have hsame : major = artifact.release.major := by
    cases hexact : request.exact with
    | true =>
      rw [hexact, if_pos rfl] at hversion
      rw [← hversion] at hrequest
      exact Option.some.inj (hrequest.symm.trans hmajor)
    | false =>
      rw [hexact, if_neg Bool.false_ne_true] at hversion
      rw [← hversion] at hrequest
      exact eq_of_leadingMajor hrequest
  have hmeets : satisfies request major (managedJdk platform root request artifact) = true := by
    refine satisfies_iff.mpr ⟨rfl, hsame.symm, fun hexact => ?_⟩
    rw [hexact, if_pos rfl] at hversion
    exact hversion
  have hfound : find format platform root installed.store request =
      .ok (some (managedJdk platform root request artifact)) := by
    refine find_of_unique hvendor hrequest hmem hmeets fun other hother hmatch => ?_
    rw [hstore] at hother
    exact (eq_or_mem_of_mem_list _ _ hnew hother).resolve_right fun hbefore =>
      hunmatched other hbefore hmatch
  exact foundAgain_of_found hfound hmajor

/-- **An installation is found again exactly when its version starts with its major version
and is listed as it is recorded.** -/
theorem install_found_again_iff
    (hrun : install format environment platform root request offline store = .ok installed)
    (hread : format.parse (format.toVecPretty installed.jdk) = some installed.jdk) :
    FoundAgain format platform root request installed.jdk installed.store ↔
      Pinnable format environment platform root request store := by
  rcases install_eq_ok hrun with ⟨jdk, hfound, rfl⟩ | ⟨hnone, hdownload⟩
  · rw [Pinnable, hfound]
    exact ⟨fun h => leadingMajor_of_pinned h.pinned, foundAgain_of_found hfound⟩
  · rw [Pinnable, hnone]
    obtain ⟨artifact, home, hartifact, hhome, hjdk, hstore⟩ := download_eq_ok hdownload
    constructor
    · intro h artifact' hartifact'
      rw [hartifact, Except.ok.injEq] at hartifact'
      rw [← hartifact']
      have hmajor := leadingMajor_of_pinned h.pinned
      have hlisted := h.listed
      rw [hjdk] at hmajor hlisted hread hstore
      refine ⟨fun hrewritten => ?_, hmajor⟩
      have hnew := listedAt_new format platform root request artifact home hhome hread
      -- the only directory with this home is the new one
      obtain ⟨name, tree, hentry, hthere⟩ := mem_list.mp hlisted
      have hname : installName platform request artifact.release.version = name := by
        have hhome' := home_of_listedAt hthere
        rw [managedJdk, List.append_cancel_left_eq, List.cons.injEq] at hhome'
        exact hhome'.1
      rw [hstore] at hentry
      rcases mem_putDirectory.mp hentry with hsame | ⟨-, hother⟩
      · rw [Prod.mk.injEq] at hsame
        rw [hsame.1, hsame.2, show root ++ [installName platform request artifact.release.version] =
          (managedJdk platform root request artifact).home from rfl, hnew, Option.some.injEq] at hthere
        exact (normalizeManagedVersion_eq_self_iff _ _).mp (congrArg ManagedJdk.version hthere)
          hrewritten
      · exact hother hname.symm
    · intro h
      obtain ⟨hkept, hmajor⟩ := h artifact hartifact
      refine foundAgain_of_download hnone hdownload hread ?_ ?_
      · rw [hjdk]
        exact hkept
      · rw [hjdk]
        exact hmajor

section Temurin

private def linuxX64 : Platform := ⟨"linux", "x64", "glibc", "tar.gz", false⟩

private def jdks : Path := ["home", "user", ".local", "share", "jman", "jdks"]

private def temurin (javaVersion : String) : FoojayPackage where
  id := "4c41"
  archiveType := "tar.gz"
  distribution := "temurin"
  majorVersion := 21
  javaVersion := javaVersion
  releaseStatus := "ga"
  termOfSupport := "lts"
  operatingSystem := "linux"
  libCType := "glibc"
  architecture := "x64"
  packageType := "jdk"
  javafxBundled := false
  directlyDownloadable := true
  filename := "temurin.tar.gz"
  freeUseInProduction := true

private def checksum : String := String.ofList (List.replicate 64 'a')

private def archive : Tree := fun path => if path = ["bin", "javac"] then some [] else none

private def offering (javaVersion : String) : Environment where
  packages _ _ := .ok [temurin javaVersion]
  details _ := .ok [⟨"https://github.com/temurin.tar.gz", checksum, "sha256"⟩]
  parseUrl uri := .ok uri
  ready := .ok ()
  extract _ := .ok archive
  settle := .ok ()
  position := 0

private def anyTemurin : ToolchainRequest := ⟨"21", "temurin"⟩

private def temurinArtifact (version : String) : ResolvedArtifact where
  release := ⟨"temurin", version, 21, true, "linux", "x64", "tar.gz", "temurin.tar.gz", "4c41"⟩
  downloadUrl := "https://github.com/temurin.tar.gz"
  checksumSha256 := checksum

private def temurinJdk (version : String) : ManagedJdk :=
  managedJdk linuxX64 jdks anyTemurin (temurinArtifact version)

private def temurinRecords (version : String) : RecordFormat := plainRecords [temurinJdk version]

private def temurinInstalled (version : String) : Installed where
  jdk := temurinJdk version
  store := [(installName linuxX64 anyTemurin version,
    Function.update archive metadata (some ((temurinRecords version).toVecPretty (temurinJdk version))))]
  download := some (temurinArtifact version)

private theorem install_temurin {version : String}
    (h : resolveAsset (offering version) linuxX64 anyTemurin = .ok (temurinArtifact version)) :
    install (temurinRecords version) (offering version) linuxX64 jdks anyTemurin false [] =
      .ok (temurinInstalled version) := by
  have hnone : find (temurinRecords version) linuxX64 jdks [] anyTemurin = .ok none := by
    rw [find_eq_ok]
    exact ⟨by decide +kernel, 21, by decide +kernel, rfl⟩
  have hhome : extractedJdkHome linuxX64 archive = .ok archive := if_pos (by decide)
  rw [install, hnone, Fallible.ok_bind]
  exact download_of_ok rfl h rfl hhome rfl

theorem install_found_again_temurin :
    FoundAgain (temurinRecords "21.0.12+8") linuxX64 jdks anyTemurin (temurinJdk "21.0.12+8")
      (temurinInstalled "21.0.12+8").store := by
  have hresolve : resolveAsset (offering "21.0.12+8") linuxX64 anyTemurin =
      .ok (temurinArtifact "21.0.12+8") := by decide +kernel
  refine (install_found_again_iff (install_temurin hresolve) (parse_plainRecords _)).mpr ?_
  intro artifact hartifact
  rw [hresolve, Except.ok.injEq] at hartifact
  rw [← hartifact]
  exact ⟨(normalizeManagedVersion_eq_self_iff _ _).mp (by decide +kernel), by decide +kernel⟩

/-- The version of the catalog is recorded and returned, but it is not the one that is listed. -/
theorem install_not_found_again :
    install (temurinRecords "21.0.12+8.0.LTS") (offering "21.0.12+8.0.LTS") linuxX64 jdks anyTemurin
        false [] = .ok (temurinInstalled "21.0.12+8.0.LTS") ∧
      ¬ FoundAgain (temurinRecords "21.0.12+8.0.LTS") linuxX64 jdks anyTemurin
        (temurinJdk "21.0.12+8.0.LTS") (temurinInstalled "21.0.12+8.0.LTS").store := by
  refine ⟨install_temurin (by decide +kernel), fun h => ?_⟩
  have hnew := listedAt_new _ linuxX64 jdks anyTemurin (temurinArtifact "21.0.12+8.0.LTS") archive
    (by decide) (parse_plainRecords _)
  rcases eq_or_mem_of_mem_list [] 0 hnew h.listed with hsame | hnone
  · exact absurd (congrArg ManagedJdk.version hsame) (by decide +kernel)
  · exact absurd (mem_list.mp hnone) (by simp)

end Temurin

end JMan.Build.Toolchains
