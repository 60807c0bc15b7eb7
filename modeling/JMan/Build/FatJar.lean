import JMan.Build.Discovery
import JMan.Build.Properties

/-!
# JMan — fat JARs

`package_fat` of `jman-build/src/lib.rs`: the classes of a module, of the modules
upstream, and the entries of the archives on their run-time class paths, merged into
one. Licences of dependencies are moved to directories of their own, which are named
after the dependency, and for the dependencies of a module upstream after the path of
its archive (`fat_jar_portable_iff`).
-/

namespace JMan.Build

open JMan.Config JMan.Resolver
open Encoding (Bytes utf8)
open Lines (Text)
open OsText (OsString OsPath)
open Paths (Path)

-- Class trees
-- ---

/-- A file below a directory: its components are names of a directory. -/
structure ClassFile where
  path : OsPath
  bytes : Bytes
  filled : path ≠ []
  named : ∀ part ∈ path, part.bytes ≠ [] ∧ (47 : UInt8) ∉ part.bytes

/-- What `input_files` finds below a directory, in its order. -/
abbrev ClassTree := List ClassFile

/-- `part.to_str()` -/
def toStr? (part : OsString) : Option String := String.fromUTF8? ⟨part.bytes.toArray⟩

def unsafePath (path : OsPath) : BuildError :=
  .invalid ("unsafe JAR entry path " ++ path.relative.toStringLossy)

def archivePart (path : OsPath) (part : OsString) : Except BuildError String :=
  if part = OsString.ofString "." ∨ part = OsString.ofString ".." then .error (unsafePath path)
  else
    match toStr? part with
    | none => .error (.invalid ("JAR entry path is not UTF-8: " ++ path.relative.toStringLossy))
    | some text => if text = "" ∨ '\\' ∈ text.toList then .error (unsafePath path) else .ok text

def archiveName (path : OsPath) : Except BuildError String := do
  let parts ← path.mapM (archivePart path)
  if parts = [] then .error (.invalid "empty JAR entry path") else return "/".intercalate parts

def toAsciiUppercase (text : String) : String := String.ofList (text.toList.map Char.toUpper)

def ignoredFatEntry (name : String) : Bool :=
  let upper := toAsciiUppercase name
  upper = "META-INF/MANIFEST.MF" || upper = "META-INF/INDEX.LIST" || upper = "MODULE-INFO.CLASS" ||
    endsWith upper "/MODULE-INFO.CLASS" ||
    (extensionOf upper).any fun extension =>
      extension ∈ ["SF".toList, "RSA".toList, "DSA".toList, "EC".toList]

/-- One turn of the loop of `add_directory_entries`, at a file below a directory. -/
def addFile (root : OsPath) (context : String) (archive : FatArchive) (file : OsPath × Bytes) :
    Except BuildError FatArchive :=
  match file.1.stripPrefix? root with
  | none => .error (.invalid ("input " ++ file.1.absolute.toStringLossy ++ " is outside " ++
      root.absolute.toStringLossy))
  | some relative => do
    let name ← archiveName relative
    if ignoredFatEntry name then return archive
    else mergeFatEntry archive name file.2 context

def addDirectoryEntries (archive : FatArchive) (root : OsPath) (tree : ClassTree)
    (context : String) : Except BuildError FatArchive :=
  (tree.map fun file => (root ++ file.path, file.bytes)).foldlM (addFile root context) archive

-- Archives
-- ---

/-- An entry of an archive as it is unpacked; no contents when they cannot be read. -/
structure ZipEntry where
  name : String
  isDirectory : Bool
  contents : Option Bytes

def safeZipName (name : String) : Except BuildError String :=
  let parts := name.toList.splitOn '/'
  if name = "" ∨ startsWith name "/" ∨ '\\' ∈ name.toList then
    .error (.invalid ("unsafe JAR entry path `" ++ name ++ "`"))
  else if parts.any fun part => part = [] ∨ part = ".".toList ∨ part = "..".toList then
    .error (.invalid ("unsafe JAR entry path `" ++ name ++ "`"))
  else .ok (String.ofList (['/'].intercalate parts))

def isLicenseEntry (name : String) : Bool :=
  let upper := toAsciiUppercase name
  startsWith upper "META-INF/LICENSE" || startsWith upper "META-INF/NOTICE" ||
    startsWith upper "META-INF/COPYING"

/-- `coordinate.replace(':', "/")` -/
def coordinateDirectory (coordinate : String) : String :=
  String.ofList (coordinate.toList.map fun c => if c = ':' then '/' else c)

/-- `name.rsplit('/').next()` -/
def leafOf (name : String) : String := String.ofList ((name.toList.splitOn '/').getLastD [])

def relocatedDependencyEntry (name coordinate : String) : String :=
  if isLicenseEntry name then
    "META-INF/jman/licenses/" ++ coordinateDirectory coordinate ++ "/" ++ leafOf name
  else name

section Package

variable (unzip : ByteArray → Except String (List ZipEntry))

/-- One entry of an archive; nothing when it is not merged. -/
def readJarEntry (jar : Path) (coordinate : String) (entry : ZipEntry) :
    Except BuildError (Option FatInput) :=
  if entry.isDirectory then .ok none
  else do
    let name ← safeZipName entry.name
    if ignoredFatEntry name then return none
    else
      match entry.contents with
      | none => .error (.io (Paths.display jar) "invalid data")
      | some bytes => return some ⟨relocatedDependencyEntry name coordinate, bytes,
          "dependency " ++ coordinate⟩

def readJarEntries (files : FilePlace → Option ByteArray) (jar : Path) (coordinate : String) :
    Except BuildError (List FatInput) :=
  match files (.cache (Paths.locate jar)) with
  | none => .error (.io (Paths.display jar) "No such file or directory (os error 2)")
  | some archive =>
    match unzip archive with
    | .error message => .error (.invalid ("invalid JAR " ++ Paths.display jar ++ ": " ++ message))
    | .ok entries => do
      let inputs ← entries.mapM (readJarEntry jar coordinate)
      return (inputs.filterMap id).insertionSort fun left right => left.name ≤ right.name

def mergeDependencyJar (files : FilePlace → Option ByteArray) (archive : FatArchive) (jar : Path)
    (coordinate : String) : Except BuildError FatArchive := do
  let inputs ← readJarEntries unzip files jar coordinate
  mergeInputs archive inputs

/-- The coordinate of an archive: that of the first package whose digest its name starts
with. -/
def coordinateOf (lock : Lockfile) (jar : Path) : String :=
  let package? := lock.packages.find? fun package =>
    ((package.artifactChecksum.bind digestOf?).any fun digest =>
      jar.getLast?.any fun name => startsWith name digest)
  match package? with
  | none => "unknown"
  | some package => package.group ++ ":" ++ package.artifact ++ ":" ++ package.version

/-- `append_manifest_header`: the lines of a header, at a character of its value. -/
def headerLines (line : String) : List Char → String
  | [] => line ++ "\r\n"
  | c :: rest =>
    if line.utf8ByteSize + c.utf8Size > 70 then
      line ++ "\r\n" ++ headerLines (" " ++ c.toString) rest
    else headerLines (line ++ c.toString) rest

def manifestHeader (name value : String) : String := headerLines (name ++ ": ") value.toList

def jarManifest (manifest : Manifest) : String :=
  manifestHeader "Manifest-Version" "1.0" ++ manifestHeader "Created-By" "JMAN" ++
    (manifest.project.mainClass.elim "" fun mainClass => manifestHeader "Main-Class" mainClass) ++
    "\r\n"

/-- What a module is packaged from: the modules of its workspace with their locks, the
place of their classes in the workspace, and the classes. -/
structure FatProject where
  modules : List Module
  locks : Nat → Lockfile
  index : Nat
  manifest : Manifest
  output : Nat → OsPath
  classes : Nat → ClassTree

/-- Where a workspace and its cache are, and what the cache holds. -/
structure Location where
  workspace : OsPath
  cacheDir : Path
  files : FilePlace → Option ByteArray

/-- The archive before it is written: the directories, then the archives of the modules
upstream, then the module's own. -/
def mergedArchive (project : FatProject) (location : Location) : Except BuildError FatArchive := do
  let root := fun index => location.workspace ++ project.output index
  let upstream := upstreamOf .runtime project.modules project.index
  let archive ← addDirectoryEntries .default (root project.index) (project.classes project.index)
    "application output"
  let archive ← upstream.foldlM (fun archive index =>
    addDirectoryEntries archive (root index) (project.classes index) "workspace dependency") archive
  let dependencies ← upstreamArtifactPaths location.cacheDir location.files project.locks .runtime
    upstream
  let archive ← dependencies.foldlM (fun archive jar => mergeDependencyJar unzip location.files
    archive jar ("workspace dependency " ++ Paths.display jar)) archive
  let own ← lockedArtifacts location.cacheDir location.files project.locks .runtime project.index
  own.foldlM (fun archive jar => mergeDependencyJar unzip location.files archive jar
    (coordinateOf (project.locks project.index) jar)) archive

/-- The entries `package_fat` writes. -/
def packageFat (project : FatProject) (location : Location) :
    Except BuildError (List (String × Bytes)) := do
  let archive ← mergedArchive unzip project location
  return ("META-INF/MANIFEST.MF", utf8 (jarManifest project.manifest)) ::
    archive.entries.toList.map fun entry => (entry.1, entry.2.bytes)

end Package

-- Safe names
-- ---

section Names

variable {name coordinate : String} {left right : String}

def IsSafe (name : String) : Prop := safeZipName name = .ok name

def SafePart (part : Text) : Prop := part ≠ [] ∧ part ≠ ".".toList ∧ part ≠ "..".toList

instance (part : Text) : Decidable (SafePart part) := inferInstanceAs (Decidable (_ ∧ _))

theorem splitOn_head_slash {rest : Text} : [] ∈ ('/' :: rest).splitOn '/' := by
  rw [List.splitOn_cons_eq_if_modifyHead, if_pos (beq_self_eq_true _)]
  exact List.mem_cons_self

theorem safeZipName_eq_ok {safe : String} : safeZipName name = .ok safe ↔
    ('\\' ∉ name.toList ∧ ∀ part ∈ name.toList.splitOn '/', SafePart part) ∧ safe = name := by
  unfold safeZipName
  dsimp only
  split
  · next hunsafe =>
    refine iff_of_false (fun h => by cases h) fun h => ?_
    rcases hunsafe with rfl | hstart | hslash
    · exact (h.1.2 [] List.mem_cons_self).1 rfl
    · obtain ⟨rest, hrest⟩ := List.isPrefixOf_iff_prefix.mp hstart
      refine (h.1.2 [] ?_).1 rfl
      rw [← hrest]
      exact splitOn_head_slash
    · exact h.1.1 hslash
  next hsafe =>
  obtain ⟨-, -, hslash⟩ := by simpa only [not_or] using hsafe
  split
  · next hunsafe =>
    refine iff_of_false (fun h => by cases h) fun h => ?_
    obtain ⟨part, hpart, hbad⟩ := List.any_eq_true.mp hunsafe
    obtain ⟨hempty, hdot, hdots⟩ := h.1.2 part hpart
    rcases of_decide_eq_true hbad with hbad | hbad | hbad
    · exact hempty hbad
    · exact hdot hbad
    · exact hdots hbad
  next hparts =>
  have hall : ∀ part ∈ name.toList.splitOn '/', SafePart part := by
    intro part hpart
    have hnone : ¬ (part = [] ∨ part = ".".toList ∨ part = "..".toList) := fun hbad =>
      hparts (List.any_eq_true.mpr ⟨part, hpart, decide_eq_true hbad⟩)
    rwa [not_or, not_or] at hnone
  rw [List.intercalate_splitOn, String.ofList_toList, and_iff_right ⟨hslash, hall⟩,
    Except.ok.injEq]
  exact eq_comm

theorem isSafe_iff : IsSafe name ↔
    '\\' ∉ name.toList ∧ ∀ part ∈ name.toList.splitOn '/', SafePart part :=
  safeZipName_eq_ok.trans (and_iff_left rfl)

/-- **Names are joined safely exactly if both are safe.** -/
theorem isSafe_append : IsSafe (left ++ "/" ++ right) ↔ IsSafe left ∧ IsSafe right := by
  have hlist : (left ++ "/" ++ right).toList = left.toList ++ '/' :: right.toList := by
    simp
  have hsign : '\\' ≠ '/' := by decide
  rw [isSafe_iff, isSafe_iff, isSafe_iff, hlist, List.splitOn_append_cons_self, List.mem_append,
    List.mem_cons, List.forall_mem_append, or_iff_right hsign, not_or]
  exact and_and_and_comm

theorem isSafe_of_splitOn {part : Text} (hslash : '\\' ∉ name.toList)
    (hpart : part ∈ name.toList.splitOn '/') (hsafe : SafePart part) : IsSafe (String.ofList part) := by
  obtain ⟨hnone, hsub⟩ := Lines.piece_of_splitOn hpart
  rw [isSafe_iff, String.toList_ofList, List.splitOn_eq_singleton hnone]
  exact ⟨fun h => hslash (hsub h), List.forall_mem_singleton.mpr hsafe⟩

theorem isSafe_leafOf (h : IsSafe name) : IsSafe (leafOf name) := by
  obtain ⟨hslash, hparts⟩ := isSafe_iff.mp h
  have hne := List.splitOn_ne_nil '/' name.toList
  have hlast : (name.toList.splitOn '/').getLastD [] ∈ name.toList.splitOn '/' := by
    rw [List.getLastD_eq_getLast?, List.getLast?_eq_some_getLast hne, Option.getD_some]
    exact List.getLast_mem hne
  exact isSafe_of_splitOn hslash hlast (hparts _ hlast)

/-- **A relocated licence has a safe name exactly if the coordinate makes a safe one.** -/
theorem isSafe_relocated (hname : IsSafe name) :
    IsSafe (relocatedDependencyEntry name coordinate) ↔
      (isLicenseEntry name = true → IsSafe (coordinateDirectory coordinate)) := by
  unfold relocatedDependencyEntry
  by_cases hlicense : isLicenseEntry name = true
  · have hbase : IsSafe "META-INF/jman/licenses" := isSafe_iff.mpr (by decide)
    have hjoin : "META-INF/jman/licenses/" ++ coordinateDirectory coordinate ++ "/" ++ leafOf name =
        "META-INF/jman/licenses" ++ "/" ++ coordinateDirectory coordinate ++ "/" ++ leafOf name := rfl
    rw [if_pos hlicense, hjoin, isSafe_append, isSafe_append, and_iff_right hbase,
      and_iff_left (isSafe_leafOf hname)]
    exact ⟨fun h _ => h, fun h => h hlicense⟩
  · rw [if_neg hlicense]
    exact iff_of_true hname fun h => absurd h hlicense

theorem bytes_of_toStr? {part : OsString} {text : String} (h : toStr? part = some text) :
    part = OsString.ofString text := by
  unfold toStr? String.fromUTF8? at h
  split at h
  · cases h
    rfl
  · cases h

theorem mem_bytes_of_mem {text : String} (h : '/' ∈ text.toList) :
    (47 : UInt8) ∈ (OsString.ofString text).bytes :=
  (OsText.ascii_mem_toUTF8 (by decide) text).mpr h

theorem archiveName_eq_ok {path : OsPath}
    (hnamed : ∀ part ∈ path, part.bytes ≠ [] ∧ (47 : UInt8) ∉ part.bytes)
    (h : archiveName path = .ok name) :
    ∃ parts : List String, path = parts.map OsString.ofString ∧ name = "/".intercalate parts ∧
      parts ≠ [] ∧
      ∀ text ∈ parts, '\\' ∉ text.toList ∧ '/' ∉ text.toList ∧ SafePart text.toList := by
  obtain ⟨parts, hparts, hjoin⟩ := Fallible.bind_eq_ok.mp h
  have hpart : ∀ part ∈ path, ∀ text, archivePart path part = .ok text →
      part = OsString.ofString text ∧
        '\\' ∉ text.toList ∧ '/' ∉ text.toList ∧ SafePart text.toList := by
    intro part hmem text hok
    unfold archivePart at hok
    split at hok
    · cases hok
    next hdots =>
    split at hok
    · cases hok
    next text' hstr =>
    split at hok
    · cases hok
    next htext' =>
    cases hok
    rw [not_or] at hdots htext'
    have hbytes := bytes_of_toStr? hstr
    refine ⟨hbytes, htext'.2, fun hslash => ?_, fun hempty => ?_, fun hdot => ?_, fun hdot => ?_⟩
    · exact (hnamed part hmem).2 (hbytes ▸ mem_bytes_of_mem hslash)
    · exact htext'.1 (String.toList_eq_nil_iff.mp hempty)
    · exact hdots.1 (hbytes.trans (congrArg _ (String.toList_inj.mp hdot)))
    · exact hdots.2 (hbytes.trans (congrArg _ (String.toList_inj.mp hdot)))
  have hpath : path = parts.map OsString.ofString ∧
      ∀ text ∈ parts, '\\' ∉ text.toList ∧ '/' ∉ text.toList ∧ SafePart text.toList := by
    rw [Fallible.mapM_eq_ok] at hparts
    clear h hnamed hjoin
    generalize archivePart path = named at hparts hpart
    induction hparts with
    | nil => exact ⟨rfl, fun text htext => by cases htext⟩
    | @cons part text rest texts htext _ ih =>
      obtain ⟨rfl, hsafe⟩ := hpart part List.mem_cons_self text htext
      obtain ⟨hrest, hall⟩ := ih fun other hother => hpart other (List.mem_cons_of_mem _ hother)
      exact ⟨by rw [List.map_cons, ← hrest], List.forall_mem_cons.mpr ⟨hsafe, hall⟩⟩
  split at hjoin
  · cases hjoin
  next hne =>
  cases hjoin
  exact ⟨parts, hpath.1, rfl, hne, hpath.2⟩

/-- **The name of a file below a directory is safe.** -/
theorem isSafe_archiveName {path : OsPath}
    (hnamed : ∀ part ∈ path, part.bytes ≠ [] ∧ (47 : UInt8) ∉ part.bytes)
    (h : archiveName path = .ok name) : IsSafe name := by
  obtain ⟨parts, -, rfl, hne, hpart⟩ := archiveName_eq_ok hnamed h
  clear h
  induction parts with
  | nil => exact absurd rfl hne
  | cons first rest ih =>
    obtain ⟨hback, hslash, hsafe⟩ := hpart first List.mem_cons_self
    have hfirst : IsSafe first := by
      rw [isSafe_iff, List.splitOn_eq_singleton hslash]
      exact ⟨hback, List.forall_mem_singleton.mpr hsafe⟩
    cases rest with
    | nil =>
      rw [String.intercalate_singleton]
      exact hfirst
    | cons next rest =>
      rw [String.intercalate_cons_cons, isSafe_append]
      exact ⟨hfirst, ih (List.cons_ne_nil _ _) fun text htext =>
        hpart text (List.mem_cons_of_mem _ htext)⟩

theorem intercalate_slash_injective {left right : List String} (hleft : left ≠ [])
    (hright : right ≠ []) (hl : ∀ text ∈ left, '/' ∉ text.toList)
    (hr : ∀ text ∈ right, '/' ∉ text.toList)
    (h : "/".intercalate left = "/".intercalate right) : left = right := by
  have hlists := Paths.splitOn_intercalate hleft hl
  rw [h, Paths.splitOn_intercalate hright hr] at hlists
  exact (List.map_injective_iff.mpr fun _ _ => String.toList_inj.mp) hlists.symm

/-- **Files below a directory are told apart by their names.** -/
theorem archiveName_injective {path path' : OsPath}
    (hnamed : ∀ part ∈ path, part.bytes ≠ [] ∧ (47 : UInt8) ∉ part.bytes)
    (hnamed' : ∀ part ∈ path', part.bytes ≠ [] ∧ (47 : UInt8) ∉ part.bytes)
    (h : archiveName path = .ok name) (h' : archiveName path' = .ok name) : path = path' := by
  obtain ⟨parts, rfl, rfl, hne, hpart⟩ := archiveName_eq_ok hnamed h
  obtain ⟨parts', rfl, hname, hne', hpart'⟩ := archiveName_eq_ok hnamed' h'
  rw [intercalate_slash_injective hne hne' (fun text htext => (hpart text htext).2.1)
    (fun text htext => (hpart' text htext).2.1) hname]

end Names

-- Merges in two places
-- ---

section TwoRuns

variable {archive archive' merged merged' : FatArchive} {name : String} {bytes : Bytes}
  {source source' : String} {inputs inputs' : List FatInput}

def FatInput.content (input : FatInput) : String × Bytes := (input.name, input.bytes)

/-- Two archives have the same entries, wherever these come from. -/
def SameBytes (archive archive' : FatArchive) : Prop :=
  ∀ name : String, archive.entries[name]?.map FatEntry.bytes = archive'.entries[name]?.map FatEntry.bytes

theorem SameBytes.insert (h : SameBytes archive archive') {entry entry' : FatEntry}
    (hbytes : entry.bytes = entry'.bytes) :
    SameBytes (archive.insert name entry) (archive'.insert name entry') := by
  intro other
  by_cases hother : other = name
  · subst hother
    rw [getElem?_insert_self, getElem?_insert_self, Option.map_some, Option.map_some, hbytes]
  · rw [getElem?_insert _ hother, getElem?_insert _ hother]
    exact h other

theorem SameBytes.insertFatEntry (h : SameBytes archive archive')
    (hmerged : insertFatEntry archive name bytes source = .ok merged)
    (hmerged' : insertFatEntry archive' name bytes source' = .ok merged') :
    SameBytes merged merged' := by
  have hname := h name
  rcases insertFatEntry_eq_ok hmerged with ⟨hnone, rfl⟩ | ⟨existing, hsome, hcases⟩
  · rcases insertFatEntry_eq_ok hmerged' with ⟨-, rfl⟩ | ⟨existing', hsome', -⟩
    · exact h.insert rfl
    · rw [hnone, hsome'] at hname
      cases hname
  · rcases insertFatEntry_eq_ok hmerged' with ⟨hnone', rfl⟩ | ⟨existing', hsome', hcases'⟩
    · rw [hsome, hnone'] at hname
      cases hname
    · have hkept : merged.entries = archive.entries := by
        rcases hcases with ⟨-, rfl⟩ | ⟨-, -, rfl⟩ <;> rfl
      have hkept' : merged'.entries = archive'.entries := by
        rcases hcases' with ⟨-, rfl⟩ | ⟨-, -, rfl⟩ <;> rfl
      intro other
      rw [hkept, hkept']
      exact h other

theorem SameBytes.existing {ν : Type} {form : PropertyForm ν} (laws : FormLaws form)
    (h : SameBytes archive archive') {properties properties' : BTreeMap ν}
    (hread : form.existing archive name = .ok properties)
    (hread' : form.existing archive' name = .ok properties') : properties = properties' := by
  have hname := h name
  unfold PropertyForm.existing at hread hread'
  cases hentry : archive.entries[name]? with
  | none =>
    cases hentry' : archive'.entries[name]? with
    | none =>
      rw [hentry] at hread
      rw [hentry'] at hread'
      exact Except.ok.inj (hread.symm.trans hread')
    | some entry' =>
      rw [hentry, hentry'] at hname
      cases hname
  | some entry =>
    cases hentry' : archive'.entries[name]? with
    | none =>
      rw [hentry, hentry'] at hname
      cases hname
    | some entry' =>
      rw [hentry, hentry'] at hname
      have hbytes : entry.bytes = entry'.bytes := Option.some.inj hname
      rw [hentry] at hread
      rw [hentry'] at hread'
      have hread'' : form.parse ∅ entry.bytes entry'.source name = .ok properties' := hbytes ▸ hread'
      exact parse_unique laws hread hread''

theorem SameBytes.merge {ν : Type} {form : PropertyForm ν} (laws : FormLaws form)
    (h : SameBytes archive archive') (hmerged : form.merge archive name bytes source = .ok merged)
    (hmerged' : form.merge archive' name bytes source' = .ok merged') : SameBytes merged merged' := by
  obtain ⟨existing, hexisting, hmerged⟩ := Fallible.bind_eq_ok.mp hmerged
  obtain ⟨existing', hexisting', hmerged'⟩ := Fallible.bind_eq_ok.mp hmerged'
  obtain rfl := h.existing laws hexisting hexisting'
  obtain ⟨read, hread, hmerged⟩ := Fallible.bind_eq_ok.mp hmerged
  obtain ⟨read', hread', hmerged'⟩ := Fallible.bind_eq_ok.mp hmerged'
  obtain rfl := parse_unique laws hread hread'
  cases hmerged
  cases hmerged'
  exact h.insert rfl

/-- **A merge gives the same bytes, wherever an input comes from.** -/
theorem SameBytes.mergeFatEntry (h : SameBytes archive archive')
    (hmerged : mergeFatEntry archive name bytes source = .ok merged)
    (hmerged' : mergeFatEntry archive' name bytes source' = .ok merged') :
    SameBytes merged merged' := by
  unfold JMan.Build.mergeFatEntry at hmerged hmerged'
  cases hstrategy : resourceMergeStrategy name with
  | keepFirst =>
    rw [hstrategy] at hmerged hmerged'
    exact h.insertFatEntry hmerged hmerged'
  | lines =>
    rw [hstrategy] at hmerged hmerged'
    cases hmerged
    cases hmerged'
    refine h.insert ?_
    simp only [h name]
  | properties =>
    rw [hstrategy] at hmerged hmerged'
    exact h.merge plainLaws hmerged hmerged'
  | propertyLists =>
    rw [hstrategy] at hmerged hmerged'
    exact h.merge listLaws hmerged hmerged'

theorem SameBytes.mergeInputs (h : SameBytes archive archive')
    (hinputs : inputs.map FatInput.content = inputs'.map FatInput.content)
    (hmerged : mergeInputs archive inputs = .ok merged)
    (hmerged' : mergeInputs archive' inputs' = .ok merged') : SameBytes merged merged' := by
  induction inputs generalizing archive archive' inputs' with
  | nil =>
    obtain rfl := List.map_eq_nil_iff.mp hinputs.symm
    cases hmerged
    cases hmerged'
    exact h
  | cons input inputs ih =>
    obtain ⟨input', rest, rfl, hinput, hrest⟩ := List.map_eq_cons_iff.mp hinputs.symm
    obtain ⟨hname, hbytes⟩ := Prod.mk.inj hinput
    obtain ⟨next, hnext, hmerged⟩ := Fallible.bind_eq_ok.mp hmerged
    obtain ⟨next', hnext', hmerged'⟩ := Fallible.bind_eq_ok.mp hmerged'
    have hsame : JMan.Build.mergeFatEntry archive' input.name input.bytes input'.source = .ok next' := by
      rw [← hname, ← hbytes]
      exact hnext'
    exact ih (h.mergeFatEntry hnext hsame) hrest.symm hmerged hmerged'

theorem entry_bytes_injective (entries entries' : BTreeMap FatEntry)
    (h : ∀ name : String, entries[name]?.map FatEntry.bytes = entries'[name]?.map FatEntry.bytes) :
    (entries.toList.map fun entry => (entry.1, entry.2.bytes)) =
      entries'.toList.map fun entry => (entry.1, entry.2.bytes) := by
  have hmap : entries.map (fun _ entry => entry.bytes) = entries'.map fun _ entry => entry.bytes := by
    refine Std.ExtTreeMap.ext_getElem? fun name => ?_
    rw [Std.ExtTreeMap.getElem?_map, Std.ExtTreeMap.getElem?_map]
    exact h name
  have hlists := congrArg Std.ExtTreeMap.toList hmap
  rwa [Std.ExtTreeMap.toList_map, Std.ExtTreeMap.toList_map] at hlists

end TwoRuns

-- Names of an archive
-- ---

section Names

variable {archive merged : FatArchive} {name other : String} {bytes : Bytes} {source : String}
  {inputs : List FatInput}

def FatArchive.Has (archive : FatArchive) (name : String) : Prop :=
  archive.entries[name]?.isSome = true

theorem has_insert (entry : FatEntry) :
    (archive.insert name entry).Has other ↔ archive.Has other ∨ other = name := by
  unfold FatArchive.Has
  by_cases hother : other = name
  · subst hother
    rw [getElem?_insert_self]
    exact iff_of_true rfl (Or.inr rfl)
  · rw [getElem?_insert entry hother]
    exact (or_iff_left hother).symm

theorem has_mergeFatEntry (h : mergeFatEntry archive name bytes source = .ok merged) :
    merged.Has other ↔ archive.Has other ∨ other = name := by
  by_cases hstrategy : resourceMergeStrategy name = .keepFirst
  · rw [mergeFatEntry, hstrategy] at h
    rcases insertFatEntry_eq_ok h with ⟨-, rfl⟩ | ⟨existing, hsome, hcases⟩
    · exact has_insert _
    · have hkept : merged.entries = archive.entries := by
        rcases hcases with ⟨-, rfl⟩ | ⟨-, -, rfl⟩ <;> rfl
      unfold FatArchive.Has
      rw [hkept]
      refine (or_iff_left_of_imp ?_).symm
      rintro rfl
      rw [hsome]
      rfl
  · obtain ⟨entry, rfl⟩ := mergeFatEntry_of_ne hstrategy h
    exact has_insert _

theorem has_mergeInputs (h : mergeInputs archive inputs = .ok merged) :
    merged.Has other ↔ archive.Has other ∨ ∃ input ∈ inputs, other = input.name := by
  induction inputs generalizing archive with
  | nil =>
    cases h
    simp
  | cons input inputs ih =>
    obtain ⟨next, hnext, h⟩ := Fallible.bind_eq_ok.mp h
    rw [ih h, has_mergeFatEntry hnext, List.exists_mem_cons_iff, or_assoc]

theorem has_iff_mem_toList : archive.Has name ↔
    name ∈ (archive.entries.toList.map fun entry => (entry.1, entry.2.bytes)).map Prod.fst := by
  rw [List.map_map, FatArchive.Has, Std.ExtTreeMap.isSome_getElem?_eq_contains,
    Std.ExtTreeMap.contains_iff_mem, ← Std.ExtTreeMap.mem_keys, ← Std.ExtTreeMap.map_fst_toList_eq_keys]
  rfl

end Names

-- What is unpacked
-- ---

section Unpack

variable {unzip : ByteArray → Except String (List ZipEntry)} {files : FilePlace → Option ByteArray}
  {archive merged : FatArchive} {jar : Path} {coordinate : String} {entry : ZipEntry}

def ZipEntry.IsMerged (entry : ZipEntry) : Prop :=
  entry.isDirectory = false ∧ ignoredFatEntry entry.name = false

instance (entry : ZipEntry) : Decidable entry.IsMerged := inferInstanceAs (Decidable (_ ∧ _))

def ZipEntry.content (entry : ZipEntry) (coordinate : String) : String × Bytes :=
  (relocatedDependencyEntry entry.name coordinate, entry.contents.getD [])

/-- What the entries of an archive add, in the order in which they are merged. -/
def contents (coordinate : String) (entries : List ZipEntry) : List (String × Bytes) :=
  ((entries.filter fun entry => entry.IsMerged).map (ZipEntry.content · coordinate)).insertionSort
    fun left right => left.1 ≤ right.1

theorem readJarEntry_eq_ok {input : Option FatInput}
    (h : readJarEntry jar coordinate entry = .ok input) :
    (entry.IsMerged ∧ IsSafe entry.name ∧
      input.map FatInput.content = some (entry.content coordinate)) ∨
    (¬ entry.IsMerged ∧ input = none) := by
  unfold readJarEntry at h
  split at h
  · next hdirectory =>
    cases h
    exact Or.inr ⟨fun hmerged => Bool.eq_false_iff.mp hmerged.1 hdirectory, rfl⟩
  next hfile =>
  obtain ⟨name, hname, h⟩ := Fallible.bind_eq_ok.mp h
  obtain ⟨hsafe, rfl⟩ := safeZipName_eq_ok.mp hname
  split at h
  · next hignored =>
    cases h
    exact Or.inr ⟨fun hmerged => Bool.eq_false_iff.mp hmerged.2 hignored, rfl⟩
  next hkept =>
  split at h
  · cases h
  next contents hcontents =>
  cases h
  refine Or.inl ⟨⟨Bool.eq_false_iff.mpr hfile, Bool.eq_false_iff.mpr hkept⟩, isSafe_iff.mpr hsafe, ?_⟩
  rw [ZipEntry.content, hcontents]
  rfl

theorem contents_of_mapM {entries : List ZipEntry} {inputs : List (Option FatInput)}
    (h : entries.mapM (readJarEntry jar coordinate) = .ok inputs) :
    (inputs.filterMap id).map FatInput.content =
      (entries.filter fun entry => entry.IsMerged).map (ZipEntry.content · coordinate) := by
  rw [Fallible.mapM_eq_ok] at h
  induction h with
  | nil => rfl
  | @cons entry input _ _ hentry _ ih =>
    rcases readJarEntry_eq_ok hentry with ⟨hmerged, -, hinput⟩ | ⟨hskipped, rfl⟩
    · obtain ⟨found, rfl, hcontent⟩ := Option.map_eq_some_iff.mp hinput
      rw [List.filterMap_cons_some (f := id) rfl, List.filter_cons, if_pos (decide_eq_true hmerged),
        List.map_cons, List.map_cons, hcontent, ih]
    · rw [List.filterMap_cons_none (f := id) rfl, List.filter_cons,
        if_neg (by rwa [decide_eq_true_eq]), ih]

theorem mergeDependencyJar_eq_ok
    (h : mergeDependencyJar unzip files archive jar coordinate = .ok merged) :
    ∃ (bytes : ByteArray) (entries : List ZipEntry) (inputs : List FatInput),
      files (.cache (Paths.locate jar)) = some bytes ∧ unzip bytes = .ok entries ∧
      (∀ entry ∈ entries, entry.IsMerged → IsSafe entry.name) ∧
      inputs.map FatInput.content = contents coordinate entries ∧
      mergeInputs archive inputs = .ok merged := by
  obtain ⟨inputs, hinputs, hmerged⟩ := Fallible.bind_eq_ok.mp h
  unfold readJarEntries at hinputs
  split at hinputs
  · cases hinputs
  next bytes hbytes =>
  split at hinputs
  · cases hinputs
  next entries hentries =>
  obtain ⟨read, hread, hsorted⟩ := Fallible.bind_eq_ok.mp hinputs
  cases hsorted
  refine ⟨bytes, entries, _, hbytes, hentries, fun entry hentry hmerged => ?_, ?_, hmerged⟩
  · obtain ⟨input, -, hinput⟩ := Fallible.exists_of_mem_of_mapM hread hentry
    rcases readJarEntry_eq_ok hinput with ⟨-, hsafe, -⟩ | ⟨hskipped, -⟩
    · exact hsafe
    · exact absurd hmerged hskipped
  · rw [contents, ← contents_of_mapM hread]
    exact List.map_insertionSort _ _ _ _ fun left _ right _ => Iff.rfl

end Unpack

-- The same artifacts in several places
-- ---

def IsFileName (name : String) : Prop :=
  '/' ∉ name.toList ∧ name ≠ "" ∧ name ≠ "." ∧ name ≠ ".."

instance (name : String) : Decidable (IsFileName name) := inferInstanceAs (Decidable (_ ∧ _))

def Location.artifact (location : Location) (name : String) : Path :=
  location.cacheDir ++ ["artifacts", name]

def Location.Holds (location : Location) (artifacts : String → Option ByteArray) : Prop :=
  ∀ name, IsFileName name →
    location.files (.cache (Paths.locate (location.artifact name))) = artifacts name

def lockedName? (lock : Lockfile) (checksum : String) : Option String :=
  (packageOf? lock checksum).bind fun package =>
    (digestOf? checksum).map fun digest => digest ++ "." ++ package.extension

/-- The names of the artifacts on a run-time class path. -/
def lockedNames (lock : Lockfile) : List String :=
  lock.classpath.runtime.filterMap (lockedName? lock)

/-- The artifacts of locks are files of the cache's directory. -/
def LocksPlain (locks : Nat → Lockfile) : Prop :=
  ∀ index, ∀ name ∈ lockedNames (locks index), IsFileName name

def upstreamNames (project : FatProject) : List String :=
  ((upstreamOf .runtime project.modules project.index).map fun index =>
    lockedNames (project.locks index)).flatten.dedup.insertionSort (· ≤ ·)

def ownNames (project : FatProject) : List String := lockedNames (project.locks project.index)

section Artifacts

variable {location : Location} {locks : Nat → Lockfile} {index : Nat} {name : String}

theorem join_of_isFileName (hname : IsFileName name) (path : Path) :
    Paths.join path name = path ++ [name] := by
  obtain ⟨hslash, hempty, hdot, -⟩ := hname
  have hsegments : Paths.segments name = [name] := by
    rw [Paths.segments, List.splitOn_eq_singleton hslash, List.map_singleton, String.ofList_toList]
    exact List.filter_cons_of_pos (decide_eq_true ⟨hempty, hdot⟩)
  have habsolute : ¬ Paths.isAbsolute name = true := fun h =>
    hslash (List.mem_of_mem_head? (of_decide_eq_true h))
  rw [Paths.join, if_neg habsolute, hsegments]

theorem artifactPath_of_plain (hplain : ∀ name ∈ lockedNames (locks index), IsFileName name)
    {checksum : String} {path : Path} (hchecksum : checksum ∈ (locks index).classpath.runtime)
    (h : artifactPath location.cacheDir location.files (locks index) checksum = .ok path) :
    ∃ name, lockedName? (locks index) checksum = some name ∧ path = location.artifact name := by
  obtain ⟨hpath, -⟩ := artifactPath_eq_ok.mp h
  obtain ⟨package, hpackage, hdigest⟩ := Option.bind_eq_some_iff.mp hpath
  obtain ⟨digest, hfound, rfl⟩ := Option.map_eq_some_iff.mp hdigest
  have hname : lockedName? (locks index) checksum = some (digest ++ "." ++ package.extension) := by
    rw [lockedName?, hpackage, Option.bind_some, hfound, Option.map_some]
  refine ⟨_, hname, ?_⟩
  have hplainName := hplain _ (List.mem_filterMap.mpr ⟨checksum, hchecksum, hname⟩)
  rw [cachedArtifact, join_of_isFileName hplainName, Location.artifact, List.append_assoc]
  rfl

theorem lockedArtifacts_eq (hplain : LocksPlain locks) {paths : List Path}
    (h : lockedArtifacts location.cacheDir location.files locks .runtime index = .ok paths) :
    paths = (lockedNames (locks index)).map location.artifact := by
  have hfound : ∀ checksum ∈ (locks index).classpath.runtime, ∀ path,
      artifactPath location.cacheDir location.files (locks index) checksum = .ok path →
      ∃ name, lockedName? (locks index) checksum = some name ∧ path = location.artifact name :=
    fun checksum hchecksum path hpath => artifactPath_of_plain (hplain index) hchecksum hpath
  have hpaths := Fallible.mapM_eq_ok.mp h
  rw [lockedNames]
  change List.Forall₂ _ (locks index).classpath.runtime paths at hpaths
  clear h
  generalize (locks index).classpath.runtime = checksums at hfound hpaths
  induction hpaths with
  | nil => rfl
  | @cons checksum path checksums paths hpath _ ih =>
    obtain ⟨name, hname, rfl⟩ := hfound checksum List.mem_cons_self path hpath
    rw [List.filterMap_cons_some hname, List.map_cons,
      ih fun other hother => hfound other (List.mem_cons_of_mem _ hother)]

theorem artifact_lt_iff (name other : String) :
    location.artifact name < location.artifact other ↔ name < other := by
  unfold Location.artifact
  induction location.cacheDir with
  | nil => simp [List.cons_lt_cons_iff]
  | cons part base ih =>
    rw [List.cons_append, List.cons_append, List.cons_lt_cons_iff, or_iff_right (lt_irrefl part),
      and_iff_right rfl]
    exact ih

theorem artifact_le_iff (name other : String) :
    location.artifact name ≤ location.artifact other ↔ name ≤ other := by
  rw [← not_lt, ← not_lt, artifact_lt_iff]

theorem artifact_injective_name : Function.Injective location.artifact := by
  intro name other h
  have hlast := List.append_cancel_left h
  exact (List.cons.inj (List.cons.inj hlast).2).1

theorem upstreamArtifactPaths_eq {project : FatProject} (hplain : LocksPlain project.locks)
    {paths : List Path}
    (h : upstreamArtifactPaths location.cacheDir location.files project.locks .runtime
      (upstreamOf .runtime project.modules project.index) = .ok paths) :
    paths = (upstreamNames project).map location.artifact := by
  obtain ⟨artifacts, hartifacts, h⟩ := Fallible.bind_eq_ok.mp h
  cases h
  have hnames : artifacts = ((upstreamOf .runtime project.modules project.index).map fun index =>
      lockedNames (project.locks index)).map (List.map location.artifact) := by
    rw [Fallible.mapM_eq_ok] at hartifacts
    clear h
    generalize upstreamOf .runtime project.modules project.index = upstream at hartifacts ⊢
    induction hartifacts with
    | nil => rfl
    | cons hfirst _ ih => rw [lockedArtifacts_eq hplain hfirst, ih, List.map_cons, List.map_cons]
  rw [hnames, ← List.map_flatten, List.dedup_map_of_injective artifact_injective_name, upstreamNames]
  exact (List.map_insertionSort _ _ _ _ fun name _ other _ => (artifact_le_iff name other).symm).symm

end Artifacts

-- Class trees in several places
-- ---

section ClassTrees

variable {archive merged : FatArchive} {root : OsPath} {tree : ClassTree} {context : String}

theorem addFile_append (archive : FatArchive) (file : ClassFile) :
    addFile root context archive (root ++ file.path, file.bytes) = (do
      let name ← archiveName file.path
      if ignoredFatEntry name then return archive
      else mergeFatEntry archive name file.bytes context) := by
  rw [addFile, OsPath.stripPrefix?_append]

theorem addDirectoryEntries_root (archive : FatArchive) (root root' : OsPath) (tree : ClassTree)
    (context : String) :
    addDirectoryEntries archive root tree context = addDirectoryEntries archive root' tree context := by
  rw [addDirectoryEntries, addDirectoryEntries, List.foldlM_map, List.foldlM_map]
  simp only [addFile_append]

def FatArchive.IsSafe (archive : FatArchive) : Prop := ∀ name, archive.Has name → Build.IsSafe name

theorem FatArchive.IsSafe.mergeFatEntry {name : String} {bytes : Bytes} {source : String}
    (h : archive.IsSafe) (hname : Build.IsSafe name)
    (hmerged : mergeFatEntry archive name bytes source = .ok merged) : merged.IsSafe := by
  intro other hother
  rcases (has_mergeFatEntry hmerged).mp hother with hother | rfl
  · exact h other hother
  · exact hname

/-- **Classes are merged under safe names.** -/
theorem FatArchive.IsSafe.addDirectoryEntries (h : archive.IsSafe)
    (hmerged : addDirectoryEntries archive root tree context = .ok merged) : merged.IsSafe := by
  rw [JMan.Build.addDirectoryEntries, List.foldlM_map] at hmerged
  refine Fallible.foldlM_invariant (fun before file after hbefore hturn => ?_) h hmerged
  rw [addFile_append] at hturn
  obtain ⟨name, hname, hturn⟩ := Fallible.bind_eq_ok.mp hturn
  split at hturn
  · cases hturn
    exact hbefore
  · exact hbefore.mergeFatEntry (isSafe_archiveName file.named hname) hturn

end ClassTrees

-- Packaging in several places
-- ---

/-- The classes of a module and of those upstream. -/
def classArchive (project : FatProject) : Except BuildError FatArchive := do
  let archive ← addDirectoryEntries .default [] (project.classes project.index) "application output"
  (upstreamOf .runtime project.modules project.index).foldlM (fun archive index =>
    addDirectoryEntries archive [] (project.classes index) "workspace dependency") archive

def Location.upstreamLabel (location : Location) (name : String) : String :=
  "workspace dependency " ++ Paths.display (location.artifact name)

def ownLabel (project : FatProject) (name : String) : String :=
  coordinateOf (project.locks project.index) [name]

section Places

variable (unzip : ByteArray → Except String (List ZipEntry))

def mergeJars (location : Location) (label : String → String) (archive : FatArchive)
    (names : List String) : Except BuildError FatArchive :=
  names.foldlM (fun archive name => mergeDependencyJar unzip location.files archive
    (location.artifact name) (label name)) archive

def HasLicense (artifacts : String → Option ByteArray) (name : String) : Prop :=
  ∃ bytes entries, artifacts name = some bytes ∧ unzip bytes = .ok entries ∧
    ∃ entry ∈ entries, entry.IsMerged ∧ isLicenseEntry entry.name = true

/-- A name under which an entry of one of the artifacts is merged. -/
def IsEntryOf (artifacts : String → Option ByteArray) (label : String → String)
    (names : List String) (other : String) : Prop :=
  ∃ name ∈ names, ∃ bytes entries, artifacts name = some bytes ∧ unzip bytes = .ok entries ∧
    ∃ entry ∈ entries, entry.IsMerged ∧ other = relocatedDependencyEntry entry.name (label name)

/-- The entries of an artifact that are merged have safe names. -/
def SafeEntries (artifacts : String → Option ByteArray) (name : String) : Prop :=
  ∀ bytes entries, artifacts name = some bytes → unzip bytes = .ok entries →
    ∀ entry ∈ entries, entry.IsMerged → IsSafe entry.name

end Places

section Runs

variable {unzip : ByteArray → Except String (List ZipEntry)} {artifacts : String → Option ByteArray}
  {location location' : Location} {project : FatProject}
  {archive archive' merged merged' : FatArchive} {label label' : String → String}
  {names : List String}

theorem coordinateOf_artifact (lock : Lockfile) (name : String) :
    coordinateOf lock (location.artifact name) = coordinateOf lock [name] := by
  have hlast : (location.artifact name).getLast? = [name].getLast? := by
    rw [Location.artifact, List.getLast?_append]
    rfl
  rw [coordinateOf, coordinateOf, hlast]

theorem mergedArchive_eq_ok (hplain : LocksPlain project.locks)
    (h : mergedArchive unzip project location = .ok merged) :
    ∃ classes dependencies, classArchive project = .ok classes ∧
      mergeJars unzip location location.upstreamLabel classes (upstreamNames project) =
        .ok dependencies ∧
      mergeJars unzip location (ownLabel project) dependencies (ownNames project) = .ok merged := by
  obtain ⟨own, hown, h⟩ := Fallible.bind_eq_ok.mp h
  obtain ⟨classes, hclasses, h⟩ := Fallible.bind_eq_ok.mp h
  obtain ⟨upstream, hupstream, h⟩ := Fallible.bind_eq_ok.mp h
  obtain ⟨dependencies, hdependencies, h⟩ := Fallible.bind_eq_ok.mp h
  obtain ⟨paths, hpaths, hmerged⟩ := Fallible.bind_eq_ok.mp h
  obtain rfl := upstreamArtifactPaths_eq hplain hupstream
  obtain rfl := lockedArtifacts_eq hplain hpaths
  rw [List.foldlM_map] at hdependencies hmerged
  refine ⟨classes, dependencies, ?_, hdependencies, ?_⟩
  · simp only [addDirectoryEntries_root _ _ []] at hown hclasses
    exact Fallible.bind_eq_ok.mpr ⟨own, hown, hclasses⟩
  · simp only [coordinateOf_artifact] at hmerged
    exact hmerged

theorem contents_eq {coordinate coordinate' : String} {bytes : ByteArray} {entries : List ZipEntry}
    {name : String} (hbytes : artifacts name = some bytes) (hentries : unzip bytes = .ok entries)
    (hlabel : coordinate = coordinate' ∨ ¬ HasLicense unzip artifacts name) :
    contents coordinate entries = contents coordinate' entries := by
  rcases hlabel with rfl | hlicense
  · rfl
  · have hsame : ∀ entry ∈ entries.filter fun entry => entry.IsMerged,
        entry.content coordinate = entry.content coordinate' := by
      intro entry hentry
      obtain ⟨hmem, hmerged⟩ := List.mem_filter.mp hentry
      have hother : ¬ isLicenseEntry entry.name = true := fun h =>
        hlicense ⟨bytes, entries, hbytes, hentries, entry, hmem, of_decide_eq_true hmerged, h⟩
      rw [ZipEntry.content, ZipEntry.content, relocatedDependencyEntry, relocatedDependencyEntry,
        if_neg hother, if_neg hother]
    rw [contents, contents, List.map_congr_left hsame]

/-- **Artifacts are merged alike in two places.** -/
theorem SameBytes.mergeJars (hholds : location.Holds artifacts) (hholds' : location'.Holds artifacts)
    (hnames : ∀ name ∈ names, IsFileName name)
    (hlabels : ∀ name ∈ names, label name = label' name ∨ ¬ HasLicense unzip artifacts name)
    (h : SameBytes archive archive')
    (hmerged : mergeJars unzip location label archive names = .ok merged)
    (hmerged' : mergeJars unzip location' label' archive' names = .ok merged') :
    SameBytes merged merged' := by
  induction names generalizing archive archive' with
  | nil =>
    cases hmerged
    cases hmerged'
    exact h
  | cons name names ih =>
    obtain ⟨next, hnext, hmerged⟩ := Fallible.bind_eq_ok.mp hmerged
    obtain ⟨next', hnext', hmerged'⟩ := Fallible.bind_eq_ok.mp hmerged'
    obtain ⟨bytes, entries, inputs, hbytes, hentries, -, hinputs, hnext⟩ :=
      mergeDependencyJar_eq_ok hnext
    obtain ⟨bytes', entries', inputs', hbytes', hentries', -, hinputs', hnext'⟩ :=
      mergeDependencyJar_eq_ok hnext'
    rw [hholds name (hnames name List.mem_cons_self)] at hbytes
    rw [hholds' name (hnames name List.mem_cons_self)] at hbytes'
    obtain rfl := Option.some.inj (hbytes.symm.trans hbytes')
    obtain rfl := Except.ok.inj (hentries.symm.trans hentries')
    have hcontents := contents_eq hbytes hentries (hlabels name List.mem_cons_self)
    exact ih (fun other hother => hnames other (List.mem_cons_of_mem _ hother))
      (fun other hother => hlabels other (List.mem_cons_of_mem _ hother))
      (h.mergeInputs (hinputs.trans (hcontents.trans hinputs'.symm)) hnext hnext') hmerged hmerged'

theorem has_mergeJars (hholds : location.Holds artifacts) (hnames : ∀ name ∈ names, IsFileName name)
    (h : mergeJars unzip location label archive names = .ok merged) (other : String) :
    merged.Has other ↔ archive.Has other ∨ IsEntryOf unzip artifacts label names other := by
  unfold IsEntryOf
  induction names generalizing archive with
  | nil =>
    cases h
    simp
  | cons name names ih =>
    obtain ⟨next, hnext, h⟩ := Fallible.bind_eq_ok.mp h
    obtain ⟨bytes, entries, inputs, hbytes, hentries, -, hinputs, hnext⟩ :=
      mergeDependencyJar_eq_ok hnext
    rw [hholds name (hnames name List.mem_cons_self)] at hbytes
    rw [ih (fun other hother => hnames other (List.mem_cons_of_mem _ hother)) h,
      has_mergeInputs hnext, List.exists_mem_cons_iff, or_assoc]
    refine or_congr_right (or_congr_left ?_)
    have hinput : (∃ input ∈ inputs, other = input.name) ↔
        ∃ content ∈ contents (label name) entries, other = content.1 := by
      rw [← hinputs]
      simp [FatInput.content]
    rw [hinput]
    simp only [contents, List.mem_insertionSort, List.mem_map, List.mem_filter, decide_eq_true_eq]
    constructor
    · rintro ⟨-, ⟨entry, ⟨hentry, hmerged⟩, rfl⟩, rfl⟩
      exact ⟨bytes, entries, hbytes, hentries, entry, hentry, hmerged, rfl⟩
    · rintro ⟨bytes', entries', hbytes', hentries', entry, hentry, hmerged, rfl⟩
      obtain rfl := Option.some.inj (hbytes.symm.trans hbytes')
      obtain rfl := Except.ok.inj (hentries.symm.trans hentries')
      exact ⟨_, ⟨entry, ⟨hentry, hmerged⟩, rfl⟩, rfl⟩

theorem safeEntries_of_mergeJars (hholds : location.Holds artifacts)
    (hnames : ∀ name ∈ names, IsFileName name)
    (h : mergeJars unzip location label archive names = .ok merged) :
    ∀ name ∈ names, SafeEntries unzip artifacts name := by
  induction names generalizing archive with
  | nil =>
    intro name hname
    cases hname
  | cons name names ih =>
    obtain ⟨next, hnext, h⟩ := Fallible.bind_eq_ok.mp h
    obtain ⟨bytes, entries, -, hbytes, hentries, hsafe, -, -⟩ := mergeDependencyJar_eq_ok hnext
    rw [hholds name (hnames name List.mem_cons_self)] at hbytes
    refine List.forall_mem_cons.mpr
      ⟨?_, ih (fun other hother => hnames other (List.mem_cons_of_mem _ hother)) h⟩
    intro bytes' entries' hbytes' hentries'
    obtain rfl := Option.some.inj (hbytes.symm.trans hbytes')
    obtain rfl := Except.ok.inj (hentries.symm.trans hentries')
    exact hsafe

theorem isSafe_default : FatArchive.default.IsSafe := by
  intro name hname
  rw [FatArchive.Has, FatArchive.default, Std.ExtTreeMap.getElem?_empty] at hname
  cases hname

theorem isSafe_classArchive (h : classArchive project = .ok archive) : archive.IsSafe := by
  obtain ⟨own, hown, h⟩ := Fallible.bind_eq_ok.mp h
  exact Fallible.foldlM_invariant (fun before index after hbefore hturn =>
    hbefore.addDirectoryEntries hturn) (isSafe_default.addDirectoryEntries hown) h

end Runs

-- Portable archives
-- ---

section Portable

variable (unzip : ByteArray → Except String (List ZipEntry)) (artifacts : String → Option ByteArray)
  (project : FatProject)

/-- Packaged in two places, a project gives the same archive, and all its names are safe. -/
def Portable : Prop := ∀ location location' : Location, location.Holds artifacts →
  location'.Holds artifacts → ∀ entries entries', packageFat unzip project location = .ok entries →
    packageFat unzip project location' = .ok entries' →
      entries = entries' ∧ ∀ entry ∈ entries, IsSafe entry.1

/-- No artifact of a module upstream has a licence, and the coordinates of the module's own
artifacts that have one make safe names. -/
def LicensesPortable : Prop :=
  (∀ name ∈ upstreamNames project, ¬ HasLicense unzip artifacts name) ∧
    ∀ name ∈ ownNames project, HasLicense unzip artifacts name →
      IsSafe (coordinateDirectory (ownLabel project name))

def placeIn (directory : String) : Location where
  workspace := []
  cacheDir := [directory]
  files := fun place =>
    match place with
    | .cache path => if path.dropLast = [directory, "artifacts"] then path.getLast?.bind artifacts
      else none
    | _ => none

end Portable

section Results

variable {unzip : ByteArray → Except String (List ZipEntry)} {artifacts : String → Option ByteArray}
  {location location' : Location} {project : FatProject} {merged : FatArchive}
  {entries : List (String × Bytes)}

theorem isFileName_of_mem_upstreamNames (hplain : LocksPlain project.locks) :
    ∀ name ∈ upstreamNames project, IsFileName name := by
  intro name hname
  rw [upstreamNames, List.mem_insertionSort, List.mem_dedup, List.mem_flatten] at hname
  obtain ⟨names, hnames, hname⟩ := hname
  obtain ⟨index, -, rfl⟩ := List.mem_map.mp hnames
  exact hplain index name hname

/-- **The names of the archive of a project.** -/
theorem has_mergedArchive (hplain : LocksPlain project.locks) (hholds : location.Holds artifacts)
    (h : mergedArchive unzip project location = .ok merged) :
    (∃ classes : FatArchive, classes.IsSafe ∧ ∀ other, merged.Has other ↔ classes.Has other ∨
      IsEntryOf unzip artifacts location.upstreamLabel (upstreamNames project) other ∨
      IsEntryOf unzip artifacts (ownLabel project) (ownNames project) other) ∧
    (∀ name ∈ upstreamNames project, SafeEntries unzip artifacts name) ∧
    ∀ name ∈ ownNames project, SafeEntries unzip artifacts name := by
  obtain ⟨classes, dependencies, hclasses, hdependencies, hmerged⟩ := mergedArchive_eq_ok hplain h
  have hupstream : ∀ name ∈ upstreamNames project, IsFileName name :=
    isFileName_of_mem_upstreamNames hplain
  refine ⟨⟨classes, isSafe_classArchive hclasses, fun other => ?_⟩,
    safeEntries_of_mergeJars hholds hupstream hdependencies,
    safeEntries_of_mergeJars hholds (hplain project.index) hmerged⟩
  rw [has_mergeJars hholds (hplain project.index) hmerged,
    has_mergeJars hholds hupstream hdependencies, or_assoc]
  rfl

theorem packageFat_eq_ok (h : packageFat unzip project location = .ok entries) :
    ∃ merged, mergedArchive unzip project location = .ok merged ∧
      entries = ("META-INF/MANIFEST.MF", utf8 (jarManifest project.manifest)) ::
        merged.entries.toList.map fun entry => (entry.1, entry.2.bytes) := by
  obtain ⟨merged, hmerged, h⟩ := Fallible.bind_eq_ok.mp h
  cases h
  exact ⟨merged, hmerged, rfl⟩

/-- **Licences apart, an archive is the same everywhere.** -/
theorem portable_of_licenses (hplain : LocksPlain project.locks)
    (h : LicensesPortable unzip artifacts project) : Portable unzip artifacts project := by
  intro location location' hholds hholds' entries entries' hrun hrun'
  obtain ⟨merged, hmerged, rfl⟩ := packageFat_eq_ok hrun
  obtain ⟨merged', hmerged', rfl⟩ := packageFat_eq_ok hrun'
  have hupstream : ∀ name ∈ upstreamNames project, IsFileName name :=
    isFileName_of_mem_upstreamNames hplain
  constructor
  · obtain ⟨classes, dependencies, hclasses, hdependencies, hown⟩ :=
      mergedArchive_eq_ok hplain hmerged
    obtain ⟨classes', dependencies', hclasses', hdependencies', hown'⟩ :=
      mergedArchive_eq_ok hplain hmerged'
    obtain rfl := Except.ok.inj (hclasses.symm.trans hclasses')
    have hstart : SameBytes classes classes := fun name => rfl
    have hsame := (hstart.mergeJars hholds hholds' hupstream
      (fun name hname => Or.inr (h.1 name hname)) hdependencies hdependencies').mergeJars hholds hholds'
      (hplain project.index) (fun name _ => Or.inl rfl) hown hown'
    rw [entry_bytes_injective _ _ hsame]
  · obtain ⟨⟨classes, hclasses, hnames⟩, hsafe, hsafe'⟩ := has_mergedArchive hplain hholds hmerged
    have hmanifest : IsSafe "META-INF/MANIFEST.MF" := isSafe_iff.mpr (by decide)
    refine List.forall_mem_cons.mpr ⟨hmanifest, fun entry hentry => ?_⟩
    have hname := has_iff_mem_toList.mpr (List.mem_map_of_mem hentry)
    rcases (hnames entry.1).mp hname with hname | hname | hname
    · exact hclasses entry.1 hname
    · obtain ⟨name, hmem, bytes, entries, hbytes, hentries, file, hfile, hkept, hother⟩ := hname
      rw [hother, isSafe_relocated (hsafe name hmem bytes entries hbytes hentries file hfile hkept)]
      exact fun hlicense =>
        absurd ⟨bytes, entries, hbytes, hentries, file, hfile, hkept, hlicense⟩ (h.1 name hmem)
    · obtain ⟨name, hmem, bytes, entries, hbytes, hentries, file, hfile, hkept, hother⟩ := hname
      rw [hother, isSafe_relocated (hsafe' name hmem bytes entries hbytes hentries file hfile hkept)]
      exact fun hlicense =>
        h.2 name hmem ⟨bytes, entries, hbytes, hentries, file, hfile, hkept, hlicense⟩

theorem holds_placeIn {directory : String} (hdirectory : directory ≠ "..") :
    (placeIn artifacts directory).Holds artifacts := by
  rintro name ⟨-, -, -, hdots⟩
  have hplace : Paths.locate ((placeIn artifacts directory).artifact name) =
      [directory, "artifacts", name] := by
    show Paths.locate [directory, "artifacts", name] = _
    have hartifacts : "artifacts" ≠ ".." := by decide
    simp [Paths.locate, Paths.descend, hdirectory, hdots, hartifacts]
  rw [hplace]
  simp [placeIn]

theorem length_coordinateDirectory (coordinate : String) :
    (coordinateDirectory coordinate).length = coordinate.length := by
  rw [coordinateDirectory, String.length_ofList, List.length_map, String.length_toList]

theorem length_le_append_left (left right : String) : left.length ≤ (left ++ right).length := by
  rw [String.length_append]
  exact Nat.le_add_right _ _

theorem length_le_append_right (left right : String) : right.length ≤ (left ++ right).length := by
  rw [String.length_append]
  exact Nat.le_add_left _ _

theorem length_le_display (directory next : String) (rest : Path) :
    directory.length ≤ (Paths.display (directory :: next :: rest)).length := by
  rw [Paths.display, String.intercalate_cons_cons]
  exact (length_le_append_left _ _).trans ((length_le_append_left _ _).trans
    (length_le_append_right _ _))

theorem length_le_relocated (directory name : String) {entry : String}
    (hlicense : isLicenseEntry entry = true) :
    directory.length ≤ (relocatedDependencyEntry entry
      ((placeIn artifacts directory).upstreamLabel name)).length := by
  rw [relocatedDependencyEntry, if_pos hlicense]
  calc directory.length
      ≤ (Paths.display ((placeIn artifacts directory).artifact name)).length :=
        length_le_display directory "artifacts" [name]
    _ ≤ ((placeIn artifacts directory).upstreamLabel name).length := length_le_append_right _ _
    _ = (coordinateDirectory ((placeIn artifacts directory).upstreamLabel name)).length :=
        (length_coordinateDirectory _).symm
    _ ≤ _ := (length_le_append_right _ _).trans
        ((length_le_append_left _ _).trans (length_le_append_left _ _))

/-- **A licence of a module upstream shows where the cache is.** -/
theorem no_upstream_license (hplain : LocksPlain project.locks)
    (hruns : ∀ location : Location, location.Holds artifacts →
      ∃ entries, packageFat unzip project location = .ok entries)
    (h : Portable unzip artifacts project) {name : String} (hname : name ∈ upstreamNames project) :
    ¬ HasLicense unzip artifacts name := by
  rintro ⟨bytes, entries, hbytes, hentries, file, hfile, hkept, hlicense⟩
  have hnear : (placeIn artifacts "a").Holds artifacts := holds_placeIn (by decide)
  obtain ⟨near, hrun⟩ := hruns _ hnear
  -- a directory with a name longer than every name in the archive made there
  obtain ⟨bound, hbound⟩ : ∃ bound, ∀ entry ∈ near, entry.1.length ≤ bound :=
    ⟨(near.map fun entry => entry.1.length).sum, fun entry hentry =>
      List.le_sum_of_mem (List.mem_map_of_mem hentry)⟩
  have hlong : String.ofList (List.replicate (bound + 3) 'a') ≠ ".." := by
    intro heq
    have hlengths := congrArg String.length heq
    rw [String.length_ofList, List.length_replicate] at hlengths
    have hdots : "..".length = 2 := rfl
    omega
  have hfar : (placeIn artifacts _).Holds artifacts := holds_placeIn hlong
  obtain ⟨far, hrun'⟩ := hruns _ hfar
  obtain ⟨rfl, -⟩ := h _ _ hnear hfar near far hrun hrun'
  obtain ⟨merged, hmerged, rfl⟩ := packageFat_eq_ok hrun'
  obtain ⟨⟨classes, -, hnames⟩, -, -⟩ := has_mergedArchive hplain hfar hmerged
  have hemitted := has_iff_mem_toList.mp ((hnames _).mpr (Or.inr (Or.inl
    ⟨name, hname, bytes, entries, hbytes, hentries, file, hfile, hkept, rfl⟩)))
  obtain ⟨entry, hentry, hlabel⟩ := List.mem_map.mp hemitted
  have hlength := hbound entry (List.mem_cons_of_mem _ hentry)
  have hlonger : (String.ofList (List.replicate (bound + 3) 'a')).length ≤ (relocatedDependencyEntry
      file.name ((placeIn artifacts _).upstreamLabel name)).length := length_le_relocated _ name hlicense
  rw [← hlabel, String.length_ofList, List.length_replicate] at hlonger
  omega

/-- **An archive is the same everywhere exactly if no module upstream has a licence,** as
long as coordinates make safe names. -/
theorem fat_jar_portable_iff (hplain : LocksPlain project.locks) :
    (LicensesPortable unzip artifacts project → Portable unzip artifacts project) ∧
      ((∀ location : Location, location.Holds artifacts →
          ∃ entries, packageFat unzip project location = .ok entries) →
        Portable unzip artifacts project → LicensesPortable unzip artifacts project) := by
  refine ⟨portable_of_licenses hplain, fun hruns h => ⟨fun name hname =>
    no_upstream_license hplain hruns h hname, fun name hname hlicense => ?_⟩⟩
  obtain ⟨bytes, entries, hbytes, hentries, file, hfile, hkept, hlicense⟩ := hlicense
  have hholds : (placeIn artifacts "a").Holds artifacts := holds_placeIn (by decide)
  obtain ⟨written, hrun⟩ := hruns _ hholds
  obtain ⟨-, hall⟩ := h _ _ hholds hholds written written hrun hrun
  obtain ⟨merged, hmerged, rfl⟩ := packageFat_eq_ok hrun
  obtain ⟨⟨classes, -, hnames⟩, -, hsafe⟩ := has_mergedArchive hplain hholds hmerged
  have hemitted := has_iff_mem_toList.mp ((hnames _).mpr (Or.inr (Or.inr
    ⟨name, hname, bytes, entries, hbytes, hentries, file, hfile, hkept, rfl⟩)))
  obtain ⟨entry, hentry, hlabel⟩ := List.mem_map.mp hemitted
  have hname' := hall entry (List.mem_cons_of_mem _ hentry)
  rw [hlabel, isSafe_relocated (hsafe name hname bytes entries hbytes hentries file hfile hkept)]
    at hname'
  exact hname' hlicense

end Results

-- An application above a library, whose only artifact is the known one.

def application : Module := ⟨"g", "app", "1", [⟨1, .compile⟩]⟩

def library : Module := ⟨"g", "lib", "1", []⟩

def emptyManifest : Manifest where
  manifestVersion := 1
  project := ⟨"g", "app", "1", 17, "jar", [], none⟩
  toolchain := none
  maven := none
  build := none
  repositories := []
  dependencies := ⟨∅, ∅, ∅, ∅⟩
  annotationProcessors := ∅
  sections := ""

def libraryProject : FatProject where
  modules := [application, library]
  locks := fun index => if index = 1 then knownModule.lock
    else { knownModule.lock with classpath := ⟨[], [], [], []⟩ }
  index := 0
  manifest := emptyManifest
  output := fun _ => []
  classes := fun _ => []

def knownArtifacts (name : String) : Option ByteArray :=
  if name = repeated '1' ++ ".jar" then some ⟨#[1]⟩ else none

def unzipOne (name : String) : ByteArray → Except String (List ZipEntry) :=
  fun _ => .ok [⟨name, false, some []⟩]

def packagedNames (unzip : ByteArray → Except String (List ZipEntry)) (location : Location) :
    Option (List String) :=
  (packageFat unzip libraryProject location).toOption.map (List.map Prod.fst)

theorem locksPlain_library : LocksPlain libraryProject.locks := by
  have hknown : ∀ name ∈ lockedNames knownModule.lock, IsFileName name := by decide +kernel
  intro index name hname
  by_cases hindex : index = 1
  · subst hindex
    exact hknown name hname
  · simp only [libraryProject, if_neg hindex] at hname
    cases hname

/-- Where the cache is stands in the name of a licence. -/
theorem license_shows_the_cache :
    ¬ Portable (unzipOne "META-INF/LICENSE") knownArtifacts libraryProject := by
  have hnear : packagedNames (unzipOne "META-INF/LICENSE") (placeIn knownArtifacts "a") =
      some ["META-INF/MANIFEST.MF", "META-INF/jman/licenses/workspace dependency /a/artifacts/" ++
        repeated '1' ++ ".jar/LICENSE"] := by decide +kernel
  have hfar : packagedNames (unzipOne "META-INF/LICENSE") (placeIn knownArtifacts "b") =
      some ["META-INF/MANIFEST.MF", "META-INF/jman/licenses/workspace dependency /b/artifacts/" ++
        repeated '1' ++ ".jar/LICENSE"] := by decide +kernel
  intro h
  obtain ⟨near, hrun, hnames⟩ := Option.map_eq_some_iff.mp hnear
  obtain ⟨far, hrun', hnames'⟩ := Option.map_eq_some_iff.mp hfar
  obtain ⟨rfl, -⟩ := h _ _ (holds_placeIn (by decide)) (holds_placeIn (by decide)) near far
    (Fallible.eq_ok_of_toOption hrun) (Fallible.eq_ok_of_toOption hrun')
  exact absurd (hnames.symm.trans hnames') (by decide +kernel)

/-- The classes of a library are packaged alike everywhere. -/
theorem classes_are_portable :
    packagedNames (unzipOne "lib/A.class") (placeIn knownArtifacts "a") =
      some ["META-INF/MANIFEST.MF", "lib/A.class"] ∧
    Portable (unzipOne "lib/A.class") knownArtifacts libraryProject := by
  have hnone : ∀ name, ¬ HasLicense (unzipOne "lib/A.class") knownArtifacts name := by
    rintro name ⟨bytes, entries, -, hentries, entry, hentry, -, hlicense⟩
    cases hentries
    rw [List.mem_singleton.mp hentry] at hlicense
    exact absurd hlicense (by decide +kernel)
  exact ⟨by decide +kernel, (fat_jar_portable_iff locksPlain_library).1
    ⟨fun name _ => hnone name, fun name _ hlicense => absurd hlicense (hnone name)⟩⟩

end JMan.Build
