import JMan.Build.Packages

/-!
# JMan — the package cache

`package_cached_with_rebuild` of `jman-build/src/lib.rs`. An archive that is there is
taken for a package when it has the digest that was recorded for it under the key of
what would be packaged. A key tells apart what it hashes (`view_injective`), so what is
taken is what packaging makes, except for Javadoc, which reads more of the environment
than its key does (`package_cache_sound`).
-/

namespace JMan.Build

open JMan.Config JMan.Resolver
open Encoding (Bytes Fits utf8 utf8_injective part le8 Delimited part_append parts_append)
open OsText (OsPath)
open Paths (Path)

-- Keys
-- ---

def Plain (path : Path) : Prop := path ≠ [] ∧ ∀ name ∈ path, '/' ∉ name.toList

theorem display_injective {path path' : Path} (h : Plain path) (h' : Plain path')
    (hdisplay : Paths.display path = Paths.display path') : path = path' :=
  intercalate_slash_injective h.1 h'.1 h.2 h'.2 ((String.append_right_inj "/").mp hdisplay)

def FitsTree (tree : String × NamedFiles) : Prop :=
  Fits (utf8 tree.1) ∧ tree.2.length < 2 ^ 64 ∧ ∀ file ∈ tree.2, Fits (utf8 file.1) ∧ Fits file.2

def ClasspathItem.Fits : ClasspathItem → Prop
  | .tree index files => index < 2 ^ 64 ∧ FitsTree ("upstream", files)
  | .archive index path bytes => index < 2 ^ 64 ∧ Plain path ∧
      Encoding.Fits (utf8 (Paths.display path)) ∧ Encoding.Fits bytes.data.toList

structure ClasspathView.Fits (classpath : ClasspathView) : Prop where
  lock : Encoding.Fits classpath.lock
  items : ∀ item ∈ classpath.items, item.Fits

def PackageView.heads (crate : String) (view : PackageView) : List Bytes :=
  [utf8 "jman-package-v1", utf8 crate, utf8 view.kind.text,
    utf8 (packageFilename view.manifest view.kind), utf8 view.toml]

structure PackageView.Fits (crate : String) (view : PackageView) : Prop where
  heads : ∀ piece ∈ view.heads crate, Encoding.Fits piece
  settings : ∀ piece ∈ view.settings, Encoding.Fits piece
  trees : ∀ tree ∈ view.trees, FitsTree tree
  classpath : ∀ classpath ∈ view.classpath, classpath.Fits

section Delimiting

theorem delimited_file : Delimited (fun file : String × Bytes => part (utf8 file.1) ++ part file.2)
    (fun file => Fits (utf8 file.1) ∧ Fits file.2) := by
  intro file file' hfile hfile' left right h
  rw [List.append_assoc, List.append_assoc] at h
  obtain ⟨hname, hrest⟩ := part_append hfile.1 hfile'.1 h
  obtain ⟨hbytes, hend⟩ := part_append hfile.2 hfile'.2 hrest
  exact ⟨Prod.ext (utf8_injective hname) hbytes, hend⟩

/-- **A tree is told from what follows it.** -/
theorem delimited_tree : Delimited treeBytes FitsTree := by
  rintro ⟨label, files⟩ ⟨label', files'⟩ ⟨hlabel, hcount, hfiles⟩ ⟨hlabel', hcount', hfiles'⟩
    left right h
  rw [treeBytes, treeBytes, List.append_assoc, List.append_assoc, List.append_assoc,
    List.append_assoc] at h
  obtain ⟨hlabels, hrest⟩ := part_append hlabel hlabel' h
  obtain ⟨hlength, hrest⟩ := Encoding.le8_append hcount hcount' hrest
  obtain ⟨hsame, hend⟩ := delimited_file.flatMap_append hfiles hfiles' hlength hrest
  exact ⟨Prod.ext (utf8_injective hlabels) hsame, hend⟩

theorem fits_le8 (n : Nat) : Fits (le8 n) := by
  rw [Fits, le8, Encoding.length_littleEndian]
  decide

theorem display_ne_upstream (path : Path) : Paths.display path ≠ "upstream" := by
  intro h
  have hhead := congrArg (fun text => text.toList.head?) h
  rw [Paths.display, String.toList_append] at hhead
  cases hhead

/-- **A tree or an archive of a class path is told from what follows it.** -/
theorem delimited_item : Delimited ClasspathItem.bytes ClasspathItem.Fits := by
  have hindex : ∀ {n m : Nat} {left right : Bytes}, n < 2 ^ 64 → m < 2 ^ 64 →
      part (le8 n) ++ left = part (le8 m) ++ right → n = m ∧ left = right := by
    intro n m left right hn hm h
    obtain ⟨hmark, hrest⟩ := part_append (fits_le8 n) (fits_le8 m) h
    exact ⟨Encoding.littleEndian_injective hn hm hmark, hrest⟩
  have hupstream : Fits (utf8 "upstream") := by
    show (utf8 "upstream").length < 2 ^ 64
    decide
  intro item item' hitem hitem' left right h
  cases item with
  | tree n files =>
    cases item' with
    | tree m files' =>
      simp only [ClasspathItem.bytes, List.append_assoc] at h
      obtain ⟨rfl, hrest⟩ := hindex hitem.1 hitem'.1 h
      obtain ⟨hsame, hend⟩ := delimited_tree hitem.2 hitem'.2 hrest
      cases hsame
      exact ⟨rfl, hend⟩
    | archive m path bytes =>
      simp only [ClasspathItem.bytes, treeBytes, List.append_assoc] at h
      obtain ⟨rfl, hrest⟩ := hindex hitem.1 hitem'.1 h
      obtain ⟨hlabel, -⟩ := part_append hupstream hitem'.2.2.1 hrest
      exact absurd (utf8_injective hlabel).symm (display_ne_upstream path)
  | archive n path bytes =>
    cases item' with
    | tree m files' =>
      simp only [ClasspathItem.bytes, treeBytes, List.append_assoc] at h
      obtain ⟨rfl, hrest⟩ := hindex hitem.1 hitem'.1 h
      obtain ⟨hlabel, -⟩ := part_append hitem.2.2.1 hupstream hrest
      exact absurd (utf8_injective hlabel) (display_ne_upstream path)
    | archive m path' bytes' =>
      simp only [ClasspathItem.bytes, List.append_assoc] at h
      obtain ⟨rfl, hrest⟩ := hindex hitem.1 hitem'.1 h
      obtain ⟨hpath, hrest⟩ := part_append hitem.2.2.1 hitem'.2.2.1 hrest
      obtain ⟨hbytes, hend⟩ := part_append hitem.2.2.2 hitem'.2.2.2 hrest
      have hpaths := display_injective hitem.2.1 hitem'.2.1 (utf8_injective hpath)
      have harchives := ByteArray.ext (Array.toList_inj.mp hbytes)
      subst hpaths
      subst harchives
      exact ⟨rfl, hend⟩

end Delimiting

section Items

variable {classpath classpath' : ClasspathView}

def ClasspathItem.tree? : ClasspathItem → Option NamedFiles
  | .tree _ files => some files
  | .archive _ _ _ => none

def ClasspathItem.archive? : ClasspathItem → Option (Path × ByteArray)
  | .tree _ _ => none
  | .archive _ path bytes => some (path, bytes)

theorem trees_of_items (classpath : ClasspathView) :
    classpath.items.filterMap ClasspathItem.tree? = classpath.upstream := by
  have harchives : ∀ archives : List (Path × ByteArray), ∀ n,
      ((archives.zipIdx n).map fun archive =>
        ClasspathItem.archive archive.2 archive.1.1 archive.1.2).filterMap ClasspathItem.tree? = [] :=
    fun archives n => List.filterMap_eq_nil_iff.mpr fun item hitem => by
      obtain ⟨archive, -, rfl⟩ := List.mem_map.mp hitem
      rfl
  have htrees : ∀ trees : List NamedFiles, ∀ n, ((trees.zipIdx n).map fun tree =>
      ClasspathItem.tree tree.2 tree.1).filterMap ClasspathItem.tree? = trees := by
    intro trees
    induction trees with
    | nil => intro n; rfl
    | cons tree trees ih =>
      exact fun n => congrArg (tree :: ·) (ih (n + 1))
  rw [ClasspathView.items, List.filterMap_append, List.filterMap_append, htrees, harchives,
    harchives, List.append_nil, List.append_nil]

theorem archives_of_items (classpath : ClasspathView) :
    classpath.items.filterMap ClasspathItem.archive? = classpath.dependencies ++ classpath.own := by
  have htrees : ∀ trees : List NamedFiles, ∀ n, ((trees.zipIdx n).map fun tree =>
      ClasspathItem.tree tree.2 tree.1).filterMap ClasspathItem.archive? = [] :=
    fun trees n => List.filterMap_eq_nil_iff.mpr fun item hitem => by
      obtain ⟨tree, -, rfl⟩ := List.mem_map.mp hitem
      rfl
  have harchives : ∀ archives : List (Path × ByteArray), ∀ n,
      ((archives.zipIdx n).map fun archive => ClasspathItem.archive archive.2 archive.1.1
        archive.1.2).filterMap ClasspathItem.archive? = archives := by
    intro archives
    induction archives with
    | nil => intro n; rfl
    | cons archive archives ih =>
      exact fun n => congrArg (archive :: ·) (ih (n + 1))
  rw [ClasspathView.items, List.filterMap_append, List.filterMap_append, htrees, harchives,
    harchives, List.nil_append]

/-- **A class path reads in one way,** once the lock says how many archives are its own. -/
theorem classpathView_injective (hfits : classpath.Fits) (hfits' : classpath'.Fits)
    (hown : classpath.lock = classpath'.lock → classpath.own.length = classpath'.own.length)
    (h : classpath.bytes = classpath'.bytes) : classpath = classpath' := by
  obtain ⟨hlock, hbytes⟩ := part_append hfits.lock hfits'.lock h
  have hfilled : ∀ item : ClasspathItem, item.bytes ≠ [] := by
    intro item hempty
    cases item with
    | tree n files => exact Encoding.part_ne_nil _ (List.append_eq_nil_iff.mp hempty).1
    | archive n path bytes => exact Encoding.part_ne_nil _ (List.append_eq_nil_iff.mp hempty).1
  have hitems := delimited_item.flatMap_injective hfilled hfits.items hfits'.items hbytes
  have htrees := congrArg (List.filterMap ClasspathItem.tree?) hitems
  have harchives := congrArg (List.filterMap ClasspathItem.archive?) hitems
  rw [trees_of_items, trees_of_items] at htrees
  rw [archives_of_items, archives_of_items] at harchives
  obtain ⟨hdependencies, hsame⟩ := List.append_inj' harchives (hown hlock)
  cases classpath
  cases classpath'
  cases hlock
  cases htrees
  cases hdependencies
  cases hsame
  rfl

end Items

section Keys

variable {crate : String} {sha256 : Bytes → String} {format : Format}
  {roots : Manifest → List OsPath} {inputs inputs' : PackageInputs} {kind kind' : PackageKind}
  {view view' : PackageView}

theorem text_injective : Function.Injective PackageKind.text := by
  intro kind kind' h
  cases kind <;> cases kind' <;> first | rfl | exact absurd h (by decide)

theorem length_settings (h : inputs.view format roots kind = .ok view)
    (h' : inputs'.view format roots kind = .ok view') :
    view.settings.length = view'.settings.length := by
  obtain ⟨-, -, -, hsettings, -⟩ := view_eq_ok h
  obtain ⟨-, -, -, hsettings', -⟩ := view_eq_ok h'
  rw [hsettings, hsettings']
  split
  · rfl
  · rfl

theorem length_trees (h : inputs.view format roots kind = .ok view)
    (h' : inputs'.view format roots kind = .ok view')
    (hmanifest : inputs.manifest = inputs'.manifest) : view.trees.length = view'.trees.length := by
  obtain ⟨-, -, -, -, htrees, -⟩ := view_eq_ok h
  obtain ⟨-, -, -, -, htrees', -⟩ := view_eq_ok h'
  have hclasses : ∀ {found : PackageInputs} {trees : List (String × NamedFiles)},
      (do let classes ← labelled "classes" (found.below (found.output found.index))
          return [classes] : Except BuildError _) = .ok trees → trees.length = 1 := by
    intro found trees hfound
    obtain ⟨classes, -, hone⟩ := Fallible.bind_eq_ok.mp hfound
    cases hone
    rfl
  have hroots : ∀ {found : PackageInputs} {trees : List (String × NamedFiles)},
      found.sourceTrees roots kind = .ok trees →
        trees.length = (roots found.manifest).length + 2 := by
    intro found trees hfound
    have hlength := (Fallible.mapM_eq_ok.mp hfound).length_eq
    rw [List.length_zipIdx] at hlength
    exact hlength.symm
  cases kind with
  | thin => rw [hclasses htrees, hclasses htrees']
  | fat => rw [hclasses htrees, hclasses htrees']
  | sources => rw [hroots htrees, hroots htrees', hmanifest]
  | javadoc => rw [hroots htrees, hroots htrees', hmanifest]

theorem length_own {usage : DependencyUsage} {classpath classpath' : ClasspathView}
    (h : inputs.classpathView format usage = .ok classpath)
    (h' : inputs'.classpathView format usage = .ok classpath')
    (hlock : classpath.lock = classpath'.lock) : classpath.own.length = classpath'.own.length := by
  obtain ⟨⟨bytes, hfile, hbytes⟩, -, -, hown, -⟩ := classpathView_eq_ok h
  obtain ⟨⟨bytes', hfile', hbytes'⟩, -, -, hown', -⟩ := classpathView_eq_ok h'
  have hsame : bytes = bytes' := ByteArray.ext
    (Array.toList_inj.mp (hbytes.symm.trans (hlock.trans hbytes')))
  have hlocks := locks_eq (by rw [hfile, hfile', hsame]) hown hown'
  have hlength := (Fallible.mapM_eq_ok.mp (lockedArtifacts_of_own hown)).length_eq
  have hlength' := (Fallible.mapM_eq_ok.mp (lockedArtifacts_of_own hown')).length_eq
  rw [List.length_map] at hlength hlength'
  rw [← hlength, ← hlength', hlocks]

theorem classpath_eq (h : inputs.view format roots kind = .ok view)
    (h' : inputs'.view format roots kind = .ok view') (hfits : view.Fits crate)
    (hfits' : view'.Fits crate)
    (hbytes : view.classpath.elim [] ClasspathView.bytes =
      view'.classpath.elim [] ClasspathView.bytes) : view.classpath = view'.classpath := by
  by_cases hkind : kind = .javadoc ∨ kind = .fat
  · obtain ⟨classpath, hview, hclasspath⟩ := hashedClasspath_eq_ok hkind h
    obtain ⟨classpath', hview', hclasspath'⟩ := hashedClasspath_eq_ok hkind h'
    rw [hview, hview'] at hbytes ⊢
    rw [classpathView_injective (hfits.classpath _ hview) (hfits'.classpath _ hview')
      (length_own hclasspath hclasspath') hbytes]
  · obtain ⟨-, -, -, -, -, hclasspath⟩ := view_eq_ok h
    obtain ⟨-, -, -, -, -, hclasspath'⟩ := view_eq_ok h'
    cases kind with
    | thin => exact (Except.ok.inj hclasspath).symm.trans (Except.ok.inj hclasspath')
    | sources => exact (Except.ok.inj hclasspath).symm.trans (Except.ok.inj hclasspath')
    | javadoc => exact absurd (Or.inl rfl) hkind
    | fat => exact absurd (Or.inr rfl) hkind

/-- **What is hashed reads in one way.** -/
theorem view_injective (hformat : format.RoundTrips) (h : inputs.view format roots kind = .ok view)
    (h' : inputs'.view format roots kind' = .ok view') (hfits : view.Fits crate)
    (hfits' : view'.Fits crate) (hbytes : view.bytes crate = view'.bytes crate) : view = view' := by
  obtain ⟨hkind, hmanifest, htoml, -⟩ := view_eq_ok h
  obtain ⟨hkind', hmanifest', htoml', -⟩ := view_eq_ok h'
  obtain ⟨hheads, hrest⟩ := parts_append hfits.heads hfits'.heads rfl hbytes
  rw [PackageView.heads, PackageView.heads, List.cons.injEq, List.cons.injEq, List.cons.injEq,
    List.cons.injEq, List.cons.injEq] at hheads
  obtain ⟨-, -, hkinds, -, htomls, -⟩ := hheads
  have hkinds := text_injective (utf8_injective hkinds)
  have htomls := utf8_injective htomls
  rw [hkind, hkind'] at hkinds
  subst hkinds
  rw [← htomls] at htoml'
  have hmanifests := Manifest.toToml_injective hformat htoml htoml'
  obtain ⟨hsettings, hrest⟩ :=
    parts_append hfits.settings hfits'.settings (length_settings h h') hrest
  obtain ⟨htrees, hclasspath⟩ := delimited_tree.flatMap_append hfits.trees hfits'.trees
    (length_trees h h' hmanifests) hrest
  have hclasspaths := classpath_eq h h' hfits hfits' hclasspath
  cases view
  cases view'
  dsimp only at hkind hkind' hmanifest hmanifest' htomls hsettings htrees hclasspaths
  rw [hkind, hkind', hmanifest, hmanifest', hmanifests, htomls, hsettings, htrees, hclasspaths]

theorem packageInputKey_eq_ok {key : String}
    (h : packageInputKey crate sha256 format roots kind inputs = .ok key) :
    ∃ view, inputs.view format roots kind = .ok view ∧
      key = "sha256:" ++ sha256 (view.bytes crate) := by
  obtain ⟨view, hview, h⟩ := Fallible.bind_eq_ok.mp h
  cases h
  exact ⟨view, hview, rfl⟩

end Keys

-- The cache
-- ---

/-- `PackageCacheRecord`, without the warnings. -/
structure PackageRecord where
  key : String
  checksum : String
  size : Nat
deriving DecidableEq

/-- The artifacts of a module by their names, with what is recorded of them. -/
structure PackageCache where
  archives : String → Option Bytes
  records : String → Option PackageRecord

/-- What is outside the build: the version of the crate, SHA-256, TOML, the directories
of generators, ZIP files, and Javadoc. -/
structure Packager where
  crate : String
  sha256 : Bytes → String
  format : Format
  roots : Manifest → List OsPath
  unzip : ByteArray → Except String (List ZipEntry)
  javadoc : JavadocRun → Except String ClassTree
  zip : NamedFiles → Except String Bytes

section Cached

variable (packager : Packager)

def Packager.key (kind : PackageKind) (inputs : PackageInputs) : Except BuildError String :=
  packageInputKey packager.crate packager.sha256 packager.format packager.roots kind inputs

/-- `sha256:` and the digest of an archive. -/
def Packager.checksum (archive : Bytes) : String := "sha256:" ++ packager.sha256 archive

def Packager.package (kind : PackageKind) (inputs : PackageInputs) : Except BuildError Bytes := do
  let entries ← packageEntries packager.format packager.roots packager.unzip packager.javadoc inputs
    kind
  (packager.zip entries).mapError .invalid

/-- The archive that is there is the one that was recorded under the key. -/
def Packager.hit (key filename : String) (cache : PackageCache) : Bool :=
  match cache.records filename, cache.archives filename with
  | some record, some archive => record.key = key && (archive.length = record.size &&
      packager.checksum archive = record.checksum)
  | _, _ => false

/-- `fs::write` and `replace_file`. -/
def PackageCache.store (cache : PackageCache) (filename : String) (archive : Bytes) : PackageCache :=
  { cache with archives := Function.update cache.archives filename (some archive) }

def PackageCache.record (cache : PackageCache) (filename : String) (record : PackageRecord) :
    PackageCache :=
  { cache with records := Function.update cache.records filename (some record) }

/-- `package_cached_with_rebuild`; the flag says whether the archive that was there is
returned. -/
def packageCached (kind : PackageKind) (inputs : PackageInputs) (rebuild : Bool)
    (cache : PackageCache) : Except BuildError (Bool × PackageCache) := do
  let filename := packageFilename inputs.manifest kind
  let key ← packager.key kind inputs
  if rebuild = false ∧ packager.hit key filename cache = true then return (true, cache)
  else
    let archive ← packager.package kind inputs
    let again ← packager.key kind inputs
    if again ≠ key then return (false, cache.store filename archive)
    else return (false, (cache.store filename archive).record filename
      ⟨key, packager.checksum archive, archive.length⟩)

structure PackageState where
  inputs : PackageInputs
  cache : PackageCache

/-- What happens to a module: what is packaged is edited, an artifact is changed, or a
package is built. -/
inductive PackageStep where
  | edit (inputs : PackageInputs)
  | alter (filename : String) (archive : Option Bytes)
  | package (kind : PackageKind) (rebuild : Bool)

def PackageState.step (state : PackageState) : PackageStep → PackageState
  | .edit inputs => { state with inputs := inputs }
  | .alter filename archive => { state with cache := { state.cache with
      archives := Function.update state.cache.archives filename archive } }
  | .package kind rebuild =>
    match packageCached packager kind state.inputs rebuild state.cache with
    | .ok (_, cache) => { state with cache := cache }
    | .error _ => state

def PackageState.run (state : PackageState) (steps : List PackageStep) : PackageState :=
  steps.foldl (PackageState.step packager) state

/-- What was there to be packaged in the course of a run. -/
def PackageState.history (state : PackageState) (steps : List PackageStep) : List PackageInputs :=
  state.inputs :: steps.filterMap fun step =>
    match step with
    | .edit inputs => some inputs
    | _ => none

/-- A package is not built, because the archive of an earlier build is there. -/
def PackageState.Reuses (state : PackageState) (kind : PackageKind) : Prop :=
  packageCached packager kind state.inputs false state.cache = .ok (true, state.cache)

/-- The archive that is there is what packaging makes. -/
def PackageState.IsCurrent (state : PackageState) (kind : PackageKind) : Prop :=
  ∃ archive, state.cache.archives (packageFilename state.inputs.manifest kind) = some archive ∧
    packager.package kind state.inputs = .ok archive

def Packager.Sized (inputs : PackageInputs) : Prop :=
  ∀ kind view, inputs.view packager.format packager.roots kind = .ok view →
    view.Fits packager.crate

end Cached

-- Runs
-- ---

section Runs

variable {packager : Packager} {state : PackageState} {steps : List PackageStep}
  {inputs inputs' : PackageInputs} {kind kind' : PackageKind} {key filename : String}
  {cache cache' : PackageCache}

/-- What is recorded is of a package that was made from inputs of the run. -/
def Grounded (packager : Packager) (found : List PackageInputs) (cache : PackageCache) : Prop :=
  ∀ filename record, cache.records filename = some record →
    ∃ inputs ∈ found, ∃ kind archive, packager.key kind inputs = .ok record.key ∧
      packager.package kind inputs = .ok archive ∧ record.checksum = packager.checksum archive

theorem Grounded.mono {found found' : List PackageInputs} (h : Grounded packager found cache)
    (hsub : found ⊆ found') : Grounded packager found' cache := by
  intro filename record hrecord
  obtain ⟨inputs, hinputs, rest⟩ := h filename record hrecord
  exact ⟨inputs, hsub hinputs, rest⟩

theorem hit_eq_true (h : packager.hit key filename cache = true) :
    ∃ record archive, cache.records filename = some record ∧ cache.archives filename = some archive ∧
      record.key = key ∧ packager.checksum archive = record.checksum := by
  unfold Packager.hit at h
  split at h
  · next record archive hrecord harchive =>
    rw [Bool.and_eq_true, Bool.and_eq_true, decide_eq_true_eq, decide_eq_true_eq,
      decide_eq_true_eq] at h
    exact ⟨record, archive, hrecord, harchive, h.1, h.2.2⟩
  · cases h

theorem packageCached_eq_ok {rebuild reused : Bool}
    (h : packageCached packager kind inputs rebuild cache = .ok (reused, cache')) :
    ∃ key, packager.key kind inputs = .ok key ∧
      ((reused = true ∧ cache' = cache ∧
        packager.hit key (packageFilename inputs.manifest kind) cache = true) ∨
      (reused = false ∧ ∃ archive, packager.package kind inputs = .ok archive ∧
        cache' = (cache.store (packageFilename inputs.manifest kind) archive).record
          (packageFilename inputs.manifest kind) ⟨key, packager.checksum archive, archive.length⟩)) := by
  obtain ⟨key, hkey, h⟩ := Fallible.bind_eq_ok.mp h
  refine ⟨key, hkey, ?_⟩
  split at h
  · next hhit =>
    cases h
    exact Or.inl ⟨rfl, rfl, hhit.2⟩
  · obtain ⟨archive, harchive, h⟩ := Fallible.bind_eq_ok.mp h
    obtain ⟨again, hagain, h⟩ := Fallible.bind_eq_ok.mp h
    obtain rfl := Except.ok.inj (hkey.symm.trans hagain)
    rw [if_neg (not_not.mpr rfl)] at h
    cases h
    exact Or.inr ⟨rfl, archive, harchive, rfl⟩

/-- **A step keeps records grounded.** -/
theorem grounded_step {found : List PackageInputs} (h : Grounded packager found state.cache)
    (hinputs : state.inputs ∈ found) (step : PackageStep) :
    Grounded packager found (state.step packager step).cache := by
  cases step with
  | edit inputs => exact h
  | alter filename archive => exact h
  | package kind rebuild =>
    unfold PackageState.step
    dsimp only
    split
    · next reused cache hcached =>
      obtain ⟨key, hkey, ⟨-, rfl, -⟩ | ⟨-, archive, harchive, rfl⟩⟩ := packageCached_eq_ok hcached
      · exact h
      · intro filename record hrecord
        by_cases hname : filename = packageFilename state.inputs.manifest kind
        · subst hname
          rw [PackageCache.record] at hrecord
          dsimp only at hrecord
          rw [Function.update_self] at hrecord
          cases hrecord
          exact ⟨state.inputs, hinputs, kind, archive, hkey, harchive, rfl⟩
        · rw [PackageCache.record] at hrecord
          dsimp only at hrecord
          rw [Function.update_of_ne hname] at hrecord
          exact h filename record hrecord
    · exact h

/-- **What is recorded in a run is grounded.** -/
theorem grounded_run (hstart : ∀ filename, state.cache.records filename = none)
    (steps : List PackageStep) :
    Grounded packager (state.history steps) (state.run packager steps).cache ∧
      (state.run packager steps).inputs ∈ state.history steps := by
  induction steps using List.reverseRecOn with
  | nil =>
    refine ⟨fun filename record hrecord => ?_, List.mem_cons_self⟩
    rw [PackageState.run, List.foldl_nil, hstart filename] at hrecord
    cases hrecord
  | append_singleton steps step ih =>
    have hrun : state.run packager (steps ++ [step]) =
        (state.run packager steps).step packager step := by
      rw [PackageState.run, List.foldl_append]
      rfl
    have hsub : state.history steps ⊆ state.history (steps ++ [step]) := by
      rw [PackageState.history, PackageState.history, List.filterMap_append]
      exact List.cons_subset_cons _ (List.subset_append_left _ _)
    rw [hrun]
    refine ⟨(grounded_step ih.1 ih.2 step).mono hsub, ?_⟩
    cases step with
    | edit inputs =>
      rw [PackageState.history, List.filterMap_append]
      exact List.mem_cons_of_mem _ (List.mem_append_right _ List.mem_cons_self)
    | alter filename archive => exact hsub ih.2
    | package kind rebuild =>
      unfold PackageState.step
      dsimp only
      split
      · exact hsub ih.2
      · exact hsub ih.2

/-- **A key says what a package is made from.** -/
theorem view_eq_of_key (hsha : Function.Injective packager.sha256)
    (hformat : packager.format.RoundTrips) (hsized : packager.Sized inputs)
    (hsized' : packager.Sized inputs') (h : packager.key kind inputs = .ok key)
    (h' : packager.key kind' inputs' = .ok key) :
    kind = kind' ∧ ∃ view, inputs.view packager.format packager.roots kind = .ok view ∧
      inputs'.view packager.format packager.roots kind = .ok view := by
  obtain ⟨view, hview, rfl⟩ := packageInputKey_eq_ok h
  obtain ⟨view', hview', hkey⟩ := packageInputKey_eq_ok h'
  have hbytes := hsha ((String.append_right_inj "sha256:").mp hkey)
  obtain rfl := view_injective hformat hview hview' (hsized kind view hview)
    (hsized' kind' view' hview') hbytes
  have hkind : kind = kind' := (view_eq_ok hview).1.symm.trans (view_eq_ok hview').1
  subst hkind
  exact ⟨rfl, view, hview, hview'⟩

/-- **The package cache.** What is reused in a run is what packaging makes, for Javadoc as
long as what its key leaves out does not change; and a key of a kind says what is packaged. -/
theorem package_cache_sound (hsha : Function.Injective packager.sha256)
    (hformat : packager.format.RoundTrips) (hdocumented : JavadocDocumented packager.javadoc)
    (hstart : ∀ filename, state.cache.records filename = none)
    (hsized : ∀ inputs ∈ state.history steps, packager.Sized inputs) :
    (∀ kind, (kind = .javadoc → ∀ inputs ∈ state.history steps, ∀ inputs' ∈ state.history steps,
        SameSurroundings packager.format packager.roots inputs inputs') →
      (state.run packager steps).Reuses packager kind →
      (state.run packager steps).IsCurrent packager kind) ∧
    ∀ inputs ∈ state.history steps, ∀ inputs' ∈ state.history steps, ∀ kind kind' key,
      packager.key kind inputs = .ok key → packager.key kind' inputs' = .ok key →
      kind = kind' ∧ ∃ view, inputs.view packager.format packager.roots kind = .ok view ∧
        inputs'.view packager.format packager.roots kind = .ok view := by
  refine ⟨fun kind hsame hreuses => ?_, fun inputs hinputs inputs' hinputs' kind kind' key h h' =>
    view_eq_of_key hsha hformat (hsized inputs hinputs) (hsized inputs' hinputs') h h'⟩
  obtain ⟨hgrounded, hcurrent⟩ := grounded_run hstart steps
  obtain ⟨key, hkey, ⟨-, -, hhit⟩ | ⟨hmade, -⟩⟩ := packageCached_eq_ok hreuses
  · obtain ⟨record, archive, hrecord, harchive, rfl, hchecksum⟩ := hit_eq_true hhit
    obtain ⟨inputs, hinputs, kind', made, hmadeKey, hmade, hmadeChecksum⟩ :=
      hgrounded _ record hrecord
    obtain ⟨rfl, view, hview, hview'⟩ := view_eq_of_key hsha hformat (hsized inputs hinputs)
      (hsized _ hcurrent) hmadeKey hkey
    have hpackage : packager.package kind' (state.run packager steps).inputs = .ok made := by
      rw [Packager.package, ← package_eq_of_view hdocumented hview hview'
        fun hjavadoc => hsame hjavadoc inputs hinputs _ hcurrent]
      exact hmade
    have hbytes : archive = made :=
      hsha ((String.append_right_inj "sha256:").mp (hchecksum.trans hmadeChecksum))
    exact ⟨archive, harchive, hbytes ▸ hpackage⟩
  · cases hmade

end Runs

-- Options for Javadoc
-- ---

section Examples

variable {packager : Packager} {state : PackageState} {kind : PackageKind}

instance : DecidablePred Fits := fun bytes => inferInstanceAs (Decidable (bytes.length < 2 ^ 64))

instance : DecidablePred Plain := fun path =>
  inferInstanceAs (Decidable (path ≠ [] ∧ ∀ name ∈ path, '/' ∉ name.toList))

instance : DecidablePred FitsTree := fun tree =>
  inferInstanceAs (Decidable (Fits (utf8 tree.1) ∧ tree.2.length < 2 ^ 64 ∧
    ∀ file ∈ tree.2, Fits (utf8 file.1) ∧ Fits file.2))

instance : DecidablePred ClasspathItem.Fits := fun item =>
  match item with
  | .tree index files => inferInstanceAs (Decidable (index < 2 ^ 64 ∧ FitsTree ("upstream", files)))
  | .archive index path bytes => inferInstanceAs (Decidable (index < 2 ^ 64 ∧ Plain path ∧
      Encoding.Fits (utf8 (Paths.display path)) ∧ Encoding.Fits bytes.data.toList))

instance : DecidablePred ClasspathView.Fits := fun classpath =>
  decidable_of_iff (Encoding.Fits classpath.lock ∧ ∀ item ∈ classpath.items, item.Fits)
    ⟨fun h => ⟨h.1, h.2⟩, fun h => ⟨h.lock, h.items⟩⟩

instance (crate : String) : DecidablePred (PackageView.Fits crate) := fun view =>
  decidable_of_iff ((∀ piece ∈ view.heads crate, Encoding.Fits piece) ∧
      (∀ piece ∈ view.settings, Encoding.Fits piece) ∧ (∀ tree ∈ view.trees, FitsTree tree) ∧
      ∀ classpath ∈ view.classpath, classpath.Fits)
    ⟨fun h => ⟨h.1, h.2.1, h.2.2.1, h.2.2.2⟩, fun h => ⟨h.heads, h.settings, h.trees, h.classpath⟩⟩

theorem step_package {archive : Bytes} {key : String}
    (hfresh : state.cache.records (packageFilename state.inputs.manifest kind) = none)
    (hkey : packager.key kind state.inputs = .ok key)
    (hpackage : packager.package kind state.inputs = .ok archive) :
    state.step packager (.package kind false) = { state with
      cache := (state.cache.store (packageFilename state.inputs.manifest kind) archive).record
        (packageFilename state.inputs.manifest kind)
          ⟨key, packager.checksum archive, archive.length⟩ } := by
  have hmiss : packager.hit key (packageFilename state.inputs.manifest kind) state.cache = false := by
    rw [Packager.hit, hfresh]
  have hcached : packageCached packager kind state.inputs false state.cache = .ok (false,
      (state.cache.store (packageFilename state.inputs.manifest kind) archive).record
        (packageFilename state.inputs.manifest kind)
          ⟨key, packager.checksum archive, archive.length⟩) := by
    rw [packageCached, hkey]
    show (if false = false ∧ packager.hit key _ state.cache = true then _ else _) = _
    rw [if_neg fun h => absurd (hmiss.symm.trans h.2) (by decide), hpackage]
    show (if key ≠ key then _ else _) = _
    rw [if_neg (not_not.mpr rfl)]
    rfl
  rw [PackageState.step, hcached]

/-- **A package is reused as long as its key is the same.** -/
theorem reuses_of_key (state : PackageState) (inputs : PackageInputs) {archive : Bytes}
    {key : String}
    (hfresh : state.cache.records (packageFilename state.inputs.manifest kind) = none)
    (hkey : packager.key kind state.inputs = .ok key)
    (hpackage : packager.package kind state.inputs = .ok archive)
    (hmanifest : inputs.manifest = state.inputs.manifest)
    (hsame : packager.key kind inputs = .ok key) :
    (state.run packager [.package kind false, .edit inputs]).Reuses packager kind ∧
      (state.run packager [.package kind false, .edit inputs]).cache.archives
        (packageFilename state.inputs.manifest kind) = some archive := by
  have hrun : state.run packager [.package kind false, .edit inputs] = ⟨inputs,
      (state.cache.store (packageFilename state.inputs.manifest kind) archive).record
        (packageFilename state.inputs.manifest kind)
          ⟨key, packager.checksum archive, archive.length⟩⟩ := by
    show (state.step packager (.package kind false)).step packager (.edit inputs) = _
    rw [step_package hfresh hkey hpackage]
    rfl
  have hhit : packager.hit key (packageFilename state.inputs.manifest kind)
      ((state.cache.store (packageFilename state.inputs.manifest kind) archive).record
        (packageFilename state.inputs.manifest kind)
          ⟨key, packager.checksum archive, archive.length⟩) = true := by
    rw [Packager.hit, PackageCache.record, PackageCache.store]
    dsimp only
    rw [Function.update_self, Function.update_self]
    dsimp only
    rw [decide_eq_true rfl, decide_eq_true rfl, decide_eq_true rfl]
    rfl
  refine ⟨?_, ?_⟩
  · rw [hrun, PackageState.Reuses, packageCached, hsame]
    show (if false = false ∧ packager.hit key (packageFilename inputs.manifest kind) _ = true then _
      else _) = _
    rw [hmanifest, if_pos ⟨rfl, hhit⟩]
    rfl
  · rw [hrun, PackageCache.record, PackageCache.store]
    dsimp only
    rw [Function.update_self]

def latin1 (bytes : Bytes) : String := String.ofList (bytes.map fun byte => Char.ofNat byte.toNat)

theorem latin1_injective : Function.Injective latin1 := by
  have hbyte : Function.Injective fun byte : UInt8 => Char.ofNat byte.toNat := by
    intro byte byte' h
    have hvalue : ∀ byte : UInt8, (Char.ofNat byte.toNat).toNat = byte.toNat := fun byte => by
      rw [Char.ofNat, dif_pos (Or.inl (byte.toNat_lt.trans (by decide)))]
      rfl
    have hnat := congrArg Char.toNat h
    rw [hvalue, hvalue] at hnat
    exact UInt8.toNat_inj.mp hnat
  exact fun bytes bytes' h => List.map_injective_iff.mpr hbyte (String.ofList_injective h)

def emptyLock : Lockfile := ⟨lockSchema, "sha256:", "sha256:", "linux", 17, [], [], ⟨[], [], [], []⟩⟩

def javadocOfOptions (run : JavadocRun) : Except String ClassTree :=
  .ok [⟨[.ofString "index.html"], ((run.environment "JDK_JAVADOC_OPTIONS").getD ⟨[]⟩).bytes,
    by decide, by decide⟩]

def packagerOfOptions : Packager where
  crate := "1"
  sha256 := latin1
  format := { Format.ofTable [("[project]", emptyManifest)] with parseLock := fun _ => .ok emptyLock }
  roots := fun _ => []
  unzip := fun _ => .ok []
  javadoc := javadocOfOptions
  zip := fun files => .ok (files.flatMap fun file => utf8 file.1 ++ file.2)

def oneSource (options : Option String) : PackageInputs where
  modules := []
  index := 0
  manifest := emptyManifest
  directory := fun _ => []
  output := fun _ => [.ofString "classes"]
  generatedSources := [.ofString "generated"]
  below := fun directory =>
    if directory = [.ofString "src", .ofString "main", .ofString "java"] then
      [⟨[.ofString "A.java"], utf8 "class A {}", by decide, by decide +kernel⟩]
    else []
  lockFile := fun _ => some "".toUTF8
  location := { workspace := [.ofString "w"], cacheDir := ["c"], files := fun _ => none }
  javac := [.ofString "jdk", .ofString "bin", .ofString "javac"]
  version := "17"
  environment := fun name =>
    if name = "JDK_JAVADOC_OPTIONS" then options.map .ofString else none
  userClasspath := []

def unpackaged (options : Option String) : PackageState :=
  ⟨oneSource options, ⟨fun _ => none, fun _ => none⟩⟩

def optionsSet : List PackageStep :=
  [.package .javadoc false, .edit (oneSource (some "-windowtitle T"))]

theorem documented_javadocOfOptions : JavadocDocumented javadocOfOptions := by
  intro run run' _ _ _ _ _ _ hvariables _
  rw [javadocOfOptions, javadocOfOptions]
  simp only [hvariables "JDK_JAVADOC_OPTIONS" List.mem_cons_self]

theorem roundTrips_packagerOfOptions : packagerOfOptions.format.RoundTrips := by
  have htable : (Format.ofTable [("[project]", emptyManifest)]).RoundTrips :=
    Format.ofTable_roundTrips (by decide)
  exact htable

theorem view_oneSource (options : Option String) (kind : PackageKind) :
    (oneSource options).view packagerOfOptions.format packagerOfOptions.roots kind =
      (oneSource none).view packagerOfOptions.format packagerOfOptions.roots kind := by
  cases kind <;> rfl

theorem sized_oneSource (options : Option String) : packagerOfOptions.Sized (oneSource options) := by
  intro kind view hview
  have hfits : ∀ kind, ((oneSource none).view packagerOfOptions.format packagerOfOptions.roots
      kind).toOption.all (fun view => decide (view.Fits "1")) = true := by
    intro kind
    cases kind <;> decide +kernel
  have hall := hfits kind
  rw [← view_oneSource options, hview] at hall
  exact of_decide_eq_true hall

theorem key_oneSource : ∃ key, ∀ options : Option String,
    packagerOfOptions.key .javadoc (oneSource options) = .ok key := by
  obtain ⟨view, hview⟩ : ∃ view, (oneSource none).view packagerOfOptions.format
      packagerOfOptions.roots .javadoc = .ok view := Fallible.exists_eq_ok (by decide +kernel)
  refine ⟨"sha256:" ++ latin1 (view.bytes "1"), fun options => ?_⟩
  rw [Packager.key, packageInputKey, view_oneSource, hview]
  rfl

/-- What is reused is not what Javadoc makes with the options that are set now. -/
theorem options_are_not_in_the_key :
    Function.Injective packagerOfOptions.sha256 ∧ JavadocDocumented packagerOfOptions.javadoc ∧
      (∀ inputs ∈ (unpackaged none).history optionsSet, packagerOfOptions.Sized inputs) ∧
      ((unpackaged none).run packagerOfOptions optionsSet).Reuses packagerOfOptions .javadoc ∧
      ¬ ((unpackaged none).run packagerOfOptions optionsSet).IsCurrent packagerOfOptions .javadoc := by
  have hsized : ∀ inputs ∈ (unpackaged none).history optionsSet, packagerOfOptions.Sized inputs := by
    intro inputs hinputs
    rcases List.mem_cons.mp hinputs with rfl | hinputs
    · exact sized_oneSource none
    · rw [List.mem_singleton.mp hinputs]
      exact sized_oneSource _
  obtain ⟨key, hkey⟩ := key_oneSource
  obtain ⟨before, hbefore⟩ : ∃ archive, packagerOfOptions.package .javadoc (oneSource none) =
      .ok archive := Fallible.exists_eq_ok (by decide +kernel)
  have hdiffer : (packagerOfOptions.package .javadoc (oneSource none)).toOption ≠
      (packagerOfOptions.package .javadoc (oneSource (some "-windowtitle T"))).toOption := by
    decide +kernel
  obtain ⟨hreuses, hthere⟩ := reuses_of_key (unpackaged none)
    (oneSource (some "-windowtitle T")) rfl (hkey none) hbefore rfl (hkey (some "-windowtitle T"))
  refine ⟨latin1_injective, documented_javadocOfOptions, hsized, hreuses, ?_⟩
  rintro ⟨archive, harchive, hpackage⟩
  obtain rfl := Option.some.inj (hthere.symm.trans harchive)
  exact hdiffer (congrArg Except.toOption (hbefore.trans hpackage.symm))

/-- Nothing changes, and what is reused is what Javadoc makes. -/
theorem unchanged_javadoc_is_current :
    ((unpackaged none).run packagerOfOptions [.package .javadoc false, .edit (oneSource none)]).Reuses
        packagerOfOptions .javadoc ∧
      ((unpackaged none).run packagerOfOptions
        [.package .javadoc false, .edit (oneSource none)]).IsCurrent packagerOfOptions .javadoc := by
  obtain ⟨key, hkey⟩ := key_oneSource
  obtain ⟨before, hbefore⟩ : ∃ archive, packagerOfOptions.package .javadoc (oneSource none) =
      .ok archive := Fallible.exists_eq_ok (by decide +kernel)
  have hreuses := (reuses_of_key (unpackaged none) (oneSource none) rfl (hkey none) hbefore rfl
    (hkey none)).1
  have hone : ∀ inputs ∈ (unpackaged none).history [.package .javadoc false, .edit (oneSource none)],
      inputs = oneSource none := fun inputs hinputs =>
    (List.mem_cons.mp hinputs).elim id List.mem_singleton.mp
  have hsound := @package_cache_sound packagerOfOptions (unpackaged none)
    [.package .javadoc false, .edit (oneSource none)] latin1_injective
    roundTrips_packagerOfOptions documented_javadocOfOptions (fun _ => rfl)
    (fun inputs hinputs => hone inputs hinputs ▸ sized_oneSource none)
  refine ⟨hreuses, hsound.1 .javadoc (fun _ inputs hinputs inputs' hinputs' => ?_) hreuses⟩
  rw [hone inputs hinputs, hone inputs' hinputs']
  exact ⟨rfl, rfl, rfl, rfl, fun _ _ => rfl, fun _ => rfl, fun _ _ _ => rfl⟩

end Examples

end JMan.Build
