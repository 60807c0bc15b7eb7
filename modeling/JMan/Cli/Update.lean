import JMan.Cli.Sync

/-!
# JMan — dependency updates

`update_dependencies` of `jman-cli/src/main.rs` from the finished plan on:
the snapshot of every manifest and lock of the workspace, the plan applied to
the manifests, the refreshed synchronization, and the restoration when any of
it fails.
-/

namespace JMan.Cli

open JMan.Config
open Paths (Path)
open FileStore (exec Touches Guarantees)

-- The plan
-- ---

/-- A planned change, less what only the report uses. -/
structure DependencyUpdate where
  dependency : String
  fromVersion : String
  toVersion : String
deriving DecidableEq

/-- The changes collected into a map: of two for one key the last one stays. -/
def plannedVersion (changes : List DependencyUpdate) (dependency current : String) :
    Option String :=
  (changes.findRev? fun change => change.dependency = dependency ∧ change.fromVersion = current).map
    (·.toVersion)

def updateSpec (changes : List DependencyUpdate) (dependency : String) :
    DependencySpec → DependencySpec
  | .version current => .version ((plannedVersion changes dependency current).getD current)
  | .path path => .path path

def updateManifest (changes : List DependencyUpdate) (manifest : Manifest) : Manifest :=
  { manifest with
    dependencies :=
      { compile := manifest.dependencies.compile.map (updateSpec changes)
        runtime := manifest.dependencies.runtime.map (updateSpec changes)
        provided := manifest.dependencies.provided.map (updateSpec changes)
        test := manifest.dependencies.test.map (updateSpec changes) }
    annotationProcessors := manifest.annotationProcessors.map fun dependency current =>
      (plannedVersion changes dependency current).getD current }

/-- `manifest_changed`: some declaration is in the plan. -/
def manifestChanged (changes : List DependencyUpdate) (manifest : Manifest) : Bool :=
  (manifest.dependencies.scopes.any fun entries => entries.2.toList.any fun entry =>
    entry.2.version?.any fun current => (plannedVersion changes entry.1 current).isSome) ||
  manifest.annotationProcessors.toList.any fun entry =>
    (plannedVersion changes entry.1 entry.2).isSome

section Machine

variable (machine : Machine)

/-- The turn of one directory in `apply_dependency_update_plan`. -/
def applyUpdatesIn (changes : List DependencyUpdate) (directory : Path) : Command Unit := do
  let manifest ← readManifest machine ("could not read " ++ pathOf directory .manifest) directory
  if manifestChanged changes manifest then
    let updated ← check (((updateManifest changes manifest).toToml machine.format).mapError
      fun e => .context "could not serialize jman.toml" (.config e))
    writeAtomically machine directory .manifest updated

def applyDependencyUpdatePlan (directories : List Path) (changes : List DependencyUpdate) :
    Command Unit :=
  directories.forM (applyUpdatesIn machine changes)

-- Snapshots
-- ---

structure WorkspaceFileSnapshot where
  directory : Path
  name : FileName
  contents : Option String
deriving DecidableEq

/-- `read_to_string`, where a missing file is no failure. -/
def readSnapshot (directory : Path) (name : FileName) : Command WorkspaceFileSnapshot := do
  let failure := fun source : String => Failure.context
    ("could not snapshot " ++ pathOf directory name) (.io source)
  match ← contentsOf machine (failure "input/output error") directory name with
  | none => return ⟨directory, name, none⟩
  | some bytes =>
    match String.fromUTF8? bytes with
    | none => throw (failure "stream did not contain valid UTF-8")
    | some text => return ⟨directory, name, some text⟩

def snapshotWorkspaceFiles (directories : List Path) : Command (List WorkspaceFileSnapshot) :=
  (directories.flatMap fun directory => [(directory, FileName.manifest), (directory, .lock)]).mapM
    fun file => readSnapshot machine file.1 file.2

/-- `remove_file`, for which a missing file is no failure. -/
def removeGenerated (directory : Path) (name : FileName) : Command Unit :=
  match machine.layout.canonicalize directory with
  | none => pure ()
  | some d =>
    FileStore.act (.context ("could not remove generated " ++ pathOf directory name)
      (.io "input/output error")) (.remove ⟨d, name⟩)

def restoreFile (snapshot : WorkspaceFileSnapshot) : Command Unit :=
  match snapshot.contents with
  | some contents => writeAtomically machine snapshot.directory snapshot.name contents
  | none => removeGenerated machine snapshot.directory snapshot.name

def restoreWorkspaceFiles (snapshots : List WorkspaceFileSnapshot) : Command Unit :=
  snapshots.forM (restoreFile machine)

-- The command
-- ---

/-- The plan applied and the workspace synchronized, or everything restored. -/
def updateOrRestore (caches : Path → ArtifactCache) (root : Path) (offline : Bool)
    (directories : List Path) (changes : List DependencyUpdate)
    (snapshots : List WorkspaceFileSnapshot) : Command Unit :=
  tryCatch
    (do
      applyDependencyUpdatePlan machine directories changes
      syncProject machine caches root true offline)
    fun error => do
      tryCatch (restoreWorkspaceFiles machine snapshots) fun restoration =>
        throw (.restorationFailed error restoration)
      throw (.context "dependency update failed and workspace files were restored" error)

/-- `update_dependencies`, given what planning returns. -/
def updateDependencies (caches : Path → ArtifactCache) (target : Path)
    (plan : Except Failure (List DependencyUpdate)) (dryRun offline : Bool) : Command Unit := do
  let found ← syncProject.manifestIsFile machine target
  unless found do
    throw (.message ("cannot update " ++ Paths.display target ++ ": jman.toml was not found"))
  let root ← findWorkspaceRoot machine target
  let changes ← check plan
  if dryRun ∨ changes = [] then
    return
  let directories ← workspaceDirectories machine root
  let snapshots ← snapshotWorkspaceFiles machine directories
  updateOrRestore machine caches root offline directories changes snapshots

end Machine

-- What the plan does to a manifest
-- ---

section Plan

variable {changes : List DependencyUpdate}

theorem map_updateSpec_eq {entries : BTreeMap DependencySpec}
    (h : (entries.toList.any fun entry => entry.2.version?.any fun current =>
      (plannedVersion changes entry.1 current).isSome) = false) :
    entries.map (updateSpec changes) = entries := by
  refine Std.ExtTreeMap.ext_getElem? fun k => ?_
  rw [Std.ExtTreeMap.getElem?_map]
  cases hk : entries[k]? with
  | none => rfl
  | some spec =>
    have hentry := List.any_eq_false.mp h (k, spec)
      (Std.ExtTreeMap.mem_toList_iff_getElem?_eq_some.mpr hk)
    cases spec with
    | path path => rfl
    | version current =>
      simp only [DependencySpec.version?, Option.any_some, Bool.not_eq_true,
        Option.isSome_eq_false_iff, Option.isNone_iff_eq_none] at hentry
      simp [updateSpec, hentry]

theorem updateManifest_eq {manifest : Manifest} (h : manifestChanged changes manifest = false) :
    updateManifest changes manifest = manifest := by
  simp only [manifestChanged, Dependencies.scopes, List.any_cons, List.any_nil, Bool.or_false,
    Bool.or_eq_false_iff] at h
  obtain ⟨⟨hcompile, hruntime, hprovided, htest⟩, hprocessors⟩ := h
  have hmap : manifest.annotationProcessors.map (fun dependency current =>
      (plannedVersion changes dependency current).getD current) =
      manifest.annotationProcessors := by
    refine Std.ExtTreeMap.ext_getElem? fun k => ?_
    rw [Std.ExtTreeMap.getElem?_map]
    cases hk : manifest.annotationProcessors[k]? with
    | none => rfl
    | some current =>
      have hentry := List.any_eq_false.mp hprocessors (k, current)
        (Std.ExtTreeMap.mem_toList_iff_getElem?_eq_some.mpr hk)
      simp only [Bool.not_eq_true, Option.isSome_eq_false_iff, Option.isNone_iff_eq_none] at hentry
      simp [hentry]
  unfold updateManifest
  rw [map_updateSpec_eq hcompile, map_updateSpec_eq hruntime, map_updateSpec_eq hprovided,
    map_updateSpec_eq htest, hmap]

end Plan

-- What the steps do to the files
-- ---

section Steps

variable {machine : Machine} {changes : List DependencyUpdate}
  {w w' : FileStore.World WorkspaceFile ByteArray} {S : Set WorkspaceFile}

def temporaries : Set WorkspaceFile := {f | f.name = .temporary}

theorem touches_applyUpdatesIn {directory : Path}
    (hcanonical : machine.layout.canonicalize directory = some directory) :
    Touches (insert ⟨directory, .manifest⟩ temporaries)
      (applyUpdatesIn machine changes directory) := by
  refine (touches_readManifest machine _ directory).bind fun manifest => ?_
  split
  · refine (touches_check _).bind fun updated => ?_
    refine touches_writeAtomically machine updated (fun f hf => Or.inr hf) fun d hd => ?_
    rw [hcanonical] at hd
    cases hd
    exact Or.inl rfl
  · exact .pure _

def Updated (machine : Machine) (changes : List DependencyUpdate) (directory : Path)
    (before after : Option ByteArray) : Prop :=
  ∃ manifest, Manifest.read machine.format (pathOf directory .manifest) before = .ok manifest ∧
    Manifest.read machine.format (pathOf directory .manifest) after =
      .ok (updateManifest changes manifest) ∧
    (manifestChanged changes manifest = false → after = before)

theorem exec_applyUpdatesIn_eq_ok (hformat : machine.format.RoundTrips) {directory : Path}
    (hcanonical : machine.layout.canonicalize directory = some directory)
    (h : exec (applyUpdatesIn machine changes directory) w = (.ok (), w')) :
    Updated machine changes directory (w.files ⟨directory, .manifest⟩)
      (w'.files ⟨directory, .manifest⟩) := by
  obtain ⟨manifest, v, hread, h⟩ := FileStore.exec_bind_eq_ok.mp h
  have hv := (touches_readManifest machine _ directory).files_eq hread
  have hmanifest := exec_readManifest_eq_ok hread
  simp only [fileAt, hcanonical, Option.bind_some] at hmanifest
  refine ⟨manifest, hmanifest, ?_⟩
  split at h
  · next hchanged =>
    obtain ⟨updated, u, htext, hwrite⟩ := FileStore.exec_bind_eq_ok.mp h
    obtain ⟨d, hd, hfile⟩ := exec_writeAtomically_eq_ok hwrite
    rw [hcanonical] at hd
    cases hd
    rw [hfile]
    have htext := Fallible.mapError_eq_ok.mp (exec_check_eq_ok.mp htext).1
    refine ⟨Manifest.read_toToml hformat htext _, fun hno => ?_⟩
    rw [hno] at hchanged
    cases hchanged
  · next hchanged =>
    cases h
    rw [Bool.not_eq_true] at hchanged
    rw [hv, updateManifest_eq hchanged]
    exact ⟨hmanifest, fun _ => rfl⟩

/-- **The plan is applied once to every manifest.** -/
theorem exec_applyDependencyUpdatePlan_eq_ok (hformat : machine.format.RoundTrips)
    {directories : List Path} (hnodup : directories.Nodup)
    (hcanonical : ∀ d ∈ directories, machine.layout.canonicalize d = some d)
    (h : exec (applyDependencyUpdatePlan machine directories changes) w = (.ok (), w')) :
    ∀ d ∈ directories, Updated machine changes d (w.files ⟨d, .manifest⟩)
      (w'.files ⟨d, .manifest⟩) := by
  have hinjective : Function.Injective fun d : Path => (⟨d, .manifest⟩ : WorkspaceFile) :=
    fun a b hab => congrArg WorkspaceFile.directory hab
  refine FileStore.forM_updates (fun d => ⟨d, .manifest⟩) (Updated machine changes) (T := temporaries)
    (fun d hd => touches_applyUpdatesIn (hcanonical d hd)) (fun d _ hd => ?_)
    (hnodup.map hinjective)
    (fun d hd _ _ hturn => exec_applyUpdatesIn_eq_ok hformat (hcanonical d hd) hturn) h
  cases hd

theorem touches_applyDependencyUpdatePlan {directories : List Path}
    (hcanonical : ∀ d ∈ directories, machine.layout.canonicalize d = some d) :
    Touches {f | f.name = .temporary ∨ f.name = .manifest ∧ f.directory ∈ directories}
      (applyDependencyUpdatePlan machine directories changes) := by
  refine .forM fun d hd => (touches_applyUpdatesIn (hcanonical d hd)).subset ?_
  rintro f (rfl | hf)
  · exact Or.inr ⟨rfl, hd⟩
  · exact Or.inl hf

theorem touches_readSnapshot (directory : Path) (name : FileName) :
    Touches S (readSnapshot machine directory name) := by
  refine (touches_contentsOf machine _ directory name).bind fun contents => ?_
  cases contents with
  | none => exact .pure _
  | some bytes =>
    cases hutf : String.fromUTF8? bytes with
    | none =>
      simp only [hutf]
      exact .throw _
    | some text =>
      simp only [hutf]
      exact .pure _

theorem exec_readSnapshot_eq_ok {directory : Path} {name : FileName}
    {snapshot : WorkspaceFileSnapshot}
    (h : exec (readSnapshot machine directory name) w = (.ok snapshot, w')) :
    snapshot.directory = directory ∧ snapshot.name = name ∧
      fileAt machine w.files directory name = snapshot.contents.map String.toUTF8 := by
  obtain ⟨contents, v, hcontents, h⟩ := FileStore.exec_bind_eq_ok.mp h
  rw [← exec_contentsOf_eq_ok hcontents]
  cases contents with
  | none =>
    cases h
    exact ⟨rfl, rfl, rfl⟩
  | some bytes =>
    cases hutf : String.fromUTF8? bytes with
    | none =>
      simp only [hutf] at h
      cases h
    | some text =>
      simp only [hutf] at h
      cases h
      exact ⟨rfl, rfl, congrArg some (toUTF8_of_fromUTF8? hutf).symm⟩

/-- The manifest and the lock of every directory. -/
def workspaceFiles (directories : List Path) : List WorkspaceFile :=
  directories.flatMap fun directory => [⟨directory, .manifest⟩, ⟨directory, .lock⟩]

theorem mem_workspaceFiles {directories : List Path} {f : WorkspaceFile} :
    f ∈ workspaceFiles directories ↔
      f.directory ∈ directories ∧ (f.name = .manifest ∨ f.name = .lock) := by
  obtain ⟨directory, name⟩ := f
  simp only [workspaceFiles, List.mem_flatMap, List.mem_cons, WorkspaceFile.mk.injEq,
    List.not_mem_nil, or_false]
  constructor
  · rintro ⟨d, hd, ⟨rfl, rfl⟩ | ⟨rfl, rfl⟩⟩
    · exact ⟨hd, Or.inl rfl⟩
    · exact ⟨hd, Or.inr rfl⟩
  · rintro ⟨hd, rfl | rfl⟩
    · exact ⟨directory, hd, Or.inl ⟨rfl, rfl⟩⟩
    · exact ⟨directory, hd, Or.inr ⟨rfl, rfl⟩⟩

theorem nodup_workspaceFiles {directories : List Path} (h : directories.Nodup) :
    (workspaceFiles directories).Nodup := by
  refine List.nodup_flatMap.mpr ⟨fun d _ => by simp, h.imp fun hne => ?_⟩
  intro f hf hf'
  simp only [List.mem_cons, List.not_mem_nil, or_false] at hf hf'
  rcases hf with rfl | rfl <;> rcases hf' with h' | h' <;> cases h' <;> exact hne rfl

def WorkspaceFileSnapshot.file (snapshot : WorkspaceFileSnapshot) : WorkspaceFile :=
  ⟨snapshot.directory, snapshot.name⟩

/-- **The snapshots are of the manifests and locks, as they are.** -/
theorem exec_snapshotWorkspaceFiles_eq_ok {directories : List Path}
    {snapshots : List WorkspaceFileSnapshot}
    (hcanonical : ∀ d ∈ directories, machine.layout.canonicalize d = some d)
    (h : exec (snapshotWorkspaceFiles machine directories) w = (.ok snapshots, w')) :
    snapshots.map (·.file) = workspaceFiles directories ∧
      ∀ s ∈ snapshots, w.files s.file = s.contents.map String.toUTF8 := by
  have hforall := FileStore.exec_mapM_eq_ok (fun _ _ => touches_readSnapshot _ _) h
  have hfiles : workspaceFiles directories = (directories.flatMap fun directory =>
      [(directory, FileName.manifest), (directory, .lock)]).map fun file => ⟨file.1, file.2⟩ := by
    rw [List.map_flatMap]
    rfl
  have hdirectories : ∀ file ∈ (directories.flatMap fun directory =>
      [(directory, FileName.manifest), (directory, .lock)]), file.1 ∈ directories := by
    intro file hfile
    simp only [List.mem_flatMap, List.mem_cons, List.not_mem_nil, or_false] at hfile
    obtain ⟨d, hd, rfl | rfl⟩ := hfile <;> exact hd
  rw [hfiles]
  clear hfiles h
  generalize (directories.flatMap fun directory =>
    [(directory, FileName.manifest), (directory, .lock)]) = files at hforall hdirectories
  induction hforall with
  | nil => simp
  | @cons file snapshot files snapshots hfile _ ih =>
    obtain ⟨v, v', hv, hsnapshot⟩ := hfile
    obtain ⟨hdirectory, hname, hcontents⟩ := exec_readSnapshot_eq_ok hsnapshot
    obtain ⟨hmap, hall⟩ := ih fun f hf => hdirectories f (List.mem_cons_of_mem _ hf)
    have hsame : snapshot.file = ⟨file.1, file.2⟩ := by
      rw [WorkspaceFileSnapshot.file, hdirectory, hname]
    refine ⟨by rw [List.map_cons, List.map_cons, hmap, hsame], fun s hs => ?_⟩
    rcases List.mem_cons.mp hs with rfl | hs
    · have hd := hcanonical file.1 (hdirectories file List.mem_cons_self)
      rw [hsame, ← hv, ← hcontents, fileAt, hd]
      rfl
    · exact hall s hs

theorem touches_restoreFile {snapshot : WorkspaceFileSnapshot}
    (hcanonical : machine.layout.canonicalize snapshot.directory = some snapshot.directory) :
    Touches (insert snapshot.file temporaries) (restoreFile machine snapshot) := by
  unfold restoreFile
  split
  · refine touches_writeAtomically machine _ (fun f hf => Or.inr hf) fun d hd => ?_
    rw [hcanonical] at hd
    cases hd
    exact Or.inl rfl
  · unfold removeGenerated
    rw [hcanonical]
    exact .remove _ (Or.inl rfl)

theorem exec_restoreFile_eq_ok {snapshot : WorkspaceFileSnapshot}
    (hcanonical : machine.layout.canonicalize snapshot.directory = some snapshot.directory)
    (h : exec (restoreFile machine snapshot) w = (.ok (), w')) :
    w'.files snapshot.file = snapshot.contents.map String.toUTF8 := by
  unfold restoreFile at h
  cases hcontents : snapshot.contents with
  | some contents =>
    rw [hcontents] at h
    obtain ⟨d, hd, hfile⟩ := exec_writeAtomically_eq_ok h
    rw [hcanonical] at hd
    cases hd
    exact hfile
  | none =>
    rw [hcontents] at h
    simp only [removeGenerated, hcanonical] at h
    exact FileStore.exec_remove_eq_ok h

/-- **A restoration gives every snapshot's file the contents of the snapshot.** -/
theorem exec_restoreWorkspaceFiles_eq_ok {snapshots : List WorkspaceFileSnapshot}
    (hnodup : (snapshots.map (·.file)).Nodup)
    (hcanonical : ∀ s ∈ snapshots, machine.layout.canonicalize s.directory = some s.directory)
    (hname : ∀ s ∈ snapshots, s.name ≠ .temporary)
    (h : exec (restoreWorkspaceFiles machine snapshots) w = (.ok (), w')) :
    ∀ s ∈ snapshots, w'.files s.file = s.contents.map String.toUTF8 :=
  FileStore.forM_updates WorkspaceFileSnapshot.file
    (fun s _ after => after = s.contents.map String.toUTF8) (T := temporaries)
    (fun s hs => touches_restoreFile (hcanonical s hs)) hname hnodup
    (fun s hs _ _ hturn => exec_restoreFile_eq_ok (hcanonical s hs) hturn) h

theorem touches_restoreWorkspaceFiles {snapshots : List WorkspaceFileSnapshot}
    (hcanonical : ∀ s ∈ snapshots, machine.layout.canonicalize s.directory = some s.directory) :
    Touches {f | f.name = .temporary ∨ f ∈ snapshots.map (·.file)}
      (restoreWorkspaceFiles machine snapshots) := by
  refine .forM fun s hs => (touches_restoreFile (hcanonical s hs)).subset ?_
  rintro f (rfl | hf)
  · exact Or.inr (List.mem_map_of_mem hs)
  · exact Or.inl hf

theorem Updated.modules_eq {directory : Path} {before after : Option ByteArray}
    (h : Updated machine changes directory before after) {path : String} {m m' : Manifest}
    (hm : Manifest.read machine.format path before = .ok m)
    (hm' : Manifest.read machine.format path after = .ok m') :
    m.project.modules = m'.project.modules := by
  obtain ⟨manifest, hbefore, hafter, -⟩ := h
  cases (Manifest.read_path hbefore path).symm.trans hm
  cases (Manifest.read_path hafter path).symm.trans hm'
  rfl

end Steps

-- The command as a transaction
-- ---

section Transaction

variable {machine : Machine} {changes : List DependencyUpdate}
  {w w' : FileStore.World WorkspaceFile ByteArray}

def Failure.RestorationFailed (failure : Failure) : Prop :=
  ∃ error restoration, failure = .restorationFailed error restoration

theorem exec_apply_keeps {caches : Path → ArtifactCache} {root : Path} {offline : Bool}
    {directories : List Path} (hformat : machine.format.RoundTrips)
    {v v' : FileStore.World WorkspaceFile ByteArray} (hfiles : v.files = w.files)
    (hworkspace : exec (workspaceDirectories machine root) v = (.ok directories, v'))
    {result : Except Failure Unit}
    (h : exec (do
      applyDependencyUpdatePlan machine directories changes
      syncProject machine caches root true offline) w = (result, w'))
    {f : WorkspaceFile} (htemporary : f.name ≠ .temporary) (hf : f.directory ∉ directories) :
    w'.files f = w.files f := by
  obtain ⟨hnodup, hcanonical, r, hr, hroot⟩ := exec_workspaceDirectories_eq_ok hworkspace
  have hnot : f ∉ {g : WorkspaceFile | g.name = .temporary ∨
      g.name = .manifest ∧ g.directory ∈ directories} := by
    rintro (hg | ⟨-, hg⟩)
    · exact htemporary hg
    · exact hf hg
  have htouches : Touches {f | f.name = .temporary ∨ f.name = .manifest ∧ f.directory ∈ directories}
      (applyDependencyUpdatePlan machine directories changes) :=
    touches_applyDependencyUpdatePlan hcanonical
  rcases FileStore.exec_bind_cases h with ⟨e, happly, -⟩ | ⟨⟨⟩, u, happly, hsync⟩
  · exact htouches.of_exec happly f hnot
  · rw [← htouches.of_exec happly f hnot]
    refine exec_syncProject_keeps hsync htemporary fun _ ds x x' hx hds d hd hdirectory => hf ?_
    rcases exec_synchronizedDirectories_eq_ok hds with rfl | ⟨y, y', hy, hdirectories⟩
    · -- the root alone
      rw [List.mem_singleton] at hd
      rw [hd, hroot] at hdirectory
      cases hdirectory
      exact hr
    · -- the workspace, whose modules the plan did not change
      have hupdated := exec_applyDependencyUpdatePlan_eq_ok hformat hnodup hcanonical happly
      have hagree : directories = ds := by
        refine workspaceDirectories_agree (fun p m m' hm hm' => ?_) hworkspace hdirectories
        rw [hy, hx] at hm'
        rw [hfiles] at hm
        cases hp : machine.layout.canonicalize p with
        | none =>
          simp only [fileAt, hp, Option.bind_none] at hm
          cases hm
        | some c =>
          simp only [fileAt, hp, Option.bind_some] at hm hm'
          by_cases hc : c ∈ directories
          · exact (hupdated c hc).modules_eq hm hm'
          · -- a manifest outside the workspace is the same in both worlds
            have hsame : u.files ⟨c, .manifest⟩ = w.files ⟨c, .manifest⟩ := by
              refine htouches.of_exec happly _ ?_
              rintro (hg | ⟨-, hg⟩)
              · cases hg
              · exact hc hg
            rw [hsame, hm] at hm'
            cases hm'
            rfl
      rw [← hagree] at hd
      rw [hcanonical d hd] at hdirectory
      cases hdirectory
      exact hd

theorem exec_updateOrRestore_eq_error {caches : Path → ArtifactCache} {root : Path}
    {offline : Bool} {directories : List Path} {snapshots : List WorkspaceFileSnapshot}
    (hformat : machine.format.RoundTrips) {v v' : FileStore.World WorkspaceFile ByteArray}
    (hfiles : v.files = w.files)
    (hworkspace : exec (workspaceDirectories machine root) v = (.ok directories, v'))
    (hsnapshots : snapshots.map (·.file) = workspaceFiles directories)
    (hcontents : ∀ s ∈ snapshots, w.files s.file = s.contents.map String.toUTF8) {e : Failure}
    (h : exec (updateOrRestore machine caches root offline directories changes snapshots) w =
      (.error e, w')) (hrestored : ¬ e.RestorationFailed)
    {f : WorkspaceFile} (htemporary : f.name ≠ .temporary) : w'.files f = w.files f := by
  obtain ⟨hnodup, hcanonical, -⟩ := exec_workspaceDirectories_eq_ok hworkspace
  have hfile : ∀ s ∈ snapshots, s.directory ∈ directories ∧ (s.name = .manifest ∨ s.name = .lock) :=
    fun s hs => mem_workspaceFiles.mp (hsnapshots ▸ List.mem_map_of_mem hs)
  have hdirectory : ∀ s ∈ snapshots,
      machine.layout.canonicalize s.directory = some s.directory :=
    fun s hs => hcanonical _ (hfile s hs).1
  have hname : ∀ s ∈ snapshots, s.name ≠ .temporary := by
    intro s hs heq
    rcases (hfile s hs).2 with h | h <;> rw [heq] at h <;> cases h
  rcases FileStore.exec_tryCatch_cases h with ⟨a, -, hok⟩ | ⟨error, u, happly, h⟩
  · cases hok
  rcases FileStore.exec_bind_cases h with ⟨e', hrestore, heq⟩ | ⟨⟨⟩, x, hrestore, h⟩
  · -- the restoration failed
    cases heq
    rcases FileStore.exec_tryCatch_cases hrestore with ⟨a, -, hok⟩ | ⟨restoration, y, -, hthrow⟩
    · cases hok
    · cases hthrow
      exact absurd ⟨error, restoration, rfl⟩ hrestored
  · cases h
    rcases FileStore.exec_tryCatch_cases hrestore with ⟨a, hrestore, -⟩ | ⟨restoration, y, -, hthrow⟩
    · by_cases hf : f ∈ snapshots.map (·.file)
      · -- restored
        obtain ⟨s, hs, rfl⟩ := List.mem_map.mp hf
        have hnodup' : (snapshots.map (·.file)).Nodup := hsnapshots ▸ nodup_workspaceFiles hnodup
        rw [exec_restoreWorkspaceFiles_eq_ok hnodup' hdirectory hname hrestore s hs, hcontents s hs]
      · -- never touched
        have houtside : f.directory ∉ directories := by
          intro hd
          refine hf (hsnapshots ▸ mem_workspaceFiles.mpr ⟨hd, ?_⟩)
          cases hn : f.name with
          | manifest => exact Or.inl rfl
          | lock => exact Or.inr rfl
          | temporary => exact absurd hn htemporary
        have hkept := (touches_restoreWorkspaceFiles hdirectory).of_exec hrestore f (by
          rintro (hg | hg)
          · exact htemporary hg
          · exact hf hg)
        rw [hkept]
        exact exec_apply_keeps hformat hfiles hworkspace happly htemporary houtside
    · cases hthrow

/-- An update that succeeds applied the plan to the manifests of the workspace
and left every other manifest as it was. -/
theorem exec_updateOrRestore_eq_ok {caches : Path → ArtifactCache} {root : Path} {offline : Bool}
    {directories : List Path} {snapshots : List WorkspaceFileSnapshot}
    (hformat : machine.format.RoundTrips) (hnodup : directories.Nodup)
    (hcanonical : ∀ d ∈ directories, machine.layout.canonicalize d = some d)
    (h : exec (updateOrRestore machine caches root offline directories changes snapshots) w =
      (.ok (), w')) :
    (∀ d ∈ directories, Updated machine changes d (w.files ⟨d, .manifest⟩)
      (w'.files ⟨d, .manifest⟩)) ∧
    ∀ f : WorkspaceFile, f.name = .manifest → f.directory ∉ directories →
      w'.files f = w.files f := by
  rcases FileStore.exec_tryCatch_cases h with ⟨⟨⟩, hok, -⟩ | ⟨error, u, -, h⟩
  · obtain ⟨⟨⟩, u, happly, hsync⟩ := FileStore.exec_bind_eq_ok.mp hok
    -- the synchronization writes no manifest
    have hsynced : ∀ f : WorkspaceFile, f.name = .manifest → w'.files f = u.files f := by
      intro f hf
      refine exec_syncProject_keeps hsync (by rw [hf]; decide) fun hlock => ?_
      rw [hf] at hlock
      cases hlock
    refine ⟨fun d hd => ?_, fun f hname hf => ?_⟩
    · rw [hsynced _ rfl]
      exact exec_applyDependencyUpdatePlan_eq_ok hformat hnodup hcanonical happly d hd
    · rw [hsynced f hname]
      refine (touches_applyDependencyUpdatePlan hcanonical).of_exec happly f ?_
      rintro (hg | ⟨-, hg⟩)
      · rw [hname] at hg
        cases hg
      · exact hf hg
  · obtain ⟨⟨⟩, x, -, hthrow⟩ := FileStore.exec_bind_eq_ok.mp h
    cases hthrow

/-- What the plan asks of a declaration: the version of a change for it, and if
there is none its own. -/
def PlannedVersion (changes : List DependencyUpdate) (dependency current updated : String) : Prop :=
  (∃ c ∈ changes, c.dependency = dependency ∧ c.fromVersion = current ∧ c.toVersion = updated) ∨
    updated = current ∧ ∀ c ∈ changes, c.dependency = dependency → c.fromVersion ≠ current

inductive PlannedSpec (changes : List DependencyUpdate) (dependency : String) :
    DependencySpec → DependencySpec → Prop where
  | version {current updated : String} (h : PlannedVersion changes dependency current updated) :
    PlannedSpec changes dependency (.version current) (.version updated)
  | path (path : String) : PlannedSpec changes dependency (.path path) (.path path)

/-- The manifest `after` is `before` with exactly the planned declarations at
their planned versions. -/
structure PlannedUpdate (changes : List DependencyUpdate) (before after : Manifest) : Prop where
  declarations : List.Forall₂
    (fun b a => a.1 = b.1 ∧ ∀ dependency : String,
      Option.Rel (PlannedSpec changes dependency) b.2[dependency]? a.2[dependency]?)
    before.dependencies.scopes after.dependencies.scopes
  processors : ∀ dependency : String, Option.Rel (PlannedVersion changes dependency)
    before.annotationProcessors[dependency]? after.annotationProcessors[dependency]?
  rest : after = { before with
    dependencies := after.dependencies
    annotationProcessors := after.annotationProcessors }

theorem plannedVersion_getD (changes : List DependencyUpdate) (dependency current : String) :
    PlannedVersion changes dependency current
      ((plannedVersion changes dependency current).getD current) := by
  unfold plannedVersion
  rw [List.findRev?_eq_find?_reverse]
  cases hfind : changes.reverse.find? fun change =>
      change.dependency = dependency ∧ change.fromVersion = current with
  | some change =>
    have hkey := List.find?_some hfind
    simp only [decide_eq_true_eq] at hkey
    exact Or.inl ⟨change, List.mem_reverse.mp (List.mem_of_find?_eq_some hfind), hkey.1, hkey.2, rfl⟩
  | none =>
    refine Or.inr ⟨rfl, fun c hc hdependency hfrom => ?_⟩
    have hno := List.find?_eq_none.mp hfind c (List.mem_reverse.mpr hc)
    exact hno (decide_eq_true ⟨hdependency, hfrom⟩)

theorem plannedSpec_updateSpec (changes : List DependencyUpdate) (dependency : String)
    (spec : DependencySpec) : PlannedSpec changes dependency spec (updateSpec changes dependency spec) := by
  cases spec with
  | version current => exact .version (plannedVersion_getD changes dependency current)
  | path path => exact .path path

theorem plannedUpdate_updateManifest (changes : List DependencyUpdate) (manifest : Manifest) :
    PlannedUpdate changes manifest (updateManifest changes manifest) where
  declarations := by
    have hscope : ∀ (entries : BTreeMap DependencySpec) (dependency : String),
        Option.Rel (PlannedSpec changes dependency) entries[dependency]?
          (entries.map (updateSpec changes))[dependency]? := by
      intro entries dependency
      rw [Std.ExtTreeMap.getElem?_map]
      cases entries[dependency]? with
      | none => exact .none
      | some spec => exact .some (plannedSpec_updateSpec changes dependency spec)
    exact .cons ⟨rfl, hscope _⟩ (.cons ⟨rfl, hscope _⟩ (.cons ⟨rfl, hscope _⟩
      (.cons ⟨rfl, hscope _⟩ .nil)))
  processors dependency := by
    simp only [updateManifest, Std.ExtTreeMap.getElem?_map]
    cases manifest.annotationProcessors[dependency]? with
    | none => exact .none
    | some current => exact .some (plannedVersion_getD changes dependency current)
  rest := rfl

/-- The manifest file `after` is `before` with the plan applied; without a
planned declaration it is the same file. -/
def UpdatedAsPlanned (machine : Machine) (changes : List DependencyUpdate)
    (before after : Option ByteArray) : Prop :=
  ∃ m m' : Manifest, (∀ path, Manifest.read machine.format path before = .ok m) ∧
    (∀ path, Manifest.read machine.format path after = .ok m') ∧ PlannedUpdate changes m m' ∧
    (manifestChanged changes m = false → after = before)

theorem Updated.asPlanned {directory : Path} {before after : Option ByteArray}
    (h : Updated machine changes directory before after) :
    UpdatedAsPlanned machine changes before after := by
  obtain ⟨manifest, hbefore, hafter, hsame⟩ := h
  exact ⟨manifest, updateManifest changes manifest, fun path => Manifest.read_path hbefore path,
    fun path => Manifest.read_path hafter path, plannedUpdate_updateManifest changes manifest, hsame⟩

/-- The directories of the workspace a target belongs to, as found in files. -/
def IsWorkspaceOf (machine : Machine) (files : Files) (target : Path)
    (directories : List Path) : Prop :=
  ∃ root v v' u u', v.files = files ∧ exec (findWorkspaceRoot machine target) v = (.ok root, v') ∧
    u.files = files ∧ exec (workspaceDirectories machine root) u = (.ok directories, u')

theorem exec_updateDependencies_cases {caches : Path → ArtifactCache} {target : Path}
    {plan : Except Failure (List DependencyUpdate)} {dryRun offline : Bool}
    {result : Except Failure Unit}
    (h : exec (updateDependencies machine caches target plan dryRun offline) w = (result, w')) :
    (w'.files = w.files ∧ (result = .ok () → ∃ changes, plan = .ok changes ∧
      (dryRun = true ∨ changes = []))) ∨
    ∃ root changes directories snapshots u v v', plan = .ok changes ∧
      IsWorkspaceOf machine w.files target directories ∧ u.files = w.files ∧ v.files = w.files ∧
      exec (workspaceDirectories machine root) v = (.ok directories, v') ∧
      snapshots.map (·.file) = workspaceFiles directories ∧
      (∀ s ∈ snapshots, w.files s.file = s.contents.map String.toUTF8) ∧
      exec (updateOrRestore machine caches root offline directories changes snapshots) u =
        (result, w') := by
  have hquiet : ∀ {e : Failure}, Except.error e = result → w'.files = w.files →
      (w'.files = w.files ∧ (result = .ok () → ∃ changes, plan = .ok changes ∧
        (dryRun = true ∨ changes = []))) := by
    rintro e rfl hw
    exact ⟨hw, fun hok => by cases hok⟩
  rcases FileStore.exec_bind_cases h with ⟨e, hfound, heq⟩ | ⟨found, w₁, hfound, h⟩
  · exact Or.inl (hquiet heq.symm ((touches_manifestIsFile machine target).files_eq hfound))
  have hw₁ := (touches_manifestIsFile machine target).files_eq hfound
  cases found with
  | false =>
    cases h
    exact Or.inl (hquiet rfl hw₁)
  | true =>
    rcases FileStore.exec_bind_cases h with ⟨e, hroot, heq⟩ | ⟨root, w₂, hroot, h⟩
    · exact Or.inl (hquiet heq.symm
        (((touches_findWorkspaceRoot machine target).files_eq hroot).trans hw₁))
    have hw₂ := ((touches_findWorkspaceRoot machine target).files_eq hroot).trans hw₁
    rcases FileStore.exec_bind_cases h with ⟨e, hcheck, heq⟩ | ⟨changes, w₃, hcheck, hrest⟩
    · exact Or.inl (hquiet heq.symm (((touches_check plan).files_eq hcheck).trans hw₂))
    obtain ⟨hplan, rfl⟩ := exec_check_eq_ok.mp hcheck
    split at hrest
    · next hnothing =>
      cases hrest
      exact Or.inl ⟨hw₂, fun _ => ⟨changes, hplan, hnothing⟩⟩
    · rcases FileStore.exec_bind_cases hrest with ⟨e, hds, heq⟩ | ⟨directories, w₄, hds, hrest⟩
      · exact Or.inl (hquiet heq.symm
          (((touches_workspaceDirectories machine root).files_eq hds).trans hw₂))
      have hw₄ := ((touches_workspaceDirectories machine root).files_eq hds).trans hw₂
      obtain ⟨-, hcanonical, -⟩ := exec_workspaceDirectories_eq_ok hds
      have hreads : Touches ∅ (snapshotWorkspaceFiles machine directories) :=
        Guarantees.mapM fun _ _ => touches_readSnapshot _ _
      rcases FileStore.exec_bind_cases hrest with ⟨e, hsnap, heq⟩ | ⟨snapshots, w₅, hsnap, hattempt⟩
      · exact Or.inl (hquiet heq.symm ((hreads.files_eq hsnap).trans hw₄))
      obtain ⟨hfiles, hcontents⟩ := exec_snapshotWorkspaceFiles_eq_ok hcanonical hsnap
      rw [hw₄] at hcontents
      exact Or.inr ⟨root, changes, directories, snapshots, w₅, w₃, w₄, hplan,
        ⟨root, w₁, w₃, w₃, w₄, hw₁, hroot, hw₂, hds⟩, (hreads.files_eq hsnap).trans hw₄, hw₂, hds,
        hfiles, hcontents, hattempt⟩

/-- **An update is a transaction, and exact.** A failed one whose restoration
went through leaves every manifest and lock as it was, absent ones included. A
successful one changes the planned declarations and no others. -/
theorem update_transactional_and_exact {caches : Path → ArtifactCache} {target : Path}
    {plan : Except Failure (List DependencyUpdate)} {dryRun offline : Bool}
    {result : Except Failure Unit} (hformat : machine.format.RoundTrips)
    (h : exec (updateDependencies machine caches target plan dryRun offline) w = (result, w')) :
    (∀ e, result = .error e → ¬ e.RestorationFailed →
      ∀ f : WorkspaceFile, f.name ≠ .temporary → w'.files f = w.files f) ∧
    (result = .ok () → ∃ changes, plan = .ok changes ∧
      ((dryRun = true ∨ changes = []) ∧ w'.files = w.files ∨
        ∃ directories, IsWorkspaceOf machine w.files target directories ∧
          (∀ d ∈ directories, UpdatedAsPlanned machine changes (w.files ⟨d, .manifest⟩)
            (w'.files ⟨d, .manifest⟩)) ∧
          ∀ f : WorkspaceFile, f.name = .manifest → f.directory ∉ directories →
            w'.files f = w.files f)) := by
  rcases exec_updateDependencies_cases h with ⟨hfiles, hok⟩ |
    ⟨root, changes, directories, snapshots, u, v, v', hplan, hworkspace, hu, hv, hds, hsnapshots,
      hcontents, hattempt⟩
  · refine ⟨fun _ _ _ f _ => congrFun hfiles f, fun h => ?_⟩
    obtain ⟨changes, hplan, hnothing⟩ := hok h
    exact ⟨changes, hplan, Or.inl ⟨hnothing, hfiles⟩⟩
  · constructor
    · rintro e rfl hrestored f hf
      rw [← hu] at hv hcontents ⊢
      exact exec_updateOrRestore_eq_error hformat hv hds hsnapshots hcontents hattempt hrestored hf
    · rintro rfl
      obtain ⟨hnodup, hcanonical, -⟩ := exec_workspaceDirectories_eq_ok hds
      obtain ⟨hmanifests, hothers⟩ := exec_updateOrRestore_eq_ok hformat hnodup hcanonical hattempt
      rw [hu] at hmanifests hothers
      exact ⟨changes, hplan, Or.inr ⟨directories, hworkspace,
        fun d hd => (hmanifests d hd).asPlanned, hothers⟩⟩

/-- The new version of `core` is taken, two locks are written, and the third
module does not resolve. -/
def sampleUpdate : Except Failure Unit × FileStore.World WorkspaceFile ByteArray :=
  exec (updateDependencies sampleMachine (fun _ _ => none) ["ws"]
    (.ok [⟨"org.example:core", "1", "2"⟩]) false false) (.calm (sampleFiles "root, core 1"))

theorem sampleUpdate_restored :
    sampleUpdate.1 = .error (.context "dependency update failed and workspace files were restored"
      (.context "dependency resolution failed" (.resolver (.httpStatus "https://repo.example" 503)))) ∧
    ∀ f : WorkspaceFile, f.name ≠ .temporary →
      sampleUpdate.2.files f = sampleFiles "root, core 1" f := by
  have herror : sampleUpdate.1 = .error
      (.context "dependency update failed and workspace files were restored"
        (.context "dependency resolution failed"
          (.resolver (.httpStatus "https://repo.example" 503)))) := by
    decide +kernel
  have hrun : exec (updateDependencies sampleMachine (fun _ _ => none) ["ws"]
      (.ok [⟨"org.example:core", "1", "2"⟩]) false false) (.calm (sampleFiles "root, core 1")) =
      (sampleUpdate.1, sampleUpdate.2) := rfl
  refine ⟨herror, (update_transactional_and_exact sampleMachine_roundTrips hrun).1 _ herror ?_⟩
  rintro ⟨error, restoration, h⟩
  cases h

end Transaction

end JMan.Cli
