import Mathlib.Data.Finset.Card
import JMan.Config.Manifest
import JMan.Lib.FileStore
import JMan.Resolver.Graph

/-!
# JMan — the command line's view of a workspace

The part of `jman-cli/src/main.rs` that finds a workspace and reads it:
`find_workspace_root`, `workspace_directories`, `manifest_projects`, and
`write_atomically`. Files are those of a `FileStore`, so every read and every
write can fail.

What a command asks of the machine it runs on is a parameter (`Machine`): the
directories that exist and what a path leads to, SHA-256, the platform, and
what the resolver returns.
-/

namespace JMan.Cli

open JMan.Config JMan.Resolver
open Paths (Path)
open FileStore (Program Touches exec)

-- Errors
-- ---

/-- An `anyhow::Error`: what went wrong and in which contexts. -/
inductive Failure where
  | io (source : String)
  | config (source : ConfigError)
  | resolver (source : ResolverError)
  | message (text : String)
  | context (text : String) (source : Failure)
  /-- `dependency update failed: ..; workspace restoration also failed: ..` -/
  | restorationFailed (error restoration : Failure)
deriving DecidableEq

-- The machine
-- ---

inductive FileName where
  | manifest
  | lock
  | temporary
deriving DecidableEq

/-- `jman.toml` and `jman.lock` have the same temporary file beside them. -/
def FileName.text : FileName → String
  | .manifest => "jman.toml"
  | .lock => "jman.lock"
  | .temporary => "jman.tmp"

structure WorkspaceFile where
  directory : Path
  name : FileName
deriving DecidableEq

/-- The directories of the machine and the canonical one a path leads to. -/
structure Layout where
  directories : Finset Path
  canonicalize : Path → Option Path
  canonical : ∀ {p d}, canonicalize p = some d → d ∈ directories ∧ canonicalize d = some d

def Layout.ofDirectories (directories : List Path) : Layout where
  directories := directories.toFinset
  canonicalize path :=
    if path ∈ directories then some path
    else if Paths.locate path ∈ directories then some (Paths.locate path) else none
  canonical {p d} h := by
    have hd : d ∈ directories := by
      split at h
      · cases h
        assumption
      · split at h
        · cases h
          assumption
        · cases h
    exact ⟨List.mem_toFinset.mpr hd, if_pos hd⟩

structure Machine where
  layout : Layout
  format : Format
  sha256 : ByteArray → String
  /-- `OS-ARCH` -/
  platformId : String
  /-- `resolve_in_workspace` with a client of these repositories. -/
  resolve : (repositories : List String) → (offline : Bool) → EffectivePom → List MavenProject →
    Except ResolverError ResolvedGraph

abbrev Files := WorkspaceFile → Option ByteArray

abbrev Command (α : Type) := Program WorkspaceFile ByteArray Failure α

-- Reading and writing
-- ---

def pathOf (directory : Path) (name : FileName) : String :=
  Paths.display (directory ++ [name.text])

/-- `with_context` on a pure result. -/
def check {α : Type} (result : Except Failure α) : Command α :=
  match result with
  | .ok a => pure a
  | .error e => throw e

section Machine

variable (machine : Machine)

def contentsOf (error : Failure) (directory : Path) (name : FileName) :
    Command (Option ByteArray) :=
  match machine.layout.canonicalize directory with
  | none => pure none
  | some d => FileStore.read error ⟨d, name⟩

def canonicalize (context : String) (path : Path) : Except Failure Path :=
  match machine.layout.canonicalize path with
  | none => .error (.context context (.io "No such file or directory (os error 2)"))
  | some d => .ok d

/-- `Manifest::read` of the manifest in a directory, with its context. -/
def readManifest (context : String) (directory : Path) : Command Manifest := do
  let path := pathOf directory .manifest
  let contents ← contentsOf machine
    (.context context (.config (.read path "input/output error"))) directory .manifest
  check ((Manifest.read machine.format path contents).mapError
    fun e => .context context (.config e))

def writeAtomically (directory : Path) (name : FileName) (contents : String) : Command Unit := do
  let writing := "could not write " ++ pathOf directory .temporary
  let moving := "could not install " ++ pathOf directory name
  let d ← check (canonicalize machine writing directory)
  FileStore.install (.context writing (.io "input/output error"))
    (.context moving (.io "input/output error")) ⟨d, .temporary⟩ ⟨d, name⟩ contents.toUTF8

-- The workspace
-- ---

def manifestIn? (directory : Path) : Command (Option Manifest) :=
  tryCatch (some <$> readManifest machine "" directory) fun _ => pure none

/-- `find_workspace_root`: the outermost ancestor with modules. -/
def findWorkspaceRoot (target : Path) : Command Path :=
  (Paths.ancestors target).foldlM
    (fun root ancestor => do
      match ← manifestIn? machine ancestor with
      | none => return root
      | some manifest => return if manifest.project.modules = [] then root else ancestor)
    target

/-- The canonical directory of a module, below the root. -/
def moduleDirectory (root directory : Path) (module : String) : Except Failure Path := do
  let path ← canonicalize machine ("could not resolve module `" ++ module ++ "`")
    (Paths.join directory module)
  if root.isPrefixOf path then return path
  else throw (.message ("module " ++ Paths.display path ++ " escapes workspace " ++
    Paths.display root))

/-- The modules a manifest declares, looked up from the last to the first. -/
def moduleDirectories (root directory : Path) (modules : List String) :
    Except Failure (List Path) :=
  List.reverse <$> modules.reverse.mapM (moduleDirectory machine root directory)

/-- The loop of `workspace_directories`; `pending` is the stack, its top first.
Only existing directories are pending, so by the time `fuel` of them are found
the next one has been seen. -/
def collectDirectories (root : Path) :
    (fuel : Nat) → (pending seen : List Path) → Command (List Path)
  | _, [], seen => return seen
  | 0, directory :: _, _ =>
    throw (.message ("duplicate or cyclic JMAN module " ++ Paths.display directory))
  | fuel + 1, directory :: pending, seen => do
    if directory ∈ seen then
      throw (.message ("duplicate or cyclic JMAN module " ++ Paths.display directory))
    let manifest ← readManifest machine ("could not read module " ++ Paths.display directory)
      directory
    let modules ← check (moduleDirectories machine root directory manifest.project.modules)
    collectDirectories root fuel (modules ++ pending) (seen ++ [directory])

def workspaceDirectories (root : Path) : Command (List Path) := do
  let canonicalRoot ← check
    (canonicalize machine ("could not canonicalize " ++ Paths.display root) root)
  collectDirectories machine canonicalRoot machine.layout.directories.card [canonicalRoot] []

-- What is read and what is written
-- ---

variable {S : Set WorkspaceFile}

theorem touches_check {α : Type} (result : Except Failure α) : Touches S (check result) := by
  cases result with
  | ok a => exact .pure a
  | error e => exact .throw e

theorem touches_contentsOf (error : Failure) (directory : Path) (name : FileName) :
    Touches S (contentsOf machine error directory name) := by
  unfold contentsOf
  split
  · exact .pure none
  · exact .read _ _

theorem touches_readManifest (context : String) (directory : Path) :
    Touches S (readManifest machine context directory) :=
  (touches_contentsOf machine _ directory .manifest).bind fun _ => touches_check _

theorem touches_manifestIn? (directory : Path) : Touches S (manifestIn? machine directory) :=
  .tryCatch (touches_readManifest machine "" directory).map fun _ => .pure none

theorem touches_findWorkspaceRoot (target : Path) : Touches S (findWorkspaceRoot machine target) := by
  refine .foldlM (fun root ancestor => ?_) target
  refine (touches_manifestIn? machine ancestor).bind fun manifest => ?_
  cases manifest with
  | none => exact .pure root
  | some manifest => exact .pure _

theorem touches_collectDirectories (root : Path) (fuel : Nat) (pending seen : List Path) :
    Touches S (collectDirectories machine root fuel pending seen) := by
  induction fuel generalizing pending seen with
  | zero =>
    cases pending with
    | nil => exact .pure seen
    | cons directory pending => exact .throw _
  | succ fuel ih =>
    cases pending with
    | nil => exact .pure seen
    | cons directory pending =>
      unfold collectDirectories
      split
      · exact .throw _
      · refine (touches_readManifest machine _ directory).bind fun manifest => ?_
        exact (touches_check _).bind fun modules => ih _ _

theorem touches_workspaceDirectories (root : Path) :
    Touches S (workspaceDirectories machine root) :=
  (touches_check _).bind fun canonicalRoot =>
    touches_collectDirectories machine canonicalRoot _ _ _

theorem touches_writeAtomically {directory : Path} {name : FileName} (contents : String)
    (htemporary : ∀ f : WorkspaceFile, f.name = .temporary → f ∈ S)
    (hfile : ∀ d, machine.layout.canonicalize directory = some d → ⟨d, name⟩ ∈ S) :
    Touches S (writeAtomically machine directory name contents) := by
  unfold writeAtomically canonicalize
  cases hd : machine.layout.canonicalize directory with
  | none => exact .throw _
  | some d => exact .install _ _ _ (htemporary _ rfl) (hfile d hd)

-- What a successful step found
-- ---

def fileAt (files : Files) (directory : Path) (name : FileName) : Option ByteArray :=
  (machine.layout.canonicalize directory).bind fun d => files ⟨d, name⟩

variable {machine} {w w' : FileStore.World WorkspaceFile ByteArray}

theorem exec_check_eq_ok {α : Type} {result : Except Failure α} {a : α} :
    exec (check result) w = (.ok a, w') ↔ result = .ok a ∧ w' = w := by
  cases result with
  | ok b => simp [check, eq_comm]
  | error e => simp [check]

theorem canonicalize_eq_ok {context : String} {path d : Path} :
    canonicalize machine context path = .ok d ↔ machine.layout.canonicalize path = some d := by
  unfold canonicalize
  cases machine.layout.canonicalize path <;> simp

theorem exec_contentsOf_eq_ok {error : Failure} {directory : Path} {name : FileName}
    {contents : Option ByteArray}
    (h : exec (contentsOf machine error directory name) w = (.ok contents, w')) :
    contents = fileAt machine w.files directory name := by
  unfold contentsOf at h
  unfold fileAt
  split at h
  · next hd =>
    cases h
    rw [hd]
    rfl
  · next d hd =>
    rw [hd]
    exact (FileStore.exec_read_eq_ok h).1

theorem exec_readManifest_eq_ok {context : String} {directory : Path} {manifest : Manifest}
    (h : exec (readManifest machine context directory) w = (.ok manifest, w')) :
    Manifest.read machine.format (pathOf directory .manifest)
      (fileAt machine w.files directory .manifest) = .ok manifest := by
  obtain ⟨contents, v, hcontents, hread⟩ := FileStore.exec_bind_eq_ok.mp h
  rw [exec_check_eq_ok] at hread
  rw [← exec_contentsOf_eq_ok hcontents]
  exact Fallible.mapError_eq_ok.mp hread.1

theorem moduleDirectories_canonical {root directory : Path} {modules : List String}
    {found : List Path} (h : moduleDirectories machine root directory modules = .ok found) :
    ∀ d ∈ found, machine.layout.canonicalize d = some d := by
  obtain ⟨reversed, hreversed, rfl⟩ := Fallible.map_eq_ok.mp h
  intro d hd
  obtain ⟨module, -, hmodule⟩ := Fallible.exists_of_mem_mapM hreversed (List.mem_reverse.mp hd)
  obtain ⟨path, hpath, hbelow⟩ := Fallible.bind_eq_ok.mp hmodule
  split at hbelow
  · cases hbelow
    exact (machine.layout.canonical (canonicalize_eq_ok.mp hpath)).2
  · cases hbelow

theorem exec_collectDirectories_eq_ok {root : Path} {fuel : Nat} {pending seen ds : List Path}
    (h : exec (collectDirectories machine root fuel pending seen) w = (.ok ds, w'))
    (hseen : seen.Nodup) (hcanonical : ∀ d ∈ pending ++ seen, machine.layout.canonicalize d = some d) :
    ds.Nodup ∧ (∀ d ∈ ds, machine.layout.canonicalize d = some d) ∧ ∀ d ∈ pending ++ seen, d ∈ ds := by
  induction fuel generalizing pending seen w with
  | zero =>
    cases pending with
    | nil =>
      cases h
      exact ⟨hseen, hcanonical, fun d hd => hd⟩
    | cons directory pending => cases h
  | succ fuel ih =>
    cases pending with
    | nil =>
      cases h
      exact ⟨hseen, hcanonical, fun d hd => hd⟩
    | cons directory pending =>
      unfold collectDirectories at h
      split at h
      · cases h
      · next hnew =>
        obtain ⟨manifest, v, -, h⟩ := FileStore.exec_bind_eq_ok.mp h
        obtain ⟨modules, v', hmodules, h⟩ := FileStore.exec_bind_eq_ok.mp h
        have hmodules := moduleDirectories_canonical (exec_check_eq_ok.mp hmodules).1
        have hnodup : (seen ++ [directory]).Nodup := by
          rw [List.nodup_append]
          refine ⟨hseen, List.nodup_singleton _, fun a ha b hb hab => ?_⟩
          rw [List.mem_singleton] at hb
          exact hnew (hb ▸ hab ▸ ha)
        obtain ⟨hds, hdsCanonical, hall⟩ := ih h hnodup (by
          intro d hd
          simp only [List.mem_append, List.mem_singleton] at hd
          rcases hd with (hd | hd) | hd | rfl
          · exact hmodules d hd
          · exact hcanonical d (by simp [hd])
          · exact hcanonical d (by simp [hd])
          · exact hcanonical d (by simp))
        refine ⟨hds, hdsCanonical, fun d hd => hall d ?_⟩
        simp only [List.cons_append, List.mem_cons, List.mem_append, List.not_mem_nil,
          or_false] at hd ⊢
        tauto

theorem collectDirectories_agree {root : Path} {fuel : Nat} {pending seen ds ds' : List Path}
    {v v' : FileStore.World WorkspaceFile ByteArray}
    (hmodules : ∀ d m m', Manifest.read machine.format (pathOf d .manifest)
        (fileAt machine w.files d .manifest) = .ok m →
      Manifest.read machine.format (pathOf d .manifest)
        (fileAt machine v.files d .manifest) = .ok m' → m.project.modules = m'.project.modules)
    (h : exec (collectDirectories machine root fuel pending seen) w = (.ok ds, w'))
    (h' : exec (collectDirectories machine root fuel pending seen) v = (.ok ds', v')) : ds = ds' := by
  induction fuel generalizing pending seen w v with
  | zero =>
    cases pending with
    | nil =>
      cases h
      cases h'
      rfl
    | cons directory pending => cases h
  | succ fuel ih =>
    cases pending with
    | nil =>
      cases h
      cases h'
      rfl
    | cons directory pending =>
      unfold collectDirectories at h h'
      split at h
      · cases h
      · next hnew =>
        rw [if_neg hnew] at h'
        obtain ⟨m, u, hread, hrest⟩ := FileStore.exec_bind_eq_ok.mp h
        obtain ⟨m', u', hread', hrest'⟩ := FileStore.exec_bind_eq_ok.mp h'
        obtain ⟨modules, x, hdirs, hwalk⟩ := FileStore.exec_bind_eq_ok.mp hrest
        obtain ⟨modules', x', hdirs', hwalk'⟩ := FileStore.exec_bind_eq_ok.mp hrest'
        -- reading and looking up modules left the files as they were
        have hfiles := (touches_readManifest machine _ directory).files_eq hread
        have hfiles' := (touches_readManifest machine _ directory).files_eq hread'
        obtain ⟨hfound, rfl⟩ := exec_check_eq_ok.mp hdirs
        obtain ⟨hfound', rfl⟩ := exec_check_eq_ok.mp hdirs'
        have heq := hmodules directory m m' (exec_readManifest_eq_ok hread)
          (exec_readManifest_eq_ok hread')
        rw [heq, hfound'] at hfound
        cases hfound
        refine ih (fun d m m' hm hm' => ?_) hwalk hwalk'
        rw [hfiles] at hm
        rw [hfiles'] at hm'
        exact hmodules d m m' hm hm'

theorem exec_workspaceDirectories_eq_ok {root : Path} {ds : List Path}
    (h : exec (workspaceDirectories machine root) w = (.ok ds, w')) :
    ds.Nodup ∧ (∀ d ∈ ds, machine.layout.canonicalize d = some d) ∧
      ∃ r ∈ ds, machine.layout.canonicalize root = some r := by
  obtain ⟨r, v, hcheck, hwalk⟩ := FileStore.exec_bind_eq_ok.mp h
  have hr := canonicalize_eq_ok.mp (exec_check_eq_ok.mp hcheck).1
  obtain ⟨hnodup, hcanonical, hall⟩ := exec_collectDirectories_eq_ok hwalk List.nodup_nil (by
    simpa using (machine.layout.canonical hr).2)
  exact ⟨hnodup, hcanonical, r, hall r (by simp), hr⟩

theorem workspaceDirectories_agree {root : Path} {ds ds' : List Path}
    {v v' : FileStore.World WorkspaceFile ByteArray}
    (hmodules : ∀ d m m', Manifest.read machine.format (pathOf d .manifest)
        (fileAt machine w.files d .manifest) = .ok m →
      Manifest.read machine.format (pathOf d .manifest)
        (fileAt machine v.files d .manifest) = .ok m' → m.project.modules = m'.project.modules)
    (h : exec (workspaceDirectories machine root) w = (.ok ds, w'))
    (h' : exec (workspaceDirectories machine root) v = (.ok ds', v')) : ds = ds' := by
  obtain ⟨r, u, hr, hwalk⟩ := FileStore.exec_bind_eq_ok.mp h
  obtain ⟨r', u', hr', hwalk'⟩ := FileStore.exec_bind_eq_ok.mp h'
  obtain ⟨hroot, rfl⟩ := exec_check_eq_ok.mp hr
  obtain ⟨hroot', rfl⟩ := exec_check_eq_ok.mp hr'
  cases hroot.symm.trans hroot'
  exact collectDirectories_agree hmodules hwalk hwalk'

theorem exec_writeAtomically_eq_ok {directory : Path} {name : FileName} {contents : String}
    (h : exec (writeAtomically machine directory name contents) w = (.ok (), w')) :
    ∃ d, machine.layout.canonicalize directory = some d ∧
      w'.files ⟨d, name⟩ = some contents.toUTF8 := by
  obtain ⟨d, v, hd, hinstall⟩ := FileStore.exec_bind_eq_ok.mp h
  exact ⟨d, canonicalize_eq_ok.mp (exec_check_eq_ok.mp hd).1, FileStore.exec_install_eq_ok hinstall⟩

end Machine

end JMan.Cli
