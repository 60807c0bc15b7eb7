import Mathlib.Data.Finset.Sort
import Mathlib.Data.Finset.Image
import Mathlib.Data.List.DropRight
import JMan.Lib.Loop
import JMan.Lsp.FileUris

/-!
# JMan — the folders of a workspace

`WorkspaceBackend` of `workspace_backend.rs`: one backend for each root, kept in the order
of the URIs, and the routing of documents and changes to them. A root is known by the URI
it was added with, less its slashes at the end; a folder is removed under its URI, less
these slashes, but added under its URI as it is written.

* `folders_are_tracked` — the folders are those added last, in every run whose calls keep to the spelling.
* `trailing_slash_adds_twice` — the smallest run that does not.
-/

namespace JMan.Lsp.WorkspaceBackend

-- The registry
-- ---

abbrev FolderPath := List String

/-- The components of a path, the root directory among them. -/
def componentsOf (path : String) : FolderPath :=
  let start := if Paths.isAbsolute path then ["/"]
    else if (path.toList.splitOn '/').head? = some ['.'] then ["."] else []
  start ++ Paths.segments path

def folderOf (uri : String) : Option FolderPath := (fileUriToPath uri).map componentsOf

/-- `uri.trim_end_matches('/')` -/
def trimSlashes (uri : String) : String := String.ofList (uri.toList.rdropWhile fun c => c = '/')

structure Workspace where
  uri : String
  path : FolderPath
deriving DecidableEq

abbrev Registry := List Workspace

def sameRoot (left right : String) : Bool := trimSlashes left = trimSlashes right

namespace Registry

variable (registry : Registry)

def add (uri : String) : Except String Registry :=
  if registry.any fun workspace => workspace.uri = uri then .ok registry
  else
    match folderOf uri with
    | none => .error ("workspace folder is not a file URI: " ++ uri)
    | some path => .ok (List.mergeSort (registry ++ [(⟨trimSlashes uri, path⟩ : Workspace)])
        fun left right => (compare left.uri right.uri).isLE)

/-- What is left of the registry, where a URI that cannot be added ends the loop. -/
def addAll (registry : Registry) : List String → Registry × Except String Unit
  | [] => (registry, .ok ())
  | uri :: rest =>
    match add registry uri with
    | .error error => (registry, .error error)
    | .ok registry => addAll registry rest

def retain (removed : List String) : Registry :=
  registry.filter fun workspace => !removed.any fun uri => sameRoot uri workspace.uri

def workspaceFoldersChanged (added removed : List String) : Registry × Except String Unit :=
  (registry.retain removed).addAll added

-- Routing

/-- `max_by_key`: the last of the greatest -/
def lastMax {α : Type} (key : α → Nat) : List α → Option α
  | [] => none
  | x :: rest =>
    match lastMax key rest with
    | none => some x
    | some best => if key best < key x then some x else some best

def owningIndex (uri : String) : Option Nat :=
  (folderOf uri).bind fun path =>
    (lastMax (fun entry => entry.1.path.length)
      (registry.zipIdx.filter fun entry => entry.1.path <+: path)).map Prod.snd

def rootsForChanges (changes : List String) : List Nat :=
  if changes = [] then List.range registry.length
  else (changes.filterMap registry.owningIndex).toFinset.sort

def deliveries (changes : List String) : List (Nat × List String) :=
  (registry.rootsForChanges changes).map fun index =>
    (index, changes.filter fun uri => registry.owningIndex uri = some index)

/-- The deliveries of `reload`, which ends where a backend fails. -/
def reload (succeeds : Nat → Bool) : List (Nat × List String) → List (Nat × List String)
  | [] => []
  | delivery :: rest => if succeeds delivery.1 then delivery :: reload succeeds rest else [delivery]

end Registry

-- Calls
-- ---

inductive FolderCall where
  | start (rootUri : Option String)
  | change (added removed : List String)
  /-- `reload`, with what the reloads of the backends come to. -/
  | reload (changed : List String) (succeeds : Nat → Bool)

def FolderCall.uris : FolderCall → List String
  | .start rootUri => rootUri.toList
  | .change added removed => added ++ removed
  | .reload _ _ => []

def Registry.apply (registry : Registry) : FolderCall → Registry
  | .start rootUri => (registry.addAll rootUri.toList).1
  | .change added removed => (registry.workspaceFoldersChanged added removed).1
  | .reload _ _ => registry

def Registry.run (calls : List FolderCall) : Registry := calls.foldl Registry.apply []

-- The roots that have been added and not removed since

def addRoots (roots : Finset FolderPath) (uris : List String) : Finset FolderPath :=
  uris.foldl (fun roots uri => (folderOf uri).elim roots fun path => insert path roots) roots

def changeRoots (roots : Finset FolderPath) : FolderCall → Finset FolderPath
  | .start rootUri => addRoots roots rootUri.toList
  | .change added removed =>
    addRoots (roots.filter fun path => ∀ uri ∈ removed, folderOf uri ≠ some path) added
  | .reload _ _ => roots

def rootsAfter (calls : List FolderCall) : Finset FolderPath := calls.foldl changeRoots ∅

-- What should hold
-- ---

structure Tracks (registry : Registry) (roots : Finset FolderPath) : Prop where
  nodup : (registry.map Workspace.path).Nodup
  mem : ∀ path, path ∈ registry.map Workspace.path ↔ path ∈ roots

/-- Every document belongs to the deepest root that contains it. -/
def Routes (registry : Registry) (roots : Finset FolderPath) : Prop :=
  ∀ uri path, folderOf uri = some path → ∀ index, registry.owningIndex uri = some index ↔
    ∃ workspace, registry[index]? = some workspace ∧ workspace.path <+: path ∧
      ∀ root ∈ roots, root <+: path → root <+: workspace.path

/-- Every change is handed to the backend it belongs to, which is told once. -/
def Delivers (registry : Registry) (changes : List String) (deliveries : List (Nat × List String)) : Prop :=
  (deliveries.map Prod.fst).Nodup ∧ ∀ uri ∈ changes, ∀ index,
    (∃ owned, (index, owned) ∈ deliveries ∧ uri ∈ owned) ↔ registry.owningIndex uri = some index

/-- A root is added under the URI it is known by, if it is known. -/
def AddsKnown (registry : Registry) (uri : String) : Prop :=
  (∃ workspace ∈ registry, workspace.uri = uri) ↔ ∃ workspace ∈ registry, folderOf uri = some workspace.path

def AddsAllKnown (registry : Registry) : List String → Prop
  | [] => True
  | uri :: rest => AddsKnown registry uri ∧ ∀ next, registry.add uri = .ok next → AddsAllKnown next rest

/-- A root is removed under a URI it is known by, up to slashes at the end. -/
def RemovesKnown (registry : Registry) (removed : List String) : Prop :=
  ∀ workspace ∈ registry, (∃ uri ∈ removed, sameRoot uri workspace.uri) ↔
    ∃ uri ∈ removed, folderOf uri = some workspace.path

/-- A call spells the roots as they are known, and of the backends that are reloaded none
but the last fails. -/
def KeepsSpelling (registry : Registry) : FolderCall → Prop
  | .start rootUri => AddsAllKnown registry rootUri.toList
  | .change added removed => RemovesKnown registry removed ∧ AddsAllKnown (registry.retain removed) added
  | .reload changed succeeds => ∀ index ∈ (registry.rootsForChanges changed).dropLast, succeeds index

-- One backend for each root
-- ---

section Tracking

variable {registry next : Registry} {roots : Finset FolderPath} {uri : String} {path : FolderPath}

theorem Tracks.add (h : Tracks registry roots) (hfile : folderOf uri = some path)
    (hknown : AddsKnown registry uri) :
    ∃ next, registry.add uri = .ok next ∧ Tracks next (insert path roots) := by
  unfold Registry.add
  by_cases hold : registry.any fun workspace => workspace.uri = uri
  · refine ⟨registry, by rw [if_pos hold], h.nodup, ?_⟩
    obtain ⟨workspace, hworkspace, huri⟩ := hknown.mp (by simpa using hold)
    have hin : path ∈ roots := by
      rw [hfile] at huri
      exact (h.mem path).mp (List.mem_map.mpr ⟨workspace, hworkspace, (Option.some.inj huri).symm⟩)
    intro other
    rw [h.mem other, Finset.insert_eq_of_mem hin]
  · have hnew : path ∉ registry.map Workspace.path := by
      intro hmem
      obtain ⟨workspace, hworkspace, hpath⟩ := List.mem_map.mp hmem
      have hsame := hknown.mpr ⟨workspace, hworkspace, by rw [hfile, hpath]⟩
      exact hold (by simpa using hsame)
    refine ⟨_, by rw [if_neg hold, hfile], ?_, ?_⟩
    · have hperm := (List.mergeSort_perm (registry ++ [(⟨trimSlashes uri, path⟩ : Workspace)])
        fun left right => (compare left.uri right.uri).isLE).map Workspace.path
      rw [hperm.nodup_iff, List.map_append, List.nodup_append]
      refine ⟨h.nodup, by simp, ?_⟩
      intro a ha b hb hab
      rw [List.map_singleton, List.mem_singleton] at hb
      have hpath : a = path := hab.trans hb
      exact hnew (hpath ▸ ha)
    · intro other
      have hperm := (List.mergeSort_perm (registry ++ [(⟨trimSlashes uri, path⟩ : Workspace)])
        fun left right => (compare left.uri right.uri).isLE).map Workspace.path
      rw [hperm.mem_iff, List.map_append, List.mem_append, h.mem other, List.map_singleton,
        List.mem_singleton, Finset.mem_insert]
      exact or_comm

theorem Tracks.addAll {uris : List String} (h : Tracks registry roots)
    (hfile : ∀ uri ∈ uris, (folderOf uri).isSome) (hknown : AddsAllKnown registry uris) :
    Tracks (registry.addAll uris).1 (addRoots roots uris) := by
  induction uris generalizing registry roots with
  | nil => exact h
  | cons uri rest ih =>
    obtain ⟨path, hpath⟩ := Option.isSome_iff_exists.mp (hfile uri List.mem_cons_self)
    obtain ⟨next, hnext, htracks⟩ := h.add hpath hknown.1
    have hrest := ih htracks (fun uri huri => hfile uri (List.mem_cons_of_mem _ huri)) (hknown.2 next hnext)
    simpa [Registry.addAll, addRoots, hnext, hpath] using hrest

theorem Tracks.retain {removed : List String} (h : Tracks registry roots)
    (hknown : RemovesKnown registry removed) :
    Tracks (registry.retain removed) (roots.filter fun path => ∀ uri ∈ removed, folderOf uri ≠ some path) := by
  constructor
  · exact h.nodup.sublist (List.filter_sublist.map _)
  · intro path
    rw [Finset.mem_filter, ← h.mem path]
    simp only [Registry.retain, List.mem_map, List.mem_filter]
    constructor
    · rintro ⟨workspace, ⟨hworkspace, hkept⟩, rfl⟩
      refine ⟨⟨workspace, hworkspace, rfl⟩, ?_⟩
      intro uri huri hsame
      obtain ⟨other, hother, hroot⟩ := (hknown workspace hworkspace).mpr ⟨uri, huri, hsame⟩
      have hany : removed.any (fun uri => sameRoot uri workspace.uri) = true :=
        List.any_eq_true.mpr ⟨other, hother, hroot⟩
      rw [hany] at hkept
      cases hkept
    · rintro ⟨⟨workspace, hworkspace, rfl⟩, hnone⟩
      refine ⟨workspace, ⟨hworkspace, ?_⟩, rfl⟩
      by_contra hgone
      have hany : removed.any (fun uri => sameRoot uri workspace.uri) = true := by simpa using hgone
      obtain ⟨uri, huri, hsame⟩ := (hknown workspace hworkspace).mp (List.any_eq_true.mp hany)
      exact hnone uri huri hsame

/-- **A call keeps one backend for each root** if it spells the roots as they are known. -/
theorem Tracks.apply {call : FolderCall} (h : Tracks registry roots)
    (hfile : ∀ uri ∈ call.uris, (folderOf uri).isSome) (hkeeps : KeepsSpelling registry call) :
    Tracks (registry.apply call) (changeRoots roots call) := by
  cases call with
  | start rootUri => exact h.addAll hfile hkeeps
  | change added removed =>
    have hadded : ∀ uri ∈ added, (folderOf uri).isSome :=
      fun uri huri => hfile uri (List.mem_append_left _ huri)
    exact (h.retain hkeeps.1).addAll hadded hkeeps.2
  | reload changed succeeds => exact h

theorem tracks_run {calls : List FolderCall}
    (hfile : ∀ call ∈ calls, ∀ uri ∈ call.uris, (folderOf uri).isSome)
    (h : Loop.Guarded KeepsSpelling Registry.apply registry calls) (hstart : Tracks registry roots) :
    Tracks (calls.foldl Registry.apply registry) (calls.foldl changeRoots roots) := by
  induction calls generalizing registry roots with
  | nil => exact hstart
  | cons call rest ih =>
    have hnext := hstart.apply (hfile call List.mem_cons_self) h.1
    exact ih (fun call hcall => hfile call (List.mem_cons_of_mem _ hcall)) h.2 hnext

end Tracking

-- Routing
-- ---

section Routing

variable {registry : Registry} {roots : Finset FolderPath}

theorem lastMax_isSome {α : Type} (key : α → Nat) {xs : List α} (h : xs ≠ []) :
    ∃ best, Registry.lastMax key xs = some best := by
  cases xs with
  | nil => exact absurd rfl h
  | cons x rest =>
    unfold Registry.lastMax
    split
    · exact ⟨x, rfl⟩
    · split
      · exact ⟨x, rfl⟩
      · exact ⟨_, rfl⟩

theorem lastMax_spec {α : Type} {key : α → Nat} {xs : List α} {best : α}
    (h : Registry.lastMax key xs = some best) : best ∈ xs ∧ ∀ x ∈ xs, key x ≤ key best := by
  induction xs generalizing best with
  | nil => cases h
  | cons x rest ih =>
    unfold Registry.lastMax at h
    split at h
    · next hnone =>
      have hrest : rest = [] := by
        by_contra hne
        obtain ⟨other, hother⟩ := lastMax_isSome key hne
        rw [hnone] at hother
        cases hother
      subst hrest
      obtain rfl := Option.some.inj h
      simp
    · next other hother =>
      obtain ⟨hmem, hmax⟩ := ih hother
      split at h
      · next hlt =>
        obtain rfl := Option.some.inj h
        refine ⟨List.mem_cons_self, ?_⟩
        intro y hy
        rcases List.mem_cons.mp hy with rfl | hy
        · exact le_refl _
        · exact le_trans (hmax y hy) (by omega)
      · next hle =>
        obtain rfl := Option.some.inj h
        refine ⟨List.mem_cons_of_mem _ hmem, ?_⟩
        intro y hy
        rcases List.mem_cons.mp hy with rfl | hy
        · omega
        · exact hmax y hy

theorem Tracks.index_unique (h : Tracks registry roots) {i j : Nat} {left right : Workspace}
    (hleft : registry[i]? = some left) (hright : registry[j]? = some right)
    (hpath : left.path = right.path) : i = j := by
  have hi : i < (registry.map Workspace.path).length := by
    rw [List.length_map]
    exact (List.getElem?_eq_some_iff.mp hleft).1
  refine (List.getElem?_inj hi h.nodup).mp ?_
  rw [List.getElem?_map, List.getElem?_map, hleft, hright]
  simp [hpath]

/-- **Every document goes to the deepest root that contains it.** -/
theorem routes_of_tracks (h : Tracks registry roots) : Routes registry roots := by
  intro uri path hpath index
  have hmem (entry : Workspace × Nat) :
      entry ∈ (registry.zipIdx.filter fun entry => entry.1.path <+: path) ↔
        registry[entry.2]? = some entry.1 ∧ entry.1.path <+: path := by
    rw [List.mem_filter, List.mem_zipIdx_iff_getElem?]
    simp
  -- the longest of the roots that contain the document is the deepest
  have hdeepest (best : Workspace × Nat)
      (hbest : Registry.lastMax (fun entry => entry.1.path.length)
        (registry.zipIdx.filter fun entry => entry.1.path <+: path) = some best) :
      registry[best.2]? = some best.1 ∧ best.1.path <+: path ∧
        ∀ root ∈ roots, root <+: path → root <+: best.1.path := by
    obtain ⟨hin, hmax⟩ := lastMax_spec hbest
    obtain ⟨hget, hcontains⟩ := (hmem best).mp hin
    refine ⟨hget, hcontains, ?_⟩
    intro root hroot hprefix
    obtain ⟨workspace, hworkspace, rfl⟩ := List.mem_map.mp ((h.mem root).mpr hroot)
    obtain ⟨i, hi⟩ := List.getElem?_of_mem hworkspace
    have hlength := hmax (workspace, i) ((hmem (workspace, i)).mpr ⟨hi, hprefix⟩)
    exact List.prefix_of_prefix_length_le hprefix hcontains hlength
  simp only [Registry.owningIndex, hpath, Option.bind_some, Option.map_eq_some_iff]
  constructor
  · rintro ⟨best, hbest, rfl⟩
    exact ⟨best.1, hdeepest best hbest⟩
  · rintro ⟨workspace, hget, hcontains, hdeep⟩
    have hne : (registry.zipIdx.filter fun entry => entry.1.path <+: path) ≠ [] :=
      List.ne_nil_of_mem ((hmem (workspace, index)).mpr ⟨hget, hcontains⟩)
    obtain ⟨best, hbest⟩ := lastMax_isSome (fun entry => entry.1.path.length) hne
    obtain ⟨hbestGet, hbestContains, hbestDeep⟩ := hdeepest best hbest
    refine ⟨best, hbest, ?_⟩
    have hroot {i : Nat} {workspace : Workspace} (hget : registry[i]? = some workspace) :
        workspace.path ∈ roots :=
      (h.mem _).mp (List.mem_map.mpr ⟨workspace, List.mem_of_getElem? hget, rfl⟩)
    have hle := hdeep best.1.path (hroot hbestGet) hbestContains
    have hge := hbestDeep workspace.path (hroot hget) hcontains
    exact h.index_unique hbestGet hget (hle.eq_of_length_le hge.length_le)

theorem mem_rootsForChanges {changes : List String} {uri : String} {index : Nat} (huri : uri ∈ changes)
    (h : registry.owningIndex uri = some index) : index ∈ registry.rootsForChanges changes := by
  unfold Registry.rootsForChanges
  rw [if_neg (List.ne_nil_of_mem huri), Finset.mem_sort, List.mem_toFinset, List.mem_filterMap]
  exact ⟨uri, huri, h⟩

theorem nodup_rootsForChanges (changes : List String) : (registry.rootsForChanges changes).Nodup := by
  unfold Registry.rootsForChanges
  split
  · exact List.nodup_range
  · exact Finset.sort_nodup _ _

theorem map_fst_deliveries (changes : List String) :
    (registry.deliveries changes).map Prod.fst = registry.rootsForChanges changes := by
  simp [Registry.deliveries, Function.comp_def]

theorem delivers_deliveries (changes : List String) :
    Delivers registry changes (registry.deliveries changes) := by
  constructor
  · rw [map_fst_deliveries]
    exact nodup_rootsForChanges changes
  · intro uri huri index
    simp only [Registry.deliveries, List.mem_map, Prod.mk.injEq]
    constructor
    · rintro ⟨owned, ⟨i, _, rfl, rfl⟩, hmem⟩
      simpa using (List.mem_filter.mp hmem).2
    · intro howner
      refine ⟨_, ⟨index, mem_rootsForChanges huri howner, rfl, rfl⟩, ?_⟩
      exact List.mem_filter.mpr ⟨huri, by simpa using howner⟩

theorem reload_eq_self {succeeds : Nat → Bool} : ∀ {deliveries : List (Nat × List String)},
    (∀ index ∈ (deliveries.map Prod.fst).dropLast, succeeds index) →
    Registry.reload succeeds deliveries = deliveries
  | [], _ => rfl
  | [delivery], _ => by simp [Registry.reload]
  | delivery :: other :: rest, h => by
    have hfirst : succeeds delivery.1 = true := h _ (by simp)
    have hrest : Registry.reload succeeds (other :: rest) = other :: rest :=
      reload_eq_self fun index hindex => h index (by
        simp only [List.map_cons, List.dropLast_cons_cons, List.mem_cons] at hindex ⊢
        exact Or.inr hindex)
    rw [Registry.reload, if_pos hfirst, hrest]

end Routing

-- Runs
-- ---

theorem tracks_nil : Tracks [] ∅ := ⟨List.nodup_nil, by simp⟩

/-- **The registry of a workspace.** In every run whose calls keep to the spelling there is,
whenever it stands, one backend for each root, every document goes to the deepest root
that contains it, and every change to that root's backend. -/
theorem folders_are_tracked (calls before after : List FolderCall)
    (hfile : ∀ call ∈ calls, ∀ uri ∈ call.uris, (folderOf uri).isSome)
    (h : Loop.Guarded KeepsSpelling Registry.apply [] calls) (hcalls : calls = before ++ after) :
    let registry := Registry.run before
    Tracks registry (rootsAfter before) ∧ Routes registry (rootsAfter before) ∧
      (∀ documents, Delivers registry documents (registry.deliveries documents)) ∧
      ∀ changed succeeds rest, after = .reload changed succeeds :: rest →
        Delivers registry changed (Registry.reload succeeds (registry.deliveries changed)) := by
  intro registry
  subst hcalls
  have hbefore : ∀ call ∈ before, ∀ uri ∈ call.uris, (folderOf uri).isSome :=
    fun call hcall => hfile call (List.mem_append_left _ hcall)
  have htracks : Tracks registry (rootsAfter before) := tracks_run hbefore h.of_append tracks_nil
  refine ⟨htracks, routes_of_tracks htracks, delivers_deliveries, ?_⟩
  rintro changed succeeds rest rfl
  have hall : ∀ index ∈ (registry.rootsForChanges changed).dropLast, succeeds index := h.at_step
  rw [reload_eq_self (by rw [map_fst_deliveries]; exact hall)]
  exact delivers_deliveries changed

theorem folderOf_serverUri (path : String) (h : '%' ∉ path.toList) :
    folderOf (serverUri path) = some (componentsOf path) := by
  rw [folderOf, fileUriToPath_serverUri, (percentDecode_eq_self path).mpr h, Option.map_some]

theorem folderOf_a : folderOf "file:///a" = some ["/", "a"] := folderOf_serverUri "/a" (by decide)

theorem folderOf_a_slash : folderOf "file:///a/" = some ["/", "a"] :=
  folderOf_serverUri "/a/" (by decide)

theorem folderOf_b : folderOf "file:///b" = some ["/", "b"] := folderOf_serverUri "/b" (by decide)

theorem run_start_a :
    Registry.apply [] (.start (some "file:///a")) = [⟨"file:///a", ["/", "a"]⟩] := by
  have htrim : trimSlashes "file:///a" = "file:///a" := by decide
  simp [Registry.apply, Registry.addAll, Registry.add, folderOf_a, htrim]

/-- A folder removed under a URI with a slash at its end, and another added. -/
theorem folders_are_tracked_replaced :
    Tracks (Registry.run [.start (some "file:///a"), .change ["file:///b"] ["file:///a/"]])
      (rootsAfter [.start (some "file:///a"), .change ["file:///b"] ["file:///a/"]]) := by
  refine (folders_are_tracked _ _ [] ?_ ?_ (List.append_nil _).symm).1
  · simp [FolderCall.uris, folderOf_a, folderOf_a_slash, folderOf_b]
  · have hsame : sameRoot "file:///a/" "file:///a" = true := by decide
    refine ⟨⟨by simp [AddsKnown], fun _ _ => trivial⟩, ?_, trivial⟩
    rw [run_start_a]
    refine ⟨by simp [RemovesKnown, hsame, folderOf_a_slash], ?_, fun _ _ => trivial⟩
    simp [AddsKnown, Registry.retain, hsame]

/-- With a slash at its end the URI of a known root is not recognised, and the root has
two backends. -/
theorem trailing_slash_adds_twice :
    Registry.run [.start (some "file:///a"), .change ["file:///a/"] []] =
        [⟨"file:///a", ["/", "a"]⟩, ⟨"file:///a", ["/", "a"]⟩] ∧
      ¬ Tracks (Registry.run [.start (some "file:///a"), .change ["file:///a/"] []])
        (rootsAfter [.start (some "file:///a"), .change ["file:///a/"] []]) := by
  have htrim : trimSlashes "file:///a/" = "file:///a" := by decide
  have hrun : Registry.run [.start (some "file:///a"), .change ["file:///a/"] []] =
      List.replicate 2 ⟨"file:///a", ["/", "a"]⟩ := by
    show Registry.apply (Registry.apply [] (.start (some "file:///a"))) (.change ["file:///a/"] []) = _
    rw [run_start_a]
    have hperm := List.mergeSort_perm (List.replicate 2 (⟨"file:///a", ["/", "a"]⟩ : Workspace))
      fun left right => (compare left.uri right.uri).isLE
    simpa [Registry.apply, Registry.workspaceFoldersChanged, Registry.retain, Registry.addAll,
      Registry.add, folderOf_a_slash, htrim] using List.perm_replicate.mp hperm
  refine ⟨hrun, ?_⟩
  intro h
  have hnodup := h.nodup
  rw [hrun] at hnodup
  exact absurd hnodup (by decide)

end JMan.Lsp.WorkspaceBackend
