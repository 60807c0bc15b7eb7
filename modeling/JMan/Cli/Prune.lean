import Mathlib.Data.String.Basic
import JMan.Cli.Workspace
import JMan.Lib.FileTrees

/-!
# JMan — pruning the caches

`prune_node` and `prune_path` of `jman-cli/src/storage.rs`. A tree of files is pruned from
below: the files and links that were last modified at or before a cutoff, and then the
directories of which that is true and nothing is left. A dry run says what would go.

* `pruneEntry_exact` — what a run removes and reports, told by the paths of the tree.
-/

namespace JMan.Cli

open FileTrees

-- What is counted
-- ---

/-- `u64::saturating_add` -/
def saturatingAdd (a b : UInt64) : UInt64 :=
  if a.toNat + b.toNat < 2 ^ 64 then a + b else 0xFFFFFFFFFFFFFFFF

structure StorageStats where
  bytes : UInt64 := 0
  files : UInt64 := 0
  directories : UInt64 := 0
deriving DecidableEq

def StorageStats.add (stats other : StorageStats) : StorageStats :=
  ⟨saturatingAdd stats.bytes other.bytes, saturatingAdd stats.files other.files,
    saturatingAdd stats.directories other.directories⟩

-- Trees of files
-- ---

/-- What `symlink_metadata` says of an entry, and the errors that the operations on it meet. -/
structure Metadata where
  /-- No time where the file system has none. -/
  modified : Option Int
  len : UInt64
  inspection : Option String := none
  reading : Option String := none
  listing : Option String := none
  removal : Option String := none
deriving DecidableEq

def Metadata.old (metadata : Metadata) (cutoff : Int) : Bool := metadata.modified.any (· ≤ cutoff)

abbrev CacheEntry := Tree String Metadata

abbrev CacheEntries := Entries String Metadata

/-- A tree whose directories list their entries by name, which is how `read_dir` and the sort
behind it give them. -/
structure CacheTree where
  entry : CacheEntry
  ordered : entry.Ordered

/-- `fs::remove_dir` of a directory with these entries. -/
def removeDir (metadata : Metadata) (left : CacheEntries) : Option String :=
  if left.isEmpty then metadata.removal else some "Directory not empty (os error 39)"

-- Pruning
-- ---

/-- What was counted, and whether the entry was removed, or so far every entry of a
directory. -/
abbrev PruneResult := Except Failure (StorageStats × Bool)

section Prune

variable (cutoff : Int) (dryRun : Bool)

/-- `prune_node` of a file, a link or a special file -/
def pruneLeaf (path : String) (kind : LeafKind) (metadata : Metadata) : Option CacheEntry × PruneResult :=
  let entry : CacheEntry := .leaf kind metadata
  match metadata.inspection with
  | some source => (some entry, .error (.context ("could not inspect " ++ path) (.io source)))
  | none =>
    if kind = .special then (some entry, .ok ({}, false))
    else if !metadata.old cutoff then (some entry, .ok ({}, false))
    else if dryRun then (some entry, .ok ({ bytes := metadata.len, files := 1 }, true))
    else
      match metadata.removal with
      | some source => (some entry, .error (.context ("could not remove " ++ path) (.io source)))
      | none => (none, .ok ({ bytes := metadata.len, files := 1 }, true))

/-- What `prune_node` does with a directory when its entries are pruned. -/
def pruneDirectory (path : String) (removeSelf : Bool) (metadata : Metadata)
    (left : CacheEntries) (stats : StorageStats) (emptyAfter : Bool) : Option CacheEntry × PruneResult :=
  let entry : CacheEntry := .directory metadata left
  if removeSelf && metadata.old cutoff && emptyAfter then
    let removed := { stats with directories := saturatingAdd stats.directories 1 }
    if dryRun then (some entry, .ok (removed, true))
    else
      match removeDir metadata left with
      | some source => (some entry, .error (.context ("could not remove directory " ++ path) (.io source)))
      | none => (none, .ok (removed, true))
  else (some entry, .ok (stats, false))

mutual

/-- `prune_node` of an entry that is there: what is left of it, and the result. -/
def pruneEntry (path : String) (removeSelf : Bool) : CacheEntry → Option CacheEntry × PruneResult
  | .leaf kind metadata => pruneLeaf cutoff dryRun path kind metadata
  | .directory metadata inside =>
    let entry : CacheEntry := .directory metadata inside
    match metadata.inspection, metadata.reading, metadata.listing with
    | some source, _, _ => (some entry, .error (.context ("could not inspect " ++ path) (.io source)))
    | none, some source, _ => (some entry, .error (.context ("could not read directory " ++ path) (.io source)))
    | none, none, some source =>
      (some entry, .error (.context ("could not read entries in " ++ path) (.io source)))
    | none, none, none =>
      match pruneEntries path {} true inside with
      | (left, .error failure) => (some (.directory metadata left), .error failure)
      | (left, .ok (stats, emptyAfter)) =>
        pruneDirectory cutoff dryRun path removeSelf metadata left stats emptyAfter

def pruneEntries (directory : String) (stats : StorageStats) (emptyAfter : Bool) :
    CacheEntries → CacheEntries × PruneResult
  | .nil => (.nil, .ok (stats, emptyAfter))
  | .cons name entry rest =>
    match pruneEntry (directory ++ "/" ++ name) true entry with
    | (left, .error failure) => (rest.put name left, .error failure)
    | (left, .ok (child, removed)) =>
      let after := pruneEntries directory (stats.add child) (emptyAfter && removed) rest
      (after.1.put name left, after.2)

end

/-- `prune_node`; nothing where there is no entry -/
def pruneNode (path : String) (removeSelf : Bool) : Option CacheEntry → Option CacheEntry × PruneResult
  | none => (none, .ok ({}, true))
  | some entry => pruneEntry cutoff dryRun path removeSelf entry

def prunePath (path : String) (entry : Option CacheEntry) : Option CacheEntry × Except Failure StorageStats :=
  let pruned := pruneNode cutoff dryRun path false entry
  (pruned.1, pruned.2.map Prod.fst)

end Prune

-- The dry run
-- ---

section DryRun

variable {cutoff : Int}

theorem pruneLeaf_kept (path : String) (kind : LeafKind) (metadata : Metadata) :
    (pruneLeaf cutoff true path kind metadata).1 = some (.leaf kind metadata) := by
  unfold pruneLeaf
  cases metadata.inspection with
  | some source => rfl
  | none =>
    simp only
    split_ifs <;> rfl

theorem pruneDirectory_kept (path : String) (removeSelf : Bool) (metadata : Metadata) (inside : CacheEntries)
    (stats : StorageStats) (emptyAfter : Bool) :
    (pruneDirectory cutoff true path removeSelf metadata inside stats emptyAfter).1 =
      some (.directory metadata inside) := by
  unfold pruneDirectory
  split <;> rfl

mutual

theorem pruneEntry_kept (path : String) (removeSelf : Bool) :
    ∀ entry : CacheEntry, (pruneEntry cutoff true path removeSelf entry).1 = some entry
  | .leaf kind metadata => pruneLeaf_kept path kind metadata
  | .directory metadata inside => by
    have hinside := pruneEntries_kept path {} true inside
    rw [pruneEntry]
    split
    · rfl
    · rfl
    · rfl
    · split
      · rename_i left failure hleft
        rw [hleft] at hinside
        obtain rfl : left = inside := hinside
        rfl
      · rename_i left stats emptyAfter hleft
        rw [hleft] at hinside
        obtain rfl : left = inside := hinside
        exact pruneDirectory_kept ..

theorem pruneEntries_kept (directory : String) (stats : StorageStats) (emptyAfter : Bool) :
    ∀ inside : CacheEntries, (pruneEntries cutoff true directory stats emptyAfter inside).1 = inside
  | .nil => rfl
  | .cons name entry rest => by
    have hentry := pruneEntry_kept (directory ++ "/" ++ name) true entry
    rw [pruneEntries]
    split
    · rename_i left failure hleft
      rw [hleft] at hentry
      obtain rfl : left = some entry := hentry
      rfl
    · rename_i left child removed hleft
      rw [hleft] at hentry
      obtain rfl : left = some entry := hentry
      exact congrArg (Entries.cons name entry) (pruneEntries_kept directory _ _ rest)

end

-- The real run
-- ---

theorem pruneLeaf_dryRun {path : String} {kind : LeafKind} {metadata : Metadata} {result : StorageStats × Bool}
    (h : (pruneLeaf cutoff false path kind metadata).2 = .ok result) :
    (pruneLeaf cutoff true path kind metadata).2 = .ok result := by
  unfold pruneLeaf at h ⊢
  cases hinspection : metadata.inspection with
  | some source =>
    rw [hinspection] at h
    cases h
  | none =>
    simp only [hinspection, Bool.false_eq_true, if_false, if_true] at h ⊢
    split_ifs at h ⊢ with hspecial hold
    · exact h
    · exact h
    · cases hremoval : metadata.removal with
      | some source =>
        rw [hremoval] at h
        cases h
      | none =>
        rw [hremoval] at h
        exact h

theorem pruneDirectory_dryRun {path : String} {removeSelf : Bool} {metadata : Metadata} {inside left : CacheEntries}
    {stats : StorageStats} {emptyAfter : Bool} {result : StorageStats × Bool}
    (h : (pruneDirectory cutoff false path removeSelf metadata left stats emptyAfter).2 = .ok result) :
    (pruneDirectory cutoff true path removeSelf metadata inside stats emptyAfter).2 = .ok result := by
  unfold pruneDirectory at h ⊢
  split at h
  · rename_i hgoes
    rw [if_pos hgoes]
    cases hremove : removeDir metadata left with
    | some source =>
      simp only [hremove] at h
      cases h
    | none =>
      simp only [hremove] at h
      exact h
  · rename_i hstays
    rw [if_neg hstays]
    exact h

mutual

/-- **A dry run reports what a real run reports that succeeds.** -/
theorem pruneEntry_dryRun {result : StorageStats × Bool} (path : String) (removeSelf : Bool) :
    ∀ entry : CacheEntry, (pruneEntry cutoff false path removeSelf entry).2 = .ok result →
      (pruneEntry cutoff true path removeSelf entry).2 = .ok result
  | .leaf _ _, h => pruneLeaf_dryRun h
  | .directory metadata inside, h => by
    rw [pruneEntry] at h ⊢
    split at h
    · cases h
    · cases h
    · cases h
    · split at h
      · cases h
      · rename_i hinspection hreading hlisting _ left stats emptyAfter hleft
        have hinside := pruneEntries_dryRun path {} true inside (congrArg Prod.snd hleft)
        obtain ⟨dry, hdry⟩ : ∃ dry, pruneEntries cutoff true path {} true inside = (dry, .ok (stats, emptyAfter)) :=
          ⟨_, Prod.ext rfl hinside⟩
        simp only [hdry]
        exact pruneDirectory_dryRun h

theorem pruneEntries_dryRun {result : StorageStats × Bool} (directory : String) (stats : StorageStats)
    (emptyAfter : Bool) : ∀ inside : CacheEntries,
      (pruneEntries cutoff false directory stats emptyAfter inside).2 = .ok result →
        (pruneEntries cutoff true directory stats emptyAfter inside).2 = .ok result
  | .nil, h => h
  | .cons name entry rest, h => by
    rw [pruneEntries] at h ⊢
    split at h
    · cases h
    · rename_i left child removed hleft
      have hentry := pruneEntry_dryRun (directory ++ "/" ++ name) true entry (congrArg Prod.snd hleft)
      obtain ⟨dry, hdry⟩ : ∃ dry, pruneEntry cutoff true (directory ++ "/" ++ name) true entry =
          (dry, .ok (child, removed)) := ⟨_, Prod.ext rfl hentry⟩
      simp only [hdry]
      exact pruneEntries_dryRun directory _ _ rest h

end

def leafGoes (cutoff : Int) (kind : LeafKind) (metadata : Metadata) : Bool :=
  kind ≠ .special && metadata.old cutoff

/-- The entries below a directory, and those of it that stay. -/
abbrev stays (cutoff : Int) : CacheEntries → CacheEntries := Entries.trim (leafGoes cutoff) (Metadata.old · cutoff)

def remains (cutoff : Int) (removeSelf : Bool) : CacheEntry → Option CacheEntry
  | .leaf kind metadata => (Tree.leaf kind metadata).trim (leafGoes cutoff) (Metadata.old · cutoff)
  | .directory metadata inside =>
    if removeSelf then (Tree.directory metadata inside).trim (leafGoes cutoff) (Metadata.old · cutoff)
    else some (.directory metadata (stays cutoff inside))

theorem isEmpty_put {name : String} (left : Option CacheEntry) (rest : CacheEntries) :
    (rest.put name left).isEmpty = (left.isNone && rest.isEmpty) := by
  cases left <;> rfl

theorem pruneLeaf_remains {path : String} {kind : LeafKind} {metadata : Metadata} {left : Option CacheEntry}
    {stats : StorageStats} {removed : Bool}
    (h : pruneLeaf cutoff false path kind metadata = (left, .ok (stats, removed))) :
    left = remains cutoff true (.leaf kind metadata) ∧ removed = left.isNone := by
  unfold pruneLeaf at h
  rw [remains, Tree.trim, leafGoes]
  cases hinspection : metadata.inspection with
  | some source =>
    rw [hinspection] at h
    cases h
  | none =>
    simp only [hinspection, Bool.false_eq_true, if_false] at h
    split_ifs at h with hspecial hold
    · cases h
      simp [hspecial]
    · cases h
      simp_all
    · cases hremoval : metadata.removal with
      | some source =>
        rw [hremoval] at h
        cases h
      | none =>
        rw [hremoval] at h
        cases h
        simp_all

theorem pruneDirectory_remains {path : String} {removeSelf : Bool} {metadata : Metadata} {inside : CacheEntries}
    {counted stats : StorageStats} {left : Option CacheEntry} {removed : Bool}
    (h : pruneDirectory cutoff false path removeSelf metadata (stays cutoff inside) counted
      (stays cutoff inside).isEmpty = (left, .ok (stats, removed))) :
    left = remains cutoff removeSelf (.directory metadata inside) ∧ removed = left.isNone := by
  unfold pruneDirectory at h
  rw [remains, Tree.trim]
  split at h
  · rename_i hgoes
    obtain ⟨hself, hempty⟩ := Bool.and_eq_true_iff.mp hgoes
    obtain ⟨hself, hold⟩ := Bool.and_eq_true_iff.mp hself
    simp only [Bool.false_eq_true, if_false, removeDir, hempty, if_true] at h
    cases hremoval : metadata.removal with
    | some source =>
      simp only [hremoval] at h
      cases h
    | none =>
      simp only [hremoval] at h
      cases h
      rw [if_pos hself, if_pos (Bool.and_eq_true_iff.mpr ⟨hold, hempty⟩)]
      exact ⟨rfl, rfl⟩
  · rename_i hstays
    cases h
    refine ⟨?_, rfl⟩
    split
    · rename_i hself
      rw [hself, Bool.true_and] at hstays
      exact (if_neg hstays).symm
    · rfl

theorem remains_true : ∀ entry : CacheEntry,
    remains cutoff true entry = entry.trim (leafGoes cutoff) (Metadata.old · cutoff)
  | .leaf _ _ => rfl
  | .directory _ _ => rfl

mutual

/-- **What a real run leaves that succeeds.** -/
theorem pruneEntry_remains {stats : StorageStats} {removed : Bool} {left : Option CacheEntry} (path : String)
    (removeSelf : Bool) : ∀ entry : CacheEntry,
      pruneEntry cutoff false path removeSelf entry = (left, .ok (stats, removed)) →
        left = remains cutoff removeSelf entry ∧ removed = left.isNone
  | .leaf _ _, h => pruneLeaf_remains h
  | .directory metadata inside, h => by
    rw [pruneEntry] at h
    split at h
    · cases h
    · cases h
    · cases h
    · split at h
      · cases h
      · rename_i left counted emptyAfter hleft
        obtain ⟨rfl, rfl⟩ := pruneEntries_stays path {} true inside hleft
        exact pruneDirectory_remains h

theorem pruneEntries_stays {stats' : StorageStats} {emptyAfter' : Bool} {left : CacheEntries} (directory : String)
    (stats : StorageStats) (emptyAfter : Bool) : ∀ inside : CacheEntries,
      pruneEntries cutoff false directory stats emptyAfter inside = (left, .ok (stats', emptyAfter')) →
        left = stays cutoff inside ∧ emptyAfter' = (emptyAfter && left.isEmpty)
  | .nil, h => by
    cases h
    exact ⟨rfl, (Bool.and_true _).symm⟩
  | .cons name entry rest, h => by
    rw [pruneEntries] at h
    split at h
    · cases h
    · rename_i left child removed hleft
      obtain ⟨rfl, rfl⟩ := pruneEntry_remains (directory ++ "/" ++ name) true entry hleft
      obtain ⟨leftRest, result, hrest⟩ : ∃ leftRest result, pruneEntries cutoff false directory (stats.add child)
          (emptyAfter && (remains cutoff true entry).isNone) rest = (leftRest, result) := ⟨_, _, rfl⟩
      rw [hrest] at h
      cases h
      obtain ⟨rfl, rfl⟩ := pruneEntries_stays directory _ _ rest hrest
      rw [isEmpty_put, remains_true, Bool.and_assoc]
      exact ⟨rfl, rfl⟩

end

-- Paths
-- ---

def under (left : Option CacheEntry) (path : List String) : Option CacheEntry := left.bind (·.find path)

/-- The directory at which the pruning starts stays there when it is not to be removed. -/
def IsKeptRoot (removeSelf : Bool) (path : List String) (entry : CacheEntry) : Prop :=
  removeSelf = false ∧ path = [] ∧ ∃ metadata inside, entry = .directory metadata inside

/-- What is left of a tree: the files and links that are not old, the special files, the
directories that are not old or not empty, and the root. -/
structure PrunesExactly (cutoff : Int) (removeSelf : Bool) (tree : CacheEntry) (left : Option CacheEntry) :
    Prop where
  file : ∀ path kind metadata, tree.find path = some (.leaf kind metadata) → kind ≠ .special →
    (under left path = none ↔ metadata.old cutoff = true)
  directory : ∀ path metadata inside, tree.find path = some (.directory metadata inside) →
    ¬ IsKeptRoot removeSelf path (.directory metadata inside) →
      (under left path = none ↔
        metadata.old cutoff = true ∧ ∀ name, under left (path ++ [name]) = none)
  root : ∀ entry, tree.find [] = some entry → IsKeptRoot removeSelf [] entry → (under left []).isSome
  special : ∀ path metadata, tree.find path = some (.leaf .special metadata) → (under left path).isSome
  newer : ∀ path entry, tree.find path = some entry → entry.metadata.old cutoff = false →
    (under left path).isSome
  ancestor : ∀ path rest, (under left (path ++ rest)).isSome → (under left path).isSome
  kept : ∀ path entry, under left path = some entry → ∃ original, tree.find path = some original ∧
    original.SameEntry entry

theorem under_remains {removeSelf : Bool} {tree : CacheEntry} (hordered : tree.Ordered) {path : List String}
    (h : ∀ entry, tree.find path = some entry → ¬ IsKeptRoot removeSelf path entry) :
    under (remains cutoff removeSelf tree) path =
      (tree.find path).bind (·.trim (leafGoes cutoff) (Metadata.old · cutoff)) := by
  cases removeSelf with
  | true =>
    rw [remains_true]
    exact find_trim path tree hordered
  | false =>
    cases tree with
    | leaf kind metadata => exact find_trim path (.leaf kind metadata) hordered
    | directory metadata inside =>
      cases path with
      | nil => exact absurd ⟨rfl, rfl, metadata, inside, rfl⟩ (h _ (find_nil _))
      | cons name path =>
        exact Entries.find_trim _ (find_trim path) inside hordered

theorem sameEntry_of_trim {entry left : CacheEntry}
    (h : entry.trim (leafGoes cutoff) (Metadata.old · cutoff) = some left) : entry.SameEntry left := by
  cases entry with
  | leaf kind metadata =>
    rw [Tree.trim] at h
    split at h
    · cases h
    · exact (Option.some.inj h).symm
  | directory metadata inside =>
    rw [Tree.trim] at h
    split at h
    · cases h
    · exact ⟨_, (Option.some.inj h).symm⟩

theorem under_append (left : Option CacheEntry) (path rest : List String) :
    under left (path ++ rest) = (under left path).bind (·.find rest) := by
  cases left with
  | none => rfl
  | some entry => exact find_append entry path rest

variable (cutoff) in
theorem under_root {removeSelf : Bool} {tree entry : CacheEntry} {path : List String}
    (hfind : tree.find path = some entry) (hroot : IsKeptRoot removeSelf path entry) :
    ∃ metadata inside, entry = .directory metadata inside ∧
      under (remains cutoff removeSelf tree) path = some (.directory metadata (stays cutoff inside)) := by
  obtain ⟨rfl, rfl, metadata, inside, rfl⟩ := hroot
  rw [find_nil] at hfind
  rw [Option.some.inj hfind]
  exact ⟨metadata, inside, rfl, rfl⟩

theorem under_found {removeSelf : Bool} {tree entry : CacheEntry} (hordered : tree.Ordered) {path : List String}
    (hfind : tree.find path = some entry) (hroot : ¬ IsKeptRoot removeSelf path entry) :
    under (remains cutoff removeSelf tree) path = entry.trim (leafGoes cutoff) (Metadata.old · cutoff) := by
  rw [under_remains hordered, hfind]
  · rfl
  · intro other hother
    cases hfind.symm.trans hother
    exact hroot

theorem not_isKeptRoot_leaf {removeSelf : Bool} {path : List String} {kind : LeafKind} {metadata : Metadata} :
    ¬ IsKeptRoot removeSelf path (.leaf kind metadata) := by
  rintro ⟨-, -, _, _, h⟩
  cases h

theorem prunesExactly_remains {removeSelf : Bool} {tree : CacheEntry} (hordered : tree.Ordered) :
    PrunesExactly cutoff removeSelf tree (remains cutoff removeSelf tree) where
  file path kind metadata hfind hkind := by
    rw [under_found hordered hfind not_isKeptRoot_leaf, Tree.trim, leafGoes, decide_eq_true hkind, Bool.true_and]
    split
    · rename_i h
      exact iff_of_true rfl h
    · rename_i h
      exact iff_of_false (Option.some_ne_none _) h
  directory path metadata inside hfind hroot := by
    simp only [under_append]
    rw [under_found hordered hfind hroot]
    exact trim_directory_iff
  root entry hfind hroot := by
    obtain ⟨metadata, inside, -, hunder⟩ := under_root cutoff hfind hroot
    rw [hunder]
    rfl
  special path metadata hfind := by
    rw [under_found hordered hfind not_isKeptRoot_leaf]
    rfl
  newer path entry hfind hnew := by
    by_cases hroot : IsKeptRoot removeSelf path entry
    · obtain ⟨metadata, inside, -, hunder⟩ := under_root cutoff hfind hroot
      rw [hunder]
      rfl
    · rw [under_found hordered hfind hroot]
      refine trim_isSome_of_metadata (fun kind => ?_) hnew
      rw [leafGoes, hnew, Bool.and_false]
  ancestor path rest h := by
    rw [under_append] at h
    obtain ⟨entry, hentry⟩ := Option.isSome_iff_exists.mp h
    obtain ⟨above, habove, -⟩ := Option.bind_eq_some_iff.mp hentry
    rw [habove]
    rfl
  kept path entry h := by
    cases hfind : tree.find path with
    | none =>
      have hnone : ∀ other, tree.find path = some other → ¬ IsKeptRoot removeSelf path other :=
        fun other hother => absurd (hfind.symm.trans hother) (Option.some_ne_none other).symm
      rw [under_remains hordered hnone, hfind] at h
      cases h
    | some original =>
      refine ⟨original, rfl, ?_⟩
      by_cases hroot : IsKeptRoot removeSelf path original
      · obtain ⟨metadata, inside, rfl, hunder⟩ := under_root cutoff hfind hroot
        rw [hunder] at h
        exact ⟨_, (Option.some.inj h).symm⟩
      · rw [under_found hordered hfind hroot] at h
        exact sameEntry_of_trim h

/-- **Pruning**: a dry run changes nothing and says what the real run says, and the real
run removes what is old and nothing else. -/
theorem pruneEntry_exact (cutoff : Int) (path : String) (removeSelf : Bool) (tree : CacheTree) :
    (pruneNode cutoff true path removeSelf (some tree.entry)).1 = some tree.entry ∧
      ∀ left result, pruneNode cutoff false path removeSelf (some tree.entry) = (left, .ok result) →
        (pruneNode cutoff true path removeSelf (some tree.entry)).2 = .ok result ∧
          PrunesExactly cutoff removeSelf tree.entry left := by
  refine ⟨pruneEntry_kept path removeSelf tree.entry, fun left result hrun => ?_⟩
  refine ⟨pruneEntry_dryRun path removeSelf tree.entry (congrArg Prod.snd hrun), ?_⟩
  rw [(pruneEntry_remains path removeSelf tree.entry hrun).1]
  exact prunesExactly_remains tree.ordered

end DryRun

def mixedArea : CacheTree where
  entry := .directory ⟨some 0, 0, none, none, none, none⟩
    (.cons "new" (.leaf .file ⟨some 2, 5, none, none, none, none⟩)
      (.cons "old" (.directory ⟨some 0, 0, none, none, none, none⟩
        (.cons "a" (.leaf .file ⟨some 0, 7, none, none, none, none⟩) .nil)) .nil))
  ordered := by
    refine ⟨fun other hother => ?_, trivial, fun _ h => absurd h List.not_mem_nil, ?_, trivial⟩
    · rw [List.mem_singleton.mp hother]
      decide
    · exact ⟨fun _ h => absurd h List.not_mem_nil, trivial, trivial⟩

theorem mixed_area_pruned :
    (pruneNode 1 true "/cache/jman/catalog" false (some mixedArea.entry)).2 = .ok (⟨7, 1, 1⟩, false) ∧
      ∃ left, PrunesExactly 1 false mixedArea.entry left := by
  obtain ⟨-, hrun⟩ := pruneEntry_exact 1 "/cache/jman/catalog" false mixedArea
  obtain ⟨hdry, hexact⟩ := hrun _ (⟨7, 1, 1⟩, false) rfl
  exact ⟨hdry, _, hexact⟩

-- The directory of a cache area
-- ---

def RemovesEveryDirectory (cutoff : Int) (tree : CacheEntry) (left : Option CacheEntry) : Prop :=
  ∀ path metadata inside, tree.find path = some (.directory metadata inside) →
    (under left path = none ↔ metadata.old cutoff = true ∧ ∀ name, under left (path ++ [name]) = none)

def emptyArea : CacheTree := ⟨.directory ⟨some 0, 0, none, none, none, none⟩ .nil, trivial⟩

theorem empty_area_stays : ∃ left result,
    pruneNode 1 false "/cache/jman/catalog" false (some emptyArea.entry) = (left, .ok result) ∧
      ¬ RemovesEveryDirectory 1 emptyArea.entry left := by
  refine ⟨_, _, rfl, fun h => ?_⟩
  have hgone := (h [] _ _ rfl).mpr ⟨rfl, fun _ => rfl⟩
  cases hgone

end JMan.Cli
