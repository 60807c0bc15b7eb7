import JMan.Resolver.Repository

/-!
# JMan — where the client's files are

The paths of the repository client are put together from a coordinate: the
dots of the group become slashes, and neither those nor the slashes and `..`
of the other fields are looked at. `contained_iff_confined` says for which requests every
file a client opens is below its cache, or below the root of the `file://`
repository it belongs to.
-/

namespace JMan.Resolver

open Paths (Path Inside Below Stays)
open FileStore (exec Access Accesses)

-- Requests

/-- The ways into the client: `fetch`, which `load_pom` uses too, and
`available_versions`. -/
inductive Request where
  | fetch (coordinate : Coordinate)
  | versions (group artifact : String)

def Request.run (client : RepositoryClient) (network : Network) (memory : RepositoryClient.Memory) :
    Request → Fetch Unit
  | .fetch coordinate => discard (client.fetch network memory coordinate)
  | .versions group artifact => discard (client.availableVersions network group artifact)

def RepositoryClient.Contains (client : RepositoryClient) : FilePlace → Prop
  | .cache file => Inside client.cacheDir file
  | .repository url file => ∃ root, fileRoot? url = some root ∧ Inside (client.repositoryRoot root) file

/-- The texts of the request stay below where they are joined. -/
def Request.Confined : Request → Prop
  | .fetch c => isSnapshotVersion c.version = false ∧ Stays 0 c.repositoryPath ∧
      (c.extension = "pom" ∨ ∀ digest, IsHex digest → Stays 1 (digest ++ "." ++ c.extension))
  | .versions group artifact => Stays 0 (catalogPath group artifact)

-- Temporary files

theorem below_withExtension {base path : Path} (h : Below base path) (suffix : String) :
    Below base (withExtension path ("tmp-" ++ suffix)) := by
  unfold withExtension
  split
  · exact h
  · next name hname =>
    split
    · exact h
    · next hparent =>
      obtain ⟨c, rest, hplace⟩ := h
      have hsplit : path.dropLast ++ [name] = path :=
        List.dropLast_append_getLast? name hname
      rw [← hsplit, Paths.locate_append, List.foldl_cons, Paths.descend, if_neg hparent,
        List.foldl_nil] at hplace
      have hdirectory : Paths.locate path.dropLast = Paths.locate base ++ (c :: rest).dropLast := by
        have := congrArg List.dropLast hplace
        rwa [List.dropLast_concat, List.dropLast_append_of_ne_nil (List.cons_ne_nil c rest)] at this
      have hplain : fileStem name ++ "." ++ ("tmp-" ++ suffix) ≠ ".." := by
        intro heq
        have hchars := congrArg (fun s => 't' ∈ s.toList) heq
        simp at hchars
      rw [Below, Paths.locate_append, List.foldl_cons, Paths.descend, if_neg hplain, List.foldl_nil,
        hdirectory, List.append_assoc]
      cases hrest : (c :: rest).dropLast with
      | nil => exact ⟨_, [], rfl⟩
      | cons d ds => exact ⟨d, ds ++ _, rfl⟩

-- What confined requests access

namespace RepositoryClient

variable {client : RepositoryClient} {network : Network}

def Confines (client : RepositoryClient) (access : Access FilePlace) : Prop :=
  client.Contains access.path

theorem accesses_readCached {path : Path} (h : Below client.cacheDir path) :
    Accesses client.Confines (readCached path) :=
  .tryCatch (Accesses.read _ h) fun _ => .pure none

theorem accesses_liftExcept {α : Type} (result : Except ResolverError α) :
    Accesses client.Confines (liftExcept result) := by
  cases result with
  | ok a => exact .pure a
  | error e => exact .throw e

theorem accesses_writeAtomic {path : Path} (h : Below client.cacheDir path) (bytes : ByteArray) :
    Accesses client.Confines (client.writeAtomic path bytes) := by
  have htemporary := below_withExtension h client.temporary
  have hrest : Accesses client.Confines (do
      FileStore.act (.cache (Paths.display path.dropLast) "input/output error") .step
      let temporary := withExtension path ("tmp-" ++ client.temporary)
      FileStore.act (.cache (Paths.display temporary) "input/output error")
        (.write (.cache (Paths.locate temporary)) bytes)
      moveIntoPlace temporary path) := by
    refine .bind (Accesses.act _ (by simp [FileStore.Operation.accesses])) fun _ => ?_
    refine .bind (Accesses.act _ ?_) fun _ => .tryCatch (Accesses.act _ ?_) fun error => ?_
    · rintro a ha
      cases List.mem_singleton.mp ha
      exact htemporary
    · rintro a ha
      rcases List.mem_cons.mp ha with rfl | ha
      · exact htemporary
      · cases List.mem_singleton.mp ha
        exact h
    · refine .bind (Accesses.isThere h) fun found => ?_
      cases found with
      | false => exact .throw error
      | true =>
        refine .tryCatch (Accesses.act _ ?_) fun _ => .pure ()
        rintro a ha
        cases List.mem_singleton.mp ha
        exact htemporary
  unfold writeAtomic
  split
  · exact .throw _
  · exact hrest

theorem accesses_fetchRepositoryBytes {repository relative : String} (h : Stays 0 relative) :
    Accesses client.Confines (client.fetchRepositoryBytes network repository relative) := by
  unfold fetchRepositoryBytes
  split
  · next root hroot =>
    refine Accesses.read _ ⟨root, hroot, ?_⟩
    have := Paths.below_of_stays [] (by simp) h (client.repositoryRoot root)
    rwa [List.append_nil] at this
  · split
    · exact .pure none
    · exact accesses_liftExcept _

theorem repositoryKey_ne_parent (client : RepositoryClient) (repository : String) :
    client.repositoryKey repository ≠ ".." := by
  intro heq
  have hdot : '.' ∈ (client.repositoryKey repository).toList := by
    rw [heq]
    decide
  rw [repositoryKey, String.toList_ofList] at hdot
  exact absurd ((client.digest.isHex _).2 '.' (List.mem_of_mem_take hdot)) (by decide)

theorem below_repositoryCachePath {relative : String} (h : Stays 2 relative) (repository : String) :
    Below client.cacheDir (client.repositoryCachePath repository relative) := by
  refine Paths.below_of_stays ["repository", client.repositoryKey repository] ?_ h _
  simp only [List.mem_cons, List.not_mem_nil, or_false, not_or]
  exact ⟨by decide, (client.repositoryKey_ne_parent repository).symm⟩

theorem accesses_cachedFile {c : Coordinate} {entry : Path}
    (h : c.extension = "pom" ∨ ∀ digest, IsHex digest → Stays 1 (digest ++ "." ++ c.extension))
    (repository : String) (bytes : ByteArray) :
    Accesses client.Confines (client.cachedFile repository c entry bytes) := by
  refine .bind ?_ fun path => .pure _
  unfold contentAddressedPath
  split
  · exact .pure entry
  · next hpom =>
    have hbelow : Below client.cacheDir
        (client.artifactPath (client.digest.hex bytes) c.extension) :=
      Paths.below_of_stays ["artifacts"] (by decide)
        ((h.resolve_left hpom) _ (client.digest.isHex bytes)) _
    refine .bind (accesses_readCached hbelow) fun existing => ?_
    split
    · exact .pure _
    · exact (accesses_writeAtomic hbelow bytes).bind fun _ => .pure _

theorem accesses_fetch {c : Coordinate} (h : (Request.fetch c).Confined) (memory : Memory) :
    Accesses client.Confines (client.fetch network memory c) := by
  obtain ⟨hsnapshot, hpath, hartifact⟩ := h
  have hentry := fun repository => client.below_repositoryCachePath (hpath.add 2) repository
  unfold fetch
  split
  · exact .pure _
  · refine .bind ?_ fun fetched => .pure _
    generalize client.repositories = repositories
    induction repositories with
    | nil =>
      unfold fetchUncached
      split
      · exact .throw _
      · exact .throw _
    | cons repository repositories ih =>
      refine .bind (accesses_readCached (hentry repository)) fun found => ?_
      cases found with
      | some bytes => exact accesses_cachedFile hartifact repository bytes
      | none =>
        have hfrom : Accesses client.Confines (client.fetchFrom network repository c) := by
          refine .bind (accesses_fetchRepositoryBytes hpath) fun found => ?_
          cases found with
          | some bytes => exact .pure _
          | none =>
            simp only [hsnapshot]
            exact .pure _
        refine hfrom.bind fun found => ?_
        cases found with
        | none => exact ih
        | some bytes =>
          refine (accesses_writeAtomic (hentry repository) bytes).bind fun _ => ?_
          exact accesses_cachedFile hartifact repository bytes

theorem accesses_cachedCatalog {relative : String} (h : Stays 0 relative) (source : String)
    (missing : ResolverError) (repositories : List String) :
    Accesses client.Confines (client.cachedCatalog source relative missing repositories) := by
  induction repositories with
  | nil => exact .throw missing
  | cons repository repositories ih =>
    refine .bind (accesses_readCached (client.below_repositoryCachePath (h.add 2) repository))
      fun found => ?_
    cases found with
    | some bytes => exact accesses_liftExcept _
    | none => exact ih

theorem accesses_availableVersions {group artifact : String}
    (h : (Request.versions group artifact).Confined) :
    Accesses client.Confines (client.availableVersions network group artifact) := by
  have hpath : Stays 0 (catalogPath group artifact) := h
  unfold availableVersions
  split
  · exact accesses_cachedCatalog hpath _ _ _
  · generalize hall : client.repositories = repositories
    have hcached := fun missing =>
      client.accesses_cachedCatalog hpath "stale-cache" missing client.repositories
    clear hall
    generalize (none : Option ResolverError) = last
    induction repositories generalizing last with
    | nil => exact hcached _
    | cons repository repositories ih =>
      have hadvertised : Accesses client.Confines
          (client.advertised network repository (catalogPath group artifact)) := by
        refine .tryCatch (.bind (accesses_fetchRepositoryBytes hpath) fun found => ?_)
          fun error => .pure _
        cases found with
        | none => exact .pure _
        | some bytes => exact (accesses_liftExcept _).bind fun catalog => .pure _
      refine hadvertised.bind fun answer => ?_
      cases answer with
      | error error => exact ih (some error)
      | ok found =>
        cases found with
        | none => exact ih last
        | some pair =>
          obtain ⟨bytes, catalog⟩ := pair
          refine (accesses_writeAtomic (client.below_repositoryCachePath (hpath.add 2) repository)
            bytes).bind fun _ => .pure _

end RepositoryClient

open RepositoryClient (readCached)

-- Clients that show where a request leads

/-- A client of one `file://` repository whose cache and repository are the
directory `name`; every digest is `digest`, and every metadata document gives
snapshots of the extension and classifier the given value. -/
def probe (name digest : String) (hdigest : IsHex digest)
    (snapshot : Option String × Option String × Option String) : RepositoryClient where
  cacheDir := [name]
  repositories := ["file://"]
  nonempty := by decide
  offline := false
  workingDirectory := [name]
  digest := ⟨fun _ => digest, fun _ => hdigest⟩
  temporary := "0-0"
  snapshotMetadata _ := .ok ⟨[snapshot], none, none⟩
  versionCatalog _ _ := .error (.invalidMetadata "missing <versioning> element")

section Probe

variable {name digest : String} {hdigest : IsHex digest}
  {snapshot : Option String × Option String × Option String} {network : Network}

theorem repositoryRoot_probe :
    (probe name digest hdigest snapshot).repositoryRoot "" = [name] := by
  have hsegments : Paths.segments "" = [] := by decide +kernel
  have hrelative : Paths.isAbsolute "" = false := by decide
  simp [RepositoryClient.repositoryRoot, Paths.join, hsegments, hrelative, probe]

theorem fetchRepositoryBytes_probe (relative : String) :
    (probe name digest hdigest snapshot).fetchRepositoryBytes network "file://" relative =
      FileStore.read (.cache (Paths.display (Paths.join [name] relative)) "input/output error")
        (.repository "file://" (Paths.locate (Paths.join [name] relative))) := by
  have hroot : fileRoot? "file://" = some "" := by decide +kernel
  rw [RepositoryClient.fetchRepositoryBytes, hroot]
  simp only [repositoryRoot_probe]

theorem inside_of_contains_probe {file : Path}
    (h : (probe name digest hdigest snapshot).Contains (.repository "file://" file)) :
    Inside [name] file := by
  obtain ⟨root, hroot, hinside⟩ := h
  have hempty : fileRoot? "file://" = some "" := by decide +kernel
  cases hempty.symm.trans hroot
  rwa [repositoryRoot_probe] at hinside

theorem stays_of_probes (hdigest : IsHex digest)
    (snapshot : Option String × Option String × Option String) {relative : String}
    (h : ∀ name, (probe name digest hdigest snapshot).Confines
      (.reads (.repository "file://" (Paths.locate (Paths.join [name] relative))))) :
    Stays 0 relative := by
  have hinside : ∀ name ∈ ["a", "b"], Below [name] (Paths.join (name :: []) relative) :=
    fun name _ => inside_of_contains_probe (h name)
  exact Paths.stays_of_below [] (by simp) hinside

end Probe

-- Steps of a fetch

theorem mem_trace_fetchUncached {client : RepositoryClient} {network : Network} {c : Coordinate}
    {repository : String} {repositories : List String} {w v : FileStore.World FilePlace ByteArray}
    {access : Access FilePlace}
    (hmissing : exec (readCached (client.repositoryCachePath repository c.repositoryPath)) w =
      (.ok none, v))
    (h : access ∈ (exec (client.fetchFrom network repository c) v).2.trace) :
    access ∈ (exec (client.fetchUncached network c (repository :: repositories)) w).2.trace := by
  rw [RepositoryClient.fetchUncached, FileStore.exec_bind_ok hmissing]
  exact FileStore.mem_trace_bind h

-- Confined requests and no others

/-- Every file the request opens is where it belongs, whatever the client, the
repositories, the files and the faults. -/
def Request.Contained (request : Request) : Prop :=
  ∀ client network memory files outcomes,
    ∀ access ∈ (exec (request.run client network memory) ⟨files, outcomes, []⟩).2.trace,
      client.Confines access

section Contained

variable {c : Coordinate}

theorem confines_of_contained_fetch (h : (Request.fetch c).Contained) (client : RepositoryClient)
    (network : Network) (files : FilePlace → Option ByteArray)
    (outcomes : List (FileStore.Outcome ByteArray)) {access : Access FilePlace}
    (haccess : access ∈ (exec (client.fetchUncached network c client.repositories)
      ⟨files, outcomes, []⟩).2.trace) : client.Confines access := by
  refine h client network (fun _ => none) files outcomes access ?_
  exact FileStore.mem_trace_map (FileStore.mem_trace_bind haccess)

theorem exists_isHex : ∃ digest, IsHex digest := ⟨zeros, isHex_zeros⟩

theorem stays_of_contained_fetch (h : (Request.fetch c).Contained) : Stays 0 c.repositoryPath := by
  obtain ⟨digest, hdigest⟩ := exists_isHex
  refine stays_of_probes hdigest (none, none, none) fun name => ?_
  refine confines_of_contained_fetch h (probe name digest hdigest (none, none, none))
    (fun _ _ => .notFound) (fun _ => none) [] ?_
  rw [show (probe name digest hdigest (none, none, none)).repositories = ["file://"] from rfl]
  refine mem_trace_fetchUncached (RepositoryClient.exec_readCached _ rfl) ?_
  rw [RepositoryClient.fetchFrom, fetchRepositoryBytes_probe]
  exact FileStore.mem_trace_bind (FileStore.mem_trace_read _ _ _)

theorem artifact_stays_of_contained_fetch (h : (Request.fetch c).Contained)
    (hpom : c.extension ≠ "pom") {digest : String} (hdigest : IsHex digest) :
    Stays 1 (digest ++ "." ++ c.extension) := by
  have hbelow : ∀ name ∈ ["a", "b"],
      Below [name] (Paths.join (name :: ["artifacts"]) (digest ++ "." ++ c.extension)) := by
    intro name _
    have hconfines : (probe name digest hdigest (none, none, none)).Confines (.reads (.cache
        (Paths.locate (Paths.join (name :: ["artifacts"]) (digest ++ "." ++ c.extension))))) := by
      refine confines_of_contained_fetch h _ (fun _ _ => .notFound) (fun _ => some ByteArray.empty)
        [] ?_
      rw [show (probe name digest hdigest (none, none, none)).repositories = ["file://"] from rfl,
        RepositoryClient.fetchUncached, FileStore.exec_bind_ok (RepositoryClient.exec_readCached _ rfl)]
      refine FileStore.mem_trace_bind ?_
      rw [RepositoryClient.contentAddressedPath, if_neg hpom]
      refine FileStore.mem_trace_bind (FileStore.mem_trace_tryCatch ?_)
      exact FileStore.mem_trace_read _ _ _
    exact hconfines
  exact Paths.stays_of_below ["artifacts"] (by decide) hbelow

theorem exec_snapshotRepositoryPath {client : RepositoryClient} (network : Network)
    {repository : String} {bytes : ByteArray} {found : Option String}
    {w : FileStore.World FilePlace ByteArray} (hcalm : w.outcomes = [])
    (hbytes : w.files (.cache (Paths.locate
      (client.repositoryCachePath repository c.metadataPath))) = some bytes)
    (hfound : client.snapshotPathIn c bytes = .ok found) : ∃ v,
      exec (client.snapshotRepositoryPath network repository c) w = (.ok found, v) := by
  have hread := RepositoryClient.exec_readCached (client.repositoryCachePath repository c.metadataPath)
    (w := w) (by rw [FileStore.World.next, hcalm]; rfl)
  rw [hbytes] at hread
  have hlift : ∀ u, exec (RepositoryClient.liftExcept (client.snapshotPathIn c bytes)) u =
      (.ok found, u) := by
    rw [hfound]
    exact fun u => rfl
  have hmetadata : ∃ v, exec (client.versionMetadata network repository c) w =
      (.ok (some bytes), v) := ⟨_, FileStore.exec_bind_ok hread⟩
  obtain ⟨v, hv⟩ := hmetadata
  refine ⟨v, ?_⟩
  rw [RepositoryClient.snapshotRepositoryPath, FileStore.exec_bind_ok hv]
  exact hlift v

theorem mem_trace_fetchFrom {client : RepositoryClient} {network : Network} {repository path : String}
    {w v u : FileStore.World FilePlace ByteArray} {access : Access FilePlace}
    (hsnapshot : isSnapshotVersion c.version = true)
    (hmissing : exec (client.fetchRepositoryBytes network repository c.repositoryPath) w =
      (.ok none, v))
    (hpath : exec (client.snapshotRepositoryPath network repository c) v = (.ok (some path), u))
    (h : access ∈ (exec (client.fetchRepositoryBytes network repository path) u).2.trace) :
    access ∈ (exec (client.fetchFrom network repository c) w).2.trace := by
  rw [RepositoryClient.fetchFrom, FileStore.exec_bind_ok hmissing]
  simp only [hsnapshot, if_true]
  rw [RepositoryClient.fetchSnapshotBytes, FileStore.exec_bind_ok hpath]
  exact h

theorem exists_climbing_value (c : Coordinate) : ∃ value, ¬ Stays 0 (c.snapshotPath value) := by
  let before := groupPath c.group ++ "/" ++ c.artifact ++ "/" ++ c.version ++ "/" ++ c.artifact ++ "-"
  refine ⟨"/" ++ Paths.climb (0 + (Paths.segments before).length + 1) ++ "/", ?_⟩
  have hclimbs := Paths.not_stays_climb 0 before
    (classifierSuffix c.classifier ++ "." ++ c.extension)
  simpa only [Coordinate.snapshotPath, before, String.append_assoc] using hclimbs

theorem not_snapshot_of_contained_fetch (h : (Request.fetch c).Contained) :
    isSnapshotVersion c.version = false := by
  by_contra hsnapshot
  rw [Bool.not_eq_false] at hsnapshot
  obtain ⟨value, hclimbs⟩ := exists_climbing_value c
  obtain ⟨digest, hdigest⟩ := exists_isHex
  refine hclimbs (stays_of_probes hdigest (some c.extension, c.classifier, some value)
    fun name => ?_)
  generalize hclient : probe name digest hdigest (some c.extension, c.classifier, some value) =
    client
  -- the cache has the metadata, and the read of the entry fails
  let metadata := FilePlace.cache
    (Paths.locate (client.repositoryCachePath "file://" c.metadataPath))
  let files := fun place => if place = metadata then some "".toUTF8 else none
  refine confines_of_contained_fetch h client (fun _ _ => .notFound) files [.fails none] ?_
  rw [show client.repositories = ["file://"] from hclient ▸ rfl]
  refine mem_trace_fetchUncached (RepositoryClient.exec_readCached_fails _ rfl) ?_
  have hbytes : ∀ relative, client.fetchRepositoryBytes (fun _ _ => .notFound) "file://" relative =
      FileStore.read (.cache (Paths.display (Paths.join [name] relative)) "input/output error")
        (.repository "file://" (Paths.locate (Paths.join [name] relative))) :=
    fun relative => hclient ▸ fetchRepositoryBytes_probe relative
  have hpath : client.snapshotPathIn c "".toUTF8 = .ok (some (c.snapshotPath value)) := by
    have hutf : String.fromUTF8? "".toUTF8 = some "" := dif_pos "".isValidUTF8
    rw [RepositoryClient.snapshotPathIn, hutf, ← hclient]
    simp [probe, RepositoryClient.snapshotValue]
  have hmissing := FileStore.exec_read_calm
    (ResolverError.cache (Paths.display (Paths.join [name] c.repositoryPath)) "input/output error")
    (FilePlace.repository "file://" (Paths.locate (Paths.join [name] c.repositoryPath)))
    (w := ⟨files, [], [.reads (.cache (Paths.locate
      (client.repositoryCachePath "file://" c.repositoryPath)))]⟩) rfl
  rw [← hbytes] at hmissing
  obtain ⟨u, hsnapshotPath⟩ := exec_snapshotRepositoryPath (fun _ _ => .notFound)
    (w := ⟨files, [], _⟩) rfl (if_pos rfl) hpath
  refine mem_trace_fetchFrom hsnapshot hmissing hsnapshotPath ?_
  rw [hbytes]
  exact FileStore.mem_trace_read _ _ _

theorem stays_of_contained_versions {group artifact : String}
    (h : (Request.versions group artifact).Contained) : Stays 0 (catalogPath group artifact) := by
  obtain ⟨digest, hdigest⟩ := exists_isHex
  refine stays_of_probes hdigest (none, none, none) fun name => ?_
  refine h (probe name digest hdigest (none, none, none)) (fun _ _ => .notFound) (fun _ => none)
    (fun _ => none) [] _ ?_
  refine FileStore.mem_trace_map ?_
  rw [RepositoryClient.availableVersions,
    show (probe name digest hdigest (none, none, none)).offline = false from rfl,
    show (probe name digest hdigest (none, none, none)).repositories = ["file://"] from rfl]
  refine FileStore.mem_trace_bind (FileStore.mem_trace_tryCatch (FileStore.mem_trace_bind ?_))
  rw [fetchRepositoryBytes_probe]
  exact FileStore.mem_trace_read _ _ _

/-- **Exactly the confined requests keep every file where it belongs.** -/
theorem contained_iff_confined (request : Request) : request.Contained ↔ request.Confined := by
  cases request with
  | fetch c =>
    constructor
    · intro h
      refine ⟨not_snapshot_of_contained_fetch h, stays_of_contained_fetch h, ?_⟩
      by_cases hpom : c.extension = "pom"
      · exact Or.inl hpom
      · exact Or.inr fun digest hdigest => artifact_stays_of_contained_fetch h hpom hdigest
    · intro h client network memory files outcomes
      exact Accesses.of_trace_nil (RepositoryClient.accesses_fetch h memory).map rfl
  | versions group artifact =>
    constructor
    · exact stays_of_contained_versions
    · intro h client network memory files outcomes
      exact Accesses.of_trace_nil (RepositoryClient.accesses_availableVersions h).map rfl

def rootedCoordinate : Coordinate := Coordinate.jar ".etc" "app" "1"

/-- Its entry in the cache is `/etc/app/1/app-1.jar`, wherever the cache is. -/
theorem rootedCoordinate_not_contained : ∃ access ∈
    (exec ((Request.fetch rootedCoordinate).run (probe "cache" zeros isHex_zeros (none, none, none))
      (fun _ _ => .notFound) fun _ => none) (.calm fun _ => none)).2.trace,
    access = .reads (.cache ["etc", "app", "1", "app-1.jar"]) ∧
      ¬ (probe "cache" zeros isHex_zeros (none, none, none)).Confines access := by
  refine ⟨_, ?_, rfl, ?_⟩
  · decide +kernel
  · rintro ⟨c, rest, h⟩
    have hcache : Paths.locate (probe "cache" zeros isHex_zeros (none, none, none)).cacheDir =
        ["cache"] := by decide +kernel
    rw [hcache] at h
    simp at h

end Contained

end JMan.Resolver
