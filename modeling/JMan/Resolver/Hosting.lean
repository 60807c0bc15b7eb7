import JMan.Resolver.Repository

/-!
# JMan — which repository an artifact is taken from

What a fetch returns where nothing fails, for repositories that have the
artifact or do not: the first one of the client's list that has it
(`source_fetchUncached`). A repository has a snapshot also at the path its
metadata document gives; the document is cached on the way, and read again if
the repository is listed twice.
-/

namespace JMan.Resolver

open Paths (Path)
open FileStore (exec)

-- What repositories have

/-- What the repositories have: a server has a file or not, and so do the
directories of `file://` repositories. -/
structure Hosting where
  network : Network
  sources : String → Path → Option ByteArray
  answers : ∀ url attempt, network url attempt = .notFound ∨
    ∃ bytes, network url attempt = .body (.ok bytes)

/-- What the repositories have, with an empty cache. -/
def Hosting.files (hosting : Hosting) : FilePlace → Option ByteArray
  | .cache _ => none
  | .repository url file => hosting.sources url file

/-- What tells repositories apart: slashes at the end of a server's URL do not. -/
def repositoryId (repository : String) : String :=
  if (fileRoot? repository).isSome then repository else trimEndSlashes repository

namespace RepositoryClient

variable (client : RepositoryClient) (hosting : Hosting)

/-- What the repository with this identity has at a path. -/
def bytesAt (relative identity : String) : Option ByteArray :=
  match fileRoot? identity with
  | some root =>
    hosting.sources identity (Paths.locate (Paths.join (client.repositoryRoot root) relative))
  | none =>
    match hosting.network (identity ++ "/" ++ relative) 0 with
    | .body (.ok bytes) => some bytes
    | _ => none

/-- What it has at the path its metadata document gives for a snapshot. -/
def snapshotBytes (c : Coordinate) (identity : String) : Option ByteArray :=
  (client.bytesAt hosting c.metadataPath identity).bind fun document =>
    (client.snapshotPathIn c document).toOption.join.bind fun path =>
      client.bytesAt hosting path identity

def found (c : Coordinate) (identity : String) : Option ByteArray :=
  (client.bytesAt hosting c.repositoryPath identity).or
    (if isSnapshotVersion c.version then client.snapshotBytes hosting c identity else none)

def has (c : Coordinate) (identity : String) : Bool := (client.found hosting c identity).isSome

def entryPlace (c : Coordinate) (repository : String) : FilePlace :=
  .cache (Paths.locate (client.repositoryCachePath repository c.repositoryPath))

def documentPlace (c : Coordinate) (repository : String) : FilePlace :=
  .cache (Paths.locate (client.repositoryCachePath repository c.metadataPath))

/-- The cache tells the metadata documents of repositories from each other and
from artifacts, and those that are there can be read. -/
structure Separates (c : Coordinate) (repositories : List String) : Prop where
  documents : ∀ r ∈ repositories, ∀ s ∈ repositories,
    client.documentPlace c r = client.documentPlace c s →
      client.bytesAt hosting c.metadataPath (repositoryId r) =
        client.bytesAt hosting c.metadataPath (repositoryId s)
  entries : ∀ r ∈ repositories, (client.bytesAt hosting c.metadataPath (repositoryId r)).isSome →
    ∀ s ∈ repositories, client.entryPlace c s ≠ client.documentPlace c r
  readable : ∀ r ∈ repositories, ∀ document,
    client.bytesAt hosting c.metadataPath (repositoryId r) = some document →
      ∃ path, client.snapshotPathIn c document = .ok path

/-- A world in which nothing fails, the repositories have what they have, and the
cache has nothing for the coordinate that they do not have. -/
structure Hosted (c : Coordinate) (repositories : List String)
    (w : FileStore.World FilePlace ByteArray) : Prop where
  calm : w.outcomes = []
  sources : ∀ url file, w.files (.repository url file) = hosting.sources url file
  entries : ∀ r ∈ repositories, (w.files (client.entryPlace c r)).isSome →
    client.has hosting c (repositoryId r)
  documents : ∀ r ∈ repositories, ∀ document, w.files (client.documentPlace c r) = some document →
    client.bytesAt hosting c.metadataPath (repositoryId r) = some document

theorem Hosted.start (c : Coordinate) (repositories : List String) :
    client.Hosted hosting c repositories (.calm hosting.files) where
  calm := rfl
  sources _ _ := rfl
  entries _ _ hsome := by cases hsome
  documents _ _ _ hsome := by cases hsome

end RepositoryClient

theorem fileRoot?_trimEndSlashes {repository : String} (h : fileRoot? repository = none) :
    fileRoot? (trimEndSlashes repository) = none := by
  unfold fileRoot? at h ⊢
  split at h
  · cases h
  · next hprefix =>
    rw [if_neg]
    intro htrimmed
    rw [List.isPrefixOf_iff_prefix] at hprefix htrimmed
    have htext : (trimEndSlashes repository).toList = repository.toList.rdropWhile (· = '/') :=
      String.toList_ofList
    rw [htext] at htrimmed
    exact hprefix (htrimmed.trans (List.rdropWhile_prefix _ _))

theorem fileRoot?_repositoryId (repository : String) :
    fileRoot? (repositoryId repository) = fileRoot? repository := by
  unfold repositoryId
  split
  · rfl
  · next hserver =>
    rw [Bool.not_eq_true, Option.isSome_eq_false_iff, Option.isNone_iff_eq_none] at hserver
    rw [hserver, fileRoot?_trimEndSlashes hserver]

-- What a fetch takes

namespace RepositoryClient

variable {client : RepositoryClient} {hosting : Hosting} {c : Coordinate}
  {repositories : List String} {w w' : FileStore.World FilePlace ByteArray}

theorem Hosted.of_written (h : client.Hosted hosting c repositories w)
    (hseparates : client.Separates hosting c repositories) {repository : String}
    (hmem : repository ∈ repositories) {document : ByteArray}
    (hdocument : client.bytesAt hosting c.metadataPath (repositoryId repository) = some document)
    (hcalm : w'.outcomes = [])
    (hsources : ∀ url file, w'.files (.repository url file) = w.files (.repository url file))
    (hfiles : ∀ place bytes, w'.files (.cache place) = some bytes →
      (.cache place = client.documentPlace c repository ∧ bytes = document) ∨
        w.files (.cache place) = some bytes) : client.Hosted hosting c repositories w' where
  calm := hcalm
  sources url file := (hsources url file).trans (h.sources url file)
  entries r hr hsome := by
    obtain ⟨bytes, hbytes⟩ := Option.isSome_iff_exists.mp hsome
    rcases hfiles _ bytes hbytes with ⟨hplace, -⟩ | hbefore
    · exact absurd hplace (hseparates.entries repository hmem (by rw [hdocument]; rfl) r hr)
    · exact h.entries r hr (Option.isSome_iff_exists.mpr ⟨bytes, hbefore⟩)
  documents r hr bytes hbytes := by
    rcases hfiles _ bytes hbytes with ⟨hplace, rfl⟩ | hbefore
    · rw [hseparates.documents r hr repository hmem hplace, hdocument]
    · exact h.documents r hr bytes hbefore

theorem exec_readCached_calm (path : Path) (hcalm : w.outcomes = []) : ∃ trace,
    exec (readCached path) w =
      (.ok (w.files (.cache (Paths.locate path))), ⟨w.files, [], trace⟩) := by
  have hread := exec_readCached path (w := w) (by rw [FileStore.World.next, hcalm]; rfl)
  rw [hcalm] at hread
  exact ⟨_, hread⟩

theorem Hosted.of_read (h : client.Hosted hosting c repositories w)
    (trace : List (FileStore.Access FilePlace)) :
    client.Hosted hosting c repositories ⟨w.files, [], trace⟩ :=
  ⟨rfl, h.sources, h.entries, h.documents⟩

theorem exec_fetchRepositoryBytes_hosted (honline : client.offline = false)
    (h : client.Hosted hosting c repositories w) (repository relative : String) : ∃ w',
      exec (client.fetchRepositoryBytes hosting.network repository relative) w =
        (.ok (client.bytesAt hosting relative (repositoryId repository)), w') ∧
      client.Hosted hosting c repositories w' := by
  unfold fetchRepositoryBytes bytesAt
  rw [fileRoot?_repositoryId]
  cases hroot : fileRoot? repository with
  | some root =>
    have hidentity : repositoryId repository = repository := by simp [repositoryId, hroot]
    have hread := FileStore.exec_read_calm
      (ResolverError.cache (Paths.display (Paths.join (client.repositoryRoot root) relative))
        "input/output error")
      (FilePlace.repository repository
        (Paths.locate (Paths.join (client.repositoryRoot root) relative))) h.calm
    rw [h.sources] at hread
    rw [hidentity]
    exact ⟨_, hread, h.of_read _⟩
  | none =>
    have hidentity : repositoryId repository = trimEndSlashes repository := by
      simp [repositoryId, hroot]
    simp only [honline, Bool.false_eq_true, if_false, hidentity]
    rw [request.eq_def]
    rcases hosting.answers (trimEndSlashes repository ++ "/" ++ relative) 0 with hanswer |
      ⟨bytes, hanswer⟩
    · exact ⟨w, by simp [hanswer, liftExcept], h⟩
    · exact ⟨w, by simp [hanswer, liftExcept], h⟩

theorem repositoryCachePath_ne_nil (client : RepositoryClient) (repository : String)
    (c : Coordinate) : client.repositoryCachePath repository c.repositoryPath ≠ [] := by
  refine Paths.join_ne_nil (Paths.segments_ne_nil (x := '-') ?_ (by decide) (by decide)) _
  simp [Coordinate.repositoryPath]

theorem repositoryCachePath_ne_nil_of_metadata (client : RepositoryClient) (repository : String)
    (c : Coordinate) : client.repositoryCachePath repository c.metadataPath ≠ [] := by
  refine Paths.join_ne_nil (Paths.segments_ne_nil (x := 'm') ?_ (by decide) (by decide)) _
  simp [Coordinate.metadataPath]

theorem artifactPath_ne_nil (client : RepositoryClient) {digest : String} (hdigest : IsHex digest)
    (extension : String) : client.artifactPath digest extension ≠ [] := by
  obtain ⟨hlength, hdigits⟩ := hdigest
  obtain ⟨first, rest, hfirst⟩ := List.exists_cons_of_length_eq_add_one hlength
  have hmem : first ∈ digest.toList := by rw [hfirst]; exact List.mem_cons_self
  have hdigit := hdigits first hmem
  refine Paths.join_ne_nil (Paths.segments_ne_nil (x := first) (by simp [hmem]) ?_ ?_) _
  · rintro rfl
    revert hdigit
    decide
  · rintro rfl
    revert hdigit
    decide

theorem exec_writeAtomic_calm (client : RepositoryClient) {path : Path} (hpath : path ≠ [])
    (bytes : ByteArray) (hcalm : w.outcomes = []) : ∃ w',
      exec (client.writeAtomic path bytes) w = (.ok (), w') ∧ w'.outcomes = [] ∧
      (∀ url file, w'.files (.repository url file) = w.files (.repository url file)) ∧
      ∀ place contents, w'.files (.cache place) = some contents →
        (FilePlace.cache place = .cache (Paths.locate path) ∧ contents = bytes) ∨
          w.files (.cache place) = some contents := by
  let temporary := withExtension path ("tmp-" ++ client.temporary)
  obtain ⟨v₁, hstep, hv₁, hfiles₁⟩ := FileStore.exec_act_calm
    (ResolverError.cache (Paths.display path.dropLast) "input/output error") .step hcalm rfl
  obtain ⟨v₂, hwrite, hv₂, hfiles₂⟩ := FileStore.exec_act_calm
    (ResolverError.cache (Paths.display temporary) "input/output error")
    (.write (FilePlace.cache (Paths.locate temporary)) bytes) hv₁ rfl
  have hthere : v₂.files (.cache (Paths.locate temporary)) = some bytes := by
    rw [hfiles₂]
    exact Function.update_self ..
  obtain ⟨v₃, hmove, hv₃, hfiles₃⟩ := FileStore.exec_act_calm
    (ResolverError.cache (Paths.display path) "input/output error")
    (.rename (FilePlace.cache (Paths.locate temporary)) (.cache (Paths.locate path))) hv₂
    (by simp [FileStore.Operation.report, hthere])
  have hafter : v₃.files = Function.update
      (Function.update v₂.files (.cache (Paths.locate temporary)) none)
      (.cache (Paths.locate path)) (some bytes) := by
    rw [hfiles₃]
    simp only [FileStore.Operation.succeed, hthere]
  -- past the temporary file, which is gone, the files are the first ones
  have hbefore : ∀ place, place ≠ .cache (Paths.locate temporary) →
      v₂.files place = w.files place := by
    intro place hplace
    rw [hfiles₂]
    refine (Function.update_of_ne hplace ..).trans ?_
    rw [hfiles₁]
    rfl
  refine ⟨v₃, ?_, hv₃, ?_, ?_⟩
  · rw [writeAtomic, if_neg hpath]
    exact (FileStore.exec_bind_ok hstep).trans
      ((FileStore.exec_bind_ok hwrite).trans (FileStore.exec_tryCatch_ok hmove))
  · intro url file
    rw [hafter, Function.update_of_ne (by simp), Function.update_of_ne (by simp), hbefore _ (by simp)]
  · intro place contents hcontents
    rw [hafter] at hcontents
    by_cases hplace : FilePlace.cache place = .cache (Paths.locate path)
    · rw [hplace, Function.update_self] at hcontents
      exact Or.inl ⟨hplace, (Option.some.inj hcontents).symm⟩
    · rw [Function.update_of_ne hplace] at hcontents
      by_cases htemporary : FilePlace.cache place = .cache (Paths.locate temporary)
      · rw [htemporary, Function.update_self] at hcontents
        cases hcontents
      · rw [Function.update_of_ne htemporary, hbefore _ htemporary] at hcontents
        exact Or.inr hcontents

theorem exec_versionMetadata_hosted (honline : client.offline = false)
    (hseparates : client.Separates hosting c repositories)
    (h : client.Hosted hosting c repositories w) {repository : String}
    (hmem : repository ∈ repositories) : ∃ w',
      exec (client.versionMetadata hosting.network repository c) w =
        (.ok (client.bytesAt hosting c.metadataPath (repositoryId repository)), w') ∧
      client.Hosted hosting c repositories w' := by
  obtain ⟨trace, hread⟩ := exec_readCached_calm
    (client.repositoryCachePath repository c.metadataPath) h.calm
  cases hcached : w.files (client.documentPlace c repository) with
  | some document =>
    have hdocument := h.documents repository hmem document hcached
    rw [documentPlace] at hcached
    rw [hcached] at hread
    rw [hdocument]
    exact ⟨_, FileStore.exec_bind_ok hread, h.of_read trace⟩
  | none =>
    obtain ⟨v, hfetch, hv⟩ := exec_fetchRepositoryBytes_hosted honline (h.of_read trace) repository
      c.metadataPath
    rw [documentPlace] at hcached
    cases hbytes : client.bytesAt hosting c.metadataPath (repositoryId repository) with
    | none =>
      rw [hbytes] at hfetch
      refine ⟨v, ?_, hv⟩
      rw [versionMetadata, FileStore.exec_bind_ok hread]
      simp only [hcached]
      rw [FileStore.exec_bind_ok hfetch]
      rfl
    | some document =>
      rw [hbytes] at hfetch
      obtain ⟨w', hwrite, hcalm, hsources, hfiles⟩ := exec_writeAtomic_calm client
        (repositoryCachePath_ne_nil_of_metadata client repository c) document hv.calm
      refine ⟨w', ?_, hv.of_written hseparates hmem hbytes hcalm hsources hfiles⟩
      rw [versionMetadata, FileStore.exec_bind_ok hread]
      simp only [hcached]
      rw [FileStore.exec_bind_ok hfetch]
      simp only
      rw [FileStore.exec_bind_ok hwrite]
      rfl

theorem exec_fetchSnapshotBytes_hosted (honline : client.offline = false)
    (hseparates : client.Separates hosting c repositories)
    (h : client.Hosted hosting c repositories w) {repository : String}
    (hmem : repository ∈ repositories) : ∃ w',
      exec (client.fetchSnapshotBytes hosting.network repository c) w =
        (.ok (client.snapshotBytes hosting c (repositoryId repository)), w') ∧
      client.Hosted hosting c repositories w' := by
  obtain ⟨v, hdocument, hv⟩ := exec_versionMetadata_hosted honline hseparates h hmem
  unfold snapshotBytes
  cases hbytes : client.bytesAt hosting c.metadataPath (repositoryId repository) with
  | none =>
    rw [hbytes] at hdocument
    have hpath : exec (client.snapshotRepositoryPath hosting.network repository c) w =
        (.ok none, v) := FileStore.exec_bind_ok hdocument
    exact ⟨v, FileStore.exec_bind_ok hpath, hv⟩
  | some document =>
    rw [hbytes] at hdocument
    obtain ⟨path, hreadable⟩ := hseparates.readable repository hmem document hbytes
    have hpath : exec (client.snapshotRepositoryPath hosting.network repository c) w =
        (.ok path, v) := by
      rw [snapshotRepositoryPath, FileStore.exec_bind_ok hdocument]
      simp only [hreadable]
      rfl
    cases path with
    | none =>
      refine ⟨v, ?_, hv⟩
      rw [fetchSnapshotBytes, FileStore.exec_bind_ok hpath, Option.bind_some, hreadable]
      rfl
    | some path =>
      obtain ⟨w', hfetch, hw'⟩ := exec_fetchRepositoryBytes_hosted honline hv repository path
      refine ⟨w', ?_, hw'⟩
      rw [fetchSnapshotBytes, FileStore.exec_bind_ok hpath, Option.bind_some, hreadable]
      exact hfetch

/-- **A repository is found to have what it has.** -/
theorem exec_fetchFrom_hosted (honline : client.offline = false)
    (hseparates : isSnapshotVersion c.version = true → client.Separates hosting c repositories)
    (h : client.Hosted hosting c repositories w) {repository : String}
    (hmem : repository ∈ repositories) : ∃ w',
      exec (client.fetchFrom hosting.network repository c) w =
        (.ok (client.found hosting c (repositoryId repository)), w') ∧
      client.Hosted hosting c repositories w' := by
  obtain ⟨v, hplain, hv⟩ := exec_fetchRepositoryBytes_hosted honline h repository c.repositoryPath
  unfold found
  cases hbytes : client.bytesAt hosting c.repositoryPath (repositoryId repository) with
  | some bytes =>
    rw [hbytes] at hplain
    exact ⟨v, FileStore.exec_bind_ok hplain, hv⟩
  | none =>
    rw [hbytes] at hplain
    cases hsnapshot : isSnapshotVersion c.version with
    | false =>
      refine ⟨v, ?_, hv⟩
      rw [fetchFrom, FileStore.exec_bind_ok hplain]
      simp only [hsnapshot, Bool.false_eq_true, if_false]
      rfl
    | true =>
      obtain ⟨w', hfetch, hw'⟩ := exec_fetchSnapshotBytes_hosted honline (hseparates hsnapshot) hv
        hmem
      refine ⟨w', ?_, hw'⟩
      rw [fetchFrom, FileStore.exec_bind_ok hplain]
      simp only [hsnapshot, if_true, Option.none_or]
      exact hfetch

-- Storing what was found

theorem exec_cachedFile_calm (client : RepositoryClient) (repository : String) (c : Coordinate)
    (entry : Path) (bytes : ByteArray) (hcalm : w.outcomes = []) : ∃ cached w',
      exec (client.cachedFile repository c entry bytes) w = (.ok cached, w') ∧
      cached.source = repository := by
  have hpath : ∃ path w', exec (client.contentAddressedPath c (client.sha256 bytes) bytes entry) w =
      (.ok path, w') := by
    unfold contentAddressedPath
    split
    · exact ⟨entry, w, rfl⟩
    · let path := client.artifactPath (client.digest.hex bytes) c.extension
      obtain ⟨trace, hread⟩ := exec_readCached_calm path hcalm
      simp only
      rw [FileStore.exec_bind_ok hread]
      split
      · exact ⟨path, _, rfl⟩
      · obtain ⟨w', hwrite, -⟩ := exec_writeAtomic_calm client
          (artifactPath_ne_nil client (client.digest.isHex bytes) c.extension) bytes
          (w := ⟨w.files, [], trace⟩) rfl
        exact ⟨path, w', FileStore.exec_bind_ok hwrite⟩
  obtain ⟨path, w', hpath⟩ := hpath
  exact ⟨_, w', FileStore.exec_bind_ok hpath, rfl⟩

/-- **An artifact is taken from the first repository that has it.** -/
theorem source_fetchUncached (honline : client.offline = false)
    (hseparates : isSnapshotVersion c.version = true → client.Separates hosting c repositories)
    (h : client.Hosted hosting c repositories w) {asked : List String} (hasked : asked ⊆ repositories) :
    (exec (client.fetchUncached hosting.network c asked) w).1.toOption.map
        (repositoryId ·.source) = (asked.map repositoryId).find? (client.has hosting c) := by
  induction asked generalizing w with
  | nil =>
    rw [fetchUncached, if_neg (by simp [honline])]
    rfl
  | cons repository asked ih =>
    rw [List.cons_subset] at hasked
    obtain ⟨hmem, hrest⟩ := hasked
    obtain ⟨trace, hread⟩ := exec_readCached_calm
      (client.repositoryCachePath repository c.repositoryPath) h.calm
    rw [fetchUncached]
    rw [FileStore.exec_bind_ok hread, List.map_cons, List.find?_cons]
    cases hcached : w.files (client.entryPlace c repository) with
    | some bytes =>
      rw [h.entries repository hmem (by rw [hcached]; rfl)]
      rw [entryPlace] at hcached
      obtain ⟨cached, w', hstored, hsource⟩ := exec_cachedFile_calm client repository c
        (client.repositoryCachePath repository c.repositoryPath) bytes (h.of_read trace).calm
      simp only [hcached]
      rw [hstored]
      exact congrArg (some ∘ repositoryId) hsource
    | none =>
      obtain ⟨v, hfetch, hv⟩ := exec_fetchFrom_hosted honline hseparates (h.of_read trace) hmem
      rw [entryPlace] at hcached
      simp only [hcached]
      rw [FileStore.exec_bind_ok hfetch, has]
      cases client.found hosting c (repositoryId repository) with
      | none => exact ih hv hrest
      | some bytes =>
        obtain ⟨u, hwrite, hcalm, -⟩ := exec_writeAtomic_calm client
          (repositoryCachePath_ne_nil client repository c) bytes hv.calm
        obtain ⟨cached, w', hstored, hsource⟩ := exec_cachedFile_calm client repository c
          (client.repositoryCachePath repository c.repositoryPath) bytes hcalm
        simp only
        rw [FileStore.exec_bind_ok hwrite, hstored]
        exact congrArg (some ∘ repositoryId) hsource

end RepositoryClient

end JMan.Resolver
