import JMan.Lib.Overriding
import JMan.Resolver.Containment
import JMan.Resolver.Hosting
import JMan.Cli.Import

/-!
# JMan — repository policies

A repository of a POM is enabled for releases, for snapshots or for both. The
client that fetches knows no policies: it asks a list of URLs, which an import
and a synchronization take from the repositories enabled for releases.
`honours_iff` says for which lists this comes to the same as asking, for each
kind of version, the repositories enabled for it.
-/

namespace JMan.Resolver

inductive VersionKind where
  | release
  | snapshot
deriving DecidableEq

def Repository.enabled (repository : Repository) : VersionKind → Bool
  | .release => repository.releasesEnabled
  | .snapshot => repository.snapshotsEnabled

def Coordinate.versionKind (c : Coordinate) : VersionKind :=
  if isSnapshotVersion c.version then .snapshot else .release

end JMan.Resolver

namespace JMan.Cli

open JMan.Config JMan.Resolver
open FileStore (exec)

-- Honouring policies
-- ---

/-- The repositories a kind of version is to be taken from. A project that
declares none uses Maven Central, of which no policy speaks. -/
def policyRepositories (declared : List Resolver.Repository) (kind : VersionKind) : List String :=
  if declared.isEmpty then clientRepositories []
  else (declared.filter (·.enabled kind)).map (·.url)

/-- A client that is to ask `asked` takes everything from the first repository
that has it among those declared with a policy for its kind of version. -/
def Honours (asked : List String) (declared : List Resolver.Repository) : Prop :=
  ∀ (client : RepositoryClient) (hosting : Hosting) (c : Coordinate)
    (memory : RepositoryClient.Memory) (w : FileStore.World FilePlace ByteArray),
    client.offline = false → client.repositories = clientRepositories asked →
    memory c.repositoryPath = none →
    (isSnapshotVersion c.version = true → client.Separates hosting c (clientRepositories asked)) →
    client.Hosted hosting c (clientRepositories asked) w →
    (exec (client.fetch hosting.network memory c) w).1.toOption.map (repositoryId ·.1.source) =
      ((policyRepositories declared c.versionKind).map repositoryId).find? (client.has hosting c)

def distinctRepositories (urls : List String) : List String :=
  Overriding.absorbAll id [] (urls.map repositoryId)

-- Repositories that have one artifact
-- ---

def kindVersion : VersionKind → String
  | .release => "1"
  | .snapshot => "1-SNAPSHOT"

def kindPom (kind : VersionKind) : Coordinate := ⟨"g", "a", kindVersion kind, "pom", none⟩

theorem versionKind_kindPom (kind : VersionKind) : (kindPom kind).versionKind = kind := by
  cases kind <;> decide +kernel

open Classical in
/-- The repositories with these identities have one POM, and nobody has anything else. -/
noncomputable def pomHosting (wanted : String → Bool) (c : Coordinate) : Hosting where
  network url _ :=
    if ∃ identity, url = identity ++ "/" ++ c.repositoryPath ∧ wanted identity = true then
      .body (.ok ByteArray.empty)
    else .notFound
  sources url file :=
    if file.getLast? = (Paths.segments c.repositoryPath).getLast? ∧ wanted url = true then
      some ByteArray.empty
    else none
  answers url _ := by
    by_cases h : ∃ identity, url = identity ++ "/" ++ c.repositoryPath ∧ wanted identity = true
    · exact Or.inr ⟨_, if_pos h⟩
    · exact Or.inl (if_neg h)

def plainClient (asked : List String) : RepositoryClient where
  cacheDir := []
  repositories := clientRepositories asked
  nonempty := by
    unfold clientRepositories
    split
    · exact List.cons_ne_nil _ _
    · assumption
  offline := false
  workingDirectory := []
  digest := ⟨fun _ => zeros, fun _ => isHex_zeros⟩
  temporary := ""
  snapshotMetadata := fun _ => .error "no document"
  versionCatalog := fun source _ => .error (.invalidPom source)

theorem getLast_locate_join {text : String} {components : List String} {last : String}
    (hsegments : Paths.segments text = components ++ [last]) (hlast : last ≠ "..")
    (path : Paths.Path) : (Paths.locate (Paths.join path text)).getLast? = some last := by
  have hlocate : ∀ start : Paths.Path,
      (Paths.locate (start ++ (components ++ [last]))).getLast? = some last := by
    intro start
    rw [← List.append_assoc, Paths.locate_append, List.foldl_cons, List.foldl_nil, Paths.descend,
      if_neg hlast]
    exact List.getLast?_concat
  rw [Paths.join, hsegments]
  split
  · exact hlocate []
  · exact hlocate path

theorem segments_kindPom (kind : VersionKind) : ∃ components last,
    Paths.segments (kindPom kind).repositoryPath = components ++ [last] ∧ last ≠ ".." ∧
      last ≠ "maven-metadata.xml" := by
  cases kind with
  | release => exact ⟨["g", "a", "1"], "a-1.pom", by decide +kernel, by decide, by decide⟩
  | snapshot =>
    exact ⟨["g", "a", "1-SNAPSHOT"], "a-1-SNAPSHOT.pom", by decide +kernel, by decide, by decide⟩

theorem segments_metadata_kindPom (kind : VersionKind) :
    Paths.segments (kindPom kind).metadataPath =
      ["g", "a", kindVersion kind] ++ ["maven-metadata.xml"] := by
  cases kind <;> decide +kernel

variable {asked : List String} {wanted : String → Bool} {kind : VersionKind}

theorem bytesAt_kindPom (identity : String) :
    ((plainClient asked).bytesAt (pomHosting wanted (kindPom kind))
      (kindPom kind).repositoryPath identity).isSome = wanted identity := by
  unfold RepositoryClient.bytesAt
  split
  · next root hroot =>
    obtain ⟨components, last, hsegments, hparent, -⟩ := segments_kindPom kind
    simp only [pomHosting, getLast_locate_join hsegments hparent, hsegments, List.getLast?_concat,
      true_and]
    cases wanted identity <;> rfl
  · have hiff : (∃ other, identity ++ "/" ++ (kindPom kind).repositoryPath =
        other ++ "/" ++ (kindPom kind).repositoryPath ∧ wanted other = true) ↔
        wanted identity = true := by
      constructor
      · rintro ⟨other, heq, hwanted⟩
        obtain rfl : identity = other :=
          (String.append_left_inj _).mp ((String.append_left_inj _).mp heq)
        exact hwanted
      · exact fun hwanted => ⟨identity, rfl, hwanted⟩
    simp only [pomHosting, hiff]
    cases wanted identity <;> rfl

theorem bytesAt_metadata_kindPom (identity : String) :
    (plainClient asked).bytesAt (pomHosting wanted (kindPom kind))
      (kindPom kind).metadataPath identity = none := by
  unfold RepositoryClient.bytesAt
  split
  · next root hroot =>
    obtain ⟨components, last, hsegments, -, hmetadata⟩ := segments_kindPom kind
    have hlast := getLast_locate_join (segments_metadata_kindPom kind) (by decide)
      ((plainClient asked).repositoryRoot root)
    simp [pomHosting, hlast, hsegments, Ne.symm hmetadata]
  · have hnone : ¬ ∃ other, identity ++ "/" ++ (kindPom kind).metadataPath =
        other ++ "/" ++ (kindPom kind).repositoryPath ∧ wanted other = true := by
      rintro ⟨other, heq, -⟩
      have hdocument : (kindPom kind).metadataPath.toList.getLast? = some 'l' := by
        cases kind <;> decide +kernel
      have hpom : (kindPom kind).repositoryPath.toList.getLast? = some 'm' := by
        cases kind <;> decide +kernel
      have hlast := congrArg (·.toList.getLast?) heq
      simp only [String.toList_append, List.getLast?_append, hdocument, hpom, Option.some_or] at hlast
      cases hlast
    simp [pomHosting, hnone]

theorem has_kindPom (identity : String) :
    (plainClient asked).has (pomHosting wanted (kindPom kind)) (kindPom kind) identity =
      wanted identity := by
  have hsnapshot : (plainClient asked).snapshotBytes (pomHosting wanted (kindPom kind))
      (kindPom kind) identity = none := by
    rw [RepositoryClient.snapshotBytes, bytesAt_metadata_kindPom]
    rfl
  rw [RepositoryClient.has, RepositoryClient.found, hsnapshot, ite_self, Option.or_none]
  exact bytesAt_kindPom identity

-- Which lists honour the policies
-- ---

theorem source_fetch {client : RepositoryClient} {hosting : Hosting} {c : Coordinate}
    {memory : RepositoryClient.Memory} {w : FileStore.World FilePlace ByteArray}
    (honline : client.offline = false) (hmemory : memory c.repositoryPath = none)
    (hseparates : isSnapshotVersion c.version = true →
      client.Separates hosting c client.repositories)
    (h : client.Hosted hosting c client.repositories w) :
    (exec (client.fetch hosting.network memory c) w).1.toOption.map (repositoryId ·.1.source) =
      (client.repositories.map repositoryId).find? (client.has hosting c) := by
  rw [← RepositoryClient.source_fetchUncached honline hseparates h (List.Subset.refl _)]
  rw [RepositoryClient.fetch, hmemory]
  simp only
  rcases hfetch : exec (client.fetchUncached hosting.network c client.repositories) w with
    ⟨result, w'⟩
  cases result with
  | ok cached =>
    rw [FileStore.exec_bind_ok hfetch]
    rfl
  | error e =>
    rw [FileStore.exec_bind_error hfetch]
    rfl

/-- **A list honours the policies** when its different repositories are, in order,
the ones enabled for releases and also the ones enabled for snapshots. -/
theorem honours_iff {declared : List Resolver.Repository} : Honours asked declared ↔
    ∀ kind, distinctRepositories (clientRepositories asked) =
      distinctRepositories (policyRepositories declared kind) := by
  constructor
  · intro h kind
    refine Overriding.find_eq_iff.mp fun wanted => ?_
    let c := kindPom kind
    let client := plainClient asked
    let hosting := pomHosting wanted c
    have hmetadata : ∀ identity, client.bytesAt hosting c.metadataPath identity = none :=
      bytesAt_metadata_kindPom
    have hhas : client.has hosting c = wanted := funext has_kindPom
    have hseparates : client.Separates hosting c client.repositories :=
      { documents := fun r _ s _ _ => by rw [hmetadata, hmetadata]
        entries := fun r _ hsome => by simp [hmetadata] at hsome
        readable := fun r _ document hsome => by simp [hmetadata] at hsome }
    have hhosted := RepositoryClient.Hosted.start client hosting c client.repositories
    have hpolicy := h client hosting c (fun _ => none) _ rfl rfl rfl (fun _ => hseparates) hhosted
    rw [source_fetch rfl rfl (fun _ => hseparates) hhosted, hhas, versionKind_kindPom] at hpolicy
    exact hpolicy
  · intro h client hosting c memory w honline hclient hmemory hseparates hhosted
    rw [← hclient] at hseparates hhosted
    rw [source_fetch honline hmemory hseparates hhosted, hclient]
    exact Overriding.find_eq_iff.mpr (h c.versionKind) (client.has hosting c)

-- The repositories of an imported reactor
-- ---

def releaseUrls (declared : List Resolver.Repository) : List String :=
  (declared.filter (·.releasesEnabled)).map (·.url)

/-- The same of all projects of a reactor, sorted. -/
def reactorUrls (reactor : List EffectivePom) : List String :=
  (reactor.flatMap fun effective => releaseUrls effective.repositories).foldl insertUrl []

theorem syncRepositories_manifestFromMaven {format : Format} {effective : EffectivePom}
    {mavenAuthoritative : Bool} {manifest : Manifest}
    (h : manifestFromMaven format effective mavenAuthoritative = .ok manifest) :
    syncRepositories manifest = releaseUrls effective.repositories := by
  unfold manifestFromMaven at h
  obtain ⟨javaRelease, -, h⟩ := Fallible.bind_eq_ok.mp h
  obtain ⟨tables, -, h⟩ := Fallible.bind_eq_ok.mp h
  obtain ⟨processors, -, h⟩ := Fallible.bind_eq_ok.mp h
  obtain ⟨-, -, h⟩ := Fallible.bind_eq_ok.mp h
  cases h
  simp [syncRepositories, repositoriesFromMaven, releaseUrls, Function.comp_def]

theorem importRepositories_manifestFromMaven {format : Format} {reactor : List EffectivePom}
    {mavenAuthoritative : Bool} {manifests : List Manifest}
    (h : reactor.mapM (manifestFromMaven format · mavenAuthoritative) = .ok manifests) :
    importRepositories manifests = reactorUrls reactor := by
  have hurls : (manifests.flatMap (·.repositories)).map (·.url) =
      reactor.flatMap fun effective => releaseUrls effective.repositories := by
    rw [Fallible.mapM_eq_ok] at h
    induction h with
    | nil => rfl
    | cons hmanifest _ ih =>
      rw [List.flatMap_cons, List.flatMap_cons, List.map_append, ih]
      exact congrArg (· ++ _) (syncRepositories_manifestFromMaven hmanifest)
  rw [importRepositories, hurls, reactorUrls]

/-- The clients of an import and of the synchronizations after it honour the
policies of every project. The path dependencies and toolchains a manifest gets
later leave its repositories as they are. -/
structure HonoursPolicies (mavenAuthoritative : Bool) (reactor : List EffectivePom)
    (manifests : List Manifest) : Prop where
  imports : ∀ effective ∈ reactor, Honours (importRepositories manifests) effective.repositories
  /-- the native importer builds its models with a client that is given no repositories -/
  models : mavenAuthoritative = false → ∀ effective ∈ reactor, Honours [] effective.repositories
  synchronizations : List.Forall₂
    (fun effective manifest => Honours (syncRepositories manifest) effective.repositories)
    reactor manifests

/-- The lists of repositories clients are given for a project. -/
def askedRepositories (mavenAuthoritative : Bool) (reactor : List EffectivePom)
    (effective : EffectivePom) : List (List String) :=
  [releaseUrls effective.repositories, reactorUrls reactor] ++
    if mavenAuthoritative then [] else [[]]

theorem forall₂_synchronizations {format : Format} {reactor : List EffectivePom}
    {mavenAuthoritative : Bool} {manifests : List Manifest}
    (h : reactor.mapM (manifestFromMaven format · mavenAuthoritative) = .ok manifests) :
    List.Forall₂
        (fun effective manifest => Honours (syncRepositories manifest) effective.repositories)
        reactor manifests ↔
      ∀ effective ∈ reactor, Honours (releaseUrls effective.repositories) effective.repositories := by
  rw [Fallible.mapM_eq_ok] at h
  induction h with
  | nil => simp
  | cons hmanifest _ ih =>
    rw [List.forall₂_cons, ih, List.forall_mem_cons, syncRepositories_manifestFromMaven hmanifest]

/-- **Policies are honoured exactly when no list leaves a repository out or lets
one in**: the different repositories of each list are, in order, those the project
has enabled for releases and those it has enabled for snapshots. -/
theorem honoursPolicies_iff {format : Format} {mavenAuthoritative : Bool}
    {reactor : List EffectivePom} {manifests : List Manifest}
    (h : reactor.mapM (manifestFromMaven format · mavenAuthoritative) = .ok manifests) :
    HonoursPolicies mavenAuthoritative reactor manifests ↔
      ∀ effective ∈ reactor, ∀ asked ∈ askedRepositories mavenAuthoritative reactor effective,
        ∀ kind, distinctRepositories (clientRepositories asked) =
          distinctRepositories (policyRepositories effective.repositories kind) := by
  simp only [← honours_iff, askedRepositories, List.cons_append, List.nil_append,
    List.forall_mem_cons]
  constructor
  · rintro ⟨himports, hmodels, hsyncs⟩ effective hmem
    rw [forall₂_synchronizations h] at hsyncs
    rw [importRepositories_manifestFromMaven h] at himports
    refine ⟨hsyncs effective hmem, himports effective hmem, fun asked hasked => ?_⟩
    cases mavenAuthoritative with
    | true => cases hasked
    | false =>
      obtain rfl := List.mem_singleton.mp hasked
      exact hmodels rfl effective hmem
  · intro hall
    refine ⟨fun effective hmem => ?_, fun hnative effective hmem => ?_, ?_⟩
    · rw [importRepositories_manifestFromMaven h]
      exact (hall effective hmem).2.1
    · refine (hall effective hmem).2.2 [] ?_
      rw [hnative]
      exact List.mem_singleton.mpr rfl
    · exact (forall₂_synchronizations h).mpr fun effective hmem => (hall effective hmem).1

def repositoryProject (repository : Resolver.Repository) : EffectivePom where
  coordinate := ⟨"g", "a", "1", "pom", none⟩
  parent := none
  packaging := "jar"
  modules := []
  propertyTemplates := ∅
  properties := ∅
  dependencies := []
  dependencyManagement := []
  bomImports := []
  repositories := [repository]
  annotationProcessors := []
  compilerArgs := []
  relocation := none

def snapshotRepository : Resolver.Repository := ⟨"snapshots", "https://snapshots", false, true⟩

def openRepository : Resolver.Repository := ⟨"all", "https://all", true, true⟩

theorem openProject_honoursPolicies : ∃ manifests,
    [repositoryProject openRepository].mapM (manifestFromMaven (Format.ofTable []) · true) =
      .ok manifests ∧
    HonoursPolicies true [repositoryProject openRepository] manifests := by
  have hmanifests : ([repositoryProject openRepository].mapM
      (manifestFromMaven (Format.ofTable []) · true)).toOption.isSome = true := by decide +kernel
  obtain ⟨manifests, h⟩ := Fallible.exists_eq_ok hmanifests
  refine ⟨manifests, h, (honoursPolicies_iff h).mpr fun effective hmem asked hasked kind => ?_⟩
  obtain rfl := List.mem_singleton.mp hmem
  have hurls : askedRepositories true [repositoryProject openRepository]
      (repositoryProject openRepository) = [["https://all"], ["https://all"]] := by decide +kernel
  rw [hurls] at hasked
  obtain rfl : asked = ["https://all"] := by simpa using hasked
  cases kind <;> decide +kernel

/-- A repository for snapshots is left out of the manifest, and everything is
taken from Maven Central. -/
theorem snapshotProject_not_honoursPolicies : ∃ manifests,
    [repositoryProject snapshotRepository].mapM (manifestFromMaven (Format.ofTable []) · true) =
      .ok manifests ∧
    ¬ HonoursPolicies true [repositoryProject snapshotRepository] manifests := by
  have hmanifests : ([repositoryProject snapshotRepository].mapM
      (manifestFromMaven (Format.ofTable []) · true)).toOption.isSome = true := by decide +kernel
  obtain ⟨manifests, h⟩ := Fallible.exists_eq_ok hmanifests
  refine ⟨manifests, h, fun hhonours => ?_⟩
  have hsync := (forall₂_synchronizations h).mp hhonours.synchronizations
    (repositoryProject snapshotRepository) (List.mem_singleton.mpr rfl)
  have hsame := honours_iff.mp hsync .snapshot
  revert hsame
  decide +kernel

end JMan.Cli
