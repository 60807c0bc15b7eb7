import JMan.Resolver.Mediation

/-!
# JMan — which packages have an artifact

The candidate loop schedules one download for every package that is no POM and
no module of the workspace, and after the loop every such package has the
checksum of what was fetched for it. The other packages have none
(`artifact_of_resolved`). So a class path holds the artifacts of the candidates
that win their keys (`mem_classpath_of_resolved`).
-/

namespace JMan.Resolver

open Worklist (Move Place)

section Downloads

variable {resolver : DependencyResolver} {order : CompletionOrder} {project : EffectivePom}
  {workspace : List MavenProject} {core core' : Mediation} {c : Candidate} {move : Move Candidate}

-- Scheduled artifacts

def Downloadable (workspace : List MavenProject) (coordinate : Coordinate) : Prop :=
  findLocalModule workspace coordinate = none ∧ coordinate.extension ≠ "pom"

instance (workspace : List MavenProject) (coordinate : Coordinate) :
    Decidable (Downloadable workspace coordinate) := inferInstanceAs (Decidable (_ ∧ _))

/-- The downloads are those of the packages that have an artifact, which none has yet. -/
structure AwaitsArtifacts (workspace : List MavenProject) (core : Mediation) : Prop where
  scheduled : ∀ d ∈ core.downloads, d.1 < core.packages.length ∧
    (packageAt core.packages d.1).coordinate = d.2 ∧ Downloadable workspace d.2
  complete : ∀ i < core.packages.length, Downloadable workspace (packageAt core.packages i).coordinate →
    (i, (packageAt core.packages i).coordinate) ∈ core.downloads
  empty : ∀ i, (packageAt core.packages i).artifactChecksum = none ∧
    (packageAt core.packages i).artifactSize = none

theorem AwaitsArtifacts.of_packages (h : AwaitsArtifacts workspace core)
    (hdownloads : core'.downloads = core.downloads)
    (hlength : core'.packages.length = core.packages.length)
    (hfields : ∀ i, (packageAt core'.packages i).coordinate = (packageAt core.packages i).coordinate ∧
      (packageAt core'.packages i).artifactChecksum = (packageAt core.packages i).artifactChecksum ∧
      (packageAt core'.packages i).artifactSize = (packageAt core.packages i).artifactSize) :
    AwaitsArtifacts workspace core' where
  scheduled d hd := by
    rw [hdownloads] at hd
    rw [hlength, (hfields d.1).1]
    exact h.scheduled d hd
  complete i hi hd := by
    rw [hlength] at hi
    rw [(hfields i).1] at hd ⊢
    rw [hdownloads]
    exact h.complete i hi hd
  empty i := by
    rw [(hfields i).2.1, (hfields i).2.2]
    exact h.empty i

theorem fields_addEdge (packages : List ResolvedPackage) (parent : Option Nat) (child i : Nat) :
    (packageAt (addEdge packages parent child) i).coordinate = (packageAt packages i).coordinate ∧
    (packageAt (addEdge packages parent child) i).artifactChecksum =
      (packageAt packages i).artifactChecksum ∧
    (packageAt (addEdge packages parent child) i).artifactSize =
      (packageAt packages i).artifactSize :=
  ⟨coordinate_addEdge packages parent child i,
    packageAt_addEdge_field ResolvedPackage.artifactChecksum (fun _ _ => rfl) packages parent child i,
    packageAt_addEdge_field ResolvedPackage.artifactSize (fun _ _ => rfl) packages parent child i⟩

theorem fields_addScope (packages : List ResolvedPackage) (index : Nat) (scope : String) (i : Nat) :
    (packageAt (addScope packages index scope) i).coordinate = (packageAt packages i).coordinate ∧
    (packageAt (addScope packages index scope) i).artifactChecksum =
      (packageAt packages i).artifactChecksum ∧
    (packageAt (addScope packages index scope) i).artifactSize =
      (packageAt packages i).artifactSize := by
  have hkeeps : ∀ {β : Type} (get : ResolvedPackage → β),
      (∀ p scopes, get { p with effectiveScopes := scopes } = get p) →
      get (packageAt (addScope packages index scope) i) = get (packageAt packages i) :=
    fun get hget => packageAt_modify_field get (fun p => hget p _) packages index i
  exact ⟨hkeeps _ fun _ _ => rfl, hkeeps _ fun _ _ => rfl, hkeeps _ fun _ _ => rfl⟩

theorem AwaitsArtifacts.select (h : AwaitsArtifacts workspace core) {package : ResolvedPackage}
    (hpackage : package.artifactChecksum = none ∧ package.artifactSize = none)
    (hcore' : core'.packages = core.packages ++ [package])
    (hdownloads : core'.downloads =
      if (findLocalModule workspace package.coordinate).isNone then
        scheduleArtifact core.downloads package.coordinate core.packages.length
      else core.downloads) : AwaitsArtifacts workspace core' := by
  have hmem : ∀ d, d ∈ core'.downloads ↔ d ∈ core.downloads ∨
      Downloadable workspace package.coordinate ∧ d = (core.packages.length, package.coordinate) := by
    intro d
    rw [hdownloads, Downloadable, ← Option.isNone_iff_eq_none, scheduleArtifact]
    split
    · next hlocal =>
      split
      · next hpom => simp [hpom]
      · next hpom => simp [hlocal, hpom]
    · next hlocal => simp [hlocal]
  have hlength : core'.packages.length = core.packages.length + 1 := by
    rw [hcore', List.length_append, List.length_singleton]
  constructor
  · intro d hd
    rcases (hmem d).mp hd with hd | ⟨hdown, rfl⟩
    · obtain ⟨hlt, hcoordinate, hdown⟩ := h.scheduled d hd
      refine ⟨by omega, ?_, hdown⟩
      rw [hcore', packageAt_append hlt, hcoordinate]
    · refine ⟨by omega, ?_, hdown⟩
      rw [hcore', packageAt_append_length]
  · intro i hi hdown
    rw [hlength] at hi
    rcases Nat.lt_or_ge i core.packages.length with hlt | hge
    · rw [hcore', packageAt_append hlt] at hdown ⊢
      exact (hmem _).mpr (Or.inl (h.complete i hlt hdown))
    · obtain rfl : i = core.packages.length := by omega
      rw [hcore', packageAt_append_length] at hdown ⊢
      exact (hmem _).mpr (Or.inr ⟨hdown, rfl⟩)
  · intro i
    rcases Nat.lt_or_ge i core.packages.length with hlt | hge
    · rw [hcore', packageAt_append hlt]
      exact h.empty i
    · rcases Nat.lt_or_ge core.packages.length i with hgt | hle
      · have hnone : packageAt core'.packages i = default := by
          have hout : core'.packages[i]? = none := List.getElem?_eq_none (by omega)
          rw [packageAt, List.getD_eq_getElem?_getD, hout]
          rfl
        rw [hnone]
        exact ⟨rfl, rfl⟩
      · obtain rfl : i = core.packages.length := by omega
        rw [hcore', packageAt_append_length]
        exact hpackage

theorem AwaitsArtifacts.visited (h : AwaitsArtifacts workspace core)
    (hvisit : Visited resolver project workspace core c core' move) :
    AwaitsArtifacts workspace core' := by
  cases hvisit with
  | excluded _ => exact h
  | relocated _ _ => exact h
  | known coordinate own index hset hsel hscope =>
    exact h.of_packages rfl (length_addEdge _ _ _) fun i => fields_addEdge _ _ _ i
  | rescoped coordinate own effective index hset hsel hscope hmodel =>
    refine h.of_packages rfl ((length_addScope _ _ _).trans (length_addEdge _ _ _)) fun i => ?_
    obtain ⟨hcoordinate, hchecksum, hsize⟩ := fields_addScope
      (addEdge core.packages c.parent index) index c.scope i
    obtain ⟨hcoordinate', hchecksum', hsize'⟩ := fields_addEdge core.packages c.parent index i
    exact ⟨hcoordinate.trans hcoordinate', hchecksum.trans hchecksum', hsize.trans hsize'⟩
  | selected coordinate own file downloads hset hsel hfile hdown =>
    have hpackage : (newPackage c coordinate file).artifactChecksum = none ∧
        (newPackage c coordinate file).artifactSize = none := ⟨rfl, rfl⟩
    have hnew : AwaitsArtifacts workspace
        { core with
          packages := core.packages ++ [newPackage c coordinate file]
          downloads := downloads } := h.select hpackage rfl hdown
    exact hnew.of_packages rfl (length_addEdge _ _ _) fun i => fields_addEdge _ _ _ i

theorem awaitsArtifacts_of_mediates (h : Mediates resolver project workspace core) :
    AwaitsArtifacts workspace core := by
  refine Worklist.core_invariant (fun core item core' move hcore hvisit => ?_)
    (fun core queue hcore => ?_) h ?_
  · exact hcore.visited (visit_cases hvisit)
  · exact hcore.of_packages rfl rfl fun i => ⟨rfl, rfl, rfl⟩
  · constructor
    · intro d hd
      cases hd
    · intro i hi
      cases hi
    · exact fun i => ⟨rfl, rfl⟩

-- Joined artifacts

theorem artifact_foldl_setArtifact (artifacts : List (Nat × CachedFile))
    (packages : List ResolvedPackage) {i : Nat} (hi : i < packages.length) :
    (∃ artifact ∈ artifacts, artifact.1 = i ∧
      (packageAt (artifacts.foldl setArtifact packages) i).artifactChecksum =
        some artifact.2.checksum ∧
      (packageAt (artifacts.foldl setArtifact packages) i).artifactSize =
        some artifact.2.bytes.length) ∨
    (∀ artifact ∈ artifacts, artifact.1 ≠ i) ∧
      (packageAt (artifacts.foldl setArtifact packages) i).artifactChecksum =
        (packageAt packages i).artifactChecksum ∧
      (packageAt (artifacts.foldl setArtifact packages) i).artifactSize =
        (packageAt packages i).artifactSize := by
  induction artifacts generalizing packages with
  | nil => exact Or.inr ⟨fun artifact h => (by cases h), rfl, rfl⟩
  | cons artifact rest ih =>
    have hlength : i < (setArtifact packages artifact).length := by
      rwa [setArtifact, List.length_modify]
    rcases ih (setArtifact packages artifact) hlength with
      ⟨found, hfound, hindex, hchecksum, hsize⟩ | ⟨hnone, hchecksum, hsize⟩
    · exact Or.inl ⟨found, List.mem_cons_of_mem _ hfound, hindex, hchecksum, hsize⟩
    · rw [List.foldl_cons, hchecksum, hsize, setArtifact, packageAt_modify]
      by_cases hindex : artifact.1 = i
      · rw [if_pos ⟨hindex, hi⟩]
        exact Or.inl ⟨artifact, List.mem_cons_self, hindex, rfl, rfl⟩
      · rw [if_neg fun h => hindex h.1]
        refine Or.inr ⟨fun other hother => ?_, rfl, rfl⟩
        rcases List.mem_cons.mp hother with rfl | hother
        · exact hindex
        · exact hnone other hother

/-- **A package that can be downloaded was.** The others have no artifact. -/
theorem artifact_of_finishArtifacts {packages : List ResolvedPackage}
    (h : finishArtifacts resolver order core = .ok packages)
    (hcore : AwaitsArtifacts workspace core) {i : Nat} (hi : i < packages.length) :
    (Downloadable workspace (packageAt packages i).coordinate →
      ∃ cached, resolver.fetch (packageAt packages i).coordinate = .ok cached ∧
        (packageAt packages i).artifactChecksum = some cached.checksum ∧
        (packageAt packages i).artifactSize = some cached.bytes.length) ∧
    (¬ Downloadable workspace (packageAt packages i).coordinate →
      (packageAt packages i).artifactChecksum = none ∧
        (packageAt packages i).artifactSize = none) := by
  obtain ⟨hlength, hfields⟩ := finishArtifacts_packageAt h
  rw [hlength] at hi
  rw [(hfields i).1]
  unfold finishArtifacts at h
  obtain ⟨artifacts, hartifacts, h⟩ := Fallible.bind_eq_ok.mp h
  cases h
  -- what was joined was fetched for a scheduled download
  have hfetched : ∀ artifact ∈ artifacts.insertionSort (fun a b => a.1 ≤ b.1),
      ∃ d ∈ core.downloads, artifact.1 = d.1 ∧ resolver.fetch d.2 = .ok artifact.2 := by
    intro artifact hmem
    rw [List.mem_insertionSort] at hmem
    obtain ⟨d, hd, hfetch⟩ := Fallible.exists_of_mem_mapM hartifacts hmem
    obtain ⟨cached, hcached, hpair⟩ := Fallible.bind_eq_ok.mp hfetch
    cases hpair
    exact ⟨d, (order.perm core.downloads).mem_iff.mp hd, rfl, hcached⟩
  have hjoined : ∀ d ∈ core.downloads, ∃ artifact ∈ artifacts.insertionSort (fun a b => a.1 ≤ b.1),
      artifact.1 = d.1 := by
    intro d hd
    have hd' : d ∈ order.order core.downloads := (order.perm core.downloads).mem_iff.mpr hd
    obtain ⟨artifact, hmem, hfetch⟩ := Fallible.exists_of_mem_of_mapM hartifacts hd'
    obtain ⟨cached, -, hpair⟩ := Fallible.bind_eq_ok.mp hfetch
    cases hpair
    exact ⟨_, (List.mem_insertionSort _).mpr hmem, rfl⟩
  rcases artifact_foldl_setArtifact (artifacts.insertionSort fun a b => a.1 ≤ b.1) core.packages hi
    with ⟨artifact, hmem, hindex, hchecksum, hsize⟩ | ⟨hnone, hchecksum, hsize⟩
  · obtain ⟨d, hd, hsame, hfetch⟩ := hfetched artifact hmem
    obtain ⟨-, hcoordinate, hdown⟩ := hcore.scheduled d hd
    rw [← hsame, hindex] at hcoordinate
    rw [hcoordinate]
    exact ⟨fun _ => ⟨artifact.2, hfetch, hchecksum, hsize⟩, fun hno => absurd hdown hno⟩
  · refine ⟨fun hdown => ?_, fun _ => ?_⟩
    · obtain ⟨artifact, hmem, hindex⟩ := hjoined _ (hcore.complete i hi hdown)
      exact absurd hindex (hnone artifact hmem)
    · rw [hchecksum, hsize]
      exact hcore.empty i

/-- **The artifacts of a graph**: of every package that can be downloaded. -/
theorem artifact_of_resolved {graph : ResolvedGraph}
    (h : Resolves resolver order project workspace (.ok graph)) {package : ResolvedPackage}
    (hpackage : package ∈ graph.packages) :
    (Downloadable workspace package.coordinate →
      ∃ cached, resolver.fetch package.coordinate = .ok cached ∧
        package.artifactChecksum = some cached.checksum ∧
        package.artifactSize = some cached.bytes.length) ∧
    (¬ Downloadable workspace package.coordinate →
      package.artifactChecksum = none ∧ package.artifactSize = none) := by
  obtain ⟨core, packages, hcore, hfinish, rfl⟩ := resolves_ok h
  rw [packages_buildClasspaths] at hpackage
  obtain ⟨i, hi, rfl⟩ := List.mem_iff_getElem.mp hpackage
  have hat : packageAt packages i = packages[i] := by simp [packageAt, hi]
  rw [← hat]
  exact artifact_of_finishArtifacts hfinish (awaitsArtifacts_of_mediates hcore) hi

-- Class paths

variable {T : Place → Candidate → Prop} {cp : Classpath} {k : String} {graph : ResolvedGraph}

/-- The candidate that wins the key has this coordinate, there is an artifact, and
a candidate with the key has a scope that the class path admits. -/
structure OnClasspath (resolver : DependencyResolver) (workspace : List MavenProject)
    (T : Place → Candidate → Prop) (cp : Classpath) (k : String) (coordinate : Coordinate) : Prop where
  wins : ∃ p c own, Wins resolver T k p c ∧ Settled resolver c coordinate own
  admitted : ∃ q d, SettledAt resolver T q d ∧ d.dependency.managementKey = k ∧ d.scope ∈ cp.scopes
  downloadable : Downloadable workspace coordinate

theorem OnClasspath.unique {coordinate coordinate' : Coordinate}
    (hresolves : Resolves resolver order project workspace (.ok graph))
    (hT : CandidateTree resolver project T)
    (h : OnClasspath resolver workspace T cp k coordinate)
    (h' : OnClasspath resolver workspace T cp k coordinate') : coordinate = coordinate' := by
  obtain ⟨core, packages, hmed, -, -⟩ := resolves_ok hresolves
  obtain ⟨s, -, hs, hq, -⟩ := mediated_history hmed
  obtain rfl := hT.unique (candidateTree_of_run hs hq)
  obtain ⟨p, c, own, hwins, hset⟩ := h.wins
  obtain ⟨p', c', own', hwins', hset'⟩ := h'.wins
  obtain ⟨-, rfl⟩ := hs.wins_unique hq hwins hwins'
  exact (hset.unique hset').1

/-- **A class path holds the artifacts of the candidates that win their keys.** -/
theorem mem_classpath_of_resolved (h : Resolves resolver order project workspace (.ok graph))
    (hT : CandidateTree resolver project T) {checksum : String} :
    checksum ∈ graph.classpath cp ↔ ∃ k coordinate cached,
      OnClasspath resolver workspace T cp k coordinate ∧ resolver.fetch coordinate = .ok cached ∧
        cached.checksum = checksum := by
  obtain ⟨core, packages, hmed, hfin, rfl⟩ := resolves_ok h
  obtain ⟨s, -, hs, hq, rfl⟩ := mediated_history hmed
  obtain rfl := hT.unique (candidateTree_of_run hs hq)
  obtain ⟨hlength, hfields⟩ := finishArtifacts_packageAt hfin
  rw [mem_classpath_buildClasspaths]
  constructor
  · rintro ⟨package, hpackage, hchecksum, scope, hscope, hadmitted⟩
    obtain ⟨i, hi, rfl⟩ := List.mem_iff_getElem.mp hpackage
    have hat : packageAt packages i = packages[i] := by simp [packageAt, hi]
    rw [← hat] at hchecksum hscope
    obtain ⟨k, hk⟩ := hs.represents.has_key (hlength ▸ hi)
    obtain ⟨p, c, coordinate, own, hwins, hset, hco⟩ := hs.selected_iff hq hk
    rw [← (hfields i).1] at hco
    rw [(hfields i).2.1] at hscope
    obtain ⟨d, hd, hkey, rfl⟩ := hs.represents.scope_from hk hscope
    obtain ⟨v, hv, rfl, hsettles⟩ := mem_settledItems.mp hd
    obtain ⟨hfetched, hnone⟩ :=
      artifact_of_finishArtifacts hfin (awaitsArtifacts_of_mediates hmed) hi
    have hdown : Downloadable workspace (packageAt packages i).coordinate := by
      by_contra hno
      rw [(hnone hno).1] at hchecksum
      cases hchecksum
    obtain ⟨cached, hcached, hsame, -⟩ := hfetched hdown
    subst hco
    refine ⟨k, _, cached, ⟨⟨p, c, own, hwins, hset⟩, ⟨v.place, v.item.forget, ?_, hkey,
      hadmitted⟩, hdown⟩, hcached, Option.some.inj (hsame.symm.trans hchecksum)⟩
    exact (hs.settledAt_iff hq).mpr ⟨v, hv, rfl, rfl, hsettles⟩
  · rintro ⟨k, coordinate, cached, hon, hcached, rfl⟩
    obtain ⟨p, c, own, hwins, hset⟩ := hon.wins
    obtain ⟨q, d, hd, hkey, hadmitted⟩ := hon.admitted
    obtain ⟨v, hv, rfl, rfl, hsettles⟩ := (hs.settledAt_iff hq).mp hd
    obtain ⟨i, hi, hscope, -⟩ :=
      hs.represents.present v.item (mem_settledItems.mpr ⟨v, hv, rfl, hsettles⟩)
    have hk : s.core.selected.lookup k = some i := by rw [← hkey]; exact hi
    obtain ⟨p', c', coordinate', own', hwins', hset', hco⟩ := hs.selected_iff hq hk
    obtain ⟨-, rfl⟩ := hs.wins_unique hq hwins hwins'
    obtain rfl := (hset.unique hset').1
    have hlt : i < packages.length := hlength ▸ hs.represents.index_lt hk
    have hat : packageAt packages i = packages[i] := by simp [packageAt, hlt]
    rw [← (hfields i).1] at hco
    subst hco
    obtain ⟨found, hfound, hchecksum, -⟩ :=
      (artifact_of_finishArtifacts hfin (awaitsArtifacts_of_mediates hmed) hlt).1 hon.downloadable
    cases hfound.symm.trans hcached
    refine ⟨packages[i], List.getElem_mem hlt, ?_⟩
    rw [← hat]
    refine ⟨hchecksum, v.item.scope, ?_, hadmitted⟩
    rw [(hfields i).2.1]
    exact hscope

end Downloads

end JMan.Resolver
