import JMan.Resolver.Graph

/-!
# JMan — what resolution reads

Of a model resolution reads the dependencies and the relocation, of the project
its root candidates and what its dependency management makes of a dependency,
and of the workspace where the POM of a module lies. Inputs that agree on these
resolve to the same graph (`resolves_congr`).
-/

namespace JMan.Resolver

open Worklist (Move)

-- Inputs that agree

def EffectivePom.expansion (effective : EffectivePom) : List Dependency × Option Coordinate :=
  (effective.dependencies, effective.relocation)

structure DependencyResolver.Agrees (resolver resolver' : DependencyResolver) : Prop where
  buildCoordinate : ∀ c, (resolver.buildCoordinate c).map EffectivePom.expansion =
    (resolver'.buildCoordinate c).map EffectivePom.expansion
  fetch : resolver.fetch = resolver'.fetch
  read : resolver.read = resolver'.read
  sha256 : resolver.sha256 = resolver'.sha256

structure EffectivePom.AgreesAsRoot (project project' : EffectivePom) : Prop where
  candidates : rootCandidates project = rootCandidates project'
  management : ∀ dependency, applyRootManagement dependency project.dependencyManagement =
    applyRootManagement dependency project'.dependencyManagement

/-- The modules have their POMs in the same places. -/
def AgreesOnSources (workspace workspace' : List MavenProject) : Prop :=
  ∀ c, (findLocalModule workspace c).map (·.source) = (findLocalModule workspace' c).map (·.source)

-- Their visits

section Visit

variable {resolver resolver' : DependencyResolver} {project project' : EffectivePom}
  {workspace workspace' : List MavenProject} {effective effective' : EffectivePom}
  {candidate : Candidate}

theorem relocationOf_congr (h : effective.expansion = effective'.expansion) (c : Coordinate) :
    relocationOf c effective = relocationOf c effective' := by
  have hrelocation : effective.relocation = effective'.relocation := congrArg Prod.snd h
  rw [relocationOf, relocationOf, hrelocation]

theorem enqueueChildren_congr (h : effective.expansion = effective'.expansion)
    (hproject : project.AgreesAsRoot project') (parent : Nat) :
    enqueueChildren effective candidate parent project.dependencyManagement =
      enqueueChildren effective' candidate parent project'.dependencyManagement := by
  have hdependencies : effective.dependencies = effective'.dependencies := congrArg Prod.fst h
  simp only [enqueueChildren, hdependencies, hproject.management]

theorem pomFile_congr_sources (hresolver : resolver.Agrees resolver')
    (hworkspace : AgreesOnSources workspace workspace') (c : Coordinate) :
    pomFile resolver workspace c = pomFile resolver' workspace' c := by
  have hsource := hworkspace c
  have hlocal : ∀ module module' : MavenProject, module.source = module'.source →
      localPomFile resolver module = localPomFile resolver' module' := by
    intro module module' h
    rw [localPomFile, localPomFile, hresolver.read, hresolver.sha256, h]
  unfold pomFile
  cases hmodule : findLocalModule workspace c with
  | none =>
    rw [hmodule, Option.map_none, eq_comm, Option.map_eq_none_iff] at hsource
    rw [hsource, hresolver.fetch]
  | some module =>
    rw [hmodule, Option.map_some, eq_comm] at hsource
    obtain ⟨module', hmodule', hsame⟩ := Option.map_eq_some_iff.mp hsource
    rw [hmodule']
    exact hlocal _ _ hsame.symm

theorem isNone_findLocalModule_congr (h : AgreesOnSources workspace workspace') (c : Coordinate) :
    (findLocalModule workspace c).isNone = (findLocalModule workspace' c).isNone := by
  have hsource := congrArg Option.isNone (h c)
  rwa [Option.isNone_map, Option.isNone_map] at hsource

theorem buildCoordinate_cases (h : resolver.Agrees resolver') (c : Coordinate) :
    (∃ e, resolver.buildCoordinate c = .error e ∧ resolver'.buildCoordinate c = .error e) ∨
      ∃ m m', resolver.buildCoordinate c = .ok m ∧ resolver'.buildCoordinate c = .ok m' ∧
        m.expansion = m'.expansion := by
  have hmodels := h.buildCoordinate c
  cases hm : resolver.buildCoordinate c with
  | error e =>
    cases hm' : resolver'.buildCoordinate c with
    | error e' =>
      rw [hm, hm'] at hmodels
      cases hmodels
      exact Or.inl ⟨e, rfl, rfl⟩
    | ok m' =>
      rw [hm, hm'] at hmodels
      cases hmodels
  | ok m =>
    cases hm' : resolver'.buildCoordinate c with
    | error e' =>
      rw [hm, hm'] at hmodels
      cases hmodels
    | ok m' =>
      rw [hm, hm'] at hmodels
      exact Or.inr ⟨m, m', rfl, rfl, Except.ok.inj hmodels⟩

theorem revisit_congr (hresolver : resolver.Agrees resolver')
    (hproject : project.AgreesAsRoot project') (h : effective.expansion = effective'.expansion)
    (core : Mediation) (c : Coordinate) (index : Nat) :
    core.revisit resolver project candidate c effective index =
      core.revisit resolver' project' candidate c effective' index := by
  unfold Mediation.revisit
  simp only
  split
  · rfl
  · unfold mediatedModel
    split
    · exact congrArg (fun children => Except.ok (_, Move.push children))
        (enqueueChildren_congr h hproject index)
    · rcases buildCoordinate_cases hresolver
        (packageAt (addEdge core.packages candidate.parent index) index).coordinate.toPom with
        ⟨e, he, he'⟩ | ⟨m, m', hm, hm', hexpansion⟩
      · rw [he, he']
        rfl
      · rw [hm, hm']
        exact congrArg (fun children => Except.ok (_, Move.push children))
          (enqueueChildren_congr hexpansion hproject index)

theorem select_congr (hresolver : resolver.Agrees resolver')
    (hproject : project.AgreesAsRoot project')
    (hworkspace : AgreesOnSources workspace workspace')
    (h : effective.expansion = effective'.expansion) (core : Mediation) (c : Coordinate) :
    core.select resolver project workspace candidate c effective =
      core.select resolver' project' workspace' candidate c effective' := by
  unfold Mediation.select
  simp only [pomFile_congr_sources hresolver hworkspace, enqueueChildren_congr h hproject,
    isNone_findLocalModule_congr hworkspace]

/-- **Inputs that agree make the same visits.** -/
theorem visit_congr_inputs (hresolver : resolver.Agrees resolver')
    (hproject : project.AgreesAsRoot project')
    (hworkspace : AgreesOnSources workspace workspace') (core : Mediation) :
    core.visit resolver project workspace candidate =
      core.visit resolver' project' workspace' candidate := by
  unfold Mediation.visit
  split
  · rfl
  · cases candidate.dependency.coordinate with
    | error e => rfl
    | ok c =>
      simp only [bind, Except.bind]
      rcases buildCoordinate_cases hresolver c.toPom with ⟨e, he, he'⟩ | ⟨m, m', hm, hm', hexpansion⟩
      · rw [he, he']
      · rw [hm, hm']
        simp only [relocationOf_congr hexpansion]
        cases relocationOf c m' with
        | some relocation => rfl
        | none =>
          cases core.selected.lookup candidate.dependency.managementKey with
          | some index => exact revisit_congr hresolver hproject hexpansion core c index
          | none => exact select_congr hresolver hproject hworkspace hexpansion core c

end Visit

-- Their resolutions

section Resolve

variable {resolver resolver' : DependencyResolver} {order : CompletionOrder}
  {project project' : EffectivePom} {workspace workspace' : List MavenProject}

/-- **Inputs that agree resolve alike.** -/
theorem resolves_congr (hresolver : resolver.Agrees resolver')
    (hproject : project.AgreesAsRoot project')
    (hworkspace : AgreesOnSources workspace workspace') (result : Except ResolverError ResolvedGraph) :
    Resolves resolver order project workspace result ↔
      Resolves resolver' order project' workspace' result := by
  have hmachine : mediation resolver project workspace = mediation resolver' project' workspace' := by
    unfold mediation
    congr 1
    funext core candidate
    exact visit_congr_inputs hresolver hproject hworkspace core
  have hstart : startState project = startState project' := by
    rw [startState, startState, Mediation.start, Mediation.start, hproject.candidates]
  have hfinish : finish resolver order = finish resolver' order := by
    funext core
    rw [finish, finish, finishArtifacts, finishArtifacts, hresolver.fetch]
  rw [resolves_iff, resolves_iff, hmachine, hstart, hfinish]

end Resolve

end JMan.Resolver
