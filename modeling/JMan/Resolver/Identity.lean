import JMan.Resolver.Closure
import JMan.Resolver.Mediation

/-!
# JMan — one version per artifact

Mediation selects one version for every *key*, and a key is spelled with the
declared type and classifier of a dependency. The artifact a dependency names
has the extension and the classifier the type stands for, so two keys can name
one artifact: `test-jar` is the jar with classifier `tests`, and a `bundle` is
a jar (`managementKey_eq_iff_of_identity_eq`). A graph then holds two versions
of it. It holds one exactly when no two winners of different keys name the same
artifact (`one_version_iff_winners_spelled_alike`).
-/

namespace JMan.Resolver

open Worklist (Place)

/-! ## Identities -/

/-- What a repository keeps versions of: group, artifact, extension, classifier. -/
abbrev ArtifactIdentity := String × String × String × Option String

def Coordinate.identity (c : Coordinate) : ArtifactIdentity :=
  (c.group, c.artifact, c.extension, c.classifier)

def Dependency.identity (d : Dependency) : ArtifactIdentity :=
  (d.group, d.artifact, typeToExtension d.dependencyType, d.artifactClassifier)

theorem identity_of_coordinate {d : Dependency} {c : Coordinate} (h : d.coordinate = .ok c) :
    c.identity = d.identity := by
  obtain ⟨-, hgroup, hartifact, hextension, hclassifier⟩ := Dependency.coordinate_eq_ok h
  rw [Coordinate.identity, Dependency.identity, hgroup, hartifact, hextension, hclassifier]

/-- The graph has at most one package for every artifact. -/
def OneVersion (graph : ResolvedGraph) : Prop :=
  ∀ i j, i < graph.packages.length → j < graph.packages.length →
    (packageAt graph.packages i).coordinate.identity =
      (packageAt graph.packages j).coordinate.identity → i = j

/-! ## One version -/

/-- The candidates that win their keys spell an artifact in one way. -/
def SpelledAlike (resolver : DependencyResolver) (T : Place → Candidate → Prop) : Prop :=
  ∀ k k' p p' c c', Wins resolver T k p c → Wins resolver T k' p' c' →
    c.dependency.identity = c'.dependency.identity → k = k'

section

variable {resolver : DependencyResolver} {order : CompletionOrder} {project : EffectivePom}
  {workspace : List MavenProject} {graph : ResolvedGraph}

/-- **A resolved graph has one version of every artifact exactly when no two
winners of different keys name the same artifact.** -/
theorem one_version_iff_winners_spelled_alike
    (h : Resolves resolver order project workspace (.ok graph)) :
    ∃ T, CandidateTree resolver project T ∧ (OneVersion graph ↔ SpelledAlike resolver T) := by
  obtain ⟨core, packages, hmed, hfin, rfl⟩ := resolves_ok h
  obtain ⟨s, -, hs, hq, rfl⟩ := mediated_history hmed
  obtain ⟨hlen, hpackages⟩ := finishArtifacts_packageAt hfin
  refine ⟨runTree project s.history, candidateTree_of_run hs hq, ?_⟩
  have hid : ∀ {k i p c}, s.core.selected.lookup k = some i →
      Wins resolver (runTree project s.history) k p c →
        (packageAt packages i).coordinate.identity = c.dependency.identity := by
    intro k i p c hk hc
    obtain ⟨q, w, coordinate, own, hw, hset, hco⟩ := hs.selected_iff hq hk
    obtain ⟨-, rfl⟩ := hs.wins_unique hq hw hc
    rw [(hpackages i).1, hco, identity_of_coordinate hset.coordinate_eq]
  simp only [OneVersion, packages_buildClasspaths, hlen]
  constructor
  · intro hone k k' p p' c c' hc hc' heq
    obtain ⟨i, hi⟩ := hs.selected_of_wins hq hc
    obtain ⟨j, hj⟩ := hs.selected_of_wins hq hc'
    have hij := hone i j (hs.represents.index_lt hi) (hs.represents.index_lt hj)
      (by rw [hid hi hc, hid hj hc', heq])
    exact hs.represents.index_inj hi (hij ▸ hj)
  · intro halike i j hi hj heq
    obtain ⟨k, hk⟩ := hs.represents.has_key hi
    obtain ⟨k', hk'⟩ := hs.represents.has_key hj
    obtain ⟨p, c, -, -, hc, -⟩ := hs.selected_iff hq hk
    obtain ⟨p', c', -, -, hc', -⟩ := hs.selected_iff hq hk'
    obtain rfl := halike k k' p p' c c' hc hc' (by rw [← hid hk hc, ← hid hk' hc', heq])
    rw [hk] at hk'
    exact Option.some.inj hk'

end

theorem one_version_iff_nearer : ∃ graph T,
    graph.packages.map (fun p => p.coordinate.toString) =
        ["app:left:1", "app:right:1", "lib:mid:1", "lib:core:1"] ∧
      CandidateTree nearerRepository nearerProject T ∧
      (OneVersion graph ↔ SpelledAlike nearerRepository T) := by
  have hrun : ((resolveInWorkspace nearerRepository CompletionOrder.spawned nearerProject [] 6).bind
      Except.toOption).map (fun graph => graph.packages.map fun p => p.coordinate.toString) =
        some ["app:left:1", "app:right:1", "lib:mid:1", "lib:core:1"] := by decide +kernel
  obtain ⟨graph, hgraph, hview⟩ := resolves_of_run _ _ hrun
  obtain ⟨T, hT, hiff⟩ := one_version_iff_winners_spelled_alike hgraph
  exact ⟨graph, T, hview, hT, hiff⟩

def spelledProject : EffectivePom :=
  EffectivePom.declare "app" "main" "1"
    [{ Dependency.declare "lib" "core" "1" "test" with classifier := some "tests" },
      { Dependency.declare "lib" "core" "2" "test" with dependencyType := "test-jar" }]

def spelledRepository : DependencyResolver :=
  DependencyResolver.ofModels
    [EffectivePom.declare "lib" "core" "1" [], EffectivePom.declare "lib" "core" "2" []]

theorem two_versions_of_one_artifact : ∃ graph,
    Resolves spelledRepository CompletionOrder.spawned spelledProject [] (.ok graph) ∧
    graph.testClasspath =
      ["sha256:lib:core:jar:tests:1", "sha256:lib:core:jar:tests:2"] ∧ ¬ OneVersion graph := by
  have hrun : ((resolveInWorkspace spelledRepository CompletionOrder.spawned spelledProject []
      6).bind Except.toOption).map (fun graph => (graph.testClasspath, graph.packages.length,
        (packageAt graph.packages 0).coordinate, (packageAt graph.packages 1).coordinate)) =
      some (["sha256:lib:core:jar:tests:1", "sha256:lib:core:jar:tests:2"], 2,
        ⟨"lib", "core", "1", "jar", some "tests"⟩, ⟨"lib", "core", "2", "jar", some "tests"⟩) := by
    decide
  obtain ⟨graph, hgraph, hview⟩ := resolves_of_run _ _ hrun
  simp only [Prod.mk.injEq] at hview
  obtain ⟨htest, hlen, hfirst, hsecond⟩ := hview
  refine ⟨graph, hgraph, htest, fun hone => ?_⟩
  have heq := hone 0 1 (by omega) (by omega) (by rw [hfirst, hsecond]; rfl)
  omega

end JMan.Resolver
