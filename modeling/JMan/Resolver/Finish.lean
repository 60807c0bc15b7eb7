import JMan.Resolver.Visits

/-!
# JMan — after the candidate loop

Joining the downloads fills in the artifact fields of the packages and nothing
else, in whatever order they complete (`finishArtifacts_keeps`), and
`build_classpaths` puts a checksum on a classpath exactly when some package
with that checksum has a scope the classpath admits, once
(`mem_classpath_buildClasspaths`, `nodup_classpath_buildClasspaths`).
-/

namespace JMan.Resolver

/-! ## Artifacts -/

theorem setArtifact_keeps {β : Type} (get : ResolvedPackage → β)
    (hget : ∀ p checksum size path, get { p with
      artifactChecksum := checksum, artifactSize := size, artifactPath := path } = get p)
    (packages : List ResolvedPackage) (artifact : Nat × CachedFile) :
    (setArtifact packages artifact).map get = packages.map get := by
  refine List.ext_getElem? fun i => ?_
  simp only [setArtifact, List.getElem?_map, List.getElem?_modify]
  cases packages[i]? with
  | none => rfl
  | some p =>
    simp only [Option.map_some]
    split
    · exact congrArg some (hget p _ _ _)
    · rfl

/-- **Joining the downloads keeps every field but the artifact's.** -/
theorem finishArtifacts_keeps {β : Type} (get : ResolvedPackage → β)
    (hget : ∀ p checksum size path, get { p with
      artifactChecksum := checksum, artifactSize := size, artifactPath := path } = get p)
    {resolver : DependencyResolver} {order : CompletionOrder} {core : Mediation}
    {packages : List ResolvedPackage}
    (h : finishArtifacts resolver order core = .ok packages) :
    packages.map get = core.packages.map get := by
  unfold finishArtifacts at h
  obtain ⟨artifacts, -, h⟩ := Fallible.bind_eq_ok.mp h
  cases h
  generalize artifacts.insertionSort (fun a b => a.1 ≤ b.1) = sorted
  generalize core.packages = start
  induction sorted generalizing start with
  | nil => rfl
  | cons artifact rest ih =>
    rw [List.foldl_cons, ih, setArtifact_keeps get hget]

theorem finishArtifacts_packageAt {resolver : DependencyResolver} {order : CompletionOrder}
    {core : Mediation} {packages : List ResolvedPackage}
    (h : finishArtifacts resolver order core = .ok packages) :
    packages.length = core.packages.length ∧ ∀ i,
      (packageAt packages i).coordinate = (packageAt core.packages i).coordinate ∧
      (packageAt packages i).effectiveScopes = (packageAt core.packages i).effectiveScopes ∧
      (packageAt packages i).dependencies = (packageAt core.packages i).dependencies := by
  have hmap := finishArtifacts_keeps
    (fun p => (p.coordinate, p.effectiveScopes, p.dependencies)) (fun _ _ _ _ => rfl) h
  have hlen : packages.length = core.packages.length := by
    simpa using congrArg List.length hmap
  refine ⟨hlen, fun i => ?_⟩
  by_cases hi : i < packages.length
  · have hi' : i < core.packages.length := hlen ▸ hi
    have hget := congrArg (fun l => l[i]?) hmap
    simpa [packageAt, hi, hi'] using hget
  · have hi' : ¬ i < core.packages.length := hlen ▸ hi
    simp [packageAt, hi, hi']

/-! ## Classpaths -/

inductive Classpath where
  | compile
  | runtime
  | test
  | processor
deriving DecidableEq

def ResolvedGraph.classpath (graph : ResolvedGraph) : Classpath → List String
  | .compile => graph.compileClasspath
  | .runtime => graph.runtimeClasspath
  | .test => graph.testClasspath
  | .processor => graph.processorClasspath

def Classpath.scopes : Classpath → List String
  | .compile => ["compile", "provided"]
  | .runtime => ["compile", "runtime"]
  | .test => ["compile", "runtime", "provided", "test"]
  | .processor => ["processor"]

theorem mem_pushUnique {target : List String} {checksum x : String} :
    x ∈ pushUnique target checksum ↔ x ∈ target ∨ x = checksum := by
  unfold pushUnique
  split
  · next h =>
    constructor
    · exact Or.inl
    · rintro (hx | rfl)
      · exact hx
      · exact h
  · simp

theorem nodup_pushUnique {target : List String} (h : target.Nodup) (checksum : String) :
    (pushUnique target checksum).Nodup := by
  unfold pushUnique
  split
  · exact h
  · next hne =>
    refine List.nodup_append.mpr ⟨h, List.pairwise_singleton _ _, fun x hx y hy => ?_⟩
    rw [List.mem_singleton] at hy
    rintro rfl
    exact hne (hy ▸ hx)

theorem classpath_pushScope (checksum : String) (graph : ResolvedGraph) (scope : String)
    (cp : Classpath) : (pushScope checksum graph scope).classpath cp =
      if scope ∈ cp.scopes then pushUnique (graph.classpath cp) checksum
      else graph.classpath cp := by
  unfold pushScope
  split
  · cases cp <;> simp [ResolvedGraph.classpath, Classpath.scopes]
  · cases cp <;> simp [ResolvedGraph.classpath, Classpath.scopes]
  · cases cp <;> simp [ResolvedGraph.classpath, Classpath.scopes]
  · cases cp <;> simp [ResolvedGraph.classpath, Classpath.scopes]
  · cases cp <;> simp [ResolvedGraph.classpath, Classpath.scopes]
  · next h1 h2 h3 h4 h5 =>
    -- no classpath admits any other scope
    have hno : scope ∉ cp.scopes := by
      cases cp <;> simp only [Classpath.scopes, List.mem_cons, List.not_mem_nil, or_false] <;> tauto
    rw [if_neg hno]

theorem mem_classpath_pushScopes (checksum : String) (scopes : List String)
    (graph : ResolvedGraph) (cp : Classpath) (x : String) :
    x ∈ (scopes.foldl (pushScope checksum) graph).classpath cp ↔
      x ∈ graph.classpath cp ∨ x = checksum ∧ ∃ scope ∈ scopes, scope ∈ cp.scopes := by
  induction scopes generalizing graph with
  | nil => simp
  | cons scope rest ih =>
    rw [List.foldl_cons, ih, classpath_pushScope]
    split
    · next h =>
      rw [mem_pushUnique]
      simp only [List.mem_cons, exists_eq_or_imp, h, true_or, and_true]
      tauto
    · next h =>
      simp only [List.mem_cons, exists_eq_or_imp, h, false_or]

theorem nodup_classpath_pushScopes (checksum : String) (scopes : List String)
    {graph : ResolvedGraph} {cp : Classpath} (h : (graph.classpath cp).Nodup) :
    ((scopes.foldl (pushScope checksum) graph).classpath cp).Nodup := by
  induction scopes generalizing graph with
  | nil => exact h
  | cons scope rest ih =>
    refine ih ?_
    rw [classpath_pushScope]
    split
    · exact nodup_pushUnique h checksum
    · exact h

/-- The package is on the classpath: its artifact, by one of its scopes. -/
def ResolvedPackage.Supplies (package : ResolvedPackage) (cp : Classpath) (checksum : String) :
    Prop :=
  package.artifactChecksum = some checksum ∧ ∃ scope ∈ package.effectiveScopes, scope ∈ cp.scopes

theorem mem_classpath_pushPackage (graph : ResolvedGraph) (package : ResolvedPackage)
    (cp : Classpath) (x : String) : x ∈ (pushPackage graph package).classpath cp ↔
      x ∈ graph.classpath cp ∨ package.Supplies cp x := by
  unfold pushPackage ResolvedPackage.Supplies
  split
  · next h => simp [h]
  · next checksum h =>
    rw [mem_classpath_pushScopes, h, Option.some.injEq, eq_comm (a := x)]

theorem nodup_classpath_pushPackage {graph : ResolvedGraph} {cp : Classpath}
    (h : (graph.classpath cp).Nodup) (package : ResolvedPackage) :
    ((pushPackage graph package).classpath cp).Nodup := by
  unfold pushPackage
  split
  · exact h
  · exact nodup_classpath_pushScopes _ _ h

private theorem mem_classpath_foldl (packages : List ResolvedPackage) (graph : ResolvedGraph)
    (cp : Classpath) (x : String) : x ∈ (packages.foldl pushPackage graph).classpath cp ↔
      x ∈ graph.classpath cp ∨ ∃ package ∈ packages, package.Supplies cp x := by
  induction packages generalizing graph with
  | nil => simp
  | cons package rest ih =>
    rw [List.foldl_cons, ih, mem_classpath_pushPackage]
    simp only [List.mem_cons, exists_eq_or_imp, or_assoc]

/-- **A classpath holds the checksums of the packages with an admitted scope.** -/
theorem mem_classpath_buildClasspaths (packages : List ResolvedPackage) (cp : Classpath)
    (x : String) : x ∈ (buildClasspaths packages).classpath cp ↔
      ∃ package ∈ packages, package.Supplies cp x := by
  rw [buildClasspaths, mem_classpath_foldl]
  cases cp <;> simp [ResolvedGraph.classpath]

/-- **A classpath holds every checksum once.** -/
theorem nodup_classpath_buildClasspaths (packages : List ResolvedPackage) (cp : Classpath) :
    ((buildClasspaths packages).classpath cp).Nodup := by
  have key : ∀ (rest : List ResolvedPackage) (graph : ResolvedGraph),
      (graph.classpath cp).Nodup → ((rest.foldl pushPackage graph).classpath cp).Nodup := by
    intro rest
    induction rest with
    | nil => exact fun _ h => h
    | cons package rest ih => exact fun graph h => ih _ (nodup_classpath_pushPackage h package)
  refine key packages _ ?_
  cases cp <;> simp [ResolvedGraph.classpath]

@[simp] theorem packages_pushScope (checksum : String) (graph : ResolvedGraph) (scope : String) :
    (pushScope checksum graph scope).packages = graph.packages := by
  unfold pushScope
  split <;> rfl

theorem packages_pushPackage (graph : ResolvedGraph) (package : ResolvedPackage) :
    (pushPackage graph package).packages = graph.packages := by
  unfold pushPackage
  split
  · rfl
  · next checksum _ =>
    generalize package.effectiveScopes = scopes
    induction scopes generalizing graph with
    | nil => rfl
    | cons scope rest ih => rw [List.foldl_cons, ih, packages_pushScope]

@[simp] theorem packages_buildClasspaths (packages : List ResolvedPackage) :
    (buildClasspaths packages).packages = packages := by
  have key : ∀ (rest : List ResolvedPackage) (graph : ResolvedGraph),
      (rest.foldl pushPackage graph).packages = graph.packages := by
    intro rest
    induction rest with
    | nil => exact fun _ => rfl
    | cons package rest ih => exact fun graph => (ih _).trans (packages_pushPackage graph package)
  exact key packages _

end JMan.Resolver
