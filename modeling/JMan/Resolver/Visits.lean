import JMan.Lib.Fallible
import JMan.Resolver.Graph

/-!
# JMan — what one visit of the candidate loop does

`visit_cases` says once what the loop body can do with a candidate; every
invariant of the loop is derived from its five cases.

The packages, the `selected` map and the edges are then described by the list
of candidates that *settled* so far, that is, were neither excluded nor
relocated: `Represents` is the relation, `Represents.step` its step lemma.
-/

namespace JMan.Resolver

open Worklist (Move)

/-! ## Packages after an edge or a scope was added -/

@[simp] theorem length_addEdge (packages : List ResolvedPackage) (parent : Option Nat)
    (child : Nat) : (addEdge packages parent child).length = packages.length := by
  cases parent <;> simp [addEdge]

@[simp] theorem length_addScope (packages : List ResolvedPackage) (index : Nat) (scope : String) :
    (addScope packages index scope).length = packages.length := by
  simp [addScope]

theorem packageAt_modify (packages : List ResolvedPackage) (j i : Nat)
    (f : ResolvedPackage → ResolvedPackage) :
    packageAt (packages.modify j f) i =
      if j = i ∧ i < packages.length then f (packageAt packages i) else packageAt packages i := by
  simp only [packageAt, List.getD_eq_getElem?_getD, List.getElem?_modify]
  by_cases hi : i < packages.length
  · by_cases hj : j = i <;> simp [hi, hj]
  · simp [hi]

theorem packageAt_modify_field {β : Type} (get : ResolvedPackage → β)
    {f : ResolvedPackage → ResolvedPackage} (hf : ∀ p, get (f p) = get p)
    (packages : List ResolvedPackage) (j i : Nat) :
    get (packageAt (packages.modify j f) i) = get (packageAt packages i) := by
  rw [packageAt_modify]
  split
  · exact hf _
  · rfl

theorem packageAt_addEdge_field {β : Type} (get : ResolvedPackage → β)
    (hget : ∀ p deps, get { p with dependencies := deps } = get p)
    (packages : List ResolvedPackage) (parent : Option Nat) (child i : Nat) :
    get (packageAt (addEdge packages parent child) i) = get (packageAt packages i) := by
  cases parent with
  | none => rfl
  | some parent =>
    refine packageAt_modify_field get (fun p => ?_) packages parent i
    split
    · rfl
    · exact hget p _

@[simp] theorem coordinate_addEdge (packages : List ResolvedPackage) (parent : Option Nat)
    (child i : Nat) :
    (packageAt (addEdge packages parent child) i).coordinate = (packageAt packages i).coordinate :=
  packageAt_addEdge_field ResolvedPackage.coordinate (fun _ _ => rfl) packages parent child i

@[simp] theorem scopes_addEdge (packages : List ResolvedPackage) (parent : Option Nat)
    (child i : Nat) :
    (packageAt (addEdge packages parent child) i).effectiveScopes =
      (packageAt packages i).effectiveScopes :=
  packageAt_addEdge_field ResolvedPackage.effectiveScopes (fun _ _ => rfl) packages parent child i

theorem mem_dependencies_addEdge {packages : List ResolvedPackage} {parent : Option Nat}
    {child i : Nat} {e : String} :
    e ∈ (packageAt (addEdge packages parent child) i).dependencies ↔
      e ∈ (packageAt packages i).dependencies ∨
        parent = some i ∧ i < packages.length ∧
          e = (packageAt packages child).coordinate.toString := by
  cases parent with
  | none => simp [addEdge]
  | some parent =>
    rw [addEdge, packageAt_modify]
    by_cases hpi : parent = i ∧ i < packages.length
    · obtain ⟨rfl, hi⟩ := hpi
      rw [if_pos ⟨rfl, hi⟩]
      split
      · next hmem =>
        constructor
        · exact Or.inl
        · rintro (h | ⟨-, -, rfl⟩)
          · exact h
          · exact hmem
      · simp [hi]
    · rw [if_neg hpi]
      constructor
      · exact Or.inl
      · rintro (h | ⟨hp, hi, -⟩)
        · exact h
        · exact absurd ⟨Option.some.inj hp, hi⟩ hpi

@[simp] theorem coordinate_addScope (packages : List ResolvedPackage) (index : Nat)
    (scope : String) (i : Nat) :
    (packageAt (addScope packages index scope) i).coordinate = (packageAt packages i).coordinate :=
  packageAt_modify_field ResolvedPackage.coordinate
    (f := fun p => { p with effectiveScopes := insertScope scope p.effectiveScopes })
    (fun _ => rfl) packages index i

@[simp] theorem dependencies_addScope (packages : List ResolvedPackage) (index : Nat)
    (scope : String) (i : Nat) :
    (packageAt (addScope packages index scope) i).dependencies =
      (packageAt packages i).dependencies :=
  packageAt_modify_field ResolvedPackage.dependencies
    (f := fun p => { p with effectiveScopes := insertScope scope p.effectiveScopes })
    (fun _ => rfl) packages index i

@[simp] theorem mem_insertScope {s t : String} {scopes : List String} :
    s ∈ insertScope t scopes ↔ s = t ∨ s ∈ scopes := by
  induction scopes with
  | nil => simp [insertScope]
  | cons u rest ih =>
    rw [insertScope]
    split
    · simp
    · split
      · next h =>
        subst h
        simp
      · simp only [List.mem_cons, ih]
        tauto

theorem mem_scopes_addScope {packages : List ResolvedPackage} {index i : Nat} {s t : String} :
    s ∈ (packageAt (addScope packages index t) i).effectiveScopes ↔
      s ∈ (packageAt packages i).effectiveScopes ∨ index = i ∧ i < packages.length ∧ s = t := by
  rw [addScope, packageAt_modify]
  split
  · next h =>
    simp only [mem_insertScope, h, true_and]
    tauto
  · next h =>
    constructor
    · exact Or.inl
    · rintro (hs | ⟨h1, h2, -⟩)
      · exact hs
      · exact absurd ⟨h1, h2⟩ h

theorem packageAt_append {packages : List ResolvedPackage} {package : ResolvedPackage} {i : Nat}
    (h : i < packages.length) : packageAt (packages ++ [package]) i = packageAt packages i := by
  simp [packageAt, List.getElem?_append_left h]

@[simp] theorem packageAt_append_length (packages : List ResolvedPackage)
    (package : ResolvedPackage) :
    packageAt (packages ++ [package]) packages.length = package := by
  simp [packageAt]

theorem packageAt_mem {packages : List ResolvedPackage} {i : Nat} (h : i < packages.length) :
    packageAt packages i ∈ packages := by
  simp [packageAt, h]

/-! ## The five cases of a visit -/

/-- The candidate passes the exclusion and the relocation check: `coordinate`
is its coordinate and `effective` the model of its POM. -/
structure Settled (resolver : DependencyResolver) (c : Candidate) (coordinate : Coordinate)
    (effective : EffectivePom) : Prop where
  not_excluded : c.excluded = false
  coordinate_eq : c.dependency.coordinate = .ok coordinate
  effective_eq : resolver.buildCoordinate coordinate.toPom = .ok effective
  not_relocated : relocationOf coordinate effective = none

/-- The candidate is not excluded and its POM relocates it to `other`. -/
def Relocates (resolver : DependencyResolver) (c other : Candidate) : Prop :=
  ∃ coordinate effective relocation, c.excluded = false ∧
    c.dependency.coordinate = .ok coordinate ∧
    resolver.buildCoordinate coordinate.toPom = .ok effective ∧
    relocationOf coordinate effective = some relocation ∧ other = c.relocate relocation

def newPackage (c : Candidate) (coordinate : Coordinate) (file : CachedFile) : ResolvedPackage :=
  { coordinate := coordinate
    source := file.source
    pomChecksum := file.checksum
    artifactChecksum := none
    artifactSize := none
    artifactPath := none
    dependencies := []
    effectiveScopes := [c.scope]
    selectedParent := c.parent }

inductive Visited (resolver : DependencyResolver) (project : EffectivePom)
    (workspace : List MavenProject) (core : Mediation) (c : Candidate) :
    Mediation → Move Candidate → Prop where
  | excluded (h : c.excluded = true) : Visited resolver project workspace core c core .skip
  | relocated (other : Candidate) (h : Relocates resolver c other) :
      Visited resolver project workspace core c core (.replace other)
  | known (coordinate : Coordinate) (own : EffectivePom) (index : Nat)
      (hset : Settled resolver c coordinate own)
      (hsel : core.selected.lookup c.dependency.managementKey = some index)
      (hscope : c.scope ∈ (packageAt core.packages index).effectiveScopes) :
      Visited resolver project workspace core c
        { core with packages := addEdge core.packages c.parent index } .skip
  | rescoped (coordinate : Coordinate) (own effective : EffectivePom) (index : Nat)
      (hset : Settled resolver c coordinate own)
      (hsel : core.selected.lookup c.dependency.managementKey = some index)
      (hscope : c.scope ∉ (packageAt core.packages index).effectiveScopes)
      (hmodel : mediatedModel resolver (packageAt core.packages index).coordinate coordinate own =
        .ok effective) :
      Visited resolver project workspace core c
        { core with
          packages := addScope (addEdge core.packages c.parent index) index c.scope }
        (.push (enqueueChildren effective c index project.dependencyManagement))
  | selected (coordinate : Coordinate) (own : EffectivePom) (file : CachedFile)
      (downloads : List (Nat × Coordinate))
      (hset : Settled resolver c coordinate own)
      (hsel : core.selected.lookup c.dependency.managementKey = none)
      (hfile : pomFile resolver workspace coordinate = .ok file)
      (hdown : downloads = if (findLocalModule workspace coordinate).isNone then
        scheduleArtifact core.downloads coordinate core.packages.length else core.downloads) :
      Visited resolver project workspace core c
        { core with
          packages := addEdge (core.packages ++ [newPackage c coordinate file]) c.parent
            core.packages.length
          selected := (c.dependency.managementKey, core.packages.length) :: core.selected
          downloads := downloads }
        (.push (enqueueChildren own c core.packages.length project.dependencyManagement))

section Cases

variable {resolver : DependencyResolver} {project : EffectivePom} {workspace : List MavenProject}
  {core core' : Mediation} {c : Candidate} {move : Move Candidate}

theorem revisit_cases {coordinate : Coordinate} {own : EffectivePom} {index : Nat}
    (hset : Settled resolver c coordinate own)
    (hsel : core.selected.lookup c.dependency.managementKey = some index)
    (h : core.revisit resolver project c coordinate own index = .ok (core', move)) :
    Visited resolver project workspace core c core' move := by
  unfold Mediation.revisit at h
  simp only [scopes_addEdge, coordinate_addEdge] at h
  split at h
  · next hscope =>
    cases h
    exact .known coordinate own index hset hsel hscope
  · next hscope =>
    obtain ⟨effective, hmodel, h⟩ := Fallible.bind_eq_ok.mp h
    cases h
    exact .rescoped coordinate own effective index hset hsel hscope hmodel

theorem select_cases {coordinate : Coordinate} {own : EffectivePom}
    (hset : Settled resolver c coordinate own)
    (hsel : core.selected.lookup c.dependency.managementKey = none)
    (h : core.select resolver project workspace c coordinate own = .ok (core', move)) :
    Visited resolver project workspace core c core' move := by
  unfold Mediation.select at h
  obtain ⟨file, hfile, h⟩ := Fallible.bind_eq_ok.mp h
  cases h
  exact .selected coordinate own file _ hset hsel hfile rfl

/-- **What a visit does.** -/
theorem visit_cases (h : Mediation.visit resolver project workspace core c = .ok (core', move)) :
    Visited resolver project workspace core c core' move := by
  unfold Mediation.visit at h
  split at h
  · next hexcl =>
    cases h
    exact .excluded hexcl
  · next hexcl =>
    have hexcl : c.excluded = false := by simpa using hexcl
    obtain ⟨coordinate, hcoord, h⟩ := Fallible.bind_eq_ok.mp h
    obtain ⟨own, hown, h⟩ := Fallible.bind_eq_ok.mp h
    split at h
    · next relocation hrel =>
      cases h
      exact .relocated _ ⟨coordinate, own, relocation, hexcl, hcoord, hown, hrel, rfl⟩
    · next hrel =>
      have hset : Settled resolver c coordinate own := ⟨hexcl, hcoord, hown, hrel⟩
      split at h
      · next index hsel => exact revisit_cases hset hsel h
      · next hsel => exact select_cases hset hsel h

theorem visit_settled_known {coordinate : Coordinate} {own : EffectivePom} {index : Nat}
    (hset : Settled resolver c coordinate own)
    (hsel : core.selected.lookup c.dependency.managementKey = some index) :
    Mediation.visit resolver project workspace core c =
      core.revisit resolver project c coordinate own index := by
  simp only [Mediation.visit, hset.not_excluded, hset.coordinate_eq]
  simp only [bind, Except.bind, hset.effective_eq, hset.not_relocated, hsel]
  rfl

theorem visit_settled_new {coordinate : Coordinate} {own : EffectivePom}
    (hset : Settled resolver c coordinate own)
    (hsel : core.selected.lookup c.dependency.managementKey = none) :
    Mediation.visit resolver project workspace core c =
      core.select resolver project workspace c coordinate own := by
  simp only [Mediation.visit, hset.not_excluded, hset.coordinate_eq]
  simp only [bind, Except.bind, hset.effective_eq, hset.not_relocated, hsel]
  rfl

theorem visit_of_visited (h : Visited resolver project workspace core c core' move) :
    Mediation.visit resolver project workspace core c = .ok (core', move) := by
  cases h with
  | excluded hexcl =>
    simp only [Mediation.visit, hexcl]
    rfl
  | relocated other hrel =>
    obtain ⟨coordinate, effective, relocation, hexcl, hcoord, hmodel, hrel, rfl⟩ := hrel
    simp only [Mediation.visit, hexcl, hcoord]
    simp [bind, Except.bind, hmodel, hrel, pure, Except.pure]
  | known coordinate own index hset hsel hscope =>
    rw [visit_settled_known hset hsel]
    simp only [Mediation.revisit, scopes_addEdge, hscope, if_true]
    rfl
  | rescoped coordinate own effective index hset hsel hscope hmodel =>
    rw [visit_settled_known hset hsel]
    simp only [Mediation.revisit, scopes_addEdge, coordinate_addEdge, hscope, if_false, hmodel]
    rfl
  | selected coordinate own file downloads hset hsel hfile hdown =>
    rw [visit_settled_new hset hsel]
    simp only [Mediation.select, hfile, hdown]
    rfl

end Cases

/-! ## Settling -/

/-- The decision procedure for `Settled`. -/
def Candidate.settles (resolver : DependencyResolver) (c : Candidate) : Bool :=
  !c.excluded &&
    match c.dependency.coordinate with
    | .error _ => false
    | .ok coordinate =>
      match resolver.buildCoordinate coordinate.toPom with
      | .error _ => false
      | .ok effective => (relocationOf coordinate effective).isNone

theorem settles_iff {resolver : DependencyResolver} {c : Candidate} :
    c.settles resolver = true ↔ ∃ coordinate effective, Settled resolver c coordinate effective := by
  unfold Candidate.settles
  constructor
  · intro h
    rw [Bool.and_eq_true] at h
    obtain ⟨hexcl, h⟩ := h
    split at h
    · cases h
    · next coordinate hcoord =>
      split at h
      · cases h
      · next effective heff =>
        exact ⟨coordinate, effective, by simpa using hexcl, hcoord, heff, by simpa using h⟩
  · rintro ⟨coordinate, effective, hset⟩
    simp [hset.not_excluded, hset.coordinate_eq, hset.effective_eq, hset.not_relocated]

theorem Settled.unique {resolver : DependencyResolver} {c : Candidate} {co co' : Coordinate}
    {m m' : EffectivePom} (h : Settled resolver c co m) (h' : Settled resolver c co' m') :
    co = co' ∧ m = m' := by
  have hco : co = co' := by
    have := h.coordinate_eq
    rw [h'.coordinate_eq] at this
    cases this
    rfl
  subst hco
  have := h.effective_eq
  rw [h'.effective_eq] at this
  cases this
  exact ⟨rfl, rfl⟩

theorem Relocates.not_settles {resolver : DependencyResolver} {c other : Candidate}
    (h : Relocates resolver c other) : c.settles resolver = false := by
  obtain ⟨coordinate, effective, relocation, hexcl, hcoord, heff, hrel, -⟩ := h
  simp [Candidate.settles, hexcl, hcoord, heff, hrel]

theorem not_settles_of_excluded {resolver : DependencyResolver} {c : Candidate}
    (h : c.excluded = true) : c.settles resolver = false := by
  simp [Candidate.settles, h]

end JMan.Resolver
