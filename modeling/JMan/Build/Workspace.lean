import JMan.Lib.Collect
import JMan.Resolver.Finish

/-!
# JMan — workspace dependencies

The modules of a workspace and the dependencies between them, as
`jman-build/src/lib.rs` uses them: `transitive_dependencies` with its usage
filter collects the modules whose outputs go on a classpath.

The resolver has rules of its own for the same question (`deriveScope`, and the
scopes `build_classpaths` admits). `MavenScope` applies them to the workspace
as if its modules were published. The two agree on the runtime classpath always
(`runtime_follows_maven`). On the other two the walk of the build follows every
edge it is asked to include, at any depth, where the resolver stops at a
transitive `provided` or `test` edge and lets `provided` absorb a transitive
`runtime`; `follows_maven_iff` says when that makes no difference.
-/

namespace JMan.Build

open JMan.Resolver (deriveScope Classpath)
open Relation (TransGen)

/-! ## The workspace -/

inductive WorkspaceDependencyScope where
  | compile
  | runtime
  | provided
  | test
deriving DecidableEq

structure WorkspaceDependency where
  index : Nat
  scope : WorkspaceDependencyScope
deriving DecidableEq

/-- A module: of its manifest, the coordinates it would be published under. -/
structure Module where
  group : String
  name : String
  version : String
  dependencies : List WorkspaceDependency
deriving DecidableEq

inductive DependencyUsage where
  | compile
  | runtime
  | test
deriving DecidableEq

def DependencyUsage.includes (usage : DependencyUsage) (scope : WorkspaceDependencyScope) : Bool :=
  match usage with
  | .compile => scope = .compile ∨ scope = .provided
  | .runtime => scope = .compile ∨ scope = .runtime
  | .test => true

/-- The dependencies of a module. `discover_modules` leaves no index dangling,
so the default is not reached in a workspace it returned. -/
def dependenciesAt (modules : List Module) (index : Nat) : List WorkspaceDependency :=
  match modules[index]? with
  | some module => module.dependencies
  | none => []

/-- The dependencies of a module that the usage includes. -/
def usedAt (modules : List Module) (usage : DependencyUsage) (index : Nat) : List Nat :=
  ((dependenciesAt modules index).filter fun d => usage.includes d.scope).map
    WorkspaceDependency.index

def transitiveDependencies (index : Nat) (modules : List Module) (usage : DependencyUsage) :
    Finset Nat :=
  (Collect.collect (usedAt modules usage) (Finset.range modules.length)
    (usedAt modules usage index)).getD ∅

/-- Module `i` has a dependency on `j` that the usage includes. -/
def Uses (modules : List Module) (usage : DependencyUsage) (i j : Nat) : Prop :=
  ∃ d ∈ dependenciesAt modules i, usage.includes d.scope = true ∧ d.index = j

theorem mem_usedAt {modules : List Module} {usage : DependencyUsage} {i j : Nat} :
    j ∈ usedAt modules usage i ↔ Uses modules usage i j := by
  simp only [usedAt, List.mem_map, List.mem_filter, Uses, and_assoc]

/-- **The walk of the build collects every path of included dependencies.** -/
theorem mem_transitiveDependencies {modules : List Module} {usage : DependencyUsage} {i j : Nat} :
    j ∈ transitiveDependencies i modules usage ↔ TransGen (Uses modules usage) i j := by
  have hdom : ∀ a, a ∉ Finset.range modules.length → usedAt modules usage a = [] := by
    intro a ha
    have hnone : modules[a]? = none := by
      rw [List.getElem?_eq_none_iff]
      simpa using ha
    simp [usedAt, dependenciesAt, hnone]
  obtain ⟨found, hfound⟩ := Collect.collect_returns hdom (usedAt modules usage i)
  have hmem := Collect.mem_collected hfound (a := j)
  rw [transitiveDependencies, hfound, Option.getD_some, hmem]
  simp only [mem_usedAt]
  rw [TransGen.head'_iff]

/-! ## The resolver's rules -/

def WorkspaceDependencyScope.name : WorkspaceDependencyScope → String
  | .compile => "compile"
  | .runtime => "runtime"
  | .provided => "provided"
  | .test => "test"

/-- The scopes the resolver derives for `j` when it resolves `i`. -/
inductive MavenScope (modules : List Module) (i : Nat) : Nat → String → Prop where
  | direct {d : WorkspaceDependency} (h : d ∈ dependenciesAt modules i) :
      MavenScope modules i d.index d.scope.name
  | transitive {j : Nat} {s t : String} {d : WorkspaceDependency} (h : MavenScope modules i j s)
      (hd : d ∈ dependenciesAt modules j) (hscope : deriveScope s d.scope.name = some t) :
      MavenScope modules i d.index t

/-- Module `j` is on the classpath the resolver would build for `i`. -/
def OnMavenClasspath (modules : List Module) (cp : Classpath) (i j : Nat) : Prop :=
  ∃ scope, MavenScope modules i j scope ∧ scope ∈ cp.scopes

def DependencyUsage.classpath : DependencyUsage → Classpath
  | .compile => .compile
  | .runtime => .runtime
  | .test => .test

/-- The build and the resolver agree on the classpath of module `i`. -/
def AgreesAt (modules : List Module) (usage : DependencyUsage) (i : Nat) : Prop :=
  ∀ j, j ∈ transitiveDependencies i modules usage ↔ OnMavenClasspath modules usage.classpath i j

/-! ### The rules on the four scopes -/

/-- `deriveScope` on the scopes of a workspace. -/
def WorkspaceDependencyScope.derive (parent child : WorkspaceDependencyScope) :
    Option WorkspaceDependencyScope :=
  match parent, child with
  | .compile, .runtime => some .runtime
  | parent, .compile => some parent
  | parent, .runtime => some parent
  | _, _ => none

theorem deriveScope_name (parent child : WorkspaceDependencyScope) :
    deriveScope parent.name child.name =
      (parent.derive child).map WorkspaceDependencyScope.name := by
  cases parent <;> cases child <;> decide

theorem name_mem_scopes {usage : DependencyUsage} {scope : WorkspaceDependencyScope} :
    scope.name ∈ usage.classpath.scopes ↔ usage.includes scope = true := by
  cases usage <;> cases scope <;> decide

/-- `MavenScope` with the scopes as data. -/
inductive Derived (modules : List Module) (i : Nat) : Nat → WorkspaceDependencyScope → Prop where
  | direct {d : WorkspaceDependency} (h : d ∈ dependenciesAt modules i) :
      Derived modules i d.index d.scope
  | transitive {j : Nat} {s t : WorkspaceDependencyScope} {d : WorkspaceDependency}
      (h : Derived modules i j s) (hd : d ∈ dependenciesAt modules j)
      (hscope : s.derive d.scope = some t) : Derived modules i d.index t

section Agree

variable {modules : List Module} {usage : DependencyUsage} {i j : Nat}

theorem Derived.mavenScope {s : WorkspaceDependencyScope} (h : Derived modules i j s) :
    MavenScope modules i j s.name := by
  induction h with
  | direct hd => exact .direct hd
  | transitive _ hd hscope ih =>
    refine .transitive ih hd ?_
    rw [deriveScope_name, hscope]
    rfl

theorem MavenScope.derived {t : String} (h : MavenScope modules i j t) :
    ∃ s : WorkspaceDependencyScope, t = s.name ∧ Derived modules i j s := by
  induction h with
  | @direct d hd => exact ⟨d.scope, rfl, .direct hd⟩
  | transitive _ hd hscope ih =>
    obtain ⟨s, rfl, hs⟩ := ih
    rw [deriveScope_name] at hscope
    obtain ⟨u, hu, rfl⟩ := Option.map_eq_some_iff.mp hscope
    exact ⟨u, rfl, .transitive hs hd hu⟩

theorem onMavenClasspath_iff : OnMavenClasspath modules usage.classpath i j ↔
    ∃ s, Derived modules i j s ∧ usage.includes s = true := by
  constructor
  · rintro ⟨t, ht, hmem⟩
    obtain ⟨s, rfl, hs⟩ := ht.derived
    exact ⟨s, hs, name_mem_scopes.mp hmem⟩
  · rintro ⟨s, hs, hincl⟩
    exact ⟨s.name, hs.mavenScope, name_mem_scopes.mpr hincl⟩

/-! ## When they agree -/

/-- What a classpath member keeps to itself by the resolver's rules and the
build passes on, its `provided` and `test` dependencies, is on the classpath
anyway. -/
def KeepsToItself (modules : List Module) (usage : DependencyUsage) (i : Nat) : Prop :=
  ∀ j, OnMavenClasspath modules usage.classpath i j → ∀ d ∈ dependenciesAt modules j,
    usage.includes d.scope = true → d.scope = .provided ∨ d.scope = .test →
      OnMavenClasspath modules usage.classpath i d.index

/-- What the resolver passes on under `provided` and the build leaves out, the
`runtime` dependencies of a `provided` module, the build reaches by another
path. -/
def ReachedAnyway (modules : List Module) (usage : DependencyUsage) (i : Nat) : Prop :=
  ∀ j, MavenScope modules i j "provided" → usage.includes .provided = true →
    ∀ d ∈ dependenciesAt modules j, d.scope = .runtime → usage.includes .runtime = false →
      TransGen (Uses modules usage) i d.index

theorem onMavenClasspath_of_uses (hkeeps : KeepsToItself modules usage i)
    (h : TransGen (Uses modules usage) i j) : OnMavenClasspath modules usage.classpath i j := by
  induction h with
  | single h =>
    obtain ⟨d, hd, hincl, rfl⟩ := h
    exact onMavenClasspath_iff.mpr ⟨d.scope, .direct hd, hincl⟩
  | @tail j k _ h ih =>
    obtain ⟨d, hd, hincl, rfl⟩ := h
    obtain ⟨s, hs, hsincl⟩ := onMavenClasspath_iff.mp ih
    by_cases hkept : d.scope = .provided ∨ d.scope = .test
    · exact hkeeps j ih d hd hincl hkept
    · -- a compile or runtime edge: the resolver derives a scope, which is included too
      have hderive : ∃ t, s.derive d.scope = some t ∧ usage.includes t = true := by
        generalize d.scope = c at hincl hkept
        revert hincl hkept hsincl
        cases usage <;> cases s <;> cases c <;> decide
      obtain ⟨t, ht, htincl⟩ := hderive
      exact onMavenClasspath_iff.mpr ⟨t, .transitive hs hd ht, htincl⟩

theorem uses_of_derived (hreached : ReachedAnyway modules usage i) {t : WorkspaceDependencyScope}
    (h : Derived modules i j t) (ht : usage.includes t = true) :
    TransGen (Uses modules usage) i j := by
  induction h with
  | @direct d hd => exact TransGen.single ⟨d, hd, ht, rfl⟩
  | @transitive j s t d hs hd hscope ih =>
    -- the derived scope is included: so are both it came from, or provided absorbed a runtime
    have hcases : (usage.includes s = true ∧ usage.includes d.scope = true) ∨
        (s = .provided ∧ d.scope = .runtime ∧ usage.includes .provided = true ∧
          usage.includes .runtime = false) := by
      generalize d.scope = c at hscope
      revert hscope ht
      cases usage <;> cases s <;> cases c <;> cases t <;> decide
    rcases hcases with ⟨hsincl, hincl⟩ | ⟨rfl, hruntime, hprovided, hleft⟩
    · exact (ih hsincl).tail ⟨d, hd, hincl, rfl⟩
    · exact hreached j hs.mavenScope hprovided d hd hruntime hleft

/-- **The classpaths of one usage agree exactly when both conditions hold.** -/
theorem agreesAt_iff : AgreesAt modules usage i ↔
    KeepsToItself modules usage i ∧ ReachedAnyway modules usage i := by
  constructor
  · intro h
    simp only [AgreesAt, mem_transitiveDependencies] at h
    refine ⟨fun j hj d hd hincl _ => ?_, fun j hj hprovided d hd hruntime _ => ?_⟩
    · exact (h d.index).mp (((h j).mpr hj).tail ⟨d, hd, hincl, rfl⟩)
    · have hadmitted : WorkspaceDependencyScope.provided.name ∈ usage.classpath.scopes :=
        name_mem_scopes.mpr hprovided
      refine (h d.index).mpr ⟨"provided", .transitive hj hd ?_, hadmitted⟩
      rw [hruntime]
      rfl
  · rintro ⟨hkeeps, hreached⟩ j
    rw [mem_transitiveDependencies]
    constructor
    · exact onMavenClasspath_of_uses hkeeps
    · intro h
      obtain ⟨s, hs, hincl⟩ := onMavenClasspath_iff.mp h
      exact uses_of_derived hreached hs hincl

/-- **The runtime classpaths always agree.** -/
theorem runtime_follows_maven (modules : List Module) (i : Nat) : AgreesAt modules .runtime i := by
  refine agreesAt_iff.mpr ⟨fun j _ d _ hincl hscope => ?_, fun j _ hprovided => ?_⟩
  · rcases hscope with h | h <;> rw [h] at hincl <;> cases hincl
  · cases hprovided

end Agree

/-- **The build follows the resolver's rules at a module exactly when** the
`provided` and `test` dependencies of its classpath members are on the classpath
anyway, and the `runtime` dependencies of its `provided` modules are reached by
compile and provided dependencies alone. -/
theorem follows_maven_iff (modules : List Module) (i : Nat) :
    (∀ usage, AgreesAt modules usage i) ↔
      KeepsToItself modules .compile i ∧ ReachedAnyway modules .compile i ∧
        KeepsToItself modules .test i := by
  constructor
  · intro h
    obtain ⟨hkeeps, hreached⟩ := agreesAt_iff.mp (h .compile)
    exact ⟨hkeeps, hreached, (agreesAt_iff.mp (h .test)).1⟩
  · rintro ⟨hkeeps, hreached, htest⟩ usage
    cases usage with
    | compile => exact agreesAt_iff.mpr ⟨hkeeps, hreached⟩
    | runtime => exact runtime_follows_maven modules i
    | test =>
      -- every scope is included on the test classpath, so nothing is left out
      exact agreesAt_iff.mpr ⟨htest, fun _ _ _ _ _ _ hleft => by cases hleft⟩

/-- `app` compiles against `lib`, which keeps `api` as provided and `mock` for
its tests; `app` is provided with `server`, which runs with `driver`. -/
def layeredWorkspace : List Module :=
  [⟨"dev", "app", "1", [⟨1, .compile⟩, ⟨3, .provided⟩]⟩,
    ⟨"dev", "lib", "1", [⟨2, .provided⟩, ⟨5, .test⟩]⟩,
    ⟨"dev", "api", "1", []⟩,
    ⟨"dev", "server", "1", [⟨4, .runtime⟩]⟩,
    ⟨"dev", "driver", "1", []⟩,
    ⟨"dev", "mock", "1", []⟩]

theorem derived_layered {j : Nat} {s : WorkspaceDependencyScope} :
    Derived layeredWorkspace 0 j s ↔ j = 1 ∧ s = .compile ∨ j = 3 ∧ s = .provided ∨
      j = 4 ∧ s = .provided := by
  constructor
  · intro h
    induction h with
    | direct hd =>
      simp only [layeredWorkspace, dependenciesAt, List.getElem?_cons_zero, List.mem_cons,
        List.not_mem_nil, or_false] at hd
      rcases hd with rfl | rfl <;> decide
    | transitive _ hd hscope ih =>
      rcases ih with ⟨rfl, rfl⟩ | ⟨rfl, rfl⟩ | ⟨rfl, rfl⟩
      · -- lib passes nothing on
        simp [layeredWorkspace, dependenciesAt] at hd
        rcases hd with rfl | rfl <;> cases hscope
      · -- server passes its driver on, as provided
        simp [layeredWorkspace, dependenciesAt] at hd
        subst hd
        cases hscope
        decide
      · simp [layeredWorkspace, dependenciesAt] at hd
  · have hserver : Derived layeredWorkspace 0 3 .provided :=
      .direct (d := ⟨3, .provided⟩) (by decide)
    rintro (⟨rfl, rfl⟩ | ⟨rfl, rfl⟩ | ⟨rfl, rfl⟩)
    · exact .direct (d := ⟨1, .compile⟩) (by decide)
    · exact hserver
    · exact .transitive (d := ⟨4, .runtime⟩) hserver (by decide) rfl

theorem onMavenClasspath_layered {usage : DependencyUsage}
    (hcompile : usage.includes .compile = true) (hprovided : usage.includes .provided = true)
    {j : Nat} : OnMavenClasspath layeredWorkspace usage.classpath 0 j ↔ j = 1 ∨ j = 3 ∨ j = 4 := by
  rw [onMavenClasspath_iff]
  simp only [derived_layered]
  constructor
  · rintro ⟨s, hs, -⟩
    tauto
  · rintro (rfl | rfl | rfl)
    · exact ⟨.compile, by simp, hcompile⟩
    · exact ⟨.provided, by simp, hprovided⟩
    · exact ⟨.provided, by simp, hprovided⟩

/-- The build puts `api` and `mock` on the classpaths of `app` and leaves
`driver` off its compile classpath; the resolver does the opposite. -/
theorem build_departs_from_maven :
    transitiveDependencies 0 layeredWorkspace .compile = {1, 2, 3} ∧
    transitiveDependencies 0 layeredWorkspace .test = {1, 2, 3, 4, 5} ∧
    (∀ j, OnMavenClasspath layeredWorkspace .compile 0 j ↔ j = 1 ∨ j = 3 ∨ j = 4) ∧
    (∀ j, OnMavenClasspath layeredWorkspace .test 0 j ↔ j = 1 ∨ j = 3 ∨ j = 4) ∧
    ¬ ∀ usage, AgreesAt layeredWorkspace usage 0 := by
  have hcompile : ∀ j, OnMavenClasspath layeredWorkspace DependencyUsage.compile.classpath 0 j ↔
      j = 1 ∨ j = 3 ∨ j = 4 := fun j => onMavenClasspath_layered rfl rfl
  have htest : ∀ j, OnMavenClasspath layeredWorkspace DependencyUsage.test.classpath 0 j ↔
      j = 1 ∨ j = 3 ∨ j = 4 := fun j => onMavenClasspath_layered rfl rfl
  refine ⟨by decide, by decide, hcompile, htest, fun hagree => ?_⟩
  have hapi := (hagree .compile 2).mp (by decide)
  have := (hcompile 2).mp hapi
  omega

end JMan.Build
