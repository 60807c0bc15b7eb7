import Mathlib.Data.List.Chain
import JMan.Resolver.Closure

/-!
# JMan — exclusions

Every scope of every package is justified by a path of declared dependencies
(`Path`), from one of the project's own down to the package, along which
`deriveScope` yields the scope and no exclusion declared on a dependency
matches a dependency below it (`Hop.Clear`). A dependency may be relocated on
the way; then none of its forms, from the declared to the last one, is matched.

A candidate carries the exclusions declared above it, and those it passes on
include its own: that is what `RunInvariant.path_of_visited` proves by induction
on the place of a visit.
-/

namespace JMan.Resolver

open Relation (ReflTransGen)
open Worklist (Visit Placed)

/-! ## Paths -/

def DependencyRelocates (resolver : DependencyResolver) (d other : Dependency) : Prop :=
  ∃ coordinate effective relocation, d.coordinate = .ok coordinate ∧
    resolver.buildCoordinate coordinate.toPom = .ok effective ∧
    relocationOf coordinate effective = some relocation ∧
    other = { d with
      group := relocation.group
      artifact := relocation.artifact
      version := some relocation.version }

/-- One dependency on a path: as declared and managed, the forms it was
relocated to, and the scope it has there. -/
structure Hop (resolver : DependencyResolver) where
  declared : Dependency
  relocations : List Dependency
  scope : String
  chain : List.IsChain (DependencyRelocates resolver) (declared :: relocations)

def Hop.forms {resolver : DependencyResolver} (hop : Hop resolver) : List Dependency :=
  hop.declared :: hop.relocations

def Hop.settled {resolver : DependencyResolver} (hop : Hop resolver) : Dependency :=
  hop.forms.getLast (List.cons_ne_nil _ _)

/-- The model a settled dependency is expanded with, after mediation. -/
def ExpandedTo (resolver : DependencyResolver) (core : Mediation) (d : Dependency)
    (effective : EffectivePom) : Prop :=
  ∃ i coordinate own, core.selected.lookup d.managementKey = some i ∧
    d.coordinate = .ok coordinate ∧ resolver.buildCoordinate coordinate.toPom = .ok own ∧
    mediatedModel resolver (packageAt core.packages i).coordinate coordinate own = .ok effective

/-- A path to a dependency, with the dependencies above it, nearest first. -/
inductive Path (resolver : DependencyResolver) (project : EffectivePom) (core : Mediation) :
    Hop resolver → List (Hop resolver) → Prop where
  | dependency {hop : Hop resolver} (h : hop.declared ∈ project.dependencies)
      (hscope : hop.scope = hop.declared.scope) : Path resolver project core hop []
  | processor {hop : Hop resolver} {p : AnnotationProcessor} (h : p ∈ project.annotationProcessors)
      (hdeclared : hop.declared = p.dependency) (hscope : hop.scope = "processor") :
      Path resolver project core hop []
  | child {parent hop : Hop resolver} {above : List (Hop resolver)} {effective : EffectivePom}
      (h : Path resolver project core parent above)
      (hexp : ExpandedTo resolver core parent.settled effective)
      (hd : ChildDependency effective project.dependencyManagement hop.declared)
      (hscope : deriveScope parent.scope hop.declared.scope = some hop.scope) :
      Path resolver project core hop (parent :: above)

/-- No exclusion declared on `upper` matches a form of `lower`. -/
def Hop.Clear {resolver : DependencyResolver} (lower upper : Hop resolver) : Prop :=
  ∀ form ∈ lower.forms, ∀ e ∈ upper.declared.exclusions, e.isMatch form = false

/-! ## Chains of relocations -/

section Run

variable {resolver : DependencyResolver} {project : EffectivePom} {workspace : List MavenProject}

theorem Relocates.dependency {c d : Candidate} (h : Relocates resolver c d) :
    DependencyRelocates resolver c.dependency d.dependency := by
  obtain ⟨coordinate, effective, relocation, -, hcoord, hmodel, hrel, rfl⟩ := h
  exact ⟨coordinate, effective, relocation, hcoord, hmodel, hrel, rfl⟩

theorem relocations_keep {b c : Candidate} (h : ReflTransGen (Relocates resolver) b c) :
    c.scope = b.scope ∧ c.activeExclusions = b.activeExclusions ∧
      c.descendantExclusions = b.descendantExclusions := by
  induction h with
  | refl => exact ⟨rfl, rfl, rfl⟩
  | tail _ hrel ih =>
    obtain ⟨_, _, _, -, -, -, -, rfl⟩ := hrel
    exact ih

theorem hop_of_relocations {b c : Candidate} (h : ReflTransGen (Relocates resolver) b c)
    (hc : c.excluded = false) : ∃ hop : Hop resolver, hop.declared = b.dependency ∧
      hop.settled = c.dependency ∧ hop.scope = b.scope ∧
      ∀ form ∈ hop.forms, ∀ e ∈ b.activeExclusions, e.isMatch form = false := by
  obtain ⟨l, hchain, hlast⟩ := List.exists_isChain_cons_of_relationReflTransGen h
  refine ⟨⟨b.dependency, l.map Candidate.dependency, b.scope, ?_⟩, rfl, ?_, rfl, ?_⟩
  · rw [← List.map_cons]
    exact (List.isChain_map _).mpr (hchain.imp fun x y hxy => hxy.dependency)
  · simp only [Hop.settled, Hop.forms, ← List.map_cons, List.getLast_map, hlast]
  · -- every member of the chain passed its own check, with the same exclusions
    have hclear : ∀ x ∈ b :: l, x.excluded = false :=
      hchain.backwards_induction (fun x => x.excluded = false) _
        (fun x y hxy _ => by obtain ⟨_, _, _, hx, -⟩ := hxy; exact hx)
        (fun _ => by rw [hlast]; exact hc)
    have hactive : ∀ x ∈ b :: l, x.activeExclusions = b.activeExclusions :=
      hchain.induction (fun x => x.activeExclusions = b.activeExclusions) _
        (fun x y hxy hx => (relocations_keep (ReflTransGen.single hxy)).2.1.trans hx) (fun _ => rfl)
    intro form hform e he
    simp only [Hop.forms, ← List.map_cons, List.mem_map] at hform
    obtain ⟨x, hx, rfl⟩ := hform
    have hnot := hclear x hx
    simp only [Candidate.excluded, List.any_eq_false, hactive x hx] at hnot
    simpa using hnot e he

/-! ## Every visit that settles has a path -/

variable {s : Placed Mediation Candidate} (hs : RunInvariant resolver project workspace s)

include hs

/-- **Every visit that settles has a clear path.** -/
theorem RunInvariant.path_of_visited {v : Visit Mediation Candidate} (hv : v ∈ s.history)
    (hset : v.item.settles resolver = true) :
    ∃ (hop : Hop resolver) (above : List (Hop resolver)), Path resolver project s.core hop above ∧
      (hop :: above).Pairwise Hop.Clear ∧ hop.settled = v.item.dependency ∧
      hop.scope = v.item.scope ∧
      ∀ upper ∈ hop :: above, ∀ e ∈ upper.declared.exclusions,
        e ∈ v.item.descendantExclusions := by
  induction hn : v.place.length using Nat.strong_induction_on generalizing v with
  | _ n ih =>
    obtain ⟨b, hb, hchain⟩ := hs.tracked.traced v hv
    have hrel : ReflTransGen (Relocates resolver) b v.item :=
      ReflTransGen.mono (fun x y hxy => by
        obtain ⟨before, after, hvisit⟩ := hxy
        exact (visit_cases hvisit).relocates.1) _ _ hchain
    obtain ⟨coordinate, own, hsettled⟩ := settles_iff.mp hset
    obtain ⟨hop, hdeclared, hlast, hscope, hclear⟩ := hop_of_relocations hrel hsettled.not_excluded
    obtain ⟨hsc, hact, hdesc⟩ := relocations_keep hrel
    rw [hsc, hdesc]
    generalize hp : v.place = p at hb
    cases hb with
    | root hroot =>
      have hmem := List.mem_of_getElem? hroot
      simp only [rootCandidates, List.mem_append, List.mem_map] at hmem
      have hpath : Path resolver project s.core hop [] := by
        rcases hmem with ⟨d, hd, rfl⟩ | ⟨q, hq, rfl⟩
        · exact .dependency (hdeclared ▸ hd) (by rw [hscope, hdeclared])
        · exact .processor hq hdeclared hscope
      refine ⟨hop, [], hpath, List.pairwise_singleton _ _, hlast, hscope, ?_⟩
      intro upper hupper e he
      rw [List.mem_singleton.mp hupper, hdeclared] at he
      rcases hmem with ⟨d, hd, rfl⟩ | ⟨q, hq, rfl⟩ <;> exact he
    | child hu hpush hc =>
      obtain ⟨i, coordinate', own', effective, hsel, hset', hmodel, rfl⟩ := hs.pushed hu hpush
      obtain ⟨parent, above, hpath, hpairs, hparent, hpscope, hcarried⟩ :=
        ih _ (by rw [← hn, hp]; simp) hu (settles_iff.mpr ⟨_, _, hset'⟩) rfl
      obtain ⟨d, t, hd, ht, rfl⟩ := mem_enqueueChildren.mp (List.mem_of_getElem? hc)
      replace hdeclared : hop.declared = d := hdeclared
      refine ⟨hop, parent :: above, ?_, ?_, hlast, hscope, ?_⟩
      · refine .child hpath ⟨i, coordinate', own', ?_⟩ (hdeclared ▸ hd) ?_
        · rw [hparent]
          exact ⟨hsel, hset'.coordinate_eq, hset'.effective_eq, hmodel⟩
        · rw [hpscope, hdeclared, hscope]
          exact ht
      · refine List.pairwise_cons.mpr ⟨fun upper hupper form hform e he => ?_, hpairs⟩
        exact hclear form hform e (hcarried upper hupper e he)
      · intro upper hupper e he
        rcases List.mem_cons.mp hupper with rfl | hupper
        · exact List.mem_append_right _ (hdeclared ▸ he)
        · exact List.mem_append_left _ (hcarried upper hupper e he)

end Run

/-! ## The resolved graph -/

/-- Every package, under each of its scopes, has a path on which no declared
exclusion matches a dependency below it. -/
def ExclusionsRespected (resolver : DependencyResolver) (project : EffectivePom) (core : Mediation)
    (graph : ResolvedGraph) : Prop :=
  ∀ i, i < graph.packages.length → (packageAt graph.packages i).effectiveScopes ≠ [] ∧
    ∃ k, core.selected.lookup k = some i ∧
      ∀ scope ∈ (packageAt graph.packages i).effectiveScopes,
        ∃ (hop : Hop resolver) (above : List (Hop resolver)),
          Path resolver project core hop above ∧ (hop :: above).Pairwise Hop.Clear ∧
            hop.settled.managementKey = k ∧ hop.scope = scope

/-- **Exclusion soundness.** -/
theorem resolve_respects_exclusions {resolver : DependencyResolver} {order : CompletionOrder}
    {project : EffectivePom} {workspace : List MavenProject} {graph : ResolvedGraph}
    (h : Resolves resolver order project workspace (.ok graph)) :
    ∃ core, Mediates resolver project workspace core ∧
      ExclusionsRespected resolver project core graph := by
  obtain ⟨core, packages, hmed, hfin, rfl⟩ := resolves_ok h
  obtain ⟨s, -, hs, hq, rfl⟩ := mediated_history hmed
  obtain ⟨hlen, hpackages⟩ := finishArtifacts_packageAt hfin
  refine ⟨s.core, hmed, fun i hi => ?_⟩
  rw [packages_buildClasspaths] at hi ⊢
  rw [(hpackages i).2.1]
  obtain ⟨k, hk⟩ := hs.represents.has_key (hlen ▸ hi)
  refine ⟨?_, k, hk, fun scope hscope => ?_⟩
  · obtain ⟨before, c, after, coordinate, own, hsplit, rfl, -⟩ := hs.represents.winner hk
    obtain ⟨j, hj, hmem, -⟩ := hs.represents.present c (by rw [hsplit]; simp)
    rw [hk] at hj
    cases hj
    exact List.ne_nil_of_mem hmem
  · obtain ⟨c, hc, rfl, rfl⟩ := hs.represents.scope_from hk hscope
    obtain ⟨v, hv, rfl, hset⟩ := mem_settledItems.mp hc
    obtain ⟨hop, above, hpath, hclear, hsettled, hsc, -⟩ := hs.path_of_visited hv hset
    exact ⟨hop, above, hpath, hclear, by rw [hsettled], hsc⟩

def prunedProject : EffectivePom :=
  EffectivePom.declare "app" "main" "1"
    [{ Dependency.declare "app" "left" "1" "compile" with exclusions := [⟨"new", "*"⟩] },
      Dependency.declare "app" "right" "1" "runtime"]

def prunedRepository : DependencyResolver :=
  DependencyResolver.ofModels
    [EffectivePom.declare "app" "left" "1" [Dependency.declare "old" "core" "1" "compile"],
      EffectivePom.declare "app" "right" "1" [Dependency.declare "old" "core" "1" "compile"],
      { EffectivePom.declare "old" "core" "1" [] with
        relocation := some (Coordinate.pom "new" "core" "1") },
      EffectivePom.declare "new" "core" "1" []]

theorem exclusions_respected_pruned : ∃ (graph : ResolvedGraph) (core : Mediation),
    graph.packages.map (fun p => (p.coordinate.toString, p.effectiveScopes)) =
        [("app:left:1", ["compile"]), ("app:right:1", ["runtime"]), ("new:core:1", ["runtime"])] ∧
      ExclusionsRespected prunedRepository prunedProject core graph := by
  have hrun : ((resolveInWorkspace prunedRepository CompletionOrder.spawned prunedProject []
      8).bind Except.toOption).map
        (fun graph => graph.packages.map fun p => (p.coordinate.toString, p.effectiveScopes)) =
      some [("app:left:1", ["compile"]), ("app:right:1", ["runtime"]),
        ("new:core:1", ["runtime"])] := by decide +kernel
  obtain ⟨graph, hgraph, hview⟩ := resolves_of_run _ _ hrun
  obtain ⟨core, -, h⟩ := resolve_respects_exclusions hgraph
  exact ⟨graph, core, hview, h⟩

end JMan.Resolver
