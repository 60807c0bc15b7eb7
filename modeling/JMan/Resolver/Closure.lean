import JMan.Resolver.Finish
import JMan.Resolver.Runs

/-!
# JMan — the resolved graph as a least closure

What the scopes and edges of a resolved graph are, said without a queue:
`Closure` is the least set of pairs of a key and a scope that holds the
project's own dependencies and is closed under the declared dependencies of the
*selected* versions. Where no exclusion and no relocation is declared, the loop
computes exactly this set, however often and under however many scopes a
package is reached (`closure_of_run`).

The keys have to be faithful for that (`KeysFaithful`). The loop reuses the
candidate's own model when its version is the selected one, which is the
model of the selected coordinate only when the key determines the group and
the artifact. Keys are joined with colons; `keysFaithful_of_colonFree` says
that fields without colons are enough.
-/

namespace JMan.Resolver

open Worklist (Visit Placed)

/-! ## The closure -/

/-- A dependency of the expanded model, as the root management leaves it. -/
def ChildDependency (effective : EffectivePom) (management : List Dependency) (d : Dependency) :
    Prop :=
  ∃ declared ∈ effective.dependencies, declared.optional ≠ some true ∧
    d = applyRootManagement declared management

/-- The least set of pairs of a key and a scope that holds the project's
dependencies and is closed under the dependencies of the selected versions. -/
inductive Closure (resolver : DependencyResolver) (project : EffectivePom)
    (selection : String → Option Coordinate) : String → String → Prop where
  | dependency {d : Dependency} (h : d ∈ project.dependencies) :
      Closure resolver project selection d.managementKey d.scope
  | processor {p : AnnotationProcessor} (h : p ∈ project.annotationProcessors) :
      Closure resolver project selection p.dependency.managementKey "processor"
  | child {k s t : String} {selected : Coordinate} {effective : EffectivePom} {d : Dependency}
      (h : Closure resolver project selection k s) (hsel : selection k = some selected)
      (hmodel : resolver.buildCoordinate selected.toPom = .ok effective)
      (hd : ChildDependency effective project.dependencyManagement d)
      (hscope : deriveScope s d.scope = some t) :
      Closure resolver project selection d.managementKey t

/-- The key `k'` is a dependency of the selected version of `k` under a scope
`k` has. -/
def ClosureEdge (resolver : DependencyResolver) (project : EffectivePom)
    (selection : String → Option Coordinate) (k k' : String) : Prop :=
  ∃ s selected effective d t, Closure resolver project selection k s ∧
    selection k = some selected ∧ resolver.buildCoordinate selected.toPom = .ok effective ∧
    ChildDependency effective project.dependencyManagement d ∧
    deriveScope s d.scope = some t ∧ k' = d.managementKey

def Mediation.selection (core : Mediation) (k : String) : Option Coordinate :=
  (core.selected.lookup k).map fun i => (packageAt core.packages i).coordinate

theorem selection_eq {core : Mediation} {k : String} {i : Nat}
    (h : core.selected.lookup k = some i) :
    core.selection k = some (packageAt core.packages i).coordinate := by
  simp [Mediation.selection, h]

/-! ## What the closure assumes of the declarations -/

/-- The dependencies that can become candidates: the project's, its annotation
processors', and those of the repository's models under the project's
management. -/
inductive Declared (resolver : DependencyResolver) (project : EffectivePom) :
    Dependency → Prop where
  | dependency {d : Dependency} (h : d ∈ project.dependencies) : Declared resolver project d
  | processor {p : AnnotationProcessor} (h : p ∈ project.annotationProcessors) :
      Declared resolver project p.dependency
  | child {coordinate : Coordinate} {effective : EffectivePom} {d : Dependency}
      (hmodel : resolver.buildCoordinate coordinate = .ok effective)
      (hd : ChildDependency effective project.dependencyManagement d) :
      Declared resolver project d

def ExclusionFree (resolver : DependencyResolver) (project : EffectivePom) : Prop :=
  ∀ d, Declared resolver project d → d.exclusions = []

def RelocationFree (resolver : DependencyResolver) : Prop :=
  ∀ coordinate effective, resolver.buildCoordinate coordinate = .ok effective →
    relocationOf coordinate effective = none

/-- Dependencies with one key are declarations of one group and artifact. -/
def KeysFaithful (resolver : DependencyResolver) (project : EffectivePom) : Prop :=
  ∀ d d', Declared resolver project d → Declared resolver project d' →
    d.managementKey = d'.managementKey → d.group = d'.group ∧ d.artifact = d'.artifact

@[simp] theorem relocationOf_toPom (coordinate : Coordinate) (effective : EffectivePom) :
    relocationOf coordinate.toPom effective = relocationOf coordinate effective := rfl

/-! ### Colon-free fields -/

def Dependency.ColonFree (d : Dependency) : Prop :=
  ':' ∉ d.group.toList ∧ ':' ∉ d.artifact.toList ∧ ':' ∉ d.dependencyType.toList

instance (d : Dependency) : Decidable d.ColonFree :=
  inferInstanceAs (Decidable (_ ∧ _ ∧ _))

theorem Dependency.managementKey_inj {d d' : Dependency} (hd : d.ColonFree) (hd' : d'.ColonFree)
    (h : d.managementKey = d'.managementKey) :
    d.group = d'.group ∧ d.artifact = d'.artifact ∧ d.dependencyType = d'.dependencyType ∧
      d.classifier.getD "" = d'.classifier.getD "" := by
  obtain ⟨hg, ha, ht⟩ := hd
  obtain ⟨hg', ha', ht'⟩ := hd'
  have key : ∀ e : Dependency, e.managementKey = e.group ++ ":" ++
      (e.artifact ++ ":" ++ (e.dependencyType ++ ":" ++ e.classifier.getD "")) := by
    intro e
    simp only [managementKey, String.append_assoc]
  rw [key d, key d'] at h
  obtain ⟨hgroup, h⟩ := append_colon_inj hg hg' h
  obtain ⟨hartifact, h⟩ := append_colon_inj ha ha' h
  obtain ⟨htype, hclassifier⟩ := append_colon_inj ht ht' h
  exact ⟨hgroup, hartifact, htype, hclassifier⟩

theorem keysFaithful_of_colonFree {resolver : DependencyResolver} {project : EffectivePom}
    (h : ∀ d, Declared resolver project d → d.ColonFree) : KeysFaithful resolver project := by
  intro d d' hd hd' hkey
  obtain ⟨hgroup, hartifact, -⟩ := Dependency.managementKey_inj (h d hd) (h d' hd') hkey
  exact ⟨hgroup, hartifact⟩

/-! ## The expanding visits of a run -/

theorem mem_enqueueChildren {effective : EffectivePom} {c e : Candidate} {index : Nat}
    {management : List Dependency} : e ∈ enqueueChildren effective c index management ↔
      ∃ d t, ChildDependency effective management d ∧ deriveScope c.scope d.scope = some t ∧
        e = { dependency := d
              scope := t
              activeExclusions := c.descendantExclusions
              descendantExclusions := c.descendantExclusions ++ d.exclusions
              parent := some index } := by
  simp only [enqueueChildren, List.mem_filterMap, ChildDependency]
  constructor
  · rintro ⟨declared, hmem, h⟩
    split at h
    · cases h
    · next hopt =>
      obtain ⟨t, ht, rfl⟩ := Option.map_eq_some_iff.mp h
      exact ⟨_, t, ⟨declared, hmem, hopt, rfl⟩, ht, rfl⟩
  · rintro ⟨d, t, ⟨declared, hmem, hopt, rfl⟩, ht, rfl⟩
    refine ⟨declared, hmem, ?_⟩
    rw [if_neg hopt, ht]
    rfl

section Run

variable {resolver : DependencyResolver} {project : EffectivePom} {workspace : List MavenProject}
  {s : Placed Mediation Candidate} (hs : RunInvariant resolver project workspace s)

include hs

theorem RunInvariant.pushed {v : Visit Mediation Candidate} {items : List Candidate}
    (hv : v ∈ s.history) (hpush : v.move = .push items) :
    ∃ i coordinate own effective,
      s.core.selected.lookup v.item.dependency.managementKey = some i ∧
      Settled resolver v.item coordinate own ∧
      mediatedModel resolver (packageAt s.core.packages i).coordinate coordinate own =
        .ok effective ∧
      items = enqueueChildren effective v.item i project.dependencyManagement := by
  obtain ⟨earlier, later, hH⟩ := List.append_of_mem hv
  have hrep := hs.represents_before hH
  have hvis := hs.visit hv
  have hgrows := hvis.grows.trans (hs.grows v hv)
  have hafter := hs.grows v hv
  rw [hpush] at hvis
  generalize hb : v.before = core at hrep hvis hgrows
  generalize v.after = core' at hvis hafter
  cases hvis with
  | rescoped coordinate own effective index hset hsel hscope hmodel =>
    refine ⟨index, coordinate, own, effective, hgrows.lookup hsel, hset, ?_, rfl⟩
    rw [hgrows.coordinate (hrep.index_lt hsel), hmodel]
  | selected coordinate own file downloads hset hsel hfile hdown =>
    refine ⟨core.packages.length, coordinate, own, own, ?_, hset, ?_, rfl⟩
    · refine hafter.lookup ?_
      rw [List.lookup_cons, beq_self_eq_true]
    · have hco := hafter.coordinate (i := core.packages.length) (by simp)
      rw [coordinate_addEdge, packageAt_append_length] at hco
      rw [hco]
      exact if_pos rfl

theorem RunInvariant.exists_pushed {v : Visit Mediation Candidate} (hv : v ∈ s.history)
    (hset : v.item.settles resolver = true) :
    ∃ w ∈ s.history, ∃ items, w.item.dependency.managementKey = v.item.dependency.managementKey ∧
      w.item.scope = v.item.scope ∧ w.move = .push items := by
  obtain ⟨earlier, later, hH⟩ := List.append_of_mem hv
  induction hn : earlier.length using Nat.strong_induction_on generalizing v earlier later with
  | _ n ih =>
    have hrep := hs.represents_before hH
    have hvis := hs.visit hv
    generalize v.before = core at hrep hvis
    generalize v.after = core' at hvis
    generalize hmove : v.move = move at hvis
    cases hvis with
    | excluded hexcl =>
      rw [not_settles_of_excluded hexcl] at hset
      cases hset
    | relocated other hrel =>
      rw [hrel.not_settles] at hset
      cases hset
    | known coordinate own index hset' hsel hscope =>
      -- the scope is there because an earlier visit settled with it
      obtain ⟨e, he, hkey, hsc⟩ := hrep.scope_from hsel hscope
      obtain ⟨w, hw, rfl, hws⟩ := mem_settledItems.mp he
      obtain ⟨l₁, l₂, rfl⟩ := List.append_of_mem hw
      have hH' : s.history = l₁ ++ w :: (l₂ ++ v :: later) := by simp [hH]
      obtain ⟨u, hu, items, huk, hus, hpush⟩ :=
        ih l₁.length (by simp [← hn]) (by simp [hH']) hws l₁ _ hH' rfl
      exact ⟨u, hu, items, huk.trans hkey, hus.trans hsc, hpush⟩
    | rescoped coordinate own effective index hset' hsel hscope hmodel =>
      exact ⟨v, hv, _, rfl, rfl, hmove⟩
    | selected coordinate own file downloads hset' hsel hfile hdown =>
      exact ⟨v, hv, _, rfl, rfl, hmove⟩

/-! ## Runs without exclusions and relocations -/

variable (hrel : RelocationFree resolver)

include hrel

omit hs in
theorem RelocationFree.not_relocates {c d : Candidate} : ¬ Relocates resolver c d := by
  rintro ⟨coordinate, effective, relocation, -, -, heff, h, -⟩
  have := hrel _ _ heff
  rw [relocationOf_toPom, h] at this
  cases this

theorem RunInvariant.offered {v : Visit Mediation Candidate} (hv : v ∈ s.history) :
    Worklist.Offered (rootCandidates project) s.history v.place v.item := by
  obtain ⟨b, hb, hchain⟩ := hs.tracked.traced v hv
  rcases Relation.ReflTransGen.cases_head hchain with rfl | ⟨d, ⟨before, after, hbd⟩, -⟩
  · exact hb
  · exact (hrel.not_relocates (visit_cases hbd).relocates.1).elim

variable (hexcl : ExclusionFree resolver project)

include hexcl

theorem RunInvariant.declared {v : Visit Mediation Candidate} (hv : v ∈ s.history) :
    Declared resolver project v.item.dependency ∧ v.item.activeExclusions = [] ∧
      v.item.descendantExclusions = [] := by
  induction hn : v.place.length using Nat.strong_induction_on generalizing v with
  | _ n ih =>
    have hoff := hs.offered hrel hv
    generalize hp : v.place = p at hoff
    generalize v.item = c at hoff
    cases hoff with
    | root hroot =>
      have hmem := List.mem_of_getElem? hroot
      simp only [rootCandidates, List.mem_append, List.mem_map] at hmem
      rcases hmem with ⟨d, hd, rfl⟩ | ⟨q, hq, rfl⟩
      · exact ⟨.dependency hd, rfl, hexcl _ (.dependency hd)⟩
      · exact ⟨.processor hq, rfl, hexcl _ (.processor hq)⟩
    | child hu hpush hc =>
      obtain ⟨-, -, hdesc⟩ := ih _ (by rw [← hn, hp]; simp) hu rfl
      obtain ⟨i, coordinate, own, effective, -, hset, hmodel, rfl⟩ := hs.pushed hu hpush
      obtain ⟨d, t, hd, ht, rfl⟩ := mem_enqueueChildren.mp (List.mem_of_getElem? hc)
      have hdecl : Declared resolver project d := by
        unfold mediatedModel at hmodel
        split at hmodel
        · cases hmodel
          exact .child hset.effective_eq hd
        · exact .child hmodel hd
      simp [hdecl, hdesc, hexcl _ hdecl]

theorem RunInvariant.settles {v : Visit Mediation Candidate} (hv : v ∈ s.history) :
    v.item.settles resolver = true := by
  have hvis := hs.visit hv
  obtain ⟨-, hactive, -⟩ := hs.declared hrel hexcl hv
  generalize v.before = core at hvis
  generalize v.after = core' at hvis
  generalize v.move = move at hvis
  cases hvis with
  | excluded hexcl => simp [Candidate.excluded, hactive] at hexcl
  | relocated other h => exact (hrel.not_relocates h).elim
  | known coordinate own index hset hsel hscope => exact settles_iff.mpr ⟨_, _, hset⟩
  | rescoped coordinate own effective index hset hsel hscope hmodel =>
    exact settles_iff.mpr ⟨_, _, hset⟩
  | selected coordinate own file downloads hset hsel hfile hdown =>
    exact settles_iff.mpr ⟨_, _, hset⟩

variable (hkeys : KeysFaithful resolver project)

include hkeys

theorem RunInvariant.mediated {v : Visit Mediation Candidate} (hv : v ∈ s.history) {i : Nat}
    {coordinate : Coordinate} {own effective : EffectivePom}
    (hsel : s.core.selected.lookup v.item.dependency.managementKey = some i)
    (hset : Settled resolver v.item coordinate own)
    (hmodel : mediatedModel resolver (packageAt s.core.packages i).coordinate coordinate own =
      .ok effective) :
    resolver.buildCoordinate (packageAt s.core.packages i).coordinate.toPom = .ok effective := by
  unfold mediatedModel at hmodel
  split at hmodel
  · next hversion =>
    cases hmodel
    obtain ⟨before, w, after, co, m, hsplit, hwk, -, hwset, hwco⟩ := hs.represents.winner hsel
    have hwmem : w ∈ settledItems resolver s.history := by simp [hsplit]
    obtain ⟨u, hu, rfl, -⟩ := mem_settledItems.mp hwmem
    obtain ⟨hgroup, hartifact⟩ := hkeys _ _ (hs.declared hrel hexcl hu).1
      (hs.declared hrel hexcl hv).1 hwk
    obtain ⟨-, hcg, hca, -, -⟩ := Dependency.coordinate_eq_ok hset.coordinate_eq
    obtain ⟨-, hwg, hwa, -, -⟩ := Dependency.coordinate_eq_ok hwset.coordinate_eq
    have hpom : (packageAt s.core.packages i).coordinate.toPom = coordinate.toPom := by
      simp only [Coordinate.toPom, hversion]
      rw [hwco, hwg, hwa, hcg, hca, hgroup, hartifact]
    rw [hpom]
    exact hset.effective_eq
  · exact hmodel

/-- **Soundness.** What is visited is in the closure, and under a parent that
has an edge to it. -/
theorem RunInvariant.closure_of_visited {v : Visit Mediation Candidate} (hv : v ∈ s.history) :
    Closure resolver project s.core.selection v.item.dependency.managementKey v.item.scope ∧
      ∀ p, v.item.parent = some p → ∃ k, s.core.selected.lookup k = some p ∧
        ClosureEdge resolver project s.core.selection k v.item.dependency.managementKey := by
  induction hn : v.place.length using Nat.strong_induction_on generalizing v with
  | _ n ih =>
    have hoff := hs.offered hrel hv
    generalize hp : v.place = p at hoff
    generalize v.item = c at hoff
    cases hoff with
    | root hroot =>
      have hmem := List.mem_of_getElem? hroot
      simp only [rootCandidates, List.mem_append, List.mem_map] at hmem
      rcases hmem with ⟨d, hd, rfl⟩ | ⟨q, hq, rfl⟩
      · exact ⟨.dependency hd, fun p hp => by cases hp⟩
      · exact ⟨.processor hq, fun p hp => by cases hp⟩
    | child hu hpush hc =>
      obtain ⟨hclosure, -⟩ := ih _ (by rw [← hn, hp]; simp) hu rfl
      obtain ⟨i, coordinate, own, effective, hsel, hset, hmodel, rfl⟩ := hs.pushed hu hpush
      obtain ⟨d, t, hd, ht, rfl⟩ := mem_enqueueChildren.mp (List.mem_of_getElem? hc)
      have hbuild := hs.mediated hrel hexcl hkeys hu hsel hset hmodel
      have hselected := selection_eq hsel
      refine ⟨.child hclosure hselected hbuild hd ht, fun p hp => ?_⟩
      cases hp
      exact ⟨_, hsel, _, _, _, d, t, hclosure, hselected, hbuild, hd, ht, rfl⟩

variable (hq : s.queue = [])

include hq

theorem RunInvariant.child_visited {v : Visit Mediation Candidate} (hv : v ∈ s.history)
    {selected : Coordinate} {effective : EffectivePom} {d : Dependency} {t : String}
    (hsel : s.core.selection v.item.dependency.managementKey = some selected)
    (hbuild : resolver.buildCoordinate selected.toPom = .ok effective)
    (hd : ChildDependency effective project.dependencyManagement d)
    (ht : deriveScope v.item.scope d.scope = some t) :
    ∃ i, s.core.selected.lookup v.item.dependency.managementKey = some i ∧
      ∃ u ∈ s.history, u.item.dependency = d ∧ u.item.scope = t ∧ u.item.parent = some i := by
  obtain ⟨w, hw, items, hkey, hscope, hpush⟩ := hs.exists_pushed hv (hs.settles hrel hexcl hv)
  obtain ⟨i, coordinate, own, m, hlookup, hset, hmodel, rfl⟩ := hs.pushed hw hpush
  have hbuild' := hs.mediated hrel hexcl hkeys hw hlookup hset hmodel
  have hselected := selection_eq hlookup
  rw [hkey, hsel] at hselected
  cases hselected
  rw [hbuild] at hbuild'
  cases hbuild'
  obtain ⟨e, he, hed, het, hei⟩ : ∃ e ∈ enqueueChildren effective w.item i
      project.dependencyManagement, e.dependency = d ∧ e.scope = t ∧ e.parent = some i :=
    ⟨_, mem_enqueueChildren.mpr ⟨d, t, hd, hscope ▸ ht, rfl⟩, rfl, rfl, rfl⟩
  obtain ⟨j, hj⟩ := List.mem_iff_getElem?.mp he
  obtain ⟨u, hu, -, rfl⟩ := hs.entered_visited hq (.offered (.child hw hpush hj))
  exact ⟨i, hkey ▸ hlookup, u, hu, hed, het, hei⟩

/-- **Completeness.** What is in the closure was visited. -/
theorem RunInvariant.visited_of_closure {k t : String}
    (h : Closure resolver project s.core.selection k t) :
    ∃ v ∈ s.history, v.item.dependency.managementKey = k ∧ v.item.scope = t := by
  have hroot : ∀ c ∈ rootCandidates project, ∃ v ∈ s.history, v.item = c := by
    intro c hc
    obtain ⟨i, hi⟩ := List.mem_iff_getElem?.mp hc
    obtain ⟨v, hv, -, hitem⟩ := hs.entered_visited hq (.offered (.root hi))
    exact ⟨v, hv, hitem⟩
  induction h with
  | @dependency d hd =>
    obtain ⟨v, hv, hitem⟩ := hroot _ (List.mem_append_left _ (List.mem_map_of_mem hd))
    exact ⟨v, hv, by rw [hitem], by rw [hitem]⟩
  | @processor p hp =>
    obtain ⟨v, hv, hitem⟩ := hroot _ (List.mem_append_right _ (List.mem_map_of_mem hp))
    exact ⟨v, hv, by rw [hitem], by rw [hitem]⟩
  | child _ hsel hbuild hd ht ih =>
    obtain ⟨v, hv, rfl, rfl⟩ := ih
    obtain ⟨-, -, u, hu, rfl, rfl, -⟩ :=
      hs.child_visited hrel hexcl hkeys hq hv hsel hbuild hd ht
    exact ⟨u, hu, rfl, rfl⟩

theorem RunInvariant.mem_scopes_iff {k t : String} :
    (∃ i, s.core.selected.lookup k = some i ∧
      t ∈ (packageAt s.core.packages i).effectiveScopes) ↔
        Closure resolver project s.core.selection k t := by
  constructor
  · rintro ⟨i, hi, ht⟩
    obtain ⟨c, hc, rfl, rfl⟩ := hs.represents.scope_from hi ht
    obtain ⟨v, hv, rfl, -⟩ := mem_settledItems.mp hc
    exact (hs.closure_of_visited hrel hexcl hkeys hv).1
  · intro h
    obtain ⟨v, hv, rfl, rfl⟩ := hs.visited_of_closure hrel hexcl hkeys hq h
    obtain ⟨i, hi, hscope, -⟩ := hs.represents.present v.item
      (mem_settledItems.mpr ⟨v, hv, rfl, hs.settles hrel hexcl hv⟩)
    exact ⟨i, hi, hscope⟩

theorem RunInvariant.mem_dependencies_iff {k e : String} {i : Nat}
    (hi : s.core.selected.lookup k = some i) :
    e ∈ (packageAt s.core.packages i).dependencies ↔
      ∃ k' coordinate, ClosureEdge resolver project s.core.selection k k' ∧
        s.core.selection k' = some coordinate ∧ e = coordinate.toString := by
  constructor
  · intro he
    obtain ⟨c, hc, hparent, j, hj, rfl⟩ := hs.represents.edge_from (hs.represents.index_lt hi) he
    obtain ⟨v, hv, rfl, -⟩ := mem_settledItems.mp hc
    obtain ⟨k', hk', hedge⟩ := (hs.closure_of_visited hrel hexcl hkeys hv).2 i hparent
    obtain rfl := hs.represents.index_inj hk' hi
    exact ⟨_, _, hedge, selection_eq hj, rfl⟩
  · rintro ⟨k', coordinate, ⟨sc, selected, effective, d, t, hclosure, hsel, hbuild, hd, ht, rfl⟩,
      hk', rfl⟩
    obtain ⟨v, hv, rfl, rfl⟩ := hs.visited_of_closure hrel hexcl hkeys hq hclosure
    obtain ⟨i', hi', u, hu, rfl, rfl, hparent⟩ :=
      hs.child_visited hrel hexcl hkeys hq hv hsel hbuild hd ht
    rw [hi] at hi'
    cases hi'
    obtain ⟨j, hj, -, hedge⟩ := hs.represents.present u.item
      (mem_settledItems.mpr ⟨u, hu, rfl, hs.settles hrel hexcl hu⟩)
    rw [selection_eq hj] at hk'
    cases hk'
    exact (hedge i hparent).2

end Run

/-! ## The resolved graph -/

/-- The graph is the least closure of the project under the versions `core`
selected. -/
structure LeastClosure (resolver : DependencyResolver) (project : EffectivePom) (core : Mediation)
    (graph : ResolvedGraph) : Prop where
  /-- The packages are the selected keys. -/
  keyed : ∀ i, i < graph.packages.length ↔ ∃ k, core.selected.lookup k = some i
  key_unique : ∀ k k' i, core.selected.lookup k = some i → core.selected.lookup k' = some i →
    k = k'
  selection : ∀ k i, core.selected.lookup k = some i →
    core.selection k = some (packageAt graph.packages i).coordinate
  scopes : ∀ k t, (∃ i, core.selected.lookup k = some i ∧
    t ∈ (packageAt graph.packages i).effectiveScopes) ↔
      Closure resolver project core.selection k t
  edges : ∀ k i e, core.selected.lookup k = some i →
    (e ∈ (packageAt graph.packages i).dependencies ↔
      ∃ k' coordinate, ClosureEdge resolver project core.selection k k' ∧
        core.selection k' = some coordinate ∧ e = coordinate.toString)
  classpath : ∀ cp x, x ∈ graph.classpath cp ↔
    ∃ package ∈ graph.packages, package.artifactChecksum = some x ∧
      ∃ scope ∈ package.effectiveScopes, scope ∈ cp.scopes
  classpath_nodup : ∀ cp, (graph.classpath cp).Nodup

/-- **Without exclusions and relocations, and with faithful keys, the resolved
graph is the least closure of the project.** -/
theorem resolve_least_closure {resolver : DependencyResolver} {order : CompletionOrder}
    {project : EffectivePom} {workspace : List MavenProject} {graph : ResolvedGraph}
    (hrel : RelocationFree resolver) (hexcl : ExclusionFree resolver project)
    (hkeys : KeysFaithful resolver project)
    (h : Resolves resolver order project workspace (.ok graph)) :
    ∃ core, Mediates resolver project workspace core ∧
      LeastClosure resolver project core graph := by
  obtain ⟨core, packages, hmed, hfin, rfl⟩ := resolves_ok h
  obtain ⟨s, -, hs, hq, rfl⟩ := mediated_history hmed
  obtain ⟨hlen, hpackages⟩ := finishArtifacts_packageAt hfin
  refine ⟨s.core, hmed, ?_⟩
  exact
    { keyed := by
        intro i
        rw [packages_buildClasspaths, hlen]
        refine ⟨hs.represents.has_key, ?_⟩
        rintro ⟨k, hk⟩
        exact hs.represents.index_lt hk
      key_unique := fun k k' i => hs.represents.index_inj
      selection := by
        intro k i hk
        rw [packages_buildClasspaths, (hpackages i).1]
        exact selection_eq hk
      scopes := by
        intro k t
        simp only [packages_buildClasspaths, (hpackages _).2.1]
        exact hs.mem_scopes_iff hrel hexcl hkeys hq
      edges := by
        intro k i e hk
        rw [packages_buildClasspaths, (hpackages i).2.2]
        exact hs.mem_dependencies_iff hrel hexcl hkeys hq hk
      classpath := by
        intro cp x
        rw [packages_buildClasspaths]
        exact mem_classpath_buildClasspaths packages cp x
      classpath_nodup := nodup_classpath_buildClasspaths packages }

def rescopedProject : EffectivePom :=
  EffectivePom.declare "app" "main" "1"
    [Dependency.declare "lib" "core" "1" "compile", Dependency.declare "app" "right" "1" "runtime"]

def rescopedRepository : DependencyResolver :=
  DependencyResolver.ofModels
    [EffectivePom.declare "app" "right" "1" [Dependency.declare "lib" "core" "2" "compile"],
      EffectivePom.declare "lib" "core" "1" [Dependency.declare "lib" "old" "1" "compile"],
      EffectivePom.declare "lib" "core" "2" [Dependency.declare "lib" "new" "1" "compile"],
      EffectivePom.declare "lib" "old" "1" []]

theorem ofModels_mem {models : List EffectivePom} {coordinate : Coordinate}
    {effective : EffectivePom}
    (h : (DependencyResolver.ofModels models).buildCoordinate coordinate = .ok effective) :
    effective ∈ models := by
  simp only [DependencyResolver.ofModels] at h
  split at h
  · next hfind =>
    cases h
    exact List.mem_of_find?_eq_some hfind
  · cases h

theorem relocationFree_ofModels {models : List EffectivePom}
    (h : ∀ m ∈ models, m.relocation = none) : RelocationFree (DependencyResolver.ofModels models) := by
  intro coordinate effective hbuild
  rw [relocationOf, h effective (ofModels_mem hbuild)]

theorem declared_ofModels {models : List EffectivePom} {project : EffectivePom}
    {P : Dependency → Prop} (hroots : ∀ c ∈ rootCandidates project, P c.dependency)
    (h : ∀ m ∈ models, ∀ d ∈ m.dependencies, P (applyRootManagement d project.dependencyManagement))
    {d : Dependency} (hd : Declared (DependencyResolver.ofModels models) project d) : P d := by
  cases hd with
  | dependency hd => exact hroots _ (List.mem_append_left _ (List.mem_map_of_mem hd))
  | @processor p hp => exact hroots _ (List.mem_append_right _ (List.mem_map_of_mem hp))
  | child hmodel hd =>
    obtain ⟨declared, hmem, -, rfl⟩ := hd
    exact h _ (ofModels_mem hmodel) declared hmem

theorem least_closure_rescoped : ∃ graph core,
    graph.packages.map (fun p => (p.coordinate.toString, p.effectiveScopes)) =
        [("lib:core:1", ["compile", "runtime"]), ("app:right:1", ["runtime"]),
          ("lib:old:1", ["compile", "runtime"])] ∧
      LeastClosure rescopedRepository rescopedProject core graph := by
  have hrun : ((resolveInWorkspace rescopedRepository CompletionOrder.spawned rescopedProject []
      8).bind Except.toOption).map
        (fun graph => graph.packages.map fun p => (p.coordinate.toString, p.effectiveScopes)) =
      some [("lib:core:1", ["compile", "runtime"]), ("app:right:1", ["runtime"]),
        ("lib:old:1", ["compile", "runtime"])] := by decide
  obtain ⟨graph, hgraph, hview⟩ := resolves_of_run _ _ hrun
  have hrel : RelocationFree rescopedRepository := relocationFree_ofModels (by decide)
  have hexcl : ExclusionFree rescopedRepository rescopedProject := fun d hd =>
    declared_ofModels (P := fun d => d.exclusions = []) (by decide) (by decide) hd
  have hkeys : KeysFaithful rescopedRepository rescopedProject := keysFaithful_of_colonFree
    fun d hd => declared_ofModels (by decide) (by decide) hd
  obtain ⟨core, -, h⟩ := resolve_least_closure hrel hexcl hkeys hgraph
  exact ⟨graph, core, hview, h⟩

/-- Two artifacts with one key: `x:y` with type `jar` and classifier `p:q`, and
`x:y:jar` with type `p` and classifier `q`. -/
def ambiguousProject : EffectivePom :=
  EffectivePom.declare "app" "main" "1"
    [{ Dependency.declare "x" "y" "1" "compile" with classifier := some "p:q" },
      { Dependency.declare "x:y" "jar" "1" "runtime" with
        dependencyType := "p", classifier := some "q" }]

def ambiguousModels : List EffectivePom :=
  [EffectivePom.declare "x" "y" "1" [Dependency.declare "lib" "one" "1" "compile"],
    EffectivePom.declare "x:y" "jar" "1" [Dependency.declare "lib" "two" "1" "compile"],
    EffectivePom.declare "lib" "one" "1" [], EffectivePom.declare "lib" "two" "1" []]

def ambiguousRepository : DependencyResolver := DependencyResolver.ofModels ambiguousModels

def excludingProject : EffectivePom :=
  EffectivePom.declare "app" "main" "1" [Dependency.declare "app" "left" "1" "compile"]

def excludingRepository : DependencyResolver :=
  DependencyResolver.ofModels
    [EffectivePom.declare "app" "left" "1"
      [{ Dependency.declare "lib" "core" "1" "compile" with exclusions := [⟨"lib", "*"⟩] }],
      EffectivePom.declare "lib" "core" "1" [Dependency.declare "lib" "util" "1" "compile"],
      EffectivePom.declare "lib" "util" "1" []]

/-- The graph is not the least closure when two artifacts share a key, nor when
a dependency of the repository declares exclusions. -/
theorem least_closure_needs_faithful_keys_and_no_exclusions :
    (¬ ∀ resolver order project workspace graph, RelocationFree resolver →
      ExclusionFree resolver project → Resolves resolver order project workspace (.ok graph) →
        ∃ core, Mediates resolver project workspace core ∧
          LeastClosure resolver project core graph) ∧
    (¬ ∀ resolver order project workspace graph, RelocationFree resolver →
      KeysFaithful resolver project →
      (∀ d ∈ project.dependencies ++ project.dependencyManagement, d.exclusions = []) →
      Resolves resolver order project workspace (.ok graph) →
        ∃ core, Mediates resolver project workspace core ∧
          LeastClosure resolver project core graph) := by
  constructor
  · intro hclaim
    have hrel : RelocationFree ambiguousRepository := relocationFree_ofModels (by decide)
    have hexcl : ExclusionFree ambiguousRepository ambiguousProject := fun d hd =>
      declared_ofModels (P := fun d => d.exclusions = []) (by decide) (by decide) hd
    -- the candidate's own model was expanded, not that of the selected coordinate
    obtain ⟨graph, hgraph, hscopes⟩ : ∃ graph, Resolves ambiguousRepository
        CompletionOrder.spawned ambiguousProject [] (.ok graph) ∧
          (packageAt graph.packages 1).effectiveScopes = ["compile"] :=
      resolves_of_run (fun graph => (packageAt graph.packages 1).effectiveScopes) 6 (by decide)
    obtain ⟨core, hcore, hclosure⟩ := hclaim _ _ _ _ _ hrel hexcl hgraph
    have hselected : core.selection "x:y:jar:p:q" = some ⟨"x", "y", "1", "jar", some "p:q"⟩ :=
      mediates_of_run (fun core => core.selection "x:y:jar:p:q") 6 (by decide) hcore
    have hlookup : core.selected.lookup "lib:one:jar:" = some 1 :=
      mediates_of_run (fun core => core.selected.lookup "lib:one:jar:") 6 (by decide) hcore
    have hone : Closure ambiguousRepository ambiguousProject core.selection "lib:one:jar:"
        "runtime" :=
      .child (d := Dependency.declare "lib" "one" "1" "compile")
        (.dependency (List.mem_cons_of_mem _ (List.mem_cons_self ..))) hselected rfl
        ⟨_, List.mem_cons_self .., by decide, rfl⟩ rfl
    obtain ⟨i, hi, hmem⟩ := (hclosure.scopes _ _).mpr hone
    rw [hlookup] at hi
    cases hi
    rw [hscopes] at hmem
    exact absurd hmem (by decide)
  · intro hclaim
    have hrel : RelocationFree excludingRepository := relocationFree_ofModels (by decide)
    have hkeys : KeysFaithful excludingRepository excludingProject := keysFaithful_of_colonFree
      fun d hd => declared_ofModels (by decide) (by decide) hd
    obtain ⟨graph, hgraph, -⟩ : ∃ graph, Resolves excludingRepository
        CompletionOrder.spawned excludingProject [] (.ok graph) ∧ graph.packages.length = 2 :=
      resolves_of_run (fun graph => graph.packages.length) 6 (by decide)
    obtain ⟨core, hcore, hclosure⟩ := hclaim _ _ _ _ _ hrel hkeys (by decide) hgraph
    have hleft : core.selection "app:left:jar:" = some (Coordinate.jar "app" "left" "1") :=
      mediates_of_run (fun core => core.selection "app:left:jar:") 6 (by decide) hcore
    have hcoreSel : core.selection "lib:core:jar:" = some (Coordinate.jar "lib" "core" "1") :=
      mediates_of_run (fun core => core.selection "lib:core:jar:") 6 (by decide) hcore
    have hlookup : core.selected.lookup "lib:util:jar:" = none :=
      mediates_of_run (fun core => core.selected.lookup "lib:util:jar:") 6 (by decide) hcore
    have hroot : Closure excludingRepository excludingProject core.selection "app:left:jar:"
        "compile" :=
      .dependency (d := Dependency.declare "app" "left" "1" "compile") (List.mem_cons_self ..)
    have hmid : Closure excludingRepository excludingProject core.selection "lib:core:jar:"
        "compile" :=
      .child (d := { Dependency.declare "lib" "core" "1" "compile" with
        exclusions := [⟨"lib", "*"⟩] }) hroot hleft rfl
        ⟨_, List.mem_cons_self .., by decide, rfl⟩ rfl
    have hutil : Closure excludingRepository excludingProject core.selection "lib:util:jar:"
        "compile" :=
      .child (d := Dependency.declare "lib" "util" "1" "compile") hmid hcoreSel rfl
        ⟨_, List.mem_cons_self .., by decide, rfl⟩ rfl
    obtain ⟨i, hi, -⟩ := (hclosure.scopes _ _).mpr hutil
    rw [hlookup] at hi
    cases hi

end JMan.Resolver
