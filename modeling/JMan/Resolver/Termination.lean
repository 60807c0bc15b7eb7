import Mathlib.Data.Finite.Prod
import Mathlib.Data.Set.Card
import Mathlib.Data.Set.Finite.Lattice
import JMan.Lib.Acyclic
import JMan.Resolver.Closure

/-!
# JMan — termination of the candidate loop

Over a finite repository only finitely many dependencies can become candidates
(`finite_admitted`), under finitely many scopes. A candidate that is expanded
records a pair of a key and a scope that was not there, a skipped one shortens
the queue, and a relocated one goes a step down its chain of relocations: the
loop ends (`returns_of_no_relocation_cycle`).

Nothing bounds a chain of relocations, though. The loop puts the relocated
candidate back at the head of the queue before it looks at what it has seen,
so a candidate whose relocations form a cycle keeps it going forever
(`not_returns_of_relocation_cycle`).
-/

namespace JMan.Resolver

open Acyclic (EntersCycle)
open Relation (ReflTransGen)
open Worklist (Placed)

/-! ## The candidates of a finite repository -/

/-- The repository has a model for finitely many coordinates. -/
def FiniteRepository (resolver : DependencyResolver) : Prop :=
  {coordinate | ∃ effective, resolver.buildCoordinate coordinate = .ok effective}.Finite

def Dependency.relocate (d : Dependency) (relocation : Coordinate) : Dependency :=
  { d with
    group := relocation.group
    artifact := relocation.artifact
    version := some relocation.version }

/-- The dependencies candidates can have: declared ones and their relocations. -/
inductive Admitted (resolver : DependencyResolver) (project : EffectivePom) : Dependency → Prop where
  | declared {d : Dependency} (h : Declared resolver project d) : Admitted resolver project d
  | relocated {d : Dependency} {coordinate relocation : Coordinate} {effective : EffectivePom}
      (h : Admitted resolver project d)
      (hmodel : resolver.buildCoordinate coordinate = .ok effective)
      (hrel : effective.relocation = some relocation) :
      Admitted resolver project (d.relocate relocation)

section Finite

variable {resolver : DependencyResolver} {project : EffectivePom}

theorem finite_of_models {β : Type} (hfin : FiniteRepository resolver)
    (list : EffectivePom → List β) :
    {b | ∃ coordinate effective, resolver.buildCoordinate coordinate = .ok effective ∧
      b ∈ list effective}.Finite := by
  have hcover : {b | ∃ coordinate effective, resolver.buildCoordinate coordinate = .ok effective ∧
      b ∈ list effective} ⊆ ⋃ coordinate ∈ {coordinate | ∃ effective,
        resolver.buildCoordinate coordinate = .ok effective},
          {b | ∃ effective, resolver.buildCoordinate coordinate = .ok effective ∧
            b ∈ list effective} := by
    rintro b ⟨coordinate, effective, hmodel, hb⟩
    simp only [Set.mem_iUnion, Set.mem_ofPred_eq]
    exact ⟨coordinate, ⟨effective, hmodel⟩, effective, hmodel, hb⟩
  refine (Set.Finite.biUnion hfin fun coordinate _ => ?_).subset hcover
  cases hmodel : resolver.buildCoordinate coordinate with
  | error e => simp
  | ok effective => simp

theorem finite_declared (hfin : FiniteRepository resolver) (project : EffectivePom) :
    {d | Declared resolver project d}.Finite := by
  have hcover : {d | Declared resolver project d} ⊆ {d | d ∈ project.dependencies} ∪
      {d | d ∈ project.annotationProcessors.map AnnotationProcessor.dependency} ∪
      {d | ∃ coordinate effective, resolver.buildCoordinate coordinate = .ok effective ∧
        d ∈ effective.dependencies.map fun d =>
          applyRootManagement d project.dependencyManagement} := by
    intro d hd
    cases hd with
    | dependency h => exact Or.inl (Or.inl h)
    | processor h => exact Or.inl (Or.inr (List.mem_map_of_mem h))
    | child hmodel h =>
      obtain ⟨declared, hmem, -, rfl⟩ := h
      exact Or.inr ⟨_, _, hmodel, List.mem_map.mpr ⟨declared, hmem, rfl⟩⟩
  exact (((List.finite_toSet _).union (List.finite_toSet _)).union
    (finite_of_models hfin _)).subset hcover

/-- **Only finitely many dependencies can become candidates.** A relocation
overwrites what an earlier one wrote, so a chain of them counts as one. -/
theorem finite_admitted (hfin : FiniteRepository resolver) (project : EffectivePom) :
    {d | Admitted resolver project d}.Finite := by
  have hrelocations := finite_of_models hfin fun effective => effective.relocation.toList
  have hcover : {d | Admitted resolver project d} ⊆ {d | Declared resolver project d} ∪
      Set.image2 Dependency.relocate {d | Declared resolver project d}
        {relocation | ∃ coordinate effective,
          resolver.buildCoordinate coordinate = .ok effective ∧
            relocation ∈ effective.relocation.toList} := by
    intro d hd
    induction hd with
    | declared h => exact Or.inl h
    | relocated _ hmodel hrel ih =>
      right
      have hmem := And.intro hmodel (Option.mem_toList.mpr hrel)
      rcases ih with h | ⟨e, he, r, hr, rfl⟩
      · exact ⟨_, h, _, ⟨_, _, hmem⟩, rfl⟩
      · exact ⟨e, he, _, ⟨_, _, hmem⟩, rfl⟩
  have hdeclared := finite_declared hfin project
  exact (hdeclared.union (Set.Finite.image2 _ hdeclared hrelocations)).subset hcover

def candidateScopes (project : EffectivePom) : List String :=
  (rootCandidates project).map Candidate.scope ++
    ["compile", "runtime", "provided", "test", "processor"]

theorem deriveScope_mem {parent child scope : String} (h : deriveScope parent child = some scope) :
    scope ∈ candidateScopes project := by
  refine List.mem_append_right _ ?_
  unfold deriveScope at h
  split at h <;> cases h <;> decide

def Bounded (resolver : DependencyResolver) (project : EffectivePom) (c : Candidate) : Prop :=
  Admitted resolver project c.dependency ∧ c.scope ∈ candidateScopes project

theorem bounded_root {c : Candidate} (h : c ∈ rootCandidates project) :
    Bounded resolver project c := by
  refine ⟨.declared ?_, List.mem_append_left _ (List.mem_map_of_mem h)⟩
  simp only [rootCandidates, List.mem_append, List.mem_map] at h
  rcases h with ⟨d, hd, rfl⟩ | ⟨q, hq, rfl⟩
  · exact .dependency hd
  · exact .processor hq

theorem Relocates.bounded {c other : Candidate} (h : Relocates resolver c other)
    (hc : Bounded resolver project c) : Bounded resolver project other := by
  obtain ⟨coordinate, effective, relocation, -, -, hmodel, hrel, rfl⟩ := h
  refine ⟨.relocated hc.1 hmodel ?_, hc.2⟩
  unfold relocationOf at hrel
  split at hrel
  · cases hrel
  · next r hr =>
    split at hrel
    · cases hrel
      exact hr
    · cases hrel

theorem bounded_child {coordinate : Coordinate} {effective : EffectivePom} {c d : Candidate}
    {index : Nat} (hmodel : resolver.buildCoordinate coordinate = .ok effective)
    (h : d ∈ enqueueChildren effective c index project.dependencyManagement) :
    Bounded resolver project d := by
  obtain ⟨dep, t, hdep, ht, rfl⟩ := mem_enqueueChildren.mp h
  exact ⟨.declared (.child hmodel hdep), deriveScope_mem ht⟩

theorem finite_relocations (hfin : FiniteRepository resolver) {c : Candidate}
    (hc : Bounded resolver project c) : {d | ReflTransGen (Relocates resolver) c d}.Finite := by
  have hcover : {d | ReflTransGen (Relocates resolver) c d} ⊆
      (fun dependency => { c with dependency := dependency }) ''
        {d | Admitted resolver project d} := by
    intro d hd
    have key : Bounded resolver project d ∧ { c with dependency := d.dependency } = d := by
      induction hd with
      | refl => exact ⟨hc, rfl⟩
      | tail _ hrel ih =>
        refine ⟨hrel.bounded ih.1, ?_⟩
        obtain ⟨_, _, _, -, -, -, -, rfl⟩ := hrel
        rw [← ih.2]
        rfl
    exact ⟨d.dependency, key.1.1, key.2⟩
  exact ((finite_admitted hfin project).image _).subset hcover

end Finite

/-! ## The measure -/

def Recorded (core : Mediation) (pair : String × String) : Prop :=
  ∃ i, core.selected.lookup pair.1 = some i ∧
    pair.2 ∈ (packageAt core.packages i).effectiveScopes

section Measure

variable {resolver : DependencyResolver} {project : EffectivePom} {workspace : List MavenProject}
  {core core' : Mediation} {c : Candidate}

theorem Recorded.grows {settled : List Candidate} (hrep : Represents resolver settled core)
    (h : Grows core core') {pair : String × String} (hr : Recorded core pair) :
    Recorded core' pair := by
  obtain ⟨i, hi, hs⟩ := hr
  exact ⟨i, h.lookup hi, h.scopes (hrep.index_lt hi) hs⟩

theorem Visited.records {items : List Candidate} {settled : List Candidate}
    (hrep : Represents resolver settled core)
    (hparent : ∀ p, c.parent = some p → p < core.packages.length)
    (h : Visited resolver project workspace core c core' (.push items)) :
    ¬ Recorded core (c.dependency.managementKey, c.scope) ∧
      Recorded core' (c.dependency.managementKey, c.scope) := by
  have hsettles : c.settles resolver = true := by
    cases h with
    | rescoped coordinate own effective index hset hsel hscope hmodel =>
      exact settles_iff.mpr ⟨_, _, hset⟩
    | selected coordinate own file downloads hset hsel hfile hdown =>
      exact settles_iff.mpr ⟨_, _, hset⟩
  have hrep' := hrep.step hparent h
  rw [if_pos hsettles] at hrep'
  obtain ⟨i, hi, hrecorded, -⟩ := hrep'.present c (by simp)
  refine ⟨?_, i, hi, hrecorded⟩
  rintro ⟨j, hj, hmem⟩
  dsimp only at hj hmem
  cases h with
  | rescoped coordinate own effective index hset hsel hscope hmodel =>
    rw [hsel] at hj
    cases hj
    exact hscope hmem
  | selected coordinate own file downloads hset hsel hfile hdown =>
    rw [hsel] at hj
    cases hj

/-- The number of pairs of `all` that are not recorded yet. -/
noncomputable def remaining (all : Set (String × String)) (core : Mediation) : Nat :=
  {pair ∈ all | ¬ Recorded core pair}.ncard

theorem remaining_le {all : Set (String × String)} (hall : all.Finite)
    (h : ∀ pair, Recorded core pair → Recorded core' pair) :
    remaining all core' ≤ remaining all core :=
  Set.ncard_le_ncard (fun pair hpair => ⟨hpair.1, fun hr => hpair.2 (h pair hr)⟩)
    (hall.sep _)

theorem remaining_lt {all : Set (String × String)} (hall : all.Finite)
    (h : ∀ pair, Recorded core pair → Recorded core' pair) {pair : String × String}
    (hpair : pair ∈ all) (hnew : ¬ Recorded core pair) (hrecorded : Recorded core' pair) :
    remaining all core' < remaining all core := by
  refine Set.ncard_lt_ncard ⟨fun x hx => ⟨hx.1, fun hr => hx.2 (h x hr)⟩, fun hsub => ?_⟩
    (hall.sep _)
  exact (hsub ⟨hpair, hnew⟩).2 hrecorded

end Measure

/-! ## Termination -/

section Terminate

variable {resolver : DependencyResolver} {project : EffectivePom} {workspace : List MavenProject}

/-- What holds of the placed states a run over a finite repository reaches. -/
structure BoundedRun (resolver : DependencyResolver) (project : EffectivePom)
    (workspace : List MavenProject) (s : Placed Mediation Candidate) : Prop where
  reached : Loop.Reaches (mediation resolver project workspace).placedStep
    (Placed.start (Mediation.start project) (rootCandidates project)) s
  bounded : ∀ x ∈ s.queue, Bounded resolver project x.2

theorem BoundedRun.start : BoundedRun resolver project workspace
    (Placed.start (Mediation.start project) (rootCandidates project)) where
  reached := Loop.Reaches.refl _
  bounded := by
    rintro ⟨q, c⟩ hx
    obtain ⟨i, hi, -⟩ := Worklist.mem_childrenAt.mp hx
    exact bounded_root (List.mem_of_getElem? hi)

theorem BoundedRun.step {s t : Placed Mediation Candidate}
    (hs : BoundedRun resolver project workspace s)
    (h : (mediation resolver project workspace).placedStep s = .next t) :
    BoundedRun resolver project workspace t := by
  refine ⟨hs.reached.tail h, fun x hx => ?_⟩
  obtain ⟨v, rest, hq, -, hv, -, hqueue, -⟩ := Worklist.placedStep_next h
  have hvis := visit_cases hv
  have hrest : x ∈ rest → Bounded resolver project x.2 := fun hr =>
    hs.bounded x (by rw [hq]; exact List.mem_cons_of_mem _ hr)
  have hitem : Bounded resolver project v.item :=
    hs.bounded (v.place, v.item) (by rw [hq]; exact List.mem_cons_self ..)
  rw [hqueue] at hx
  generalize v.before = core at hvis
  generalize v.after = core' at hvis
  generalize v.move = move at hvis hx
  have hchild : ∀ {coordinate effective index}, resolver.buildCoordinate coordinate = .ok effective →
      x ∈ Worklist.childrenAt v.place (enqueueChildren effective v.item index
        project.dependencyManagement) → Bounded resolver project x.2 := by
    intro coordinate effective index hmodel hx
    obtain ⟨j, hj, -⟩ := Worklist.mem_childrenAt.mp (show (x.1, x.2) ∈ _ from hx)
    exact bounded_child hmodel (List.mem_of_getElem? hj)
  cases hvis with
  | excluded hexcl => exact hrest hx
  | relocated other hrel =>
    rcases List.mem_cons.mp hx with rfl | hx
    · exact hrel.bounded hitem
    · exact hrest hx
  | known coordinate own index hset hsel hscope => exact hrest hx
  | rescoped coordinate own effective index hset hsel hscope hmodel =>
    rcases List.mem_append.mp hx with hx | hx
    · exact hrest hx
    · unfold mediatedModel at hmodel
      split at hmodel
      · cases hmodel
        exact hchild hset.effective_eq hx
      · exact hchild hmodel hx
  | selected coordinate own file downloads hset hsel hfile hdown =>
    rcases List.mem_append.mp hx with hx | hx
    · exact hrest hx
    · exact hchild hset.effective_eq hx

/-- The head of the queue leads into a cycle of relocations. -/
def HeadCycles (resolver : DependencyResolver) (s : Worklist.State Mediation Candidate) : Prop :=
  ∃ c rest, s.queue = c :: rest ∧ EntersCycle (Relocates resolver) c

/-- **Without relocation cycles the candidate loop ends.** -/
theorem returns_of_no_relocation_cycle (hfin : FiniteRepository resolver)
    (h : ∀ s, Loop.Reaches (mediation resolver project workspace).step (startState project) s →
      ¬ HeadCycles resolver s) :
    ∃ result, Loop.Returns (mediation resolver project workspace).step (startState project)
      result := by
  set pairs : Set (String × String) := (fun x : Dependency × String => (x.1.managementKey, x.2)) ''
    ({d | Admitted resolver project d} ×ˢ {sc | sc ∈ candidateScopes project})
  have hpairs : pairs.Finite :=
    (Set.Finite.prod (finite_admitted hfin project) (List.finite_toSet _)).image _
  have hmem : ∀ c, Bounded resolver project c →
      (c.dependency.managementKey, c.scope) ∈ pairs := fun c hc =>
    ⟨(c.dependency, c.scope), hc, rfl⟩
  -- what one step keeps, for all three moves
  have hstep : ∀ s t v, BoundedRun resolver project workspace s →
      (mediation resolver project workspace).placedStep s = .next t →
      t.history = s.history ++ [v] → Bounded resolver project v.item ∧
        Represents resolver (settledItems resolver s.history) s.core ∧
        (∀ p, v.item.parent = some p → p < s.core.packages.length) ∧
        Visited resolver project workspace s.core v.item v.after v.move ∧
        Grows s.core v.after ∧ Grows v.after t.core := by
    intro s t v hs hst hhist
    obtain ⟨hb, hv, rest, hq, -⟩ := Worklist.placedStep_visit hst hhist
    have hrun := run_invariant hs.reached
    have hvis := visit_cases hv
    rw [hb] at hvis
    have hhead : (v.place, v.item) ∈ s.queue := by
      rw [hq]
      exact List.mem_cons_self ..
    exact ⟨hs.bounded _ hhead, hrun.represents, hrun.parents _ hhead, hvis, hvis.grows,
      (run_invariant (hs.reached.tail hst)).grows v (by simp [hhist])⟩
  have hkeeps : ∀ s t v, BoundedRun resolver project workspace s →
      (mediation resolver project workspace).placedStep s = .next t →
      t.history = s.history ++ [v] → ∀ pair, Recorded s.core pair → Recorded t.core pair := by
    intro s t v hs hst hhist pair hr
    obtain ⟨-, hrep, -, -, hgrows, hgrows'⟩ := hstep s t v hs hst hhist
    exact hr.grows hrep (hgrows.trans hgrows')
  rw [startState_eq_erase]
  refine Worklist.Machine.terminates (remaining pairs)
    (Acyclic.wellFounded_of_acc (Relocates resolver)) (fun s t hs hst => hs.step hst)
    ?_ ?_ ?_ BoundedRun.start
  · intro s t v hs hst hhist _
    exact remaining_le hpairs (hkeeps s t v hs hst hhist)
  · intro s t v other hs hst hhist hmove
    obtain ⟨hitem, -, -, hvis, -⟩ := hstep s t v hs hst hhist
    rw [hmove] at hvis
    refine ⟨remaining_le hpairs (hkeeps s t v hs hst hhist), hvis.relocates.1, ?_⟩
    refine Acyclic.acc_of_finite (finite_relocations hfin hitem) fun hcycle => ?_
    obtain ⟨-, -, rest, hq, -⟩ := Worklist.placedStep_visit hst hhist
    refine h s.erase ?_ ⟨v.item, rest.map Prod.snd, by simp [Placed.erase, hq], hcycle⟩
    rw [startState_eq_erase]
    exact Worklist.reaches_erase hs.reached
  · intro s t v items hs hst hhist hmove
    obtain ⟨hitem, hrep, hparent, hvis, hgrows, hgrows'⟩ := hstep s t v hs hst hhist
    rw [hmove] at hvis
    obtain ⟨hnew, hrecorded⟩ := hvis.records hrep hparent
    have hrep' := hrep.step hparent hvis
    exact remaining_lt hpairs (hkeeps s t v hs hst hhist) (hmem _ hitem) hnew
      (hrecorded.grows hrep' hgrows')

/-! ## Divergence -/

/-- **A relocation cycle at the head of the queue keeps the loop going.** -/
theorem not_returns_of_relocation_cycle {s : Worklist.State Mediation Candidate}
    (h : HeadCycles resolver s) {result : Except ResolverError Mediation} :
    ¬ Loop.Returns (mediation resolver project workspace).step s result := by
  have hlive : ∀ a, HeadCycles resolver a → ∃ b,
      (mediation resolver project workspace).step a = .next b ∧ HeadCycles resolver b := by
    rintro ⟨core, queue⟩ ⟨c, rest, hq, hcycle⟩
    obtain ⟨d, hrel, hd⟩ := hcycle.step
    -- the relocated candidate takes the head's place, and leads into the cycle too
    refine ⟨⟨core, d :: rest⟩, ?_, d, rest, rfl, hd⟩
    dsimp only at hq
    simp [Worklist.Machine.step, hq, mediation, visit_of_visited (.relocated d hrel)]
  exact Loop.not_returns_of_closed hlive h

/-- **The candidate loop over a finite repository ends exactly when no candidate
that reaches the head of the queue leads into a cycle of relocations.** -/
theorem loop_returns_iff_no_relocation_cycle (hfin : FiniteRepository resolver) :
    (∃ result, Loop.Returns (mediation resolver project workspace).step (startState project)
      result) ↔
    ∀ s, Loop.Reaches (mediation resolver project workspace).step (startState project) s →
      ¬ HeadCycles resolver s := by
  constructor
  · rintro ⟨result, hresult⟩ s hs hcycle
    exact not_returns_of_relocation_cycle hcycle (hresult.from_reached hs)
  · exact returns_of_no_relocation_cycle hfin

end Terminate

theorem finiteRepository_ofModels (models : List EffectivePom) :
    FiniteRepository (DependencyResolver.ofModels models) := by
  refine (List.finite_toSet (models.map EffectivePom.coordinate)).subset ?_
  rintro coordinate ⟨effective, hmodel⟩
  simp only [DependencyResolver.ofModels] at hmodel
  split at hmodel
  · next m hfind =>
    have hmem := List.mem_of_find?_eq_some hfind
    have hcoord := List.find?_some hfind
    rw [beq_iff_eq] at hcoord
    exact List.mem_map.mpr ⟨m, hmem, hcoord⟩
  · cases hmodel

def mutualProject : EffectivePom :=
  EffectivePom.declare "app" "main" "1" [Dependency.declare "lib" "old" "1" "compile"]

def mutualRepository : DependencyResolver :=
  DependencyResolver.ofModels
    [{ EffectivePom.declare "lib" "old" "1" [] with
        relocation := some (Coordinate.pom "lib" "one" "1") },
      EffectivePom.declare "lib" "one" "1" [Dependency.declare "lib" "two" "1" "compile"],
      EffectivePom.declare "lib" "two" "1" [Dependency.declare "lib" "old" "1" "runtime"]]

theorem no_relocation_cycle_mutual :
    (∃ result, Loop.Returns (mediation mutualRepository mutualProject []).step
      (startState mutualProject) result) ∧
    ∀ s, Loop.Reaches (mediation mutualRepository mutualProject []).step
      (startState mutualProject) s → ¬ HeadCycles mutualRepository s := by
  have hreturns : ∃ result, Loop.Returns (mediation mutualRepository mutualProject []).step
      (startState mutualProject) result := ⟨_, Loop.returns_iff_run.mpr ⟨12, rfl⟩⟩
  exact ⟨hreturns, (loop_returns_iff_no_relocation_cycle (finiteRepository_ofModels _)).mp hreturns⟩

def cyclicProject : EffectivePom :=
  EffectivePom.declare "app" "main" "1" [Dependency.declare "old" "name" "1" "compile"]

def cyclicRepository : DependencyResolver :=
  DependencyResolver.ofModels
    [{ EffectivePom.declare "old" "name" "1" [] with
        relocation := some (Coordinate.pom "new" "name" "1") },
      { EffectivePom.declare "new" "name" "1" [] with
        relocation := some (Coordinate.pom "old" "name" "1") }]

theorem relocation_cycle_never_returns : FiniteRepository cyclicRepository ∧
    ¬ ∃ result, Loop.Returns (mediation cyclicRepository cyclicProject []).step
      (startState cyclicProject) result := by
  refine ⟨finiteRepository_ofModels _, ?_⟩
  rintro ⟨result, hresult⟩
  let old : Candidate := ⟨Dependency.declare "old" "name" "1" "compile", "compile", [], [], none⟩
  let new : Candidate := ⟨Dependency.declare "new" "name" "1" "compile", "compile", [], [], none⟩
  have hold : Relocates cyclicRepository old new := ⟨_, _, _, rfl, rfl, rfl, rfl, rfl⟩
  have hnew : Relocates cyclicRepository new old := ⟨_, _, _, rfl, rfl, rfl, rfl, rfl⟩
  refine not_returns_of_relocation_cycle ⟨old, [], rfl, old, ReflTransGen.refl, ?_⟩ hresult
  exact (Relation.TransGen.single hold).tail hnew

end JMan.Resolver
