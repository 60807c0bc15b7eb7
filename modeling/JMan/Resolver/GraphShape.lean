import JMan.Resolver.Termination

/-!
# JMan — the shape of the graph

What the packages of `graph` say of each other while the candidate loop runs. A package
records the parent that its candidate came from, and a parent the coordinates of its
dependencies.

* `graph_shaped` — the graph is well formed in every state of the loop, and an edge is the coordinate
  of one package only, as long as no package is selected under another key at a coordinate that is
  written like that of a package before it.
-/

namespace JMan.Resolver

open Worklist (Move Placed State)
open Relation (ReflTransGen)

-- Fields that a visit leaves alone

section Fields

variable {packages : List ResolvedPackage} {parent : Option Nat} {child index i : Nat} {scope : String}

@[simp] theorem selectedParent_addEdge (packages : List ResolvedPackage) (parent : Option Nat)
    (child i : Nat) :
    (packageAt (addEdge packages parent child) i).selectedParent =
      (packageAt packages i).selectedParent :=
  packageAt_addEdge_field ResolvedPackage.selectedParent (fun _ _ => rfl) packages parent child i

@[simp] theorem selectedParent_addScope (packages : List ResolvedPackage) (index : Nat)
    (scope : String) (i : Nat) :
    (packageAt (addScope packages index scope) i).selectedParent =
      (packageAt packages i).selectedParent :=
  packageAt_modify_field ResolvedPackage.selectedParent
    (f := fun p => { p with effectiveScopes := insertScope scope p.effectiveScopes })
    (fun _ => rfl) packages index i

theorem nodup_dependencies_addEdge (h : (packageAt packages i).dependencies.Nodup) :
    (packageAt (addEdge packages parent child) i).dependencies.Nodup := by
  cases parent with
  | none => exact h
  | some parent =>
    rw [addEdge, packageAt_modify]
    split
    · split
      · exact h
      · next hnew =>
        refine List.nodup_append.mpr ⟨h, List.nodup_singleton _, ?_⟩
        rintro e he e' he' rfl
        exact hnew (List.mem_singleton.mp he' ▸ he)
    · exact h

end Fields

-- Shapes

section Shapes

variable (resolver : DependencyResolver) (project : EffectivePom) (workspace : List MavenProject)

/-- A dependency of the project itself, or what it is relocated to. -/
def FromRoot (c : Candidate) : Prop :=
  ∃ root ∈ rootCandidates project, ReflTransGen (Relocates resolver) root c

/-- On the way to a state, a candidate was taken from the queue and selected the package
with an index. -/
def SelectedBy (c : Candidate) (index : Nat) (s : State Mediation Candidate) : Prop :=
  ∃ before after rest,
    Loop.Reaches (mediation resolver project workspace).step (startState project) before ∧
    before.queue = c :: rest ∧ (mediation resolver project workspace).step before = .next after ∧
    Loop.Reaches (mediation resolver project workspace).step after s ∧
    before.core.packages.length = index ∧ after.core.packages.length = index + 1

def edgeText (core : Mediation) (index : Nat) : String :=
  (packageAt core.packages index).coordinate.toString

/-- The packages of a state, with who selected them and the edges between them. -/
structure Shaped (s : State Mediation Candidate) : Prop where
  /-- A package records the parent of its candidate, which was selected strictly before and
  has an edge to it; without one it is a dependency of the project. -/
  selected : ∀ i < s.core.packages.length, ∃ c, SelectedBy resolver project workspace c i s ∧
    (packageAt s.core.packages i).selectedParent = c.parent ∧
    (c.parent = none → FromRoot resolver project c) ∧
    ∀ p, c.parent = some p →
      p < i ∧ edgeText s.core i ∈ (packageAt s.core.packages p).dependencies
  once : ∀ i < s.core.packages.length, (packageAt s.core.packages i).dependencies.Nodup
  named : ∀ i < s.core.packages.length, ∀ edge ∈ (packageAt s.core.packages i).dependencies,
    ∃ j < s.core.packages.length, edge = edgeText s.core j

/-- The candidate whose turn it is does not select a package at a coordinate that is written
like that of another package. -/
def TellsApart (s : State Mediation Candidate) : Prop :=
  ∀ c rest, s.queue = c :: rest → ∀ coordinate effective, Settled resolver c coordinate effective →
    s.core.selected.lookup c.dependency.managementKey = none →
      ∀ i < s.core.packages.length, edgeText s.core i ≠ coordinate.toString

end Shapes

section Step

variable {resolver : DependencyResolver} {project : EffectivePom} {workspace : List MavenProject}
  {core core' : Mediation} {c : Candidate} {move : Move Candidate} {s t : Placed Mediation Candidate}

theorem Visited.selectedParent (h : Visited resolver project workspace core c core' move) {i : Nat}
    (hi : i < core.packages.length) :
    (packageAt core'.packages i).selectedParent = (packageAt core.packages i).selectedParent := by
  cases h with
  | excluded _ => rfl
  | relocated _ _ => rfl
  | known coordinate own index hset hsel hscope => simp
  | rescoped coordinate own effective index hset hsel hscope hmodel => simp
  | selected coordinate own file downloads hset hsel hfile hdown => simp [packageAt_append hi]

theorem Visited.once (h : Visited resolver project workspace core c core' move)
    (honce : ∀ i < core.packages.length, (packageAt core.packages i).dependencies.Nodup) :
    ∀ i < core'.packages.length, (packageAt core'.packages i).dependencies.Nodup := by
  cases h with
  | excluded _ => exact honce
  | relocated _ _ => exact honce
  | known coordinate own index hset hsel hscope =>
    intro i hi
    exact nodup_dependencies_addEdge (honce i (by simpa using hi))
  | rescoped coordinate own effective index hset hsel hscope hmodel =>
    intro i hi
    rw [dependencies_addScope]
    exact nodup_dependencies_addEdge (honce i (by simpa using hi))
  | selected coordinate own file downloads hset hsel hfile hdown =>
    intro i hi
    refine nodup_dependencies_addEdge ?_
    by_cases hold : i < core.packages.length
    · rw [packageAt_append hold]
      exact honce i hold
    · obtain rfl : i = core.packages.length := by
        simp at hi
        omega
      rw [packageAt_append_length]
      exact List.nodup_nil

theorem Visited.length (h : Visited resolver project workspace core c core' move) :
    core'.packages.length = core.packages.length ∨
      core'.packages.length = core.packages.length + 1 ∧
      ∃ coordinate effective, Settled resolver c coordinate effective ∧
        core.selected.lookup c.dependency.managementKey = none ∧
        edgeText core' core.packages.length = coordinate.toString ∧
        (packageAt core'.packages core.packages.length).selectedParent = c.parent ∧
        ∀ p < core.packages.length, c.parent = some p →
          coordinate.toString ∈ (packageAt core'.packages p).dependencies := by
  cases h with
  | excluded _ => exact Or.inl rfl
  | relocated _ _ => exact Or.inl rfl
  | known coordinate own index hset hsel hscope => exact Or.inl (by simp)
  | rescoped coordinate own effective index hset hsel hscope hmodel => exact Or.inl (by simp)
  | selected coordinate own file downloads hset hsel hfile hdown =>
    refine Or.inr ⟨by simp, coordinate, own, hset, hsel, ?_, ?_, fun p hp hparent => ?_⟩
    · simp [edgeText, newPackage]
    · simp [newPackage]
    · refine mem_dependencies_addEdge.mpr (Or.inr ⟨hparent, ?_, ?_⟩)
      · simp
        omega
      · simp [newPackage]

theorem Visited.parent_ne_none {items : List Candidate} {d : Candidate}
    (h : Visited resolver project workspace core c core' (.push items)) (hd : d ∈ items) :
    d.parent ≠ none := by
  cases h with
  | rescoped coordinate own effective index hset hsel hscope hmodel => simp [parent_of_child hd]
  | selected coordinate own file downloads hset hsel hfile hdown => simp [parent_of_child hd]

theorem packages_settled (core : Mediation) (queue : List (Worklist.Place × Candidate))
    (move : Move Candidate) :
    ((mediation resolver project workspace).settled core queue move).packages = core.packages := by
  cases move <;> rfl

theorem SelectedBy.step {i : Nat} (h : SelectedBy resolver project workspace c i s.erase)
    (hstep : (mediation resolver project workspace).placedStep s = .next t) :
    SelectedBy resolver project workspace c i t.erase := by
  obtain ⟨before, after, rest, hbefore, hqueue, hturn, hafter, hlengths⟩ := h
  exact ⟨before, after, rest, hbefore, hqueue, hturn,
    hafter.tail (Worklist.step_erase_of_placedStep hstep), hlengths⟩

/-- Candidates without a parent come from the dependencies of the project. -/
def Rooted (resolver : DependencyResolver) (project : EffectivePom)
    (s : Placed Mediation Candidate) : Prop :=
  ∀ x ∈ s.queue, x.2.parent = none → FromRoot resolver project x.2

theorem Rooted.start : Rooted resolver project
    (Placed.start (Mediation.start project) (rootCandidates project)) := by
  rintro ⟨place, candidate⟩ hx -
  obtain ⟨i, hi, -⟩ := Worklist.mem_childrenAt.mp hx
  exact ⟨candidate, List.mem_of_getElem? hi, .refl⟩

theorem Rooted.step (h : Rooted resolver project s)
    (hstep : (mediation resolver project workspace).placedStep s = .next t) :
    Rooted resolver project t := by
  obtain ⟨v, rest, hqueue, -, hvisit, -, hnext, -⟩ := Worklist.placedStep_next hstep
  have hvisited : Visited resolver project workspace v.before v.item v.after v.move :=
    visit_cases hvisit
  have hrest : ∀ x ∈ rest, x.2.parent = none → FromRoot resolver project x.2 :=
    fun x hx => h x (hqueue ▸ List.mem_cons_of_mem _ hx)
  intro x hx hnone
  rw [hnext] at hx
  cases hmove : v.move with
  | skip =>
    rw [hmove] at hx
    exact hrest x hx hnone
  | replace other =>
    rw [hmove] at hx hvisited
    rcases List.mem_cons.mp hx with rfl | hx
    · have hrelocates := hvisited.relocates.1
      rw [hrelocates.parent] at hnone
      obtain ⟨root, hroot, hreaches⟩ := h (v.place, v.item) (hqueue ▸ List.mem_cons_self) hnone
      exact ⟨root, hroot, hreaches.tail hrelocates⟩
    · exact hrest x hx hnone
  | push items =>
    rw [hmove] at hx hvisited
    rcases List.mem_append.mp hx with hx | hx
    · exact hrest x hx hnone
    · -- what a package depends on has that package as its parent
      obtain ⟨j, hj, -⟩ := Worklist.mem_childrenAt.mp (show (x.1, x.2) ∈ _ from hx)
      exact absurd hnone (hvisited.parent_ne_none (List.mem_of_getElem? hj))

/-- **A turn of the loop keeps the shape.** -/
theorem Shaped.step (hs : RunInvariant resolver project workspace s)
    (ht : RunInvariant resolver project workspace t)
    (hreaches : Loop.Reaches (mediation resolver project workspace).step (startState project) s.erase)
    (hroots : Rooted resolver project s) (h : Shaped resolver project workspace s.erase)
    (hstep : (mediation resolver project workspace).placedStep s = .next t) :
    Shaped resolver project workspace t.erase := by
  obtain ⟨v, rest, hqueue, hbefore, hvisit, hcore, -, -⟩ := Worklist.placedStep_next hstep
  have hvisited : Visited resolver project workspace v.before v.item v.after v.move :=
    visit_cases hvisit
  have hpackages : t.core.packages = v.after.packages := by
    rw [hcore, packages_settled]
  rw [hbefore] at hvisited
  have hgrows := hvisited.grows
  -- the packages that were there
  have hold : ∀ i < s.core.packages.length, ∃ c, SelectedBy resolver project workspace c i t.erase ∧
      (packageAt t.core.packages i).selectedParent = c.parent ∧
      (c.parent = none → FromRoot resolver project c) ∧
      ∀ p, c.parent = some p →
        p < i ∧ edgeText t.core i ∈ (packageAt t.core.packages p).dependencies := by
    intro i hi
    obtain ⟨c, hc, hparent, hroot, hedges⟩ := h.selected i hi
    refine ⟨c, hc.step hstep, ?_, hroot, fun p hp => ?_⟩
    · rw [hpackages, hvisited.selectedParent hi]
      exact hparent
    · obtain ⟨hlt, hedge⟩ := hedges p hp
      refine ⟨hlt, ?_⟩
      rw [edgeText, hpackages, hgrows.coordinate hi]
      exact hgrows.edges (by omega) hedge
  refine ⟨fun i hi => ?_, ?_, fun i hi edge hedge => ?_⟩
  · by_cases hlt : i < s.core.packages.length
    · exact hold i hlt
    -- the package is the one that was selected in this turn
    have hlength : t.core.packages.length = v.after.packages.length := by rw [hpackages]
    have hlast : t.erase.core.packages.length = t.core.packages.length := rfl
    rcases hvisited.length with hsame | ⟨hmore, coordinate, effective, -, -, htext, hparent, hedges⟩
    · omega
    obtain rfl : i = s.core.packages.length := by omega
    refine ⟨v.item, ?_, ?_, fun hnone => ?_, fun p hp => ?_⟩
    · refine ⟨s.erase, t.erase, rest.map Prod.snd, hreaches, ?_,
        Worklist.step_erase_of_placedStep hstep, Loop.Reaches.refl _, rfl, ?_⟩
      · simp [Placed.erase, hqueue]
      · omega
    · show (packageAt t.core.packages _).selectedParent = _
      rw [hpackages, hparent]
    · exact hroots (v.place, v.item) (hqueue ▸ List.mem_cons_self) hnone
    · have hparentLt : p < s.core.packages.length :=
        hs.parents (v.place, v.item) (hqueue ▸ List.mem_cons_self) p hp
      refine ⟨hparentLt, ?_⟩
      show edgeText t.core _ ∈ (packageAt t.core.packages p).dependencies
      rw [edgeText, hpackages]
      rw [edgeText] at htext
      rw [htext]
      exact hedges p hparentLt hp
  · show ∀ i < t.core.packages.length, (packageAt t.core.packages i).dependencies.Nodup
    rw [hpackages]
    exact hvisited.once h.once
  · obtain ⟨c, -, -, j, hj, rfl⟩ := ht.represents.edge_from hi hedge
    exact ⟨j, ht.represents.index_lt hj, rfl⟩

end Step

-- Runs

section Runs

variable {resolver : DependencyResolver} {project : EffectivePom} {workspace : List MavenProject}

theorem Shaped.start : Shaped resolver project workspace (startState project) where
  selected i hi := by simp [startState, Mediation.start, Mediation.prefetch] at hi
  once i hi := by simp [startState, Mediation.start, Mediation.prefetch] at hi
  named i hi := by simp [startState, Mediation.start, Mediation.prefetch] at hi

/-- **The shape holds in every state of the loop.** -/
theorem shaped_of_reaches {s : Placed Mediation Candidate}
    (h : Loop.Reaches (mediation resolver project workspace).placedStep
      (Placed.start (Mediation.start project) (rootCandidates project)) s) :
    Shaped resolver project workspace s.erase ∧ Rooted resolver project s := by
  induction h with
  | refl =>
    refine ⟨?_, Rooted.start⟩
    rw [← startState_eq_erase]
    exact Shaped.start
  | @tail a b ha hstep ih =>
    have hreaches := Worklist.reaches_erase ha
    rw [← startState_eq_erase] at hreaches
    exact ⟨ih.1.step (run_invariant ha) (run_invariant (ha.tail hstep)) hreaches ih.2 hstep,
      ih.2.step hstep⟩

/-- Packages whose coordinates are written differently. -/
def TextsDistinct (core : Mediation) : Prop :=
  ∀ i < core.packages.length, ∀ j < core.packages.length, edgeText core i = edgeText core j → i = j

/-- **A turn that tells apart what it selects keeps the texts distinct.** -/
theorem TextsDistinct.step {s t : Placed Mediation Candidate} (h : TextsDistinct s.core)
    (hapart : TellsApart resolver s.erase)
    (hstep : (mediation resolver project workspace).placedStep s = .next t) :
    TextsDistinct t.core := by
  obtain ⟨v, rest, hqueue, hbefore, hvisit, hcore, -, -⟩ := Worklist.placedStep_next hstep
  have hvisited : Visited resolver project workspace v.before v.item v.after v.move :=
    visit_cases hvisit
  have hpackages : t.core.packages = v.after.packages := by
    rw [hcore, packages_settled]
  rw [hbefore] at hvisited
  have hold : ∀ i < s.core.packages.length, edgeText t.core i = edgeText s.core i := by
    intro i hi
    rw [edgeText, hpackages, hvisited.grows.coordinate hi]
    rfl
  have hlength : t.core.packages.length = v.after.packages.length := by rw [hpackages]
  intro i hi j hj hij
  rcases hvisited.length with hsame | ⟨hmore, coordinate, effective, hset, hfree, htext, -, -⟩
  · rw [hold i (by omega), hold j (by omega)] at hij
    exact h i (by omega) j (by omega) hij
  -- what is selected in this turn is written like nothing before it
  have hnew : edgeText t.core s.core.packages.length = coordinate.toString := by
    rw [edgeText, hpackages]
    exact htext
  have hfresh : ∀ k < s.core.packages.length, edgeText s.core k ≠ coordinate.toString :=
    hapart v.item (rest.map Prod.snd) (by simp [Placed.erase, hqueue]) coordinate effective hset hfree
  by_cases hilt : i < s.core.packages.length
  · by_cases hjlt : j < s.core.packages.length
    · rw [hold i hilt, hold j hjlt] at hij
      exact h i hilt j hjlt hij
    · obtain rfl : j = s.core.packages.length := by omega
      rw [hold i hilt, hnew] at hij
      exact absurd hij (hfresh i hilt)
  · obtain rfl : i = s.core.packages.length := by omega
    by_cases hjlt : j < s.core.packages.length
    · rw [hnew, hold j hjlt] at hij
      exact absurd hij.symm (hfresh j hjlt)
    · omega

theorem textsDistinct_of_reaches {s : Placed Mediation Candidate}
    (h : Loop.Reaches (mediation resolver project workspace).placedStep
      (Placed.start (Mediation.start project) (rootCandidates project)) s)
    (hapart : ∀ t u : State Mediation Candidate,
      Loop.Reaches (mediation resolver project workspace).step (startState project) t →
      (mediation resolver project workspace).step t = .next u →
      Loop.Reaches (mediation resolver project workspace).step u s.erase → TellsApart resolver t) :
    TextsDistinct s.core := by
  induction h with
  | refl =>
    intro i hi
    simp [Placed.start, Mediation.start, Mediation.prefetch] at hi
  | @tail a b ha hstep ih =>
    have hturn := Worklist.step_erase_of_placedStep hstep
    have hreaches := Worklist.reaches_erase ha
    rw [← startState_eq_erase] at hreaches
    refine (ih fun t u ht htu hu => ?_).step (hapart a.erase b.erase hreaches hturn (.refl _)) hstep
    exact hapart t u ht htu (hu.tail hturn)

theorem exists_root {s : State Mediation Candidate} (h : Shaped resolver project workspace s)
    (i : Nat) (hi : i < s.core.packages.length) :
    ∃ root < s.core.packages.length,
      ReflTransGen (fun a b => (packageAt s.core.packages a).selectedParent = some b) i root ∧
        (packageAt s.core.packages root).selectedParent = none := by
  induction i using Nat.strong_induction_on with
  | h i ih =>
    obtain ⟨c, -, hparent, -, hbefore⟩ := h.selected i hi
    cases hc : c.parent with
    | none => exact ⟨i, hi, .refl, hparent.trans hc⟩
    | some p =>
      have hlt := (hbefore p hc).1
      obtain ⟨root, hroot, hchain, hnone⟩ := ih p hlt (by omega)
      exact ⟨root, hroot, .head (hparent.trans hc) hchain, hnone⟩

/-- **The graph in every state of the loop.** Every package was selected by a candidate: one
that comes from a dependency of the project, if the package records no parent, and otherwise
one whose parent was selected strictly before and has an edge to the package; so its parents
lead to a dependency of the project. Every edge is stored once and is the coordinate of some
package. It is that of one package only, if no turn on the way selected, under a key of its
own, a coordinate that is written like that of a package before it. -/
theorem graph_shaped {s : State Mediation Candidate}
    (h : Loop.Reaches (mediation resolver project workspace).step (startState project) s) :
    Shaped resolver project workspace s ∧
    (∀ i < s.core.packages.length, ∃ root < s.core.packages.length,
      ReflTransGen (fun a b => (packageAt s.core.packages a).selectedParent = some b) i root ∧
        (packageAt s.core.packages root).selectedParent = none) ∧
    ((∀ t u, Loop.Reaches (mediation resolver project workspace).step (startState project) t →
        (mediation resolver project workspace).step t = .next u →
        Loop.Reaches (mediation resolver project workspace).step u s → TellsApart resolver t) →
      ∀ i < s.core.packages.length, ∀ edge ∈ (packageAt s.core.packages i).dependencies,
        ∃! j, j < s.core.packages.length ∧ edge = edgeText s.core j) := by
  rw [startState_eq_erase] at h
  obtain ⟨placed, hplaced, rfl⟩ := Worklist.placed_reaches h
  obtain ⟨hshaped, -⟩ := shaped_of_reaches hplaced
  refine ⟨hshaped, exists_root hshaped, fun hapart i hi edge hedge => ?_⟩
  obtain ⟨j, hj, rfl⟩ := hshaped.named i hi edge hedge
  refine ⟨j, ⟨hj, rfl⟩, fun k hk => ?_⟩
  exact textsDistinct_of_reaches hplaced hapart k hk.1 j hj hk.2.symm

theorem reaches_of_run {β : Type} (view : Mediation → β) {fuel : Nat} {b : β}
    (h : ((Loop.run (mediation resolver project workspace).step fuel (startState project)).bind
      Except.toOption).map view = some b) :
    ∃ s : State Mediation Candidate,
      Loop.Reaches (mediation resolver project workspace).step (startState project) s ∧
        view s.core = b := by
  obtain ⟨core, hcore, rfl⟩ := Option.map_eq_some_iff.mp h
  obtain ⟨result, hresult, hok⟩ := Option.bind_eq_some_iff.mp hcore
  cases result with
  | error e => cases hok
  | ok last =>
    obtain rfl : last = core := Option.some.inj hok
    obtain ⟨s, hreaches, hstop⟩ := Loop.returns_of_run hresult
    obtain ⟨-, rfl⟩ := Worklist.step_eq_ok hstop
    exact ⟨s, hreaches, rfl⟩

/-- Of the dependencies that can become candidates, those whose coordinates are written
alike have one key. -/
def SpelledOnce (resolver : DependencyResolver) (project : EffectivePom) : Prop :=
  ∀ d d' coordinate coordinate', Admitted resolver project d → Admitted resolver project d' →
    d.coordinate = .ok coordinate → d'.coordinate = .ok coordinate' →
      coordinate.toString = coordinate'.toString → d.managementKey = d'.managementKey

theorem admitted_of_visited {s : Placed Mediation Candidate}
    (h : Loop.Reaches (mediation resolver project workspace).placedStep
      (Placed.start (Mediation.start project) (rootCandidates project)) s) :
    ∀ v ∈ s.history, Admitted resolver project v.item.dependency := by
  induction h with
  | refl =>
    intro v hv
    simp [Placed.start] at hv
  | @tail a b ha hstep ih =>
    have hbounded : BoundedRun resolver project workspace a :=
      Loop.Reaches.invariant (fun _ _ => BoundedRun.step) ha BoundedRun.start
    obtain ⟨v, rest, hqueue, -, -, -, -, hhistory⟩ := Worklist.placedStep_next hstep
    intro w hw
    rw [hhistory, List.mem_append, List.mem_singleton] at hw
    rcases hw with hw | rfl
    · exact ih w hw
    · exact (hbounded.bounded (w.place, w.item) (hqueue ▸ List.mem_cons_self)).1

/-- **Where artifacts are spelled once, every turn tells apart what it selects.** -/
theorem tellsApart_of_spelledOnce (hspelled : SpelledOnce resolver project)
    {t : State Mediation Candidate}
    (h : Loop.Reaches (mediation resolver project workspace).step (startState project) t) :
    TellsApart resolver t := by
  rw [startState_eq_erase] at h
  obtain ⟨s, hs, rfl⟩ := Worklist.placed_reaches h
  have hbounded : BoundedRun resolver project workspace s :=
    hs.invariant (fun _ _ => BoundedRun.step) BoundedRun.start
  have hrepresents := (run_invariant hs).represents
  intro c rest hqueue coordinate effective hset hfree i hi htext
  obtain ⟨place, hplace⟩ : ∃ place, (place, c) ∈ s.queue := by
    have hmem : c ∈ s.queue.map Prod.snd := by
      show c ∈ s.erase.queue
      rw [hqueue]
      exact List.mem_cons_self
    obtain ⟨x, hx, rfl⟩ := List.mem_map.mp hmem
    exact ⟨x.1, hx⟩
  obtain ⟨key, hkey⟩ := hrepresents.has_key hi
  obtain ⟨earlier, d, later, coordinate', effective', hsettled, hd, -, hset', hco⟩ :=
    hrepresents.winner hkey
  obtain ⟨v, hv, rfl, -⟩ : ∃ v ∈ s.history, v.item = d ∧ d.settles resolver = true :=
    mem_settledItems.mp (hsettled ▸ by simp)
  -- the candidate has the key of the package, which is selected
  have hsame := hspelled _ _ _ _ (admitted_of_visited hs v hv) (hbounded.bounded (place, c) hplace).1
    hset'.coordinate_eq hset.coordinate_eq (hco ▸ htext)
  rw [← hd, hsame] at hkey
  exact absurd (hkey.symm.trans hfree) (by simp)

def chainedProject : EffectivePom :=
  EffectivePom.declare "app" "main" "1" [Dependency.declare "app" "lib" "1" "compile"]

def chainedRepository : DependencyResolver :=
  DependencyResolver.ofModels
    [EffectivePom.declare "app" "lib" "1" [Dependency.declare "lib" "core" "1" "compile"],
      EffectivePom.declare "lib" "core" "1" []]

theorem spelledOnce_chained : SpelledOnce chainedRepository chainedProject := by
  have hadmitted : ∀ d, Admitted chainedRepository chainedProject d →
      d = Dependency.declare "app" "lib" "1" "compile" ∨
        d = Dependency.declare "lib" "core" "1" "compile" := by
    intro d hd
    cases hd with
    | declared hd =>
      exact declared_ofModels (P := fun d => d = Dependency.declare "app" "lib" "1" "compile" ∨
        d = Dependency.declare "lib" "core" "1" "compile") (by decide) (by decide) hd
    | relocated _ hmodel hrel =>
      have hnone : ∀ m ∈ [EffectivePom.declare "app" "lib" "1"
          [Dependency.declare "lib" "core" "1" "compile"], EffectivePom.declare "lib" "core" "1" []],
          m.relocation = none := by decide
      rw [hnone _ (ofModels_mem hmodel)] at hrel
      cases hrel
  intro d d' coordinate coordinate' hd hd' hco hco' htext
  have hsame : d.coordinate.toOption.map Coordinate.toString =
      d'.coordinate.toOption.map Coordinate.toString := by
    rw [hco, hco']
    exact congrArg some htext
  rcases hadmitted d hd with rfl | rfl
  · rcases hadmitted d' hd' with rfl | rfl
    · rfl
    · exact absurd hsame (by decide)
  · rcases hadmitted d' hd' with rfl | rfl
    · exact absurd hsame (by decide)
    · rfl

theorem graph_shaped_chained : ∃ s : State Mediation Candidate,
    s.core.packages.map (fun p => (p.coordinate.toString, p.dependencies, p.selectedParent)) =
      [("app:lib:1", ["lib:core:1"], none), ("lib:core:1", [], some 0)] ∧
    Shaped chainedRepository chainedProject [] s ∧
    ∃! j, j < s.core.packages.length ∧ "lib:core:1" = edgeText s.core j := by
  have hrun : ((Loop.run (mediation chainedRepository chainedProject []).step 6
      (startState chainedProject)).bind Except.toOption).map (fun core =>
        (core.packages.map fun p => (p.coordinate.toString, p.dependencies, p.selectedParent),
          core.packages.length, (packageAt core.packages 0).dependencies)) =
      some ([("app:lib:1", ["lib:core:1"], none), ("lib:core:1", [], some 0)], 2, ["lib:core:1"]) := by
    decide +kernel
  obtain ⟨s, hreaches, hview⟩ := reaches_of_run _ hrun
  simp only [Prod.mk.injEq] at hview
  obtain ⟨hpackages, hlength, hedges⟩ := hview
  obtain ⟨hshaped, -, hunique⟩ := graph_shaped hreaches
  have hapart : ∀ t u, Loop.Reaches (mediation chainedRepository chainedProject []).step
      (startState chainedProject) t → (mediation chainedRepository chainedProject []).step t = .next u →
      Loop.Reaches (mediation chainedRepository chainedProject []).step u s →
        TellsApart chainedRepository t :=
    fun t _ ht _ _ => tellsApart_of_spelledOnce spelledOnce_chained ht
  have hedge : "lib:core:1" ∈ (packageAt s.core.packages 0).dependencies := by simp [hedges]
  exact ⟨s, hpackages, hshaped, hunique hapart 0 (by omega) "lib:core:1" hedge⟩

def respelledRepository : DependencyResolver :=
  DependencyResolver.ofModels
    [EffectivePom.declare "app" "lib" "1"
      [{ Dependency.declare "lib" "core" "1" "compile" with classifier := some "tests" },
        { Dependency.declare "lib" "core" "1" "compile" with dependencyType := "test-jar" }],
      EffectivePom.declare "lib" "core" "1" []]

theorem edge_of_two_packages : ∃ s : State Mediation Candidate,
    Loop.Reaches (mediation respelledRepository chainedProject []).step (startState chainedProject) s ∧
    (packageAt s.core.packages 0).dependencies = ["lib:core:jar:tests:1"] ∧
    ¬ ∃! j, j < s.core.packages.length ∧ "lib:core:jar:tests:1" = edgeText s.core j := by
  have hrun : ((Loop.run (mediation respelledRepository chainedProject []).step 6
      (startState chainedProject)).bind Except.toOption).map (fun core =>
        (core.packages.length, (packageAt core.packages 0).dependencies,
          edgeText core 1, edgeText core 2)) =
      some (3, ["lib:core:jar:tests:1"], "lib:core:jar:tests:1", "lib:core:jar:tests:1") := by
    decide +kernel
  obtain ⟨s, hreaches, hview⟩ := reaches_of_run _ hrun
  simp only [Prod.mk.injEq] at hview
  obtain ⟨hlength, hedges, hfirst, hsecond⟩ := hview
  refine ⟨s, hreaches, hedges, ?_⟩
  rintro ⟨j, -, hunique⟩
  have hone := hunique 1 ⟨by omega, hfirst.symm⟩
  have htwo := hunique 2 ⟨by omega, hsecond.symm⟩
  omega

end Runs

end JMan.Resolver
