import JMan.Resolver.Visits

/-!
# JMan — invariants of the candidate loop

Two facts about the loop's state hold along every run:

* `Grows` — packages, their coordinates, scopes and edges, and the `selected`
  entries are only ever added: no later candidate changes a selected version.
* `Represents settled core` — the state is described by the list `settled` of
  the candidates that settled so far: a package exists for every key among
  them, has the coordinate of the first one, and has exactly their scopes and
  edges.

`RunInvariant` collects them with the order and the bookkeeping of the placed
worklist; `run_invariant` is the run lemma, `mediated_history` its form for a
loop that ended.
-/

namespace JMan.Resolver

open Worklist (Move Place Visit Placed)

/-! ## Growth -/

/-- Everything in `a` is still there in `b`. -/
structure Grows (a b : Mediation) : Prop where
  lookup : ∀ {k i}, a.selected.lookup k = some i → b.selected.lookup k = some i
  length : a.packages.length ≤ b.packages.length
  coordinate : ∀ {i}, i < a.packages.length →
    (packageAt b.packages i).coordinate = (packageAt a.packages i).coordinate
  scopes : ∀ {i s}, i < a.packages.length → s ∈ (packageAt a.packages i).effectiveScopes →
    s ∈ (packageAt b.packages i).effectiveScopes
  edges : ∀ {i e}, i < a.packages.length → e ∈ (packageAt a.packages i).dependencies →
    e ∈ (packageAt b.packages i).dependencies

theorem Grows.refl (a : Mediation) : Grows a a where
  lookup h := h
  length := Nat.le_refl _
  coordinate _ := rfl
  scopes _ h := h
  edges _ h := h

theorem Grows.trans {a b c : Mediation} (h : Grows a b) (h' : Grows b c) : Grows a c where
  lookup hk := h'.lookup (h.lookup hk)
  length := h.length.trans h'.length
  coordinate hi := (h'.coordinate (hi.trans_le h.length)).trans (h.coordinate hi)
  scopes hi hs := h'.scopes (hi.trans_le h.length) (h.scopes hi hs)
  edges hi he := h'.edges (hi.trans_le h.length) (h.edges hi he)

theorem Grows.prefetch (a : Mediation) (queue : List Candidate) : Grows a (a.prefetch queue) where
  lookup h := h
  length := Nat.le_refl _
  coordinate _ := rfl
  scopes _ h := h
  edges _ h := h

theorem lookup_cons_of_none {selected : List (String × Nat)} {key k : String} {index i : Nat}
    (hnone : selected.lookup key = none) (h : selected.lookup k = some i) :
    ((key, index) :: selected).lookup k = some i := by
  have hne : k ≠ key := by
    rintro rfl
    rw [hnone] at h
    cases h
  rw [List.lookup_cons, beq_eq_false_iff_ne.mpr hne]
  exact h

section Step

variable {resolver : DependencyResolver} {project : EffectivePom} {workspace : List MavenProject}
  {core core' : Mediation} {c : Candidate} {move : Move Candidate}

theorem Visited.grows (h : Visited resolver project workspace core c core' move) :
    Grows core core' := by
  cases h with
  | excluded _ => exact Grows.refl core
  | relocated _ _ => exact Grows.refl core
  | known coordinate own index hset hsel hscope =>
    exact
      { lookup := fun h => h
        length := by simp
        coordinate := fun _ => by simp
        scopes := fun _ hs => by simpa using hs
        edges := fun _ he => mem_dependencies_addEdge.mpr (Or.inl he) }
  | rescoped coordinate own effective index hset hsel hscope hmodel =>
    exact
      { lookup := fun h => h
        length := by simp
        coordinate := fun _ => by simp
        scopes := fun _ hs => mem_scopes_addScope.mpr (Or.inl (by simpa using hs))
        edges := fun _ he => by simpa using mem_dependencies_addEdge.mpr (Or.inl he) }
  | selected coordinate own file downloads hset hsel hfile hdown =>
    exact
      { lookup := lookup_cons_of_none hsel
        length := by simp
        coordinate := fun hi => by simp [packageAt_append hi]
        scopes := fun hi hs => by simpa [packageAt_append hi] using hs
        edges := fun hi he => mem_dependencies_addEdge.mpr (Or.inl (by rwa [packageAt_append hi])) }

/-! ## The settled candidates describe the state -/

/-- `core` is what the settled candidates, in the order they were visited, make
of the empty state. -/
structure Represents (resolver : DependencyResolver) (settled : List Candidate)
    (core : Mediation) : Prop where
  index_lt : ∀ {k i}, core.selected.lookup k = some i → i < core.packages.length
  index_inj : ∀ {k k' i}, core.selected.lookup k = some i → core.selected.lookup k' = some i → k = k'
  has_key : ∀ {i}, i < core.packages.length → ∃ k, core.selected.lookup k = some i
  /-- The first settled candidate of a key wins. -/
  winner : ∀ {k i}, core.selected.lookup k = some i → ∃ earlier c later coordinate own,
    settled = earlier ++ c :: later ∧ c.dependency.managementKey = k ∧
      (∀ d ∈ earlier, d.dependency.managementKey ≠ k) ∧ Settled resolver c coordinate own ∧
      (packageAt core.packages i).coordinate = coordinate
  present : ∀ c ∈ settled, ∃ i, core.selected.lookup c.dependency.managementKey = some i ∧
    c.scope ∈ (packageAt core.packages i).effectiveScopes ∧
      ∀ p, c.parent = some p → p < core.packages.length ∧
        (packageAt core.packages i).coordinate.toString ∈ (packageAt core.packages p).dependencies
  scope_from : ∀ {k i s}, core.selected.lookup k = some i →
    s ∈ (packageAt core.packages i).effectiveScopes →
      ∃ c ∈ settled, c.dependency.managementKey = k ∧ c.scope = s
  edge_from : ∀ {p e}, p < core.packages.length → e ∈ (packageAt core.packages p).dependencies →
    ∃ c ∈ settled, c.parent = some p ∧ ∃ i, core.selected.lookup c.dependency.managementKey = some i ∧
      e = (packageAt core.packages i).coordinate.toString

theorem Represents.empty (resolver : DependencyResolver) (project : EffectivePom) :
    Represents resolver [] (Mediation.start project) where
  index_lt h := by simp [Mediation.start, Mediation.prefetch] at h
  index_inj h := by simp [Mediation.start, Mediation.prefetch] at h
  has_key h := by simp [Mediation.start, Mediation.prefetch] at h
  winner h := by simp [Mediation.start, Mediation.prefetch] at h
  present := by simp
  scope_from h := by simp [Mediation.start, Mediation.prefetch] at h
  edge_from h := by simp [Mediation.start, Mediation.prefetch] at h

theorem Represents.prefetch {settled : List Candidate} (h : Represents resolver settled core)
    (queue : List Candidate) : Represents resolver settled (core.prefetch queue) where
  index_lt := h.index_lt
  index_inj := h.index_inj
  has_key := h.has_key
  winner := h.winner
  present := h.present
  scope_from := h.scope_from
  edge_from := h.edge_from

theorem Represents.revisit {settled : List Candidate} {packages : List ResolvedPackage}
    {index : Nat} (h : Represents resolver settled core)
    (hparent : ∀ p, c.parent = some p → p < core.packages.length)
    (hsel : core.selected.lookup c.dependency.managementKey = some index)
    (hlength : packages.length = core.packages.length)
    (hcoord : ∀ i, (packageAt packages i).coordinate = (packageAt core.packages i).coordinate)
    (hscopes : ∀ i s, s ∈ (packageAt packages i).effectiveScopes ↔
      s ∈ (packageAt core.packages i).effectiveScopes ∨ index = i ∧ s = c.scope)
    (hedges : ∀ p e, e ∈ (packageAt packages p).dependencies ↔
      e ∈ (packageAt core.packages p).dependencies ∨ c.parent = some p ∧
        p < core.packages.length ∧ e = (packageAt core.packages index).coordinate.toString) :
    Represents resolver (settled ++ [c]) { core with packages := packages } where
  index_lt hk := by simpa [hlength] using h.index_lt hk
  index_inj := h.index_inj
  has_key hi := h.has_key (by simpa [hlength] using hi)
  winner hk := by
    obtain ⟨earlier, d, later, coordinate, own, rfl, hkey, hfirst, hset, hco⟩ := h.winner hk
    exact ⟨earlier, d, later ++ [c], coordinate, own, by simp, hkey, hfirst, hset,
      (hcoord _).trans hco⟩
  present := by
    intro d hd
    simp only [hlength, hcoord, hscopes, hedges]
    rcases List.mem_append.mp hd with hd | hd
    · obtain ⟨i, hi, hs, he⟩ := h.present d hd
      exact ⟨i, hi, Or.inl hs, fun p hp => ⟨(he p hp).1, Or.inl (he p hp).2⟩⟩
    · rw [List.mem_singleton] at hd
      subst hd
      exact ⟨index, hsel, Or.inr ⟨rfl, rfl⟩, fun p hp =>
        ⟨hparent p hp, Or.inr ⟨hp, hparent p hp, rfl⟩⟩⟩
  scope_from := by
    intro k i s hk hs
    rcases (hscopes i s).mp hs with hs | ⟨rfl, rfl⟩
    · obtain ⟨d, hd, hkey, hsc⟩ := h.scope_from hk hs
      exact ⟨d, List.mem_append_left _ hd, hkey, hsc⟩
    · exact ⟨c, by simp, h.index_inj hsel hk, rfl⟩
  edge_from := by
    intro p e hp he
    simp only [hcoord]
    rcases (hedges p e).mp he with he | ⟨hpar, -, rfl⟩
    · obtain ⟨d, hd, hdp, i, hi, rfl⟩ := h.edge_from (by simpa [hlength] using hp) he
      exact ⟨d, List.mem_append_left _ hd, hdp, i, hi, rfl⟩
    · exact ⟨c, by simp, hpar, index, hsel, rfl⟩

theorem Represents.select {settled : List Candidate} {coordinate : Coordinate}
    {own : EffectivePom} {file : CachedFile} {downloads : List (Nat × Coordinate)}
    (h : Represents resolver settled core)
    (hparent : ∀ p, c.parent = some p → p < core.packages.length)
    (hset : Settled resolver c coordinate own)
    (hsel : core.selected.lookup c.dependency.managementKey = none) :
    Represents resolver (settled ++ [c])
      { core with
        packages := addEdge (core.packages ++ [newPackage c coordinate file]) c.parent
          core.packages.length
        selected := (c.dependency.managementKey, core.packages.length) :: core.selected
        downloads := downloads } := by
  set n := core.packages.length with hn
  -- a key is bound after the visit iff it was before, or it is the candidate's
  have hlookup : ∀ {k i},
      ((c.dependency.managementKey, n) :: core.selected).lookup k = some i →
        (k = c.dependency.managementKey ∧ i = n) ∨
          (k ≠ c.dependency.managementKey ∧ core.selected.lookup k = some i) := by
    intro k i hk
    rw [List.lookup_cons] at hk
    by_cases hkc : k = c.dependency.managementKey
    · subst hkc
      rw [beq_self_eq_true] at hk
      exact Or.inl ⟨rfl, (Option.some.inj hk).symm⟩
    · rw [beq_eq_false_iff_ne.mpr hkc] at hk
      exact Or.inr ⟨hkc, hk⟩
  have hold : ∀ {k i}, core.selected.lookup k = some i →
      ((c.dependency.managementKey, n) :: core.selected).lookup k = some i :=
    lookup_cons_of_none hsel
  have hnew : ((c.dependency.managementKey, n) :: core.selected).lookup
      c.dependency.managementKey = some n := by
    rw [List.lookup_cons, beq_self_eq_true]
  have hfree : ∀ d ∈ settled, d.dependency.managementKey ≠ c.dependency.managementKey := by
    intro d hd heq
    obtain ⟨i, hi, -⟩ := h.present d hd
    rw [heq, hsel] at hi
    cases hi
  -- the packages that were there keep their coordinate and scopes
  have hcoord : ∀ {i}, i < n → (packageAt (addEdge (core.packages ++
      [newPackage c coordinate file]) c.parent n) i).coordinate =
        (packageAt core.packages i).coordinate := by
    intro i hi
    rw [coordinate_addEdge, packageAt_append hi]
  have hcoordNew : (packageAt (addEdge (core.packages ++
      [newPackage c coordinate file]) c.parent n) n).coordinate = coordinate := by
    rw [coordinate_addEdge, hn, packageAt_append_length]
    rfl
  have hedges : ∀ {p e}, e ∈ (packageAt (addEdge (core.packages ++
      [newPackage c coordinate file]) c.parent n) p).dependencies ↔
        e ∈ (packageAt (core.packages ++ [newPackage c coordinate file]) p).dependencies ∨
          c.parent = some p ∧ p < n + 1 ∧ e = coordinate.toString := by
    intro p e
    rw [mem_dependencies_addEdge, hn, packageAt_append_length, List.length_append,
      List.length_singleton]
    rfl
  exact
    { index_lt := by
        intro k i hk
        simp only [length_addEdge, List.length_append, List.length_singleton]
        rcases hlookup hk with ⟨-, rfl⟩ | ⟨-, hk⟩
        · omega
        · have := h.index_lt hk
          omega
      index_inj := by
        intro k k' i hk hk'
        rcases hlookup hk with ⟨rfl, rfl⟩ | ⟨-, hk⟩ <;>
          rcases hlookup hk' with ⟨rfl, hi⟩ | ⟨-, hk'⟩
        · rfl
        · exact absurd (h.index_lt hk') (by omega)
        · exact absurd (h.index_lt hk) (by omega)
        · exact h.index_inj hk hk'
      has_key := by
        intro i hi
        simp only [length_addEdge, List.length_append, List.length_singleton] at hi
        by_cases hin : i = n
        · refine ⟨c.dependency.managementKey, ?_⟩
          rw [hin]
          exact hnew
        · obtain ⟨k, hk⟩ := h.has_key (i := i) (by omega)
          exact ⟨k, hold hk⟩
      winner := by
        intro k i hk
        rcases hlookup hk with ⟨rfl, rfl⟩ | ⟨-, hk⟩
        · exact ⟨settled, c, [], coordinate, own, rfl, rfl, hfree, hset, hcoordNew⟩
        · obtain ⟨earlier, d, later, co, m, rfl, hkey, hfirst, hd, hco⟩ := h.winner hk
          exact ⟨earlier, d, later ++ [c], co, m, by simp, hkey, hfirst, hd,
            (hcoord (h.index_lt hk)).trans hco⟩
      present := by
        intro d hd
        simp only [scopes_addEdge, length_addEdge, List.length_append, List.length_singleton]
        rcases List.mem_append.mp hd with hd | hd
        · obtain ⟨i, hi, hs, he⟩ := h.present d hd
          have hin := h.index_lt hi
          refine ⟨i, hold hi, by rwa [packageAt_append hin], fun p hp => ?_⟩
          obtain ⟨hpn, hedge⟩ := he p hp
          rw [hcoord hin]
          exact ⟨by omega, hedges.mpr (Or.inl (by rwa [packageAt_append hpn]))⟩
        · rw [List.mem_singleton] at hd
          subst hd
          refine ⟨n, hnew, ?_, fun p hp => ?_⟩
          · rw [hn, packageAt_append_length]
            exact List.mem_singleton.mpr rfl
          · have hpn := hparent p hp
            rw [hcoordNew]
            exact ⟨by omega, hedges.mpr (Or.inr ⟨hp, by omega, rfl⟩)⟩
      scope_from := by
        intro k i s hk hs
        rw [scopes_addEdge] at hs
        rcases hlookup hk with ⟨rfl, rfl⟩ | ⟨-, hk⟩
        · rw [hn, packageAt_append_length] at hs
          exact ⟨c, by simp, rfl, (List.mem_singleton.mp hs).symm⟩
        · rw [packageAt_append (h.index_lt hk)] at hs
          obtain ⟨d, hd, hkey, hsc⟩ := h.scope_from hk hs
          exact ⟨d, List.mem_append_left _ hd, hkey, hsc⟩
      edge_from := by
        intro p e hp he
        simp only [length_addEdge, List.length_append, List.length_singleton] at hp
        rcases hedges.mp he with he | ⟨hpar, -, rfl⟩
        · by_cases hpn : p < n
          · rw [packageAt_append hpn] at he
            obtain ⟨d, hd, hdp, i, hi, rfl⟩ := h.edge_from hpn he
            exact ⟨d, List.mem_append_left _ hd, hdp, i, hold hi,
              by rw [hcoord (h.index_lt hi)]⟩
          · -- the new package has no edges yet
            obtain rfl : p = n := by omega
            rw [hn, packageAt_append_length] at he
            cases he
        · exact ⟨c, by simp, hpar, n, hnew, by rw [hcoordNew]⟩ }

/-- **Step lemma.** A visit of a candidate that settles appends it to the
description; other visits leave the description alone. -/
theorem Represents.step {settled : List Candidate} (h : Represents resolver settled core)
    (hparent : ∀ p, c.parent = some p → p < core.packages.length)
    (hv : Visited resolver project workspace core c core' move) :
    Represents resolver (if c.settles resolver then settled ++ [c] else settled) core' := by
  cases hv with
  | excluded hexcl => rwa [if_neg (by simp [not_settles_of_excluded hexcl])]
  | relocated other hrel => rwa [if_neg (by simp [hrel.not_settles])]
  | known coordinate own index hset hsel hscope =>
    rw [if_pos (settles_iff.mpr ⟨_, _, hset⟩)]
    refine h.revisit hparent hsel (by simp) (by simp) (fun i s => ?_)
      (fun p e => mem_dependencies_addEdge)
    rw [scopes_addEdge]
    constructor
    · exact Or.inl
    · rintro (hs | ⟨rfl, rfl⟩)
      · exact hs
      · exact hscope
  | rescoped coordinate own effective index hset hsel hscope hmodel =>
    rw [if_pos (settles_iff.mpr ⟨_, _, hset⟩)]
    refine h.revisit hparent hsel (by simp) (by simp) (fun i s => ?_) (fun p e => ?_)
    · rw [mem_scopes_addScope, scopes_addEdge, length_addEdge]
      constructor
      · rintro (hs | ⟨rfl, -, rfl⟩)
        · exact Or.inl hs
        · exact Or.inr ⟨rfl, rfl⟩
      · rintro (hs | ⟨rfl, rfl⟩)
        · exact Or.inl hs
        · exact Or.inr ⟨rfl, h.index_lt hsel, rfl⟩
    · rw [dependencies_addScope]
      exact mem_dependencies_addEdge
  | selected coordinate own file downloads hset hsel hfile hdown =>
    rw [if_pos (settles_iff.mpr ⟨_, _, hset⟩)]
    exact h.select hparent hset hsel

/-! ## Scheduled downloads -/

/-- Every scheduled download is of the coordinate of its package. -/
def Scheduled (core : Mediation) : Prop :=
  ∀ d ∈ core.downloads, d.1 < core.packages.length ∧
    (packageAt core.packages d.1).coordinate = d.2

theorem Visited.scheduled (h : Visited resolver project workspace core c core' move)
    (hcore : Scheduled core) : Scheduled core' := by
  have hgrows := h.grows
  -- what was scheduled before still is
  have hold : ∀ d ∈ core.downloads, d.1 < core'.packages.length ∧
      (packageAt core'.packages d.1).coordinate = d.2 := by
    intro d hd
    obtain ⟨hlt, hco⟩ := hcore d hd
    exact ⟨hlt.trans_le hgrows.length, (hgrows.coordinate hlt).trans hco⟩
  cases h with
  | excluded _ => exact hcore
  | relocated _ _ => exact hcore
  | known coordinate own index hset hsel hscope => exact hold
  | rescoped coordinate own effective index hset hsel hscope hmodel => exact hold
  | selected coordinate own file downloads hset hsel hfile hdown =>
    intro d hd
    have hcases : d ∈ core.downloads ∨ d = (core.packages.length, coordinate) := by
      rw [hdown] at hd
      split at hd
      · unfold scheduleArtifact at hd
        split at hd
        · exact Or.inl hd
        · simpa using hd
      · exact Or.inl hd
    rcases hcases with hd | rfl
    · exact hold d hd
    · refine ⟨by simp, ?_⟩
      rw [coordinate_addEdge, packageAt_append_length]
      rfl

end Step

/-! ## The run invariant -/

def settledItems (resolver : DependencyResolver) (history : List (Visit Mediation Candidate)) :
    List Candidate :=
  (history.map Visit.item).filter (Candidate.settles resolver)

@[simp] theorem settledItems_nil (resolver : DependencyResolver) :
    settledItems resolver [] = [] := rfl

theorem settledItems_concat (resolver : DependencyResolver)
    (history : List (Visit Mediation Candidate)) (v : Visit Mediation Candidate) :
    settledItems resolver (history ++ [v]) =
      if v.item.settles resolver then settledItems resolver history ++ [v.item]
      else settledItems resolver history := by
  simp only [settledItems, List.map_append, List.filter_append, List.map_cons, List.map_nil,
    List.filter_cons, List.filter_nil]
  split <;> simp

theorem mem_settledItems {resolver : DependencyResolver}
    {history : List (Visit Mediation Candidate)} {c : Candidate} :
    c ∈ settledItems resolver history ↔
      ∃ v ∈ history, v.item = c ∧ c.settles resolver = true := by
  simp only [settledItems, List.mem_filter, List.mem_map]
  constructor
  · rintro ⟨⟨v, hv, rfl⟩, hs⟩
    exact ⟨v, hv, rfl, hs⟩
  · rintro ⟨v, hv, rfl, hs⟩
    exact ⟨⟨v, hv, rfl⟩, hs⟩

/-- What holds of every placed state the candidate loop passes through. -/
structure RunInvariant (resolver : DependencyResolver) (project : EffectivePom)
    (workspace : List MavenProject) (s : Placed Mediation Candidate) : Prop where
  ordered : Worklist.Ordered s
  tracked : Worklist.Tracked (mediation resolver project workspace) (rootCandidates project) s
  represents : Represents resolver (settledItems resolver s.history) s.core
  /-- The state before a visit is described by the visits before it. -/
  prefixes : Worklist.Stepwise
    (fun earlier v => Represents resolver (settledItems resolver earlier) v.before) s.history
  grows : ∀ v ∈ s.history, Grows v.after s.core
  scheduled : Scheduled s.core
  parents : ∀ x ∈ s.queue, ∀ p, x.2.parent = some p → p < s.core.packages.length
  visited_parents : ∀ v ∈ s.history, ∀ p, v.item.parent = some p → p < v.before.packages.length

section Run

variable {resolver : DependencyResolver} {project : EffectivePom} {workspace : List MavenProject}

theorem parent_of_root {c : Candidate} (h : c ∈ rootCandidates project) : c.parent = none := by
  simp only [rootCandidates, List.mem_append, List.mem_map] at h
  rcases h with ⟨_, _, rfl⟩ | ⟨_, _, rfl⟩ <;> rfl

theorem RunInvariant.start :
    RunInvariant resolver project workspace
      (Placed.start (Mediation.start project) (rootCandidates project)) where
  ordered := Worklist.Ordered.start _ _
  tracked := Worklist.Tracked.start _ _ _
  represents := Represents.empty resolver project
  prefixes := Worklist.stepwise_nil _
  grows := by simp [Placed.start]
  scheduled := by simp [Scheduled, Placed.start, Mediation.start, Mediation.prefetch]
  parents := by
    rintro ⟨q, c⟩ hx p hp
    obtain ⟨i, hi, -⟩ := Worklist.mem_childrenAt.mp hx
    rw [parent_of_root (List.mem_of_getElem? hi)] at hp
    cases hp
  visited_parents := by simp [Placed.start]

theorem parent_of_child {effective : EffectivePom} {c d : Candidate} {index : Nat}
    {management : List Dependency} (h : d ∈ enqueueChildren effective c index management) :
    d.parent = some index := by
  simp only [enqueueChildren, List.mem_filterMap] at h
  obtain ⟨dep, -, h⟩ := h
  split at h
  · cases h
  · obtain ⟨scope, -, rfl⟩ := Option.map_eq_some_iff.mp h
    rfl

theorem Visited.parent_lt {core core' : Mediation} {c : Candidate} {items : List Candidate}
    {settled : List Candidate} (hrep : Represents resolver settled core)
    (h : Visited resolver project workspace core c core' (.push items)) {d : Candidate}
    (hd : d ∈ items) {p : Nat} (hp : d.parent = some p) : p < core'.packages.length := by
  cases h with
  | rescoped coordinate own effective index hset hsel hscope hmodel =>
    rw [parent_of_child hd] at hp
    cases hp
    simpa using hrep.index_lt hsel
  | selected coordinate own file downloads hset hsel hfile hdown =>
    rw [parent_of_child hd] at hp
    cases hp
    simp

theorem Relocates.parent {c other : Candidate} (h : Relocates resolver c other) :
    other.parent = c.parent := by
  obtain ⟨_, _, _, -, -, -, -, rfl⟩ := h
  rfl

theorem Visited.relocates {core core' : Mediation} {c other : Candidate}
    (h : Visited resolver project workspace core c core' (.replace other)) :
    Relocates resolver c other ∧ core' = core := by
  cases h with
  | relocated _ hrel => exact ⟨hrel, rfl⟩

theorem RunInvariant.step {s t : Placed Mediation Candidate}
    (hs : RunInvariant resolver project workspace s)
    (h : (mediation resolver project workspace).placedStep s = .next t) :
    RunInvariant resolver project workspace t := by
  obtain ⟨v, rest, hq, hb, hv, hcore, hqueue, hhist⟩ := Worklist.placedStep_next h
  have hvis : Visited resolver project workspace v.before v.item v.after v.move := visit_cases hv
  have hrep : Represents resolver (settledItems resolver s.history) v.before := hb ▸ hs.represents
  have hparent : ∀ p, v.item.parent = some p → p < v.before.packages.length := by
    rw [hb]
    exact hs.parents (v.place, v.item) (by rw [hq]; exact List.mem_cons_self ..)
  -- the core after the housekeeping
  have hafter : Grows v.after t.core := by
    rw [hcore]
    cases v.move with
    | push items => exact Grows.prefetch _ _
    | _ => exact Grows.refl _
  have hgrows : Grows s.core t.core := (hb ▸ hvis.grows).trans hafter
  exact
    { ordered := hs.ordered.step h
      tracked := hs.tracked.step h
      represents := by
        have hstep := hrep.step hparent hvis
        rw [hhist, settledItems_concat, hcore]
        cases v.move with
        | push items => exact hstep.prefetch _
        | _ => exact hstep
      prefixes := by
        rw [hhist]
        exact Worklist.stepwise_concat hs.prefixes hrep
      grows := by
        intro w hw
        rw [hhist, List.mem_append, List.mem_singleton] at hw
        rcases hw with hw | rfl
        · exact (hs.grows w hw).trans hgrows
        · exact hafter
      scheduled := by
        have hstep := hvis.scheduled (hb ▸ hs.scheduled)
        rw [hcore]
        cases v.move with
        | push items => exact hstep
        | _ => exact hstep
      parents := by
        intro x hx p hp
        have hrest : x ∈ rest → p < t.core.packages.length := fun hr =>
          (hs.parents x (by rw [hq]; exact List.mem_cons_of_mem _ hr) p hp).trans_le hgrows.length
        rw [hqueue] at hx
        cases hmv : v.move with
        | skip =>
          rw [hmv] at hx
          exact hrest hx
        | replace other =>
          rw [hmv] at hx hvis
          rcases List.mem_cons.mp hx with rfl | hx
          · rw [hvis.relocates.1.parent] at hp
            exact (hparent p hp).trans_le (hb ▸ hgrows.length)
          · exact hrest hx
        | push items =>
          rw [hmv] at hx hvis
          rcases List.mem_append.mp hx with hx | hx
          · exact hrest hx
          · obtain ⟨j, hj, -⟩ := Worklist.mem_childrenAt.mp (show (x.1, x.2) ∈ _ from hx)
            exact (hvis.parent_lt hrep (List.mem_of_getElem? hj) hp).trans_le hafter.length
      visited_parents := by
        intro w hw
        rw [hhist, List.mem_append, List.mem_singleton] at hw
        rcases hw with hw | rfl
        · exact hs.visited_parents w hw
        · exact hparent }

/-- **Run lemma.** -/
theorem run_invariant {s : Placed Mediation Candidate}
    (h : Loop.Reaches (mediation resolver project workspace).placedStep
      (Placed.start (Mediation.start project) (rootCandidates project)) s) :
    RunInvariant resolver project workspace s :=
  h.invariant (fun _ _ hs hst => hs.step hst) RunInvariant.start

theorem startState_eq_erase (project : EffectivePom) : startState project =
    (Placed.start (Mediation.start project) (rootCandidates project)).erase := by
  rw [Worklist.Placed.erase_start]
  rfl

theorem mediated_history {core : Mediation} (h : Mediates resolver project workspace core) :
    ∃ s, Loop.Reaches (mediation resolver project workspace).placedStep
        (Placed.start (Mediation.start project) (rootCandidates project)) s ∧
      RunInvariant resolver project workspace s ∧ s.queue = [] ∧ s.core = core := by
  rw [Mediates, startState_eq_erase] at h
  obtain ⟨s, hreach, hq, hcore⟩ := Worklist.placed_returns h
  exact ⟨s, hreach, run_invariant hreach, hq, hcore⟩

/-! ## What a run says of its visits -/

variable {s : Placed Mediation Candidate} (hs : RunInvariant resolver project workspace s)

include hs

theorem RunInvariant.visit {v : Visit Mediation Candidate} (hv : v ∈ s.history) :
    Visited resolver project workspace v.before v.item v.after v.move :=
  visit_cases (hs.tracked.visited v hv)

theorem RunInvariant.represents_before {earlier later : List (Visit Mediation Candidate)}
    {v : Visit Mediation Candidate} (hH : s.history = earlier ++ v :: later) :
    Represents resolver (settledItems resolver earlier) v.before :=
  hs.prefixes earlier v later hH

theorem RunInvariant.represents_after {earlier later : List (Visit Mediation Candidate)}
    {v : Visit Mediation Candidate} (hH : s.history = earlier ++ v :: later) :
    Represents resolver (settledItems resolver (earlier ++ [v])) v.after := by
  have hv : v ∈ s.history := by simp [hH]
  rw [settledItems_concat]
  exact (hs.represents_before hH).step (hs.visited_parents v hv) (hs.visit hv)

theorem RunInvariant.selected_after {v : Visit Mediation Candidate} (hv : v ∈ s.history)
    {k : String} {i : Nat} (hk : v.after.selected.lookup k = some i) :
    i < v.after.packages.length := by
  obtain ⟨earlier, later, hH⟩ := List.append_of_mem hv
  exact (hs.represents_after hH).index_lt hk

theorem RunInvariant.entered_visited (hq : s.queue = []) {p : Place} {c : Candidate}
    (h : Worklist.Entered (rootCandidates project) s.history p c) :
    ∃ v ∈ s.history, v.place = p ∧ v.item = c := by
  rcases hs.tracked.complete p c h with h | h
  · rw [hq] at h
    cases h
  · exact h

end Run

end JMan.Resolver
