import JMan.Resolver.Finish
import JMan.Resolver.Runs

/-!
# JMan — nearest-wins mediation

What mediation is for, said without a queue: the candidates of a project form
a tree (`CandidateTree`). Its roots are the project's dependencies; a candidate
is expanded, with the dependencies of the version that wins its key, when it is
the first one with its key and scope. The order of the tree is breadth-first
(`Worklist.Before`): nearer candidates first, and candidates of one depth in
declaration order. The version selected for a key is that of the first
candidate with the key (`Wins`).

The tree is determined by the project and the repository
(`CandidateTree.unique`); the loop visits exactly its candidates, in its order
(`candidateTree_of_run`).
-/

namespace JMan.Resolver

open Worklist (Move Place Visit Placed Before)

/-! ## The candidate tree -/

/-- The candidate without the index of its parent package. -/
def Candidate.forget (c : Candidate) : Candidate := { c with parent := none }

def childCandidates (effective : EffectivePom) (c : Candidate) (management : List Dependency) :
    List Candidate :=
  (enqueueChildren effective c 0 management).map Candidate.forget

/-- A candidate of the tree that settles at place `p`, after relocations. -/
def SettledAt (resolver : DependencyResolver) (T : Place → Candidate → Prop) (p : Place)
    (c : Candidate) : Prop :=
  ∃ offered, T p offered ∧ Relation.ReflTransGen (Relocates resolver) offered c ∧
    c.settles resolver = true

/-- The candidate is the first that settles with key `k`. -/
def Wins (resolver : DependencyResolver) (T : Place → Candidate → Prop) (k : String) (p : Place)
    (c : Candidate) : Prop :=
  SettledAt resolver T p c ∧ c.dependency.managementKey = k ∧
    ∀ q d, Before q p → SettledAt resolver T q d → d.dependency.managementKey ≠ k

/-- The candidate is the first that settles with its key and scope, and is
expanded with the model of the version that wins its key. -/
def Expands (resolver : DependencyResolver) (T : Place → Candidate → Prop) (p : Place)
    (c : Candidate) (effective : EffectivePom) : Prop :=
  SettledAt resolver T p c ∧
    (∀ q d, Before q p → SettledAt resolver T q d →
      d.dependency.managementKey = c.dependency.managementKey → d.scope ≠ c.scope) ∧
    ∃ q w selected coordinate wown own, Wins resolver T c.dependency.managementKey q w ∧
      Settled resolver w selected wown ∧ Settled resolver c coordinate own ∧
        mediatedModel resolver selected coordinate own = .ok effective

/-- `T p c` says that `c` is the candidate at place `p`. -/
structure CandidateTree (resolver : DependencyResolver) (project : EffectivePom)
    (T : Place → Candidate → Prop) : Prop where
  nil : ∀ c, ¬ T [] c
  root : ∀ i c, T [i] c ↔ (rootCandidates project)[i]? = some c
  child : ∀ p j c, p ≠ [] → (T (p ++ [j]) c ↔ ∃ d effective, Expands resolver T p d effective ∧
    (childCandidates effective d project.dependencyManagement)[j]? = some c)

section Unique

variable {resolver : DependencyResolver} {project : EffectivePom}
  {T T' : Place → Candidate → Prop}

theorem settledAt_congr {p : Place} (h : ∀ c, T p c ↔ T' p c) (c : Candidate) :
    SettledAt resolver T p c ↔ SettledAt resolver T' p c := by
  simp only [SettledAt, h]

theorem Wins.not_after {k : String} {p q : Place} {w c : Candidate}
    (h : Wins resolver T k q w) (hc : SettledAt resolver T p c)
    (hk : c.dependency.managementKey = k) : ¬ Before p q :=
  fun hpq => h.2.2 p c hpq hc hk

theorem Expands.congr {p : Place} {c : Candidate} {effective : EffectivePom}
    (hT : ∀ q, Before q p ∨ q = p → ∀ d, T q d ↔ T' q d)
    (h : Expands resolver T p c effective) : Expands resolver T' p c effective := by
  obtain ⟨hset, hfirst, q, w, selected, coordinate, wown, own, hwins, hw, hc, hm⟩ := h
  have hqp : Before q p ∨ q = p := by
    rcases Before.total q p with h | h | h
    · exact Or.inl h
    · exact Or.inr h
    · exact absurd h (hwins.not_after hset rfl)
  refine ⟨(settledAt_congr (hT p (Or.inr rfl)) c).mp hset, ?_, q, w, selected, coordinate, wown,
    own, ⟨(settledAt_congr (hT q hqp) w).mp hwins.1, hwins.2.1, ?_⟩, hw, hc, hm⟩
  · intro r d hr hd
    exact hfirst r d hr ((settledAt_congr (hT r (Or.inl hr)) d).mpr hd)
  · intro r d hr hd
    have hrp : Before r p := by
      rcases hqp with hqp | rfl
      · exact hr.trans hqp
      · exact hr
    exact hwins.2.2 r d hr ((settledAt_congr (hT r (Or.inl hrp)) d).mpr hd)

/-- **The candidate tree is determined by the project and the repository.** -/
theorem CandidateTree.unique (h : CandidateTree resolver project T)
    (h' : CandidateTree resolver project T') : T = T' := by
  have key : ∀ p c, T p c ↔ T' p c := by
    intro p
    induction p using Worklist.before_wellFounded.induction with
    | _ p ih =>
      intro c
      rcases List.eq_nil_or_concat' p with rfl | ⟨q, j, rfl⟩
      · exact iff_of_false (h.nil c) (h'.nil c)
      · by_cases hq : q = []
        · subst hq
          exact (h.root j c).trans (h'.root j c).symm
        · rw [h.child q j c hq, h'.child q j c hq]
          have hbefore : ∀ r, Before r q ∨ r = q → Before r (q ++ [j]) := by
            rintro r (hr | rfl)
            · exact hr.trans (Worklist.before_child q j)
            · exact Worklist.before_child r j
          constructor
          · rintro ⟨d, effective, hexp, hd⟩
            exact ⟨d, effective, hexp.congr fun r hr => ih r (hbefore r hr), hd⟩
          · rintro ⟨d, effective, hexp, hd⟩
            exact ⟨d, effective, hexp.congr fun r hr e => (ih r (hbefore r hr) e).symm, hd⟩
  funext p c
  exact propext (key p c)

end Unique

/-! ## Forgetting the parent -/

@[simp] theorem forget_dependency (c : Candidate) : c.forget.dependency = c.dependency := rfl

@[simp] theorem forget_scope (c : Candidate) : c.forget.scope = c.scope := rfl

@[simp] theorem settles_forget (resolver : DependencyResolver) (c : Candidate) :
    c.forget.settles resolver = c.settles resolver := rfl

theorem settled_forget {resolver : DependencyResolver} {c : Candidate} {coordinate : Coordinate}
    {own : EffectivePom} :
    Settled resolver c.forget coordinate own ↔ Settled resolver c coordinate own :=
  ⟨fun h => ⟨h.1, h.2, h.3, h.4⟩, fun h => ⟨h.1, h.2, h.3, h.4⟩⟩

theorem Relocates.forget {resolver : DependencyResolver} {c d : Candidate}
    (h : Relocates resolver c d) : Relocates resolver c.forget d.forget := by
  obtain ⟨coordinate, effective, relocation, hexcl, hcoord, heff, hrel, rfl⟩ := h
  exact ⟨coordinate, effective, relocation, hexcl, hcoord, heff, hrel, rfl⟩

theorem Relocates.unique {resolver : DependencyResolver} {c d d' : Candidate}
    (h : Relocates resolver c d) (h' : Relocates resolver c d') : d = d' := by
  obtain ⟨co, m, r, -, hco, hm, hr, rfl⟩ := h
  obtain ⟨co', m', r', -, hco', hm', hr', rfl⟩ := h'
  rw [hco] at hco'
  cases hco'
  rw [hm] at hm'
  cases hm'
  rw [hr] at hr'
  cases hr'
  rfl

@[simp] theorem forget_root {project : EffectivePom} {c : Candidate}
    (h : c ∈ rootCandidates project) : c.forget = c := by
  have := parent_of_root h
  cases c
  subst this
  rfl

theorem Relocates.lift {resolver : DependencyResolver} {c d : Candidate}
    (h : Relocates resolver c.forget d) : ∃ e, Relocates resolver c e ∧ e.forget = d := by
  obtain ⟨coordinate, effective, relocation, hexcl, hcoord, heff, hrel, rfl⟩ := h
  exact ⟨c.relocate relocation,
    ⟨coordinate, effective, relocation, hexcl, hcoord, heff, hrel, rfl⟩, rfl⟩

theorem map_forget_enqueueChildren (effective : EffectivePom) (c : Candidate) (index : Nat)
    (management : List Dependency) :
    (enqueueChildren effective c index management).map Candidate.forget =
      childCandidates effective c.forget management := by
  simp only [childCandidates, enqueueChildren, List.map_filterMap]
  congr 1
  funext dependency
  split
  · rfl
  · simp only [Option.map_map]
    rfl

/-! ## The tree of a finished run -/

section Run

variable {resolver : DependencyResolver} {project : EffectivePom} {workspace : List MavenProject}

/-- The candidates a run put on its queue, at their places. -/
def runTree (project : EffectivePom) (history : List (Visit Mediation Candidate)) (p : Place)
    (c : Candidate) : Prop :=
  ∃ d, Worklist.Offered (rootCandidates project) history p d ∧ d.forget = c

theorem Visited.move_of_relocates {core core' : Mediation} {c d : Candidate}
    {move : Move Candidate} (h : Visited resolver project workspace core c core' move)
    (hrel : Relocates resolver c d) : move = .replace d := by
  have hns := hrel.not_settles
  cases h with
  | excluded hexcl =>
    obtain ⟨_, _, _, hne, -⟩ := hrel
    rw [hexcl] at hne
    cases hne
  | relocated other hother => rw [hother.unique hrel]
  | known coordinate own index hset hsel hscope =>
    rw [settles_iff.mpr ⟨_, _, hset⟩] at hns
    cases hns
  | rescoped coordinate own effective index hset hsel hscope hmodel =>
    rw [settles_iff.mpr ⟨_, _, hset⟩] at hns
    cases hns
  | selected coordinate own file downloads hset hsel hfile hdown =>
    rw [settles_iff.mpr ⟨_, _, hset⟩] at hns
    cases hns

theorem Visited.not_replaced {core core' : Mediation} {c other : Candidate}
    (hs : c.settles resolver = true)
    (h : Visited resolver project workspace core c core' (.replace other)) : False := by
  have hns := h.relocates.1.not_settles
  rw [hs] at hns
  cases hns

variable {s : Placed Mediation Candidate} (hs : RunInvariant resolver project workspace s)
  (hq : s.queue = [])

include hs

theorem RunInvariant.before_of_earlier {earlier later : List (Visit Mediation Candidate)}
    {v w : Visit Mediation Candidate} (hH : s.history = earlier ++ v :: later) (hw : w ∈ earlier)
    (hset : w.item.settles resolver = true) : Before w.place v.place := by
  have hsorted := hs.ordered.history_sorted
  rw [hH, List.pairwise_append] at hsorted
  rcases hsorted.2.2 w hw v (List.mem_cons_self ..) with h | ⟨-, other, hother⟩
  · exact h
  · have hvis := hs.visit (show w ∈ s.history by rw [hH]; exact List.mem_append_left _ hw)
    rw [hother] at hvis
    exact (Visited.not_replaced hset hvis).elim

theorem RunInvariant.earlier_of_before {earlier later : List (Visit Mediation Candidate)}
    {v w : Visit Mediation Candidate} (hH : s.history = earlier ++ v :: later)
    (hv : v.item.settles resolver = true) (hw : w ∈ s.history) (hwv : Before w.place v.place) :
    w ∈ earlier := by
  rw [hH, List.mem_append, List.mem_cons] at hw
  rcases hw with hw | rfl | hw
  · exact hw
  · exact (Before.irrefl _ hwv).elim
  · obtain ⟨l₁, l₂, rfl⟩ := List.append_of_mem hw
    have hH' : s.history = (earlier ++ v :: l₁) ++ w :: l₂ := by simp [hH]
    have := hs.before_of_earlier hH' (by simp) hv
    exact (this.asymm hwv).elim

theorem RunInvariant.settled_unique {v w : Visit Mediation Candidate} (hv : v ∈ s.history)
    (hw : w ∈ s.history) (hvs : v.item.settles resolver = true)
    (hws : w.item.settles resolver = true) (hplace : v.place = w.place) : v = w := by
  obtain ⟨earlier, later, hH⟩ := List.append_of_mem hv
  rw [hH, List.mem_append, List.mem_cons] at hw
  rcases hw with hw | rfl | hw
  · exact ((hs.before_of_earlier hH hw hws).ne hplace.symm).elim
  · rfl
  · obtain ⟨l₁, l₂, rfl⟩ := List.append_of_mem hw
    have hH' : s.history = (earlier ++ v :: l₁) ++ w :: l₂ := by simp [hH]
    exact ((hs.before_of_earlier hH' (by simp) hvs).ne hplace).elim

include hq

theorem RunInvariant.relocated_visited {p : Place} {offered c : Candidate}
    (h : runTree project s.history p offered)
    (hchain : Relation.ReflTransGen (Relocates resolver) offered c) :
    ∃ v, (v ∈ s.history ∧ v.place = p) ∧ v.item.forget = c := by
  obtain ⟨d, hd, rfl⟩ := h
  induction hchain with
  | refl =>
    obtain ⟨v, hv, hvp, rfl⟩ := hs.entered_visited hq (.offered hd)
    exact ⟨v, ⟨hv, hvp⟩, rfl⟩
  | tail _ hrel ih =>
    -- the visit of a relocated candidate replaced it, and the replacement was visited
    obtain ⟨v, ⟨hv, rfl⟩, rfl⟩ := ih
    obtain ⟨e, hve, rfl⟩ := hrel.lift
    have hmove := (hs.visit hv).move_of_relocates hve
    obtain ⟨w, hw, hwp, rfl⟩ := hs.entered_visited hq (.replaced hv hmove)
    exact ⟨w, ⟨hw, hwp⟩, rfl⟩

omit hq in
theorem RunInvariant.tree_of_visited {v : Visit Mediation Candidate} (hv : v ∈ s.history) :
    ∃ offered, runTree project s.history v.place offered ∧
      Relation.ReflTransGen (Relocates resolver) offered v.item.forget := by
  obtain ⟨b, hb, hchain⟩ := hs.tracked.traced v hv
  refine ⟨b.forget, ⟨b, hb, rfl⟩, Relation.ReflTransGen.lift Candidate.forget ?_ _ _ hchain⟩
  rintro x y ⟨before, after, hxy⟩
  exact (visit_cases hxy).relocates.1.forget

theorem RunInvariant.settledAt_iff {p : Place} {c : Candidate} :
    SettledAt resolver (runTree project s.history) p c ↔
      ∃ v ∈ s.history, v.place = p ∧ v.item.forget = c ∧ v.item.settles resolver = true := by
  constructor
  · rintro ⟨offered, hoffered, hchain, hset⟩
    obtain ⟨v, ⟨hv, hvp⟩, rfl⟩ := hs.relocated_visited hq hoffered hchain
    exact ⟨v, hv, hvp, rfl, hset⟩
  · rintro ⟨v, hv, rfl, rfl, hset⟩
    obtain ⟨offered, hoffered, hchain⟩ := hs.tree_of_visited hv
    exact ⟨offered, hoffered, hchain, hset⟩

theorem RunInvariant.settledAt_before {earlier later : List (Visit Mediation Candidate)}
    {v : Visit Mediation Candidate} (hH : s.history = earlier ++ v :: later)
    (hv : v.item.settles resolver = true) {q : Place} {d : Candidate} (hqv : Before q v.place)
    (hd : SettledAt resolver (runTree project s.history) q d) :
    ∃ e ∈ settledItems resolver earlier, e.forget = d := by
  obtain ⟨w, hw, rfl, rfl, hws⟩ := (hs.settledAt_iff hq).mp hd
  exact ⟨w.item, mem_settledItems.mpr ⟨w, hs.earlier_of_before hH hv hw hqv, rfl, hws⟩, rfl⟩

omit hs hq in
theorem settledItems_split {history : List (Visit Mediation Candidate)} :
    ∀ {before : List Candidate} {c : Candidate} {after : List Candidate},
      settledItems resolver history = before ++ c :: after →
        ∃ earlier v later, history = earlier ++ v :: later ∧ v.item = c ∧
          settledItems resolver earlier = before := by
  induction history with
  | nil =>
    intro before c after h
    simp at h
  | cons v rest ih =>
    intro before c after h
    have hcons : settledItems resolver (v :: rest) =
        if v.item.settles resolver then v.item :: settledItems resolver rest
        else settledItems resolver rest := by
      simp only [settledItems, List.map_cons, List.filter_cons]
    rw [hcons] at h
    split at h
    · next hv =>
      cases before with
      | nil =>
        obtain ⟨rfl, -⟩ := List.cons.inj h
        exact ⟨[], v, rest, rfl, rfl, rfl⟩
      | cons d before =>
        rw [List.cons_append] at h
        obtain ⟨rfl, htail⟩ := List.cons.inj h
        obtain ⟨earlier, w, later, rfl, rfl, hb⟩ := ih htail
        refine ⟨v :: earlier, w, later, rfl, rfl, ?_⟩
        simpa [settledItems, hv] using hb
    · next hv =>
      obtain ⟨earlier, w, later, rfl, rfl, hb⟩ := ih h
      refine ⟨v :: earlier, w, later, rfl, rfl, ?_⟩
      simpa [settledItems, hv] using hb

theorem RunInvariant.wins_of_first {history : List (Visit Mediation Candidate)}
    (hearlier : ∃ later, s.history = history ++ later) {before after : List Candidate}
    {c : Candidate} (hsplit : settledItems resolver history = before ++ c :: after)
    (hfirst : ∀ d ∈ before, d.dependency.managementKey ≠ c.dependency.managementKey) :
    ∃ v ∈ history, v.item = c ∧
      Wins resolver (runTree project s.history) c.dependency.managementKey v.place c.forget := by
  obtain ⟨rest, hrest⟩ := hearlier
  obtain ⟨earlier, v, later, rfl, rfl, rfl⟩ := settledItems_split hsplit
  have hH : s.history = earlier ++ v :: (later ++ rest) := by simp [hrest]
  have hvs : v.item.settles resolver = true := by
    have : v.item ∈ settledItems resolver (earlier ++ v :: later) := by simp [hsplit]
    exact (mem_settledItems.mp this).choose_spec.2.2
  have hvset := (hs.settledAt_iff hq (p := v.place) (c := v.item.forget)).mpr
    ⟨v, by simp [hH], rfl, rfl, hvs⟩
  refine ⟨v, by simp, rfl, hvset, rfl, fun q d hqv hd => ?_⟩
  obtain ⟨e, he, rfl⟩ := hs.settledAt_before hq hH hvs hqv hd
  exact hfirst e he

theorem RunInvariant.wins_unique {k : String} {p q : Place} {c d : Candidate}
    (hc : Wins resolver (runTree project s.history) k p c)
    (hd : Wins resolver (runTree project s.history) k q d) : p = q ∧ c = d := by
  have hpq : p = q := by
    rcases Before.total p q with h | h | h
    · exact absurd h (hd.not_after hc.1 hc.2.1)
    · exact h
    · exact absurd h (hc.not_after hd.1 hd.2.1)
  subst hpq
  obtain ⟨v, hv, hvp, rfl, hvs⟩ := (hs.settledAt_iff hq).mp hc.1
  obtain ⟨w, hw, hwp, rfl, hws⟩ := (hs.settledAt_iff hq).mp hd.1
  rw [hs.settled_unique hv hw hvs hws (hvp.trans hwp.symm)]
  exact ⟨rfl, rfl⟩

theorem RunInvariant.expands_of_push {v : Visit Mediation Candidate} {items : List Candidate}
    (hv : v ∈ s.history) (hpush : v.move = .push items) :
    ∃ effective, Expands resolver (runTree project s.history) v.place v.item.forget effective ∧
      items.map Candidate.forget =
        childCandidates effective v.item.forget project.dependencyManagement := by
  obtain ⟨earlier, later, hH⟩ := List.append_of_mem hv
  have hrep := hs.represents_before hH
  have hvis := hs.visit hv
  rw [hpush] at hvis
  generalize v.before = core at hrep hvis
  generalize v.after = core' at hvis
  cases hvis with
  | rescoped coordinate own effective index hset hsel hscope hmodel =>
    have hvs : v.item.settles resolver = true := settles_iff.mpr ⟨_, _, hset⟩
    have hvset := (hs.settledAt_iff hq (p := v.place) (c := v.item.forget)).mpr
      ⟨v, hv, rfl, rfl, hvs⟩
    obtain ⟨before, w, after, co, m, hsplit, hwk, hwfirst, hwset, hwco⟩ := hrep.winner hsel
    obtain ⟨u, -, hu, hwins⟩ := hs.wins_of_first hq ⟨v :: later, hH⟩ hsplit
      (fun d hd => by rw [hwk]; exact hwfirst d hd)
    rw [hwk] at hwins
    refine ⟨effective, ⟨hvset, fun q d hqv hd hkey hsc => ?_, u.place, w.forget, co, coordinate, m,
      own, hwins, settled_forget.mpr hwset, settled_forget.mpr hset, hwco ▸ hmodel⟩,
      map_forget_enqueueChildren effective v.item index _⟩
    -- an earlier candidate with the key and scope would have recorded the scope
    obtain ⟨e, he, rfl⟩ := hs.settledAt_before hq hH hvs hqv hd
    obtain ⟨i, hi, hmem, -⟩ := hrep.present e he
    simp only [forget_dependency, forget_scope] at hkey hsc
    rw [hkey, hsel] at hi
    cases hi
    exact hscope (hsc ▸ hmem)
  | selected coordinate own file downloads hset hsel hfile hdown =>
    have hvs : v.item.settles resolver = true := settles_iff.mpr ⟨_, _, hset⟩
    have hvset := (hs.settledAt_iff hq (p := v.place) (c := v.item.forget)).mpr
      ⟨v, hv, rfl, rfl, hvs⟩
    have hfree : ∀ q d, Before q v.place →
        SettledAt resolver (runTree project s.history) q d →
          d.dependency.managementKey ≠ v.item.dependency.managementKey := by
      intro q d hqv hd hkey
      obtain ⟨e, he, rfl⟩ := hs.settledAt_before hq hH hvs hqv hd
      obtain ⟨i, hi, -⟩ := hrep.present e he
      rw [forget_dependency] at hkey
      rw [hkey, hsel] at hi
      cases hi
    refine ⟨own, ⟨hvset, fun q d hqv hd hkey => absurd hkey (hfree q d hqv hd), v.place,
      v.item.forget, coordinate, coordinate, own, own, ⟨hvset, rfl, hfree⟩, settled_forget.mpr hset,
      settled_forget.mpr hset, ?_⟩, map_forget_enqueueChildren own v.item _ _⟩
    simp [mediatedModel]

theorem RunInvariant.push_of_expands {p : Place} {c : Candidate} {effective : EffectivePom}
    (h : Expands resolver (runTree project s.history) p c effective) :
    ∃ v ∈ s.history, ∃ items, v.place = p ∧ v.move = .push items ∧
      items.map Candidate.forget = childCandidates effective c project.dependencyManagement := by
  obtain ⟨hset, hfirst, q, w, selected, coordinate, wown, own, hwins, hw, hc, hmodel⟩ := h
  obtain ⟨v, hv, rfl, rfl, hvs⟩ := (hs.settledAt_iff hq).mp hset
  obtain ⟨earlier, later, hH⟩ := List.append_of_mem hv
  have hrep := hs.represents_before hH
  have hvis := hs.visit hv
  -- whatever the visit pushed, the tree expands the candidate with the same model
  have hpushed : ∀ items, v.move = .push items → ∃ items, v.move = .push items ∧
      items.map Candidate.forget =
        childCandidates effective v.item.forget project.dependencyManagement := by
    intro items hpush
    obtain ⟨m, ⟨-, -, q', w', selected', coordinate', wown', own', hwins', hw', hc', hmodel'⟩,
      hitems⟩ := hs.expands_of_push hq hv hpush
    obtain ⟨-, rfl⟩ := hs.wins_unique hq hwins hwins'
    obtain ⟨rfl, rfl⟩ := hw.unique hw'
    obtain ⟨rfl, rfl⟩ := hc.unique hc'
    rw [hmodel] at hmodel'
    cases hmodel'
    exact ⟨items, hpush, hitems⟩
  have hmove : ∃ items, v.move = .push items := by
    generalize v.before = core at hrep hvis
    generalize v.after = core' at hvis
    generalize hmv : v.move = move at hvis
    cases hvis with
    | excluded hexcl =>
      rw [not_settles_of_excluded hexcl] at hvs
      cases hvs
    | relocated other hrel =>
      rw [hrel.not_settles] at hvs
      cases hvs
    | known coordinate' own' index hset' hsel hscope =>
      -- the scope was recorded by an earlier candidate with the key
      obtain ⟨e, he, hek, hes⟩ := hrep.scope_from hsel hscope
      obtain ⟨u, hu, rfl, hus⟩ := mem_settledItems.mp he
      have hus' := (hs.settledAt_iff hq (p := u.place) (c := u.item.forget)).mpr
        ⟨u, by rw [hH]; exact List.mem_append_left _ hu, rfl, rfl, hus⟩
      exact absurd hes (hfirst u.place u.item.forget (hs.before_of_earlier hH hu hus) hus' hek)
    | rescoped coordinate' own' effective' index hset' hsel hscope hmodel' => exact ⟨_, rfl⟩
    | selected coordinate' own' file downloads hset' hsel hfile hdown => exact ⟨_, rfl⟩
  obtain ⟨items, hpush⟩ := hmove
  obtain ⟨items', hpush', hitems⟩ := hpushed items hpush
  exact ⟨v, hv, items', rfl, hpush', hitems⟩

/-- **The loop visits the candidate tree.** -/
theorem candidateTree_of_run : CandidateTree resolver project (runTree project s.history) where
  nil := by
    rintro c ⟨d, hd, -⟩
    generalize hp : ([] : Place) = p at hd
    cases hd with
    | root _ => cases hp
    | child _ _ _ => simp at hp
  root := by
    intro i c
    constructor
    · rintro ⟨d, hd, rfl⟩
      generalize hp : [i] = p at hd
      cases hd with
      | root h =>
        cases hp
        rwa [forget_root (List.mem_of_getElem? h)]
      | @child v items j _ hv _ _ =>
        -- no visit has the empty place
        obtain ⟨b, hb, -⟩ := hs.tracked.traced v hv
        have hnil : v.place = [] := by
          have := congrArg List.length hp
          rw [List.length_append] at this
          exact List.eq_nil_of_length_eq_zero (by simpa using this)
        rw [hnil] at hb
        generalize hp' : ([] : Place) = p' at hb
        cases hb with
        | root _ => cases hp'
        | child _ _ _ => simp at hp'
    · intro h
      exact ⟨c, .root h, forget_root (List.mem_of_getElem? h)⟩
  child := by
    intro p j c hp
    constructor
    · rintro ⟨d, hd, rfl⟩
      generalize hpj : p ++ [j] = q at hd
      cases hd with
      | root _ =>
        have := congrArg List.length hpj
        rw [List.length_append] at this
        exact absurd (List.eq_nil_of_length_eq_zero (by simpa using this)) hp
      | @child v items j' _ hv hpush hd =>
        obtain ⟨rfl, hj⟩ := List.append_inj' hpj rfl
        cases hj
        obtain ⟨effective, hexp, hitems⟩ := hs.expands_of_push hq hv hpush
        refine ⟨v.item.forget, effective, hexp, ?_⟩
        rw [← hitems, List.getElem?_map, hd]
        rfl
    · rintro ⟨d, effective, hexp, hc⟩
      obtain ⟨v, hv, items, rfl, hpush, hitems⟩ := hs.push_of_expands hq hexp
      rw [← hitems, List.getElem?_map] at hc
      obtain ⟨e, he, rfl⟩ := Option.map_eq_some_iff.mp hc
      exact ⟨e, .child hv hpush he, rfl⟩

theorem RunInvariant.selected_iff {k : String} {i : Nat}
    (hk : s.core.selected.lookup k = some i) : ∃ p c coordinate own,
      Wins resolver (runTree project s.history) k p c ∧ Settled resolver c coordinate own ∧
        (packageAt s.core.packages i).coordinate = coordinate := by
  obtain ⟨before, c, after, coordinate, own, hsplit, rfl, hfirst, hset, hco⟩ :=
    hs.represents.winner hk
  obtain ⟨v, -, rfl, hwins⟩ := hs.wins_of_first hq ⟨[], by simp⟩ hsplit hfirst
  exact ⟨v.place, v.item.forget, coordinate, own, hwins, settled_forget.mpr hset, hco⟩

theorem RunInvariant.selected_of_wins {k : String} {p : Place} {c : Candidate}
    (h : Wins resolver (runTree project s.history) k p c) :
    ∃ i, s.core.selected.lookup k = some i := by
  obtain ⟨v, hv, rfl, rfl, hvs⟩ := (hs.settledAt_iff hq).mp h.1
  obtain ⟨i, hi, -⟩ := hs.represents.present v.item (mem_settledItems.mpr ⟨v, hv, rfl, hvs⟩)
  exact ⟨i, h.2.1 ▸ hi⟩

theorem RunInvariant.excluded_or_relocates_or_settles {p : Place} {offered c : Candidate}
    (h : runTree project s.history p offered)
    (hchain : Relation.ReflTransGen (Relocates resolver) offered c) :
    c.excluded = true ∨ (∃ d, Relocates resolver c d) ∨ c.settles resolver = true := by
  obtain ⟨v, hv, rfl⟩ := hs.relocated_visited hq h hchain
  have hvis := hs.visit hv.1
  generalize v.before = core at hvis
  generalize v.after = core' at hvis
  generalize v.move = move at hvis
  cases hvis with
  | excluded hexcl => exact Or.inl hexcl
  | relocated other hrel => exact Or.inr (Or.inl ⟨_, hrel.forget⟩)
  | known coordinate own index hset hsel hscope =>
    exact Or.inr (Or.inr (settles_iff.mpr ⟨_, _, settled_forget.mpr hset⟩))
  | rescoped coordinate own effective index hset hsel hscope hmodel =>
    exact Or.inr (Or.inr (settles_iff.mpr ⟨_, _, settled_forget.mpr hset⟩))
  | selected coordinate own file downloads hset hsel hfile hdown =>
    exact Or.inr (Or.inr (settles_iff.mpr ⟨_, _, settled_forget.mpr hset⟩))

end Run

/-! ## Nearest wins -/

/-- What nearest-wins mediation says of a resolved graph: `T` is the candidate
tree of the project, and `s` the end of the run over it. -/
structure NearestWins (resolver : DependencyResolver) (project : EffectivePom)
    (workspace : List MavenProject) (graph : ResolvedGraph) (T : Place → Candidate → Prop)
    (s : Placed Mediation Candidate) : Prop where
  run : Loop.Reaches (mediation resolver project workspace).placedStep
    (Placed.start (Mediation.start project) (rootCandidates project)) s
  finished : s.queue = []
  tree : CandidateTree resolver project T
  tree_unique : ∀ T', CandidateTree resolver project T' → T' = T
  /-- A candidate that is not excluded settles, unless it is relocated. -/
  settles : ∀ p offered c, T p offered → Relation.ReflTransGen (Relocates resolver) offered c →
    c.excluded = true ∨ (∃ d, Relocates resolver c d) ∨ c.settles resolver = true
  /-- Every package is the selection of one key. -/
  keyed : ∀ i, i < graph.packages.length → ∃ k, s.core.selected.lookup k = some i
  /-- The selected coordinate is that of the first candidate of the key. -/
  selected : ∀ k i, s.core.selected.lookup k = some i →
    i < graph.packages.length ∧ ∃ p c coordinate own, Wins resolver T k p c ∧
      Settled resolver c coordinate own ∧ (packageAt graph.packages i).coordinate = coordinate
  /-- A key with a candidate is selected. -/
  won : ∀ k p c, Wins resolver T k p c → ∃ i, s.core.selected.lookup k = some i
  /-- The first candidate is the nearest, and at its depth the first declared. -/
  nearest : ∀ k p c q d, Wins resolver T k p c → SettledAt resolver T q d →
    d.dependency.managementKey = k →
      p.length < q.length ∨ p.length = q.length ∧ (p = q ∨ List.Lex (· < ·) p q)
  /-- Candidates leave the queue in non-decreasing depth. -/
  depth_sorted : s.history.Pairwise fun v w => v.place.length ≤ w.place.length
  /-- No visit changes a version selected before it. -/
  kept : ∀ v ∈ s.history, ∀ k i, v.after.selected.lookup k = some i →
    s.core.selected.lookup k = some i ∧
      (packageAt graph.packages i).coordinate = (packageAt v.after.packages i).coordinate

theorem depth_le_of_upTo {v : Visit Mediation Candidate} {p : Place} (h : v.UpTo p) :
    v.place.length ≤ p.length := by
  rcases h with h | ⟨rfl, -⟩
  · exact h.length_le
  · exact Nat.le_refl _

/-- **Nearest-wins mediation.** Whenever resolution succeeds, the version of
every key is the version of the first candidate of the key in the candidate
tree, and no later candidate changes it. -/
theorem resolve_nearest_wins {resolver : DependencyResolver} {order : CompletionOrder}
    {project : EffectivePom} {workspace : List MavenProject} {graph : ResolvedGraph}
    (h : Resolves resolver order project workspace (.ok graph)) :
    ∃ T s, NearestWins resolver project workspace graph T s := by
  obtain ⟨core, packages, hmed, hfin, rfl⟩ := resolves_ok h
  obtain ⟨s, hrun, hs, hq, rfl⟩ := mediated_history hmed
  obtain ⟨hlen, hpackages⟩ := finishArtifacts_packageAt hfin
  have hco : ∀ i, (packageAt (buildClasspaths packages).packages i).coordinate =
      (packageAt s.core.packages i).coordinate := by
    intro i
    rw [packages_buildClasspaths]
    exact (hpackages i).1
  have hlength : (buildClasspaths packages).packages.length = s.core.packages.length := by
    rw [packages_buildClasspaths, hlen]
  have htree : CandidateTree resolver project (runTree project s.history) :=
    candidateTree_of_run hs hq
  refine ⟨runTree project s.history, s, ?_⟩
  exact
    { run := hrun
      finished := hq
      tree := htree
      tree_unique := fun T' hT' => hT'.unique htree
      settles := fun p offered c => hs.excluded_or_relocates_or_settles hq
      keyed := fun i hi => hs.represents.has_key (hlength ▸ hi)
      selected := by
        intro k i hk
        obtain ⟨p, c, coordinate, own, hwins, hset, hcoord⟩ := hs.selected_iff hq hk
        refine ⟨hlength ▸ hs.represents.index_lt hk, p, c, coordinate, own, hwins, hset, ?_⟩
        rw [hco, hcoord]
      won := fun k p c hwins => hs.selected_of_wins hq hwins
      nearest := by
        intro k p c q d hwins hd hk
        rcases Before.total p q with hpq | rfl | hqp
        · rcases Worklist.before_iff.mp hpq with hlt | ⟨heq, hlex⟩
          · exact Or.inl hlt
          · exact Or.inr ⟨heq, Or.inr hlex⟩
        · exact Or.inr ⟨rfl, Or.inl rfl⟩
        · exact absurd hqp (hwins.not_after hd hk)
      depth_sorted := hs.ordered.history_sorted.imp depth_le_of_upTo
      kept := by
        intro v hv k i hk
        have hgrows := hs.grows v hv
        refine ⟨hgrows.lookup hk, ?_⟩
        rw [hco]
        exact hgrows.coordinate (hs.selected_after hv hk) }

def nearerProject : EffectivePom :=
  EffectivePom.declare "app" "main" "1"
    [Dependency.declare "app" "left" "1" "compile", Dependency.declare "app" "right" "1" "compile"]

def nearerRepository : DependencyResolver :=
  DependencyResolver.ofModels
    [EffectivePom.declare "app" "left" "1" [Dependency.declare "lib" "mid" "1" "compile"],
      EffectivePom.declare "app" "right" "1" [Dependency.declare "lib" "core" "1" "compile"],
      EffectivePom.declare "lib" "mid" "1" [Dependency.declare "lib" "core" "2" "compile"],
      EffectivePom.declare "lib" "core" "1" [],
      EffectivePom.declare "lib" "core" "2" []]

theorem nearest_wins_over_first_declared : ∃ graph T s,
    graph.packages.map (fun p => p.coordinate.toString) =
        ["app:left:1", "app:right:1", "lib:mid:1", "lib:core:1"] ∧
      NearestWins nearerRepository nearerProject [] graph T s := by
  have hrun : ((resolveInWorkspace nearerRepository CompletionOrder.spawned nearerProject [] 6).bind
      Except.toOption).map (fun graph => graph.packages.map fun p => p.coordinate.toString) =
        some ["app:left:1", "app:right:1", "lib:mid:1", "lib:core:1"] := by decide +kernel
  obtain ⟨graph, hgraph, hpackages⟩ := resolves_of_run _ _ hrun
  obtain ⟨T, s, h⟩ := resolve_nearest_wins hgraph
  exact ⟨graph, T, s, hpackages, h⟩

end JMan.Resolver
