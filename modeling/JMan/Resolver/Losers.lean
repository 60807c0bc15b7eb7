import JMan.Resolver.Closure
import JMan.Resolver.Mediation

/-!
# JMan — losing candidates

Can a candidate that loses mediation change the result? Two repositories that
answer alike for the winners (`AgreesOnWinners`) may answer anything for the
rest. The prefetch ignores errors, because a POM matters only when mediation
selects its candidate; but the loop body itself builds the model of every
candidate that is not excluded before it looks at the selected keys.

So the losers do not matter exactly when none of them has a POM of its own,
that is, when every candidate's POM is one a winner has too
(`losers_cannot_fail_iff`).
-/

namespace JMan.Resolver

open Relation (ReflTransGen)
open Worklist (Place Visit Placed)

/-! ## What winners look up -/

/-- The POM at `x` is that of a candidate that wins its key, or of one of the
forms it was relocated from. -/
def WinningPom (resolver : DependencyResolver) (T : Place → Candidate → Prop) (x : Coordinate) :
    Prop :=
  ∃ k p offered c w coordinate, T p offered ∧ ReflTransGen (Relocates resolver) offered c ∧
    ReflTransGen (Relocates resolver) c w ∧ Wins resolver T k p w ∧
    c.dependency.coordinate = .ok coordinate ∧ x = coordinate.toPom

structure AgreesOnWinners (resolver : DependencyResolver) (T : Place → Candidate → Prop)
    (other : DependencyResolver) : Prop where
  build : ∀ x, WinningPom resolver T x → other.buildCoordinate x = resolver.buildCoordinate x
  fetch : ∀ k p w coordinate own, Wins resolver T k p w → Settled resolver w coordinate own →
    other.fetch coordinate.toPom = resolver.fetch coordinate.toPom ∧
      other.fetch coordinate = resolver.fetch coordinate
  read : other.read = resolver.read
  sha256 : other.sha256 = resolver.sha256

/-- No losing candidate has a POM of its own: the POM of every candidate that is
not excluded is one of a winner. -/
def LosersOwnNothing (resolver : DependencyResolver) (T : Place → Candidate → Prop) : Prop :=
  ∀ p offered c coordinate, T p offered → ReflTransGen (Relocates resolver) offered c →
    c.excluded = false → c.dependency.coordinate = .ok coordinate →
      WinningPom resolver T coordinate.toPom

/-! ## Two repositories, one run -/

section Agree

variable {resolver other : DependencyResolver} {project : EffectivePom}
  {workspace : List MavenProject}

theorem Settled.congr {c : Candidate} {coordinate : Coordinate} {own : EffectivePom}
    (h : Settled resolver c coordinate own)
    (hbuild : other.buildCoordinate coordinate.toPom = resolver.buildCoordinate coordinate.toPom) :
    Settled other c coordinate own :=
  ⟨h.not_excluded, h.coordinate_eq, hbuild.trans h.effective_eq, h.not_relocated⟩

theorem pomFile_congr {coordinate : Coordinate} (hread : other.read = resolver.read)
    (hsha : other.sha256 = resolver.sha256)
    (hfetch : other.fetch coordinate.toPom = resolver.fetch coordinate.toPom) :
    pomFile other workspace coordinate = pomFile resolver workspace coordinate := by
  unfold pomFile localPomFile
  rw [hread, hsha, hfetch]

variable {s : Placed Mediation Candidate} (hs : RunInvariant resolver project workspace s)
  (hq : s.queue = [])

include hs hq

theorem RunInvariant.winningPom_selected {k : String} {i : Nat}
    (hk : s.core.selected.lookup k = some i) :
    WinningPom resolver (runTree project s.history)
      (packageAt s.core.packages i).coordinate.toPom := by
  obtain ⟨p, w, coordinate, own, hwins, hset, hco⟩ := hs.selected_iff hq hk
  obtain ⟨offered, hoffered, hchain, -⟩ := hwins.1
  exact ⟨k, p, offered, w, w, coordinate, hoffered, hchain, ReflTransGen.refl, hwins,
    hset.coordinate_eq, by rw [hco]⟩

/-- **A visit is the same with another repository** that agrees on the winners
and on the visited candidate's own POM. -/
theorem RunInvariant.visit_congr (hagree : AgreesOnWinners resolver (runTree project s.history) other)
    {v : Visit Mediation Candidate} (hv : v ∈ s.history)
    (hown : v.item.excluded = false → ∀ coordinate, v.item.dependency.coordinate = .ok coordinate →
      other.buildCoordinate coordinate.toPom = resolver.buildCoordinate coordinate.toPom) :
    Mediation.visit other project workspace v.before v.item = .ok (v.after, v.move) := by
  obtain ⟨earlier, later, hH⟩ := List.append_of_mem hv
  have hrep := hs.represents_before hH
  have hvis := hs.visit hv
  have hafter := hs.grows v hv
  have hgrows := hvis.grows.trans hafter
  refine visit_of_visited ?_
  generalize v.before = core at hrep hvis hgrows
  generalize v.after = core' at hvis hafter
  generalize v.move = move at hvis
  have hsettled : ∀ {coordinate own}, Settled resolver v.item coordinate own →
      Settled other v.item coordinate own := fun hset =>
    hset.congr (hown hset.not_excluded _ hset.coordinate_eq)
  cases hvis with
  | excluded hexcl => exact .excluded hexcl
  | relocated _ hrel =>
    obtain ⟨coordinate, effective, relocation, hexcl, hcoord, hmodel, hrel, rfl⟩ := hrel
    exact .relocated _ ⟨coordinate, effective, relocation, hexcl, hcoord,
      (hown hexcl coordinate hcoord).trans hmodel, hrel, rfl⟩
  | known coordinate own index hset hsel hscope =>
    exact .known coordinate own index (hsettled hset) hsel hscope
  | rescoped coordinate own effective index hset hsel hscope hmodel =>
    refine .rescoped coordinate own effective index (hsettled hset) hsel hscope ?_
    have hpom := hs.winningPom_selected hq (hgrows.lookup hsel)
    rw [hgrows.coordinate (hrep.index_lt hsel)] at hpom
    unfold mediatedModel at hmodel ⊢
    rwa [hagree.build _ hpom]
  | selected coordinate own file downloads hset hsel hfile hdown =>
    refine .selected coordinate own file downloads (hsettled hset) hsel ?_ hdown
    -- the candidate is the first of its key, so it is the winner
    have hk : s.core.selected.lookup v.item.dependency.managementKey =
        some core.packages.length := by
      refine hafter.lookup ?_
      rw [List.lookup_cons, beq_self_eq_true]
    have hco := hafter.coordinate (i := core.packages.length) (by simp)
    rw [coordinate_addEdge, packageAt_append_length] at hco
    obtain ⟨p, w, coordinate', own', hwins, hwset, hwco⟩ := hs.selected_iff hq hk
    obtain rfl : coordinate = coordinate' := hco.symm.trans hwco
    rw [pomFile_congr hagree.read hagree.sha256 (hagree.fetch _ p w coordinate own' hwins hwset).1]
    exact hfile

theorem RunInvariant.finish_congr (hagree : AgreesOnWinners resolver (runTree project s.history) other)
    (order : CompletionOrder) : finish other order s.core = finish resolver order s.core := by
  have hfetch : ∀ d ∈ order.order s.core.downloads, other.fetch d.2 = resolver.fetch d.2 := by
    intro d hd
    obtain ⟨hlt, hco⟩ := hs.scheduled d ((order.perm _).mem_iff.mp hd)
    obtain ⟨k, hk⟩ := hs.represents.has_key hlt
    obtain ⟨p, w, coordinate, own, hwins, hset, hwco⟩ := hs.selected_iff hq hk
    rw [← hco, hwco]
    exact (hagree.fetch k p w coordinate own hwins hset).2
  have hmapM : ∀ l : List (Nat × Coordinate), (∀ d ∈ l, other.fetch d.2 = resolver.fetch d.2) →
      (l.mapM fun download => do
        let artifact ← other.fetch download.2
        return (download.1, artifact)) =
      (l.mapM fun download => do
        let artifact ← resolver.fetch download.2
        return (download.1, artifact) : Except ResolverError (List (Nat × CachedFile))) := by
    intro l
    induction l with
    | nil => exact fun _ => rfl
    | cons d l ih =>
      intro h
      rw [List.mapM_cons, List.mapM_cons, h d (List.mem_cons_self ..),
        ih fun e he => h e (List.mem_cons_of_mem _ he)]
  unfold finish finishArtifacts
  rw [hmapM _ hfetch]

end Agree

/-! ## Losers that own a POM -/

section Own

variable {resolver : DependencyResolver} {project : EffectivePom} {workspace : List MavenProject}

def DependencyResolver.without (resolver : DependencyResolver) (x : Coordinate) :
    DependencyResolver :=
  { resolver with
    buildCoordinate := fun c =>
      if c = x then .error (.httpStatus x.toString 404) else resolver.buildCoordinate c }

theorem agreesOnWinners_without {T : Place → Candidate → Prop} {x : Coordinate}
    (hx : ¬ WinningPom resolver T x) : AgreesOnWinners resolver T (resolver.without x) where
  build y hy := if_neg fun h => by
    subst h
    exact hx hy
  fetch _ _ _ _ _ _ _ := ⟨rfl, rfl⟩
  read := rfl
  sha256 := rfl

theorem visit_without {core : Mediation} {c : Candidate} {coordinate : Coordinate}
    (hexcl : c.excluded = false) (hcoord : c.dependency.coordinate = .ok coordinate) :
    Mediation.visit (resolver.without coordinate.toPom) project workspace core c =
      .error (.httpStatus coordinate.toPom.toString 404) := by
  simp only [Mediation.visit, hexcl, hcoord]
  simp [bind, Except.bind, DependencyResolver.without]

theorem returns_error_without {s : Placed Mediation Candidate}
    (hreach : Loop.Reaches (mediation resolver project workspace).placedStep
      (Placed.start (Mediation.start project) (rootCandidates project)) s)
    (hq : s.queue = []) {v : Visit Mediation Candidate} (hv : v ∈ s.history)
    (hexcl : v.item.excluded = false) {coordinate : Coordinate}
    (hcoord : v.item.dependency.coordinate = .ok coordinate)
    (hlost : ¬ WinningPom resolver (runTree project s.history) coordinate.toPom) :
    ∃ e, Loop.Returns (mediation (resolver.without coordinate.toPom) project workspace).placedStep
      (Placed.start (Mediation.start project) (rootCandidates project)) (.error e) := by
  have hs := run_invariant hreach
  have hfail : ∀ {w : Visit Mediation Candidate} {co : Coordinate}, w.item.excluded = false →
      w.item.dependency.coordinate = .ok co → co.toPom = coordinate.toPom →
        ∃ e, (mediation (resolver.without coordinate.toPom) project workspace).visit w.before
          w.item = .error e := by
    intro w co hwexcl hco hpom
    rw [← hpom]
    exact ⟨_, visit_without hwexcl hco⟩
  have hvisit : ∀ w ∈ s.history,
      (mediation (resolver.without coordinate.toPom) project workspace).visit w.before w.item =
          .ok (w.after, w.move) ∨
        ∃ e, (mediation (resolver.without coordinate.toPom) project workspace).visit w.before
          w.item = .error e := by
    intro w hw
    by_cases hneeds : w.item.excluded = false ∧ ∃ co, w.item.dependency.coordinate = .ok co ∧
      co.toPom = coordinate.toPom
    · obtain ⟨hwexcl, co, hco, hpom⟩ := hneeds
      exact Or.inr (hfail hwexcl hco hpom)
    · exact Or.inl (hs.visit_congr hq (agreesOnWinners_without hlost) hw fun hwexcl co hco =>
        if_neg fun hpom => hneeds ⟨hwexcl, co, hco, hpom⟩)
  rcases Worklist.placed_agrees_or_fails hreach hvisit rfl with ⟨-, hagree⟩ | herror
  · obtain ⟨e, he⟩ := hfail (w := v) hexcl hcoord rfl
    rcases hagree v hv with hstart | hok
    · cases hstart
    · rw [he] at hok
      cases hok
  · exact herror

end Own

/-! ## The losers do not matter when they own nothing -/

section

variable {resolver : DependencyResolver} {order : CompletionOrder} {project : EffectivePom}
  {workspace : List MavenProject} {graph : ResolvedGraph}

/-- **Losing candidates cannot fail resolution exactly when they own no POM.** -/
theorem losers_cannot_fail_iff (h : Resolves resolver order project workspace (.ok graph)) :
    ∃ T, CandidateTree resolver project T ∧
      ((∀ other, AgreesOnWinners resolver T other →
        Resolves other order project workspace (.ok graph)) ↔ LosersOwnNothing resolver T) := by
  obtain ⟨loop, hloop, hfinish⟩ := resolves_iff.mp h
  cases loop with
  | error e => cases hfinish
  | ok core =>
    obtain ⟨s, hreach, hs, hq, rfl⟩ := mediated_history hloop
    refine ⟨runTree project s.history, candidateTree_of_run hs hq, ?_, ?_⟩
    · intro hsame p offered c coordinate hoffered hchain hexcl hcoord
      by_contra hlost
      obtain ⟨v, ⟨hv, -⟩, rfl⟩ := hs.relocated_visited hq hoffered hchain
      obtain ⟨e, herror⟩ := returns_error_without hreach hq hv hexcl hcoord hlost
      have hfails := Worklist.returns_error_of_placed herror
      rw [← startState_eq_erase] at hfails
      obtain ⟨loop, hloop', hok⟩ := resolves_iff.mp (hsame _ (agreesOnWinners_without hlost))
      cases hfails.unique hloop'
      cases hok
    · intro hown other hagree
      have hvisit : ∀ v ∈ s.history,
          (mediation other project workspace).visit v.before v.item = .ok (v.after, v.move) := by
        intro v hv
        refine hs.visit_congr hq hagree hv fun hexcl coordinate hcoord => ?_
        obtain ⟨offered, hoffered, hchain⟩ := hs.tree_of_visited hv
        exact hagree.build _ (hown v.place offered _ coordinate hoffered hchain hexcl hcoord)
      have hreturns := Worklist.returns_of_placed (Worklist.placed_agrees hreach hvisit rfl) hq
      rw [← startState_eq_erase] at hreturns
      refine resolves_iff.mpr ⟨.ok s.core, hreturns, ?_⟩
      rw [← hfinish]
      exact hs.finish_congr hq hagree order

end

theorem losers_cannot_fail_iff_nearer : ∃ (graph : ResolvedGraph) (T : Place → Candidate → Prop),
    graph.packages.map (fun p => p.coordinate.toString) =
        ["app:left:1", "app:right:1", "lib:mid:1", "lib:core:1"] ∧
      CandidateTree nearerRepository nearerProject T ∧
      ((∀ other, AgreesOnWinners nearerRepository T other →
        Resolves other CompletionOrder.spawned nearerProject [] (.ok graph)) ↔
          LosersOwnNothing nearerRepository T) := by
  have hrun : ((resolveInWorkspace nearerRepository CompletionOrder.spawned nearerProject [] 6).bind
      Except.toOption).map (fun graph => graph.packages.map fun p => p.coordinate.toString) =
        some ["app:left:1", "app:right:1", "lib:mid:1", "lib:core:1"] := by decide +kernel
  obtain ⟨graph, hgraph, hview⟩ := resolves_of_run _ _ hrun
  obtain ⟨T, hT, hiff⟩ := losers_cannot_fail_iff hgraph
  exact ⟨graph, T, hview, hT, hiff⟩

theorem RunInvariant.package_of_winningPom {resolver : DependencyResolver} {project : EffectivePom}
    {workspace : List MavenProject} {s : Placed Mediation Candidate}
    (hs : RunInvariant resolver project workspace s) (hq : s.queue = [])
    (hrel : RelocationFree resolver) {x : Coordinate}
    (h : WinningPom resolver (runTree project s.history) x) :
    x ∈ s.core.packages.map fun p => p.coordinate.toPom := by
  obtain ⟨k, p, offered, c, w, coordinate, -, -, hchain, hwins, hcoord, rfl⟩ := h
  obtain rfl : c = w := by
    rcases ReflTransGen.cases_head hchain with rfl | ⟨d, hcd, -⟩
    · rfl
    · exact (hrel.not_relocates hcd).elim
  obtain ⟨i, hi⟩ := hs.selected_of_wins hq hwins
  obtain ⟨q, w, coordinate', own, hw, hset, hco⟩ := hs.selected_iff hq hi
  obtain ⟨-, rfl⟩ := hs.wins_unique hq hw hwins
  rw [hset.coordinate_eq] at hcoord
  cases hcoord
  exact List.mem_map.mpr ⟨_, packageAt_mem (hs.represents.index_lt hi), by rw [hco]⟩

/-- `lib:core:2` loses to the nearer `lib:core:1`; without its POM resolution
fails all the same. -/
theorem missing_loser_fails_resolution :
    ∃ (graph : ResolvedGraph) (T : Place → Candidate → Prop),
      Resolves nearerRepository CompletionOrder.spawned nearerProject [] (.ok graph) ∧
      CandidateTree nearerRepository nearerProject T ∧
      AgreesOnWinners nearerRepository T
        (nearerRepository.without (Coordinate.pom "lib" "core" "2")) ∧
      Resolves (nearerRepository.without (Coordinate.pom "lib" "core" "2"))
        CompletionOrder.spawned nearerProject [] (.error (.httpStatus "lib:core:pom:2" 404)) := by
  have hrun : ((resolveInWorkspace nearerRepository CompletionOrder.spawned nearerProject [] 6).bind
      Except.toOption).map (fun graph => graph.packages.length) = some 4 := by decide +kernel
  obtain ⟨graph, hgraph, -⟩ := resolves_of_run _ _ hrun
  obtain ⟨core, packages, hmed, -, -⟩ := resolves_ok hgraph
  have hpackages : core.packages.map (fun p => p.coordinate.toPom) =
      [Coordinate.pom "app" "left" "1", Coordinate.pom "app" "right" "1",
        Coordinate.pom "lib" "mid" "1", Coordinate.pom "lib" "core" "1"] :=
    mediates_of_run (fun core => core.packages.map fun p => p.coordinate.toPom) 6
      (by decide +kernel) hmed
  obtain ⟨s, -, hs, hq, rfl⟩ := mediated_history hmed
  refine ⟨graph, runTree nearerProject s.history, hgraph, candidateTree_of_run hs hq,
    agreesOnWinners_without fun hwin => ?_, 6, rfl⟩
  have hmem := hs.package_of_winningPom hq (relocationFree_ofModels (by decide)) hwin
  rw [hpackages] at hmem
  exact absurd hmem (by decide)

end JMan.Resolver
