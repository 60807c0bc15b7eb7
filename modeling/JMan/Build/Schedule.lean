import JMan.Lib.Layers
import JMan.Build.Discovery

/-!
# JMan — the schedule of a build

`topological_layers` of `jman-build/src/lib.rs`, which peels the modules of a
workspace off in layers, `module_dependency_cycle`, which searches for a cycle
when it is stuck, and the part of `compile_workspace` that runs the layers and
hands each module the fingerprints of those upstream.

Both algorithms are the ones of `Layers`: `Scheduled` says what the layers are
good for, `layers_of_modules` that they exist exactly without a cycle, and
`compileWorkspace_confluent` that builds do not depend on the order in a layer.
-/

namespace JMan.Build

open JMan.Config JMan.Resolver
open Relation (TransGen)

-- Layers
-- ---

section Layers

variable (modules : List Module)

/-- The modules a module depends on, in any scope. -/
def dependencyIndices (index : Nat) : List Nat :=
  (dependenciesAt modules index).map WorkspaceDependency.index

/-- `modules[index].manifest.project.name` -/
def moduleName (index : Nat) : String := (modules[index]?.map Module.name).getD ""

def moduleDependencyCycle (candidates : List Nat) : List Nat :=
  match Layers.visitAll (dependencyIndices modules) candidates [] [] candidates with
  | .error cycle => cycle
  | .ok _ => candidates

/-- The error of `topological_layers`. -/
def cycleError (cycle : List Nat) : BuildError :=
  .invalid ("module dependency cycle detected: " ++
    " -> ".intercalate (cycle.map (moduleName modules)))

/-- `remaining` and `complete` are what a round leaves and has taken of the range. -/
def topologicalLayers : Except BuildError (List (List Nat)) :=
  Layers.rounds (dependencyIndices modules) (List.range modules.length)
    (fun layers layer => .ok (layers ++ [layer]))
    (fun remaining => cycleError modules (moduleDependencyCycle modules remaining)) [] []

/-- Module `i` declares a dependency on `j`. -/
def DependsOn (i j : Nat) : Prop := ∃ d ∈ dependenciesAt modules i, d.index = j

/-- The dependencies are dependencies between the modules, as those are that
`discover_modules` returns (`indexed_of_discoverModules`). -/
def Indexed : Prop := ∀ i j, DependsOn modules i j → j < modules.length

def WithoutCycle : Prop := ∀ i, ¬ TransGen (DependsOn modules) i i

/-- What the scheduler relies on: every module is in one layer, and what it depends
on is in earlier ones. -/
structure Scheduled (layers : List (List Nat)) : Prop where
  partition : layers.flatten.Perm (List.range modules.length)
  nonempty : ∀ layer ∈ layers, layer ≠ []
  earlier : ∀ before layer after, layers = before ++ layer :: after →
    ∀ i ∈ layer, ∀ j, DependsOn modules i j → j ∈ before.flatten

end Layers

section Facts

variable {modules : List Module} {layers : List (List Nat)} {i j : Nat}

theorem mem_dependencyIndices : j ∈ dependencyIndices modules i ↔ DependsOn modules i j := by
  simp only [dependencyIndices, List.mem_map, DependsOn]

theorem dependsOn_eq :
    (fun i j => j ∈ dependencyIndices modules i) = DependsOn modules := by
  funext i j
  exact propext mem_dependencyIndices

theorem lt_of_dependsOn (h : DependsOn modules i j) : i < modules.length := by
  obtain ⟨d, hd, -⟩ := h
  by_contra hi
  have hnone : modules[i]? = none := List.getElem?_eq_none (Nat.not_lt.mp hi)
  simp [dependenciesAt, hnone] at hd

theorem foldlM_collect (layers before : List (List Nat)) :
    layers.foldlM (fun layers layer => Except.ok (ε := BuildError) (layers ++ [layer])) before =
      .ok (before ++ layers) := by
  induction layers generalizing before with
  | nil =>
    rw [List.append_nil]
    rfl
  | cons layer layers ih =>
    rw [List.foldlM_cons]
    show layers.foldlM _ (before ++ [layer]) = _
    rw [ih, List.append_assoc]
    rfl

theorem topologicalLayers_cases (modules : List Module) :
    (∃ layers : List (List Nat), topologicalLayers modules = .ok layers ∧
      Layers.Peeled (dependencyIndices modules) (List.range modules.length) layers ∧
      List.range modules.length ⊆ layers.flatten) ∨
    ∃ (layers : List (List Nat)) (remaining : List Nat), topologicalLayers modules =
        .error (cycleError modules (moduleDependencyCycle modules remaining)) ∧
      remaining = Layers.remaining (List.range modules.length) layers.flatten ∧ remaining ≠ [] ∧
      Layers.ready (dependencyIndices modules) (List.range modules.length) layers.flatten = [] := by
  have hends := Layers.rounds_ends (dependencyIndices modules) (List.range modules.length)
    (fun layers layer => Except.ok (ε := BuildError) (layers ++ [layer]))
    (fun remaining => cycleError modules (moduleDependencyCycle modules remaining)) []
  rw [← topologicalLayers] at hends
  generalize topologicalLayers modules = result at hends ⊢
  cases hends with
  | @complete layers found h hrun hall =>
    rw [foldlM_collect] at hrun
    cases hrun
    exact Or.inl ⟨layers, rfl, h, hall⟩
  | @stuck layers found h hrun hleft hready =>
    exact Or.inr ⟨layers, _, rfl, rfl, hleft, hready⟩
  | failed _ _ _ hturn => cases hturn

theorem peeled_of_topologicalLayers (h : topologicalLayers modules = .ok layers) :
    Layers.Peeled (dependencyIndices modules) (List.range modules.length) layers ∧
      List.range modules.length ⊆ layers.flatten := by
  rcases topologicalLayers_cases modules with ⟨found, hfound, hpeeled⟩ | ⟨_, _, herror, -⟩
  · rw [hfound] at h
    cases h
    exact hpeeled
  · rw [herror] at h
    cases h

/-- **The layers are a schedule.** -/
theorem scheduled_of_topologicalLayers (h : topologicalLayers modules = .ok layers) :
    Scheduled modules layers := by
  obtain ⟨hpeeled, hall⟩ := peeled_of_topologicalLayers h
  refine ⟨?_, hpeeled.ne_nil, ?_⟩
  · have hnodup := hpeeled.nodup List.nodup_range
    exact (List.perm_ext_iff_of_nodup hnodup List.nodup_range).mpr fun i =>
      ⟨fun hi => hpeeled.subset hi, fun hi => hall hi⟩
  · intro before layer after hsplit i hi j hij
    subst hsplit
    exact hpeeled.earlier hi (mem_dependencyIndices.mpr hij)

theorem acyclic_of_topologicalLayers (h : topologicalLayers modules = .ok layers) :
    WithoutCycle modules := by
  intro i hcycle
  obtain ⟨hpeeled, hall⟩ := peeled_of_topologicalLayers h
  obtain ⟨j, hij, -⟩ := TransGen.head'_iff.mp hcycle
  have hi : i ∈ layers.flatten := hall (List.mem_range.mpr (lt_of_dependsOn hij))
  have hnot := hpeeled.ordered.acyclic hi
  rw [dependsOn_eq] at hnot
  exact hnot hcycle

/-- **Without a cycle there are layers.** -/
theorem exists_topologicalLayers (hindexed : Indexed modules) (hacyclic : WithoutCycle modules) :
    ∃ layers, topologicalLayers modules = .ok layers := by
  rcases topologicalLayers_cases modules with ⟨layers, hlayers, -⟩ | ⟨_, _, -, rfl, hleft, hready⟩
  · exact ⟨layers, hlayers⟩
  · refine absurd hready (Layers.exists_ready (fun i _ j hj => ?_) (fun i _ => ?_) hleft)
    · exact List.mem_range.mpr (hindexed i j (mem_dependencyIndices.mp hj))
    · rw [dependsOn_eq]
      exact hacyclic i

/-- **The error names a cycle.** -/
theorem cycle_of_topologicalLayers (hindexed : Indexed modules) {e : BuildError}
    (h : topologicalLayers modules = .error e) :
    ∃ cycle, e = cycleError modules cycle ∧ Layers.IsCycle (dependencyIndices modules) cycle := by
  rcases topologicalLayers_cases modules with ⟨_, hok, -⟩ | ⟨layers, remaining, herror, hleft, hne, hready⟩
  · rw [hok] at h
    cases h
  · rw [herror] at h
    cases h
    -- what remains waits for something that remains
    have hneeds : ∀ i ∈ remaining, ∃ j ∈ dependencyIndices modules i, j ∈ remaining := by
      intro i hi
      rw [hleft] at hi
      have hnot : i ∉ Layers.ready (dependencyIndices modules) (List.range modules.length)
          layers.flatten := by
        rw [hready]
        exact List.not_mem_nil
      rw [Layers.mem_ready] at hnot
      push Not at hnot
      obtain ⟨j, hj, hdone⟩ := hnot (Layers.mem_remaining.mp hi)
      have hlt := hindexed i j (mem_dependencyIndices.mp hj)
      refine ⟨j, hj, ?_⟩
      rw [hleft]
      exact Layers.mem_remaining.mpr ⟨List.mem_range.mpr hlt, hdone⟩
    obtain ⟨cycle, hcycle, hgenuine⟩ := Layers.search_finds hne hneeds
    refine ⟨cycle, ?_, hgenuine⟩
    rw [moduleDependencyCycle, hcycle]

end Facts

-- Running the layers
-- ---

/-- What is known of a module once it is compiled. -/
structure Compiled (ρ : Type) where
  index : Nat
  result : ρ
  fingerprint : String

/-- The order in which the modules of a layer complete. -/
structure LayerOrder where
  order : List Nat → List Nat
  perm : ∀ layer, (order layer).Perm layer

def LayerOrder.listed : LayerOrder := ⟨id, fun _ => List.Perm.refl _⟩

section Run

variable {ρ : Type} (modules : List Module)
  (compileModule : Nat → List (Nat × String) → Except BuildError (ρ × String))
  (completion : LayerOrder)

/-- The fingerprints of the modules upstream; `fingerprints` are those of the layers
before. -/
def upstreamFingerprints (fingerprints : List (Compiled ρ)) (index : Nat) :
    Except BuildError (List (Nat × String)) :=
  (upstreamOf .compile modules index).mapM fun dependency =>
    match fingerprints.find? fun compiled => compiled.index = dependency with
    | none => .error (.invalid "module scheduler lost a predecessor result")
    | some compiled => .ok (dependency, compiled.fingerprint)

def compileIndex (fingerprints : List (Compiled ρ)) (index : Nat) :
    Except BuildError (Compiled ρ) := do
  let upstream ← upstreamFingerprints modules fingerprints index
  let outcome ← compileModule index upstream
  return ⟨index, outcome.1, outcome.2⟩

/-- One layer: its modules are compiled side by side. -/
def compileLayer (fingerprints : List (Compiled ρ)) (layer : List Nat) :
    Except BuildError (List (Compiled ρ)) := do
  let completed ← (completion.order layer).mapM
    (compileIndex modules compileModule fingerprints)
  return fingerprints ++ completed

def compileWorkspace : Except BuildError (List ρ) := do
  let layers ← topologicalLayers modules
  let results ← layers.foldlM (compileLayer modules compileModule completion) []
  return (results.insertionSort fun left right => left.index ≤ right.index).map Compiled.result

end Run

section Runs

variable {ρ : Type} {modules : List Module}
  {compileModule : Nat → List (Nat × String) → Except BuildError (ρ × String)}
  {completion : LayerOrder} {layers : List (List Nat)} {layer : List Nat}
  {compiled compiled' : List (Compiled ρ)} {i : Nat}

theorem compiled_of_compileLayer
    (h : compileLayer modules compileModule completion compiled layer = .ok compiled') :
    ∃ completed, compiled' = compiled ++ completed ∧
      ∀ i ∈ layer, ∃ c ∈ completed, c.index = i := by
  obtain ⟨completed, hcompleted, h⟩ := Fallible.bind_eq_ok.mp h
  cases h
  refine ⟨completed, rfl, fun i hi => ?_⟩
  have hmem := (completion.perm layer).mem_iff.mpr hi
  obtain ⟨c, hc, hcompile⟩ := Fallible.exists_of_mem_of_mapM hcompleted hmem
  obtain ⟨upstream, -, hcompile⟩ := Fallible.bind_eq_ok.mp hcompile
  obtain ⟨outcome, -, hcompile⟩ := Fallible.bind_eq_ok.mp hcompile
  cases hcompile
  exact ⟨_, hc, rfl⟩

theorem compiled_of_layers
    (h : layers.foldlM (compileLayer modules compileModule completion) compiled = .ok compiled')
    (hi : i ∈ layers.flatten ∨ ∃ c ∈ compiled, c.index = i) : ∃ c ∈ compiled', c.index = i := by
  induction layers generalizing compiled with
  | nil =>
    rw [List.foldlM_nil, Fallible.pure_eq_ok] at h
    subst h
    simpa using hi
  | cons layer layers ih =>
    rw [List.foldlM_cons, Fallible.bind_eq_ok] at h
    obtain ⟨next, hnext, h⟩ := h
    obtain ⟨completed, rfl, hlayer⟩ := compiled_of_compileLayer hnext
    refine ih h ?_
    rw [List.flatten_cons, List.mem_append] at hi
    rcases hi with (hi | hi) | ⟨c, hc, hindex⟩
    · obtain ⟨c, hc, hindex⟩ := hlayer i hi
      exact Or.inr ⟨c, List.mem_append_right _ hc, hindex⟩
    · exact Or.inl hi
    · exact Or.inr ⟨c, List.mem_append_left _ hc, hindex⟩

theorem upstream_mem_before {before after : List (List Nat)} (hlayers : topologicalLayers modules =
      .ok (before ++ layer :: after)) (hi : i ∈ layer) {usage : DependencyUsage} {j : Nat}
    (hj : j ∈ transitiveDependencies i modules usage) : j ∈ before.flatten := by
  obtain ⟨hpeeled, -⟩ := peeled_of_topologicalLayers hlayers
  have hdepends : TransGen (DependsOn modules) i j := by
    refine TransGen.mono (fun _ _ huse => ?_) i j (mem_transitiveDependencies.mp hj)
    obtain ⟨d, hd, -, hindex⟩ := huse
    exact ⟨d, hd, hindex⟩
  obtain ⟨k, hik, hkj⟩ := TransGen.head'_iff.mp hdepends
  have hk : k ∈ before.flatten := hpeeled.earlier hi (mem_dependencyIndices.mpr hik)
  rw [← dependsOn_eq] at hkj
  exact hpeeled.split.1.ordered.closed_reach hk hkj

/-- **No predecessor is lost.** Whatever the compilations return and in whichever order
they complete, the fingerprints upstream of a module are there when its layer is reached. -/
theorem upstreamFingerprints_of_layers {before after : List (List Nat)}
    (hlayers : topologicalLayers modules = .ok (before ++ layer :: after))
    (hrun : before.foldlM (compileLayer modules compileModule completion) [] = .ok compiled)
    (hi : i ∈ layer) : ∃ upstream, upstreamFingerprints modules compiled i = .ok upstream := by
  refine Fallible.exists_mapM_eq_ok.mpr fun j hj => ?_
  have hbefore := upstream_mem_before hlayers hi (mem_upstreamOf.mp hj)
  obtain ⟨c, hc, hindex⟩ := compiled_of_layers hrun (Or.inl hbefore)
  cases hfind : compiled.find? fun compiled => compiled.index = j with
  | none =>
    have := List.find?_eq_none.mp hfind c hc
    simp [hindex] at this
  | some found => exact ⟨(j, found.fingerprint), rfl⟩

end Runs

-- Any order of completion
-- ---

section Confluence

variable {ρ : Type} {modules : List Module}
  {compileModule : Nat → List (Nat × String) → Except BuildError (ρ × String)}
  {completion : LayerOrder} {layers : List (List Nat)} {layer : List Nat}
  {compiled compiled' next : List (Compiled ρ)} {i : Nat}

theorem find?_perm (hperm : compiled.Perm compiled') (hnodup : (compiled.map Compiled.index).Nodup)
    (j : Nat) : (compiled.find? fun c => c.index = j) = compiled'.find? fun c => c.index = j := by
  induction hperm with
  | nil => rfl
  | cons c _ ih => rw [List.find?_cons, List.find?_cons, ih hnodup.of_cons]
  | swap c d rest => grind
  | trans hfirst _ ih ih' => rw [ih hnodup, ih' ((hfirst.map _).nodup_iff.mp hnodup)]

theorem upstreamFingerprints_perm (hperm : compiled.Perm compiled')
    (hnodup : (compiled.map Compiled.index).Nodup) :
    upstreamFingerprints modules compiled = upstreamFingerprints modules compiled' := by
  funext i
  simp only [upstreamFingerprints, find?_perm hperm hnodup]

/-- What was found upstream is found later. -/
theorem upstreamFingerprints_append {upstream : List (Nat × String)} (more : List (Compiled ρ))
    (h : upstreamFingerprints modules compiled i = .ok upstream) :
    upstreamFingerprints modules (compiled ++ more) i = .ok upstream := by
  refine Fallible.mapM_eq_ok.mpr ((Fallible.mapM_eq_ok.mp h).imp fun j entry hentry => ?_)
  rw [List.find?_append]
  cases hfind : compiled.find? fun c => c.index = j with
  | none =>
    rw [hfind] at hentry
    cases hentry
  | some c =>
    rw [hfind] at hentry
    exact hentry

/-- Each module was compiled with the fingerprints that the modules upstream have. -/
def Consistent (modules : List Module)
    (compileModule : Nat → List (Nat × String) → Except BuildError (ρ × String))
    (compiled : List (Compiled ρ)) : Prop :=
  ∀ c ∈ compiled, ∃ upstream, upstreamFingerprints modules compiled c.index = .ok upstream ∧
    compileModule c.index upstream = .ok (c.result, c.fingerprint)

theorem compileLayer_spec (hnodup : (compiled.map Compiled.index).Nodup)
    (hconsistent : Consistent modules compileModule compiled)
    (h : compileLayer modules compileModule completion compiled layer = .ok next) :
    (next.map Compiled.index).Perm (compiled.map Compiled.index ++ layer) ∧
      Consistent modules compileModule next ∧
      ∀ completion' compiled', compiled'.Perm compiled → ∃ next',
        compileLayer modules compileModule completion' compiled' layer = .ok next' ∧ next'.Perm next := by
  obtain ⟨completed, hcompleted, h⟩ := Fallible.bind_eq_ok.mp h
  cases h
  have hsteps : ∀ i c, compileIndex modules compileModule compiled i = .ok c → c.index = i ∧
      ∃ upstream, upstreamFingerprints modules compiled i = .ok upstream ∧
        compileModule i upstream = .ok (c.result, c.fingerprint) := by
    intro i c hc
    obtain ⟨upstream, hupstream, hc⟩ := Fallible.bind_eq_ok.mp hc
    obtain ⟨outcome, houtcome, hc⟩ := Fallible.bind_eq_ok.mp hc
    cases hc
    exact ⟨rfl, upstream, hupstream, houtcome⟩
  refine ⟨?_, fun c hc => ?_, fun completion' compiled' hperm => ?_⟩
  · have hindices : completion.order layer = completed.map Compiled.index :=
      List.forall₂_eq_eq_eq ▸ List.forall₂_map_right_iff.mpr
        ((Fallible.mapM_eq_ok.mp hcompleted).imp fun i c hc => (hsteps i c hc).1.symm)
    rw [List.map_append, ← hindices]
    exact (completion.perm layer).append_left _
  · rcases List.mem_append.mp hc with hold | hnew
    · obtain ⟨upstream, hupstream, hcompile⟩ := hconsistent c hold
      exact ⟨upstream, upstreamFingerprints_append _ hupstream, hcompile⟩
    · obtain ⟨i, -, hi⟩ := Fallible.exists_of_mem_mapM hcompleted hnew
      obtain ⟨rfl, upstream, hupstream, hcompile⟩ := hsteps i c hi
      exact ⟨upstream, upstreamFingerprints_append _ hupstream, hcompile⟩
  · have horder := (completion'.perm layer).trans (completion.perm layer).symm
    obtain ⟨completed', hcompleted', hrest⟩ := Fallible.mapM_perm horder hcompleted
    refine ⟨compiled' ++ completed', ?_, hperm.append hrest⟩
    have hsame : compileIndex modules compileModule compiled' = compileIndex modules compileModule compiled := by
      funext i
      rw [compileIndex, compileIndex, upstreamFingerprints_perm hperm.symm hnodup]
    rw [compileLayer, hsame, hcompleted']
    rfl

theorem layers_spec (hnodup : (compiled.map Compiled.index ++ layers.flatten).Nodup)
    (hconsistent : Consistent modules compileModule compiled)
    (h : layers.foldlM (compileLayer modules compileModule completion) compiled = .ok next) :
    (next.map Compiled.index).Perm (compiled.map Compiled.index ++ layers.flatten) ∧
      Consistent modules compileModule next ∧
      ∀ completion' compiled', compiled'.Perm compiled → ∃ next',
        layers.foldlM (compileLayer modules compileModule completion') compiled' = .ok next' ∧
          next'.Perm next := by
  induction layers generalizing compiled with
  | nil =>
    rw [List.foldlM_nil, Fallible.pure_eq_ok] at h
    subst h
    exact ⟨by simp, hconsistent, fun _ compiled' hperm => ⟨compiled', rfl, hperm⟩⟩
  | cons layer layers ih =>
    rw [List.foldlM_cons, Fallible.bind_eq_ok] at h
    obtain ⟨middle, hmiddle, h⟩ := h
    rw [List.flatten_cons, ← List.append_assoc] at hnodup ⊢
    obtain ⟨hindices, hmiddle', hany⟩ := compileLayer_spec hnodup.of_append_left.of_append_left
      hconsistent hmiddle
    obtain ⟨hrest, hnext, hthen⟩ := ih ((hindices.append_right _).nodup_iff.mpr hnodup) hmiddle' h
    refine ⟨hrest.trans (hindices.append_right _), hnext, fun completion' compiled' hperm => ?_⟩
    -- the layer is completed in another order, the rest goes on from there
    obtain ⟨middle', hstep, hperm'⟩ := hany completion' compiled' hperm
    obtain ⟨next', hrun, hlast⟩ := hthen completion' middle' hperm'
    rw [List.foldlM_cons, hstep]
    exact ⟨next', hrun, hlast⟩

theorem compileWorkspace_eq_ok {results : List ρ}
    (h : compileWorkspace modules compileModule completion = .ok results) :
    (∃ outcomes : List (Compiled ρ), outcomes.map Compiled.index = List.range modules.length ∧
      Consistent modules compileModule outcomes ∧ outcomes.map Compiled.result = results) ∧
    ∀ completion', compileWorkspace modules compileModule completion' = .ok results := by
  obtain ⟨layers, hlayers, h⟩ := Fallible.bind_eq_ok.mp h
  obtain ⟨next, hrun, h⟩ := Fallible.bind_eq_ok.mp h
  cases h
  have hpartition := (scheduled_of_topologicalLayers hlayers).partition
  have honce : (([] : List (Compiled ρ)).map Compiled.index ++ layers.flatten).Nodup :=
    hpartition.nodup_iff.mpr List.nodup_range
  obtain ⟨hindices, hconsistent, hany⟩ := layers_spec honce (fun c hc => by cases hc) hrun
  have hrange := hindices.trans hpartition
  have hnodup := hrange.nodup_iff.mpr List.nodup_range
  let order : Compiled ρ → Compiled ρ → Prop := fun left right => left.index ≤ right.index
  have : Std.Total order := ⟨fun left right => le_total left.index right.index⟩
  have : IsTrans (Compiled ρ) order := ⟨fun _ _ _ h h' => h.trans h'⟩
  have hsort := List.perm_insertionSort order next
  refine ⟨⟨next.insertionSort order, ?_, fun c hc => ?_, rfl⟩, fun completion' => ?_⟩
  · exact List.Perm.eq_of_pairwise (fun _ _ _ _ => le_antisymm)
      (List.pairwise_map.mpr (List.pairwise_insertionSort order next)) List.pairwise_le_range
      ((hsort.map _).trans hrange)
  · rw [upstreamFingerprints_perm hsort ((hsort.map _).nodup_iff.mpr hnodup)]
    exact hconsistent c (hsort.mem_iff.mp hc)
  · -- indices differ, so that sorting forgets the order
    obtain ⟨next', hrun', hperm⟩ := hany completion' [] (List.Perm.refl _)
    have hsame : next'.insertionSort order = next.insertionSort order := by
      refine List.Perm.eq_of_pairwise (fun left right hleft hright hle hge => ?_)
        (List.pairwise_insertionSort order next') (List.pairwise_insertionSort order next)
        ((List.perm_insertionSort order next').trans (hperm.trans hsort.symm))
      have hleft := hperm.mem_iff.mp ((List.perm_insertionSort order next').mem_iff.mp hleft)
      exact List.inj_on_of_nodup_map hnodup hleft (hsort.mem_iff.mp hright) (le_antisymm hle hge)
    rw [compileWorkspace, hlayers, Fallible.ok_bind, hrun', Fallible.ok_bind]
    exact congrArg (fun sorted => Except.ok (sorted.map Compiled.result)) hsame

/-- **The build does not depend on the order of completion.** If it succeeds it does in every
order, with the same results: one for each module, which was compiled with the fingerprints
that the modules upstream have in the end. -/
theorem compileWorkspace_confluent (modules : List Module)
    (compileModule : Nat → List (Nat × String) → Except BuildError (ρ × String)) :
    (∀ completion completion', (compileWorkspace modules compileModule completion).toOption =
      (compileWorkspace modules compileModule completion').toOption) ∧
    ∀ completion results, compileWorkspace modules compileModule completion = .ok results →
      ∃ outcomes : List (Compiled ρ), outcomes.map Compiled.index = List.range modules.length ∧
        Consistent modules compileModule outcomes ∧ outcomes.map Compiled.result = results :=
  ⟨fun _ _ => Fallible.toOption_eq_iff.mpr fun _ =>
    ⟨fun h => (compileWorkspace_eq_ok h).2 _, fun h => (compileWorkspace_eq_ok h).2 _⟩,
    fun _ _ h => (compileWorkspace_eq_ok h).1⟩

end Confluence

-- The schedule of a workspace
-- ---

/-- **Layers exist exactly without a cycle**, they are a schedule in which no
predecessor's fingerprint is missing, and the error names a cycle. -/
theorem layers_of_modules (modules : List Module) (hindexed : Indexed modules) :
    ((∃ layers, topologicalLayers modules = .ok layers) ↔ WithoutCycle modules) ∧
    (∀ layers, topologicalLayers modules = .ok layers → Scheduled modules layers) ∧
    (∀ {ρ : Type} (compileModule : Nat → List (Nat × String) → Except BuildError (ρ × String))
      (completion : LayerOrder) before layer after compiled,
      topologicalLayers modules = .ok (before ++ layer :: after) →
      before.foldlM (compileLayer modules compileModule completion) [] = .ok compiled →
      ∀ i ∈ layer, ∃ upstream, upstreamFingerprints modules compiled i = .ok upstream) ∧
    ∀ e, topologicalLayers modules = .error e → ∃ cycle, e = cycleError modules cycle ∧
      cycle.IsChain (DependsOn modules) ∧ cycle.head? = cycle.getLast? ∧ 2 ≤ cycle.length := by
  refine ⟨⟨?_, exists_topologicalLayers hindexed⟩, fun _ => scheduled_of_topologicalLayers, ?_, ?_⟩
  · intro hlayers
    obtain ⟨layers, hlayers⟩ := hlayers
    exact acyclic_of_topologicalLayers hlayers
  · intro ρ compileModule completion before layer after compiled hlayers hrun i hi
    exact upstreamFingerprints_of_layers hlayers hrun hi
  · intro e he
    obtain ⟨cycle, hmessage, i, path, rfl, hchain⟩ := cycle_of_topologicalLayers hindexed he
    rw [dependsOn_eq] at hchain
    refine ⟨_, hmessage, hchain, ?_, ?_⟩
    · rw [← List.cons_append, List.getLast?_concat]
      rfl
    · simp

def mutualModules : List Module :=
  [⟨"dev", "app", "1", [⟨1, .compile⟩]⟩, ⟨"dev", "lib", "1", [⟨0, .test⟩]⟩]

theorem indexed_mutualModules : Indexed mutualModules := by
  intro i j hij
  have hi : i < 2 := lt_of_dependsOn hij
  rw [← mem_dependencyIndices] at hij
  have hi' : i = 0 ∨ i = 1 := by omega
  obtain rfl | rfl := hi'
  · have : j = 1 := by simpa [mutualModules, dependencyIndices, dependenciesAt] using hij
    show j < 2
    omega
  · have : j = 0 := by simpa [mutualModules, dependencyIndices, dependenciesAt] using hij
    show j < 2
    omega

theorem layers_of_mutualModules : Indexed mutualModules ∧
    ∃ e, topologicalLayers mutualModules = .error e := by
  refine ⟨indexed_mutualModules, ?_⟩
  have hlayers := (layers_of_modules mutualModules indexed_mutualModules).1
  cases hresult : topologicalLayers mutualModules with
  | error e => exact ⟨e, rfl⟩
  | ok layers =>
    have happ : DependsOn mutualModules 0 1 := ⟨⟨1, .compile⟩, by decide, rfl⟩
    have hlib : DependsOn mutualModules 1 0 := ⟨⟨0, .test⟩, by decide, rfl⟩
    exact absurd ((TransGen.single happ).tail hlib) (hlayers.mp ⟨layers, hresult⟩ 0)

end JMan.Build
