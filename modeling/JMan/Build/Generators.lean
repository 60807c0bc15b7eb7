import Mathlib.Data.Finset.Sort
import JMan.Config.Generators
import JMan.Build.Artifacts

/-!
# JMan — running the generators of a module

`run_module_generators` of `jman-build/src/lib.rs`: the generators with an output
in the source sets of the build, those they depend on, and the rounds in which
they run. `run_generator` itself is a parameter here; each generator of a module
runs at most once, so what the runs return is a function of the name.

`generators_run_in_order` relies on what `validate_generators` accepted.
-/

namespace JMan.Build

open JMan.Config
open Paths (Path)
open Relation (ReflTransGen TransGen)

-- Required generators
-- ---

structure GeneratedInput where
  sourceSet : GeneratorSourceSet
  kind : GeneratorOutputKind
  path : Path
deriving DecidableEq

def generatorOutputRoot (module : Path) (generator output : String) : Path :=
  Paths.join (Paths.join (Paths.join module ".jman/generated") generator) output

section Required

variable (moduleName : String) (generators : BTreeMap Generator)
  (sourceSets : List GeneratorSourceSet) (selected : Option (List String))

/-- The selected generators with an output in one of the source sets. -/
def initiallyRequired : List String :=
  (generators.toList.filter fun entry =>
    selected.all (fun selected => selected.contains entry.1) &&
      entry.2.outputs.toList.any fun output => sourceSets.contains output.2.sourceSet).map Prod.fst

/-- The loop over `pending`, its top first. -/
structure Closing where
  required : Finset String
  pending : List String

/-- `if required.insert(dependency.clone()) { pending.push(..) }` -/
def Closing.require (s : Closing) (dependency : String) : Closing :=
  if dependency ∈ s.required then s
  else ⟨insert dependency s.required, dependency :: s.pending⟩

def unknownGenerator (name : String) : BuildError :=
  .invalid ("unknown generator `" ++ name ++ "` in module " ++ moduleName)

def closeStep (s : Closing) : Loop.Outcome Closing (Except BuildError (Finset String)) :=
  match s.pending with
  | [] => .stop (.ok s.required)
  | name :: rest =>
    match generators[name]? with
    | none => .stop (.error (unknownGenerator moduleName name))
    | some generator => .next (generator.dependsOn.foldl Closing.require ⟨s.required, rest⟩)

def mentioned : Finset String :=
  (generators.toList.flatMap fun entry => entry.2.dependsOn).toFinset

/-- What the loop has still to do: names on the stack, and names to come. -/
def Closing.size (s : Closing) : Nat :=
  s.pending.length + (mentioned generators \ s.required).card

def Closing.start (required : List String) : Closing := ⟨required.toFinset, required.reverse⟩

def closeRequired (required : List String) : Except BuildError (Finset String) :=
  (Loop.run (closeStep moduleName generators)
      ((Closing.start required).size generators + 1) (Closing.start required)).getD
    (.error (unknownGenerator moduleName ""))

end Required

-- Rounds
-- ---

section Run

variable {ρ : Type} (moduleName : String) (directory : Path) (generators : BTreeMap Generator)
  (sourceSets : List GeneratorSourceSet) (selected : Option (List String))
  (runGenerator : String → Generator → Except BuildError ρ)

/-- `run_generator(.., &name, &generators[&name], ..)`; the index is there
(`mem_of_closed`). -/
def runNamed (name : String) : Except BuildError ρ :=
  match generators[name]? with
  | some generator => runGenerator name generator
  | none => .error (unknownGenerator moduleName name)

/-- One round: the generators that are ready, one after the other. -/
def runReady (results : List ρ) (ready : List String) : Except BuildError (List ρ) :=
  ready.foldlM (fun results name => do
    let result ← runNamed moduleName generators runGenerator name
    return results ++ [result]) results

def generatedInputs (complete : Finset String) : List GeneratedInput :=
  (generators.toList.filter fun entry => entry.1 ∈ complete).flatMap fun entry =>
    entry.2.outputs.toList.map fun output =>
      ⟨output.2.sourceSet, output.2.kind, generatorOutputRoot directory entry.1 output.1⟩

def runModuleGenerators : Except BuildError (List GeneratedInput × List ρ) :=
  if generators.isEmpty then .ok ([], [])
  else do
    let required ← closeRequired moduleName generators
      (initiallyRequired generators sourceSets selected)
    let results ← Layers.rounds (dependenciesOf generators) (required.sort (· ≤ ·))
      (runReady moduleName generators runGenerator)
      (fun _ => .invalid ("generator dependency cycle in module " ++ moduleName)) [] []
    return (generatedInputs directory generators required, results)

end Run

-- The closure
-- ---

section Closure

variable {moduleName : String} {generators : BTreeMap Generator} {s t : Closing}
  {required : List String} {name : String}

abbrev Needs (generators : BTreeMap Generator) (a b : String) : Prop := b ∈ dependenciesOf generators a

theorem mem_required_require {dependency : String} :
    name ∈ (s.require dependency).required ↔ name = dependency ∨ name ∈ s.required := by
  unfold Closing.require
  split
  · next hmem =>
    constructor
    · exact Or.inr
    · intro h
      rcases h with rfl | h
      · exact hmem
      · exact h
  · exact Finset.mem_insert

theorem foldl_require (dependencies : List String) (s : Closing) :
    (∀ name, name ∈ (dependencies.foldl Closing.require s).required ↔
      name ∈ dependencies ∨ name ∈ s.required) ∧
    ∀ name, name ∈ (dependencies.foldl Closing.require s).pending ↔
      (name ∈ dependencies ∧ name ∉ s.required) ∨ name ∈ s.pending := by
  induction dependencies generalizing s with
  | nil => simp
  | cons dependency dependencies ih =>
    obtain ⟨hrequired, hpending⟩ := ih (s.require dependency)
    rw [List.foldl_cons]
    constructor
    · intro name
      rw [hrequired, mem_required_require, List.mem_cons]
      tauto
    · intro name
      rw [hpending, mem_required_require, List.mem_cons]
      unfold Closing.require
      split
      · next hmem =>
        constructor
        · tauto
        · rintro (⟨rfl | h, hnew⟩ | h)
          · exact absurd hmem hnew
          · by_cases hname : name = dependency
            · exact absurd (hname ▸ hmem) hnew
            · tauto
          · tauto
      · next hnew =>
        rw [List.mem_cons]
        by_cases hname : name = dependency
        · subst hname
          tauto
        · tauto

theorem size_require {dependency : String} (h : dependency ∈ mentioned generators) :
    (s.require dependency).size generators = s.size generators := by
  unfold Closing.require
  split
  · rfl
  · next hnew =>
    have herase : mentioned generators \ insert dependency s.required =
        (mentioned generators \ s.required).erase dependency := by
      ext x
      simp only [Finset.mem_sdiff, Finset.mem_insert, Finset.mem_erase]
      tauto
    have hcard := Finset.card_erase_add_one (Finset.mem_sdiff.mpr ⟨h, hnew⟩)
    simp only [Closing.size, herase, List.length_cons]
    omega

theorem size_foldl_require {dependencies : List String}
    (h : ∀ dependency ∈ dependencies, dependency ∈ mentioned generators) :
    (dependencies.foldl Closing.require s).size generators = s.size generators := by
  induction dependencies generalizing s with
  | nil => rfl
  | cons dependency dependencies ih =>
    rw [List.foldl_cons, ih fun d hd => h d (List.mem_cons_of_mem _ hd)]
    exact size_require (h dependency List.mem_cons_self)

theorem closeStep_next (h : closeStep moduleName generators s = .next t) :
    ∃ name rest generator, s.pending = name :: rest ∧ generators[name]? = some generator ∧
      t = generator.dependsOn.foldl Closing.require ⟨s.required, rest⟩ := by
  unfold closeStep at h
  split at h
  · cases h
  next name rest hpending =>
  split at h
  · cases h
  next generator hgenerator =>
  cases h
  exact ⟨name, rest, generator, hpending, hgenerator, rfl⟩

theorem size_closeStep (moduleName : String) {s t : Closing} (h : closeStep moduleName generators s = .next t) :
    t.size generators < s.size generators := by
  obtain ⟨name, rest, generator, hpending, hgenerator, rfl⟩ := closeStep_next h
  have hmentioned : ∀ dependency ∈ generator.dependsOn, dependency ∈ mentioned generators := by
    intro dependency hdependency
    have hmem := Std.ExtTreeMap.mem_toList_iff_getElem?_eq_some.mpr hgenerator
    exact List.mem_toFinset.mpr (List.mem_flatMap.mpr ⟨(name, generator), hmem, hdependency⟩)
  rw [size_foldl_require hmentioned]
  simp only [Closing.size, hpending, List.length_cons]
  omega

theorem closeRequired_returns (moduleName : String) (generators : BTreeMap Generator)
    (required : List String) :
    Loop.Returns (closeStep moduleName generators) (Closing.start required)
      (closeRequired moduleName generators required) := by
  obtain ⟨r, hr⟩ := Loop.run_of_measure (Closing.size generators)
    (fun _ _ h => size_closeStep moduleName h) (Closing.start required)
  have hreturns := Loop.returns_of_run hr
  rw [closeRequired, hr]
  exact hreturns

/-- What is required is needed by what was required first, and what it needs is
required once it has left the stack. -/
structure Closes (generators : BTreeMap Generator) (required : List String) (s : Closing) : Prop where
  sound : ∀ name ∈ s.required, ∃ root ∈ required, ReflTransGen (Needs generators) root name
  roots : ∀ root ∈ required, root ∈ s.required
  pending : ∀ name ∈ s.pending, name ∈ s.required
  closed : ∀ name ∈ s.required, name ∉ s.pending →
    ∀ dependency, Needs generators name dependency → dependency ∈ s.required

theorem Closes.start (generators : BTreeMap Generator) (required : List String) :
    Closes generators required (Closing.start required) where
  sound name h := ⟨name, List.mem_toFinset.mp h, ReflTransGen.refl⟩
  roots _ h := List.mem_toFinset.mpr h
  pending _ h := List.mem_toFinset.mpr (List.mem_reverse.mp h)
  closed _ h hpending := absurd (List.mem_reverse.mpr (List.mem_toFinset.mp h)) hpending

theorem Closes.step (hs : Closes generators required s)
    (h : closeStep moduleName generators s = .next t) : Closes generators required t := by
  obtain ⟨name, rest, generator, hpending, hgenerator, rfl⟩ := closeStep_next h
  obtain ⟨hreq, hpend⟩ := foldl_require generator.dependsOn ⟨s.required, rest⟩
  have hneeds : ∀ dependency, Needs generators name dependency ↔ dependency ∈ generator.dependsOn := by
    intro dependency
    simp [Needs, dependenciesOf, hgenerator]
  have hname : name ∈ s.required := hs.pending name (hpending ▸ List.mem_cons_self)
  refine ⟨fun x hx => ?_, fun root hroot => ?_, fun x hx => ?_, fun x hx hnot dependency hd => ?_⟩
  · rcases (hreq x).mp hx with hx | hx
    · obtain ⟨root, hroot, hreach⟩ := hs.sound name hname
      exact ⟨root, hroot, hreach.tail ((hneeds x).mpr hx)⟩
    · exact hs.sound x hx
  · exact (hreq root).mpr (Or.inr (hs.roots root hroot))
  · rcases (hpend x).mp hx with ⟨hx, -⟩ | hx
    · exact (hreq x).mpr (Or.inl hx)
    · exact (hreq x).mpr (Or.inr (hs.pending x (hpending ▸ List.mem_cons_of_mem _ hx)))
  · -- the name just taken: what it needs was required in this turn
    rw [hreq]
    by_cases hxname : x = name
    · rw [hxname, hneeds] at hd
      exact Or.inl hd
    · right
      have hold : x ∈ s.required := by
        rcases (hreq x).mp hx with hdep | hx
        · by_contra hnew
          exact hnot ((hpend x).mpr (Or.inl ⟨hdep, hnew⟩))
        · exact hx
      refine hs.closed x hold ?_ dependency hd
      rw [hpending, List.mem_cons, not_or]
      exact ⟨hxname, fun hrest => hnot ((hpend x).mpr (Or.inr hrest))⟩

/-- **The loop returns the closure** of what was required first, where no name is
unknown. -/
theorem closeRequired_eq_ok (moduleName : String) {required : List String} (hknown : ∀ name ∈ required, name ∈ generators)
    (hclosed : ∀ name dependency, Needs generators name dependency → dependency ∈ generators) :
    ∃ closure, closeRequired moduleName generators required = .ok closure ∧
      ∀ name, name ∈ closure ↔ ∃ root ∈ required, ReflTransGen (Needs generators) root name := by
  obtain ⟨s, hreaches, hstop⟩ := closeRequired_returns moduleName generators required
  have hs : Closes generators required s :=
    hreaches.invariant (fun _ _ ha hab => Closes.step ha hab) (Closes.start generators required)
  have hmem : ∀ name ∈ s.required, name ∈ generators := by
    intro name hname
    obtain ⟨root, hroot, hreach⟩ := hs.sound name hname
    rcases ReflTransGen.cases_tail hreach with rfl | ⟨between, -, hneed⟩
    · exact hknown _ hroot
    · exact hclosed between name hneed
  unfold closeStep at hstop
  split at hstop
  · next hpending =>
    cases hresult : closeRequired moduleName generators required with
    | error e =>
      rw [hresult] at hstop
      cases hstop
    | ok closure =>
      rw [hresult] at hstop
      cases hstop
      refine ⟨_, rfl, fun name => ⟨fun h => hs.sound name h, fun h => ?_⟩⟩
      obtain ⟨root, hroot, hreach⟩ := h
      induction hreach with
      | refl => exact hs.roots root hroot
      | tail _ hneed ih =>
        refine hs.closed _ ih ?_ _ hneed
        rw [hpending]
        exact List.not_mem_nil
  next name rest hpending =>
  split at hstop
  · next hnone =>
    have hin := hmem name (hs.pending name (hpending ▸ List.mem_cons_self))
    rw [Std.ExtTreeMap.mem_iff_isSome_getElem?, hnone] at hin
    cases hin
  · cases hstop

end Closure

-- The order of the runs
-- ---

section Order

variable {generators : BTreeMap Generator} {sourceSets : List GeneratorSourceSet}
  {selected : Option (List String)}

theorem mem_of_initiallyRequired {name : String}
    (h : name ∈ initiallyRequired generators sourceSets selected) : name ∈ generators := by
  obtain ⟨entry, hentry, rfl⟩ := List.mem_map.mp h
  have hlist : (entry.1, entry.2) ∈ generators.toList := (List.mem_filter.mp hentry).1
  have hget := Std.ExtTreeMap.mem_toList_iff_getElem?_eq_some.mp hlist
  exact Std.ExtTreeMap.mem_iff_isSome_getElem?.mpr (hget ▸ rfl)

theorem foldlM_runReady {ρ : Type} (moduleName : String)
    (runGenerator : String → Generator → Except BuildError ρ) (layers : List (List String))
    (results : List ρ) :
    layers.foldlM (runReady moduleName generators runGenerator) results =
      layers.flatten.mapM (runNamed moduleName generators runGenerator) >>= fun runs =>
        .ok (results ++ runs) := by
  rw [← Fallible.foldlM_append]
  induction layers generalizing results with
  | nil => rfl
  | cons layer layers ih =>
    rw [List.foldlM_cons, List.flatten_cons, List.foldlM_append]
    simp only [ih]
    rfl

/-- **Accepted generators run in order.** What `validate_generators` accepts has no
dangling dependency and no cycle; and of what it accepts the closure of the required
generators runs, each once and after those it depends on, and nothing but a run
fails. -/
theorem generators_run_in_order (generators : BTreeMap Generator)
    (h : validateGenerators generators = .ok ()) :
    (∀ name dependency, Needs generators name dependency → dependency ∈ generators) ∧
    (∀ name, ¬ TransGen (Needs generators) name name) ∧
    ∀ (moduleName : String) (directory : Path) (sourceSets : List GeneratorSourceSet)
      (selected : Option (List String)), ∃ order : List String,
      order.Nodup ∧ (∀ name ∈ order, name ∈ generators) ∧
      (∀ name, name ∈ order ↔ ∃ root ∈ initiallyRequired generators sourceSets selected,
        ReflTransGen (Needs generators) root name) ∧
      (∀ before name after, order = before ++ name :: after →
        ∀ dependency, Needs generators name dependency → dependency ∈ before) ∧
      ∀ {ρ : Type} (runGenerator : String → Generator → Except BuildError ρ),
        runModuleGenerators moduleName directory generators sourceSets selected runGenerator =
          order.mapM (runNamed moduleName generators runGenerator) >>= fun results =>
            .ok (generatedInputs directory generators order.toFinset, results) := by
  have hclosed : ∀ name dependency, Needs generators name dependency → dependency ∈ generators :=
    fun _ _ hneed => mem_of_mem_dependenciesOf h hneed
  have hacyclic := acyclic_of_validateGenerators h
  refine ⟨hclosed, hacyclic, fun moduleName directory sourceSets selected => ?_⟩
  have hrequired : ∀ name ∈ initiallyRequired generators sourceSets selected, name ∈ generators :=
    fun _ hname => mem_of_initiallyRequired hname
  obtain ⟨closure, hclosure, hmem⟩ := closeRequired_eq_ok moduleName hrequired hclosed
  -- the closure is closed, so the rounds take all of it
  have hwithin : ∀ name ∈ closure.sort (· ≤ ·), ∀ dependency ∈ dependenciesOf generators name,
      dependency ∈ closure.sort (· ≤ ·) := by
    intro name hname dependency hneed
    obtain ⟨root, hroot, hreach⟩ := (hmem name).mp ((Finset.mem_sort _).mp hname)
    exact (Finset.mem_sort _).mpr ((hmem dependency).mpr ⟨root, hroot, hreach.tail hneed⟩)
  obtain ⟨layers, hpeeled, hall, hrounds⟩ := Layers.rounds_of_acyclic hwithin fun name _ => hacyclic name
  have hflatten : ∀ name, name ∈ layers.flatten ↔ name ∈ closure := by
    intro name
    rw [← Finset.mem_sort (· ≤ ·)]
    exact ⟨fun hname => hpeeled.subset hname, fun hname => hall hname⟩
  have hknown : ∀ name ∈ layers.flatten, name ∈ generators := by
    intro name hname
    obtain ⟨root, hroot, hreach⟩ := (hmem name).mp ((hflatten name).mp hname)
    rcases ReflTransGen.cases_tail hreach with rfl | ⟨between, -, hneed⟩
    · exact mem_of_initiallyRequired hroot
    · exact hclosed between name hneed
  refine ⟨layers.flatten, hpeeled.nodup (Finset.sort_nodup _ _), hknown, ?_, ?_, ?_⟩
  · intro name
    rw [hflatten, hmem]
  · intro before name after horder dependency hneed
    have hordered := hpeeled.ordered
    rw [horder] at hordered
    exact hordered.before hneed
  · intro ρ runGenerator
    have hcomplete : layers.flatten.toFinset = closure := by
      ext name
      rw [List.mem_toFinset, hflatten]
    rw [hcomplete, runModuleGenerators]
    split
    · next hempty =>
      -- nothing is declared, so nothing runs
      have hnone : ∀ name, name ∉ generators :=
        Std.ExtTreeMap.eq_empty_iff_forall_not_mem.mp (Std.ExtTreeMap.isEmpty_iff.mp hempty)
      have horder : layers.flatten = [] :=
        List.eq_nil_iff_forall_not_mem.mpr fun name hname => hnone name (hknown name hname)
      rw [← hcomplete, horder]
      show Except.ok ([], []) = Except.ok (generatedInputs directory generators ∅, [])
      simp [generatedInputs]
    · rw [hclosure]
      show (Layers.rounds _ _ _ _ _ _ >>= _) = _
      rw [hrounds, foldlM_runReady]
      cases layers.flatten.mapM (runNamed moduleName generators runGenerator) <;> rfl

end Order

def schemaGenerator : Generator where
  command := ["protoc", "--out=${output.java}"]
  arguments := ["${input}"]
  inputs := ["schema/*.proto"]
  allowEmptyInputs := false
  dependsOn := []
  workingDirectory := none
  environment := ∅
  inheritEnvironment := []
  outputs := .ofList [("java", GeneratorOutput.mk .javaSources .main)]

def modelGenerator : Generator :=
  { schemaGenerator with
    arguments := ["--from=${dependency.schema.java}"]
    dependsOn := ["schema"] }

def layeredGenerators : BTreeMap Generator :=
  .ofList [("model", modelGenerator), ("schema", schemaGenerator)]

theorem layeredGenerators_run_in_order :
    validateGenerators layeredGenerators = .ok () ∧
    (∀ name dependency, Needs layeredGenerators name dependency → dependency ∈ layeredGenerators) ∧
    ∃ order : List String, order.Nodup ∧ "schema" ∈ order ∧ "model" ∈ order ∧
      ∀ before after, order = before ++ "model" :: after → "schema" ∈ before := by
  have h : validateGenerators layeredGenerators = .ok () :=
    Fallible.eq_ok_of_toOption (by decide +kernel)
  obtain ⟨hclosed, -, hruns⟩ := generators_run_in_order layeredGenerators h
  obtain ⟨order, hnodup, -, hmem, hbefore, -⟩ := hruns "app" [] [.main] none
  have hroot : ∀ name ∈ ["model", "schema"],
      name ∈ initiallyRequired layeredGenerators [.main] none := by
    decide +kernel
  refine ⟨h, hclosed, order, hnodup, ?_, ?_, fun before after horder => ?_⟩
  · exact (hmem _).mpr ⟨"schema", hroot _ (by decide), ReflTransGen.refl⟩
  · exact (hmem _).mpr ⟨"model", hroot _ (by decide), ReflTransGen.refl⟩
  · exact hbefore before "model" after horder "schema" (by decide +kernel)

end JMan.Build
