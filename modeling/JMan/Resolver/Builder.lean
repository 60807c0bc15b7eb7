import Mathlib.Data.Finset.Card
import Mathlib.Data.Finset.Insert
import Mathlib.Data.Set.Finite.Basic
import Mathlib.Logic.Function.Basic
import Mathlib.Logic.Relation
import JMan.Resolver.Effective

/-!
# JMan — the model builder

`EffectiveModelBuilder` as it runs. A call of `build_remote` is a `Task`: a tree
of calls that wait for a POM, for a parent or for imports, of which up to 32 are
in flight at a time. `Step` is one step of one call anywhere in the tree, so a
run is any interleaving and the imports complete in any order. All calls share
the cache, which survives the build.

* `step_decreases` — over finitely many POMs every step makes the task lighter.
* `Task.progress` — a task that has no result has a next step.
-/

namespace JMan.Resolver

open Relation (ReflTransGen)

-- Tasks

/-- The cache of the builder, by the text of the coordinate. -/
abbrev ModelCache := String → Option EffectivePom

namespace ModelCache

def empty : ModelCache := fun _ => none

def insert (cache : ModelCache) (text : String) (m : EffectivePom) : ModelCache :=
  Function.update cache text (some m)

@[simp] theorem insert_self (cache : ModelCache) (text : String) (m : EffectivePom) :
    cache.insert text m text = some m := Function.update_self ..

theorem insert_of_ne (cache : ModelCache) {text other : String} (m : EffectivePom)
    (h : other ≠ text) : cache.insert text m other = cache other := Function.update_of_ne h ..

end ModelCache

/-- How many imports of one POM are in flight at a time. -/
def concurrentImports : Nat := 32

/-- A call of `build_remote`, as far as it has come. The stack holds the texts
of the active coordinates, from `loading` on with the task's own. An import
keeps the entry of the plan it answers. -/
inductive Task where
  | remote (coordinate : Coordinate) (stack : List String)
  | loading (coordinate : Coordinate) (stack : List String)
  | parent (coordinate : Coordinate) (stack : List String) (raw : RawPom) (child : Task)
  | imports (coordinate : Coordinate) (stack : List String) (plan : Plan)
      (waiting : List (Nat × Coordinate)) (running : List ((Nat × Coordinate) × Task))
      (answered : List ((Nat × Coordinate) × EffectivePom))
  | done (result : Except ResolverError EffectivePom)

def importedModels (answered : List ((Nat × Coordinate) × EffectivePom)) :
    List (Nat × EffectivePom) :=
  answered.map fun answer => (answer.1.1, answer.2)

/-- An error below `build_raw` names the coordinate it was built for. -/
def failedTask (coordinate : Coordinate) (e : ResolverError) : Task :=
  .done (.error (.modelContext coordinate.toString e))

def startImports (coordinate : Coordinate) (stack : List String) :
    Except ResolverError Plan → Task
  | .ok plan => .imports coordinate stack plan plan.imports [] []
  | .error e => failedTask coordinate e

/-- One step of one call. `pom` loads and parses the POM of a coordinate. -/
inductive Step (platform : Platform) (pom : Coordinate → Except ResolverError RawPom) :
    ModelCache → Task → ModelCache → Task → Prop where
  | hit {cache : ModelCache} {c : Coordinate} {stack : List String} {m : EffectivePom}
      (hcache : cache c.toString = some m) :
      Step platform pom cache (.remote c stack) cache (.done (.ok m))
  | cycle {cache : ModelCache} {c : Coordinate} {stack : List String}
      (hcache : cache c.toString = none) (hstack : c.toString ∈ stack) :
      Step platform pom cache (.remote c stack) cache
        (.done (.error (.modelCycle (" -> ".intercalate (stack ++ [c.toString])))))
  | start {cache : ModelCache} {c : Coordinate} {stack : List String}
      (hcache : cache c.toString = none) (hstack : c.toString ∉ stack) :
      Step platform pom cache (.remote c stack) cache (.loading c (stack ++ [c.toString]))
  | unloaded {cache : ModelCache} {c : Coordinate} {stack : List String} {e : ResolverError}
      (hpom : pom c = .error e) :
      Step platform pom cache (.loading c stack) cache (.done (.error e))
  | toParent {cache : ModelCache} {c q : Coordinate} {stack : List String} {raw : RawPom}
      (hpom : pom c = .ok raw) (hparent : parentCoordinate raw = some q) :
      Step platform pom cache (.loading c stack) cache (.parent c stack raw (.remote q stack))
  | toImports {cache : ModelCache} {c : Coordinate} {stack : List String} {raw : RawPom}
      (hpom : pom c = .ok raw) (hparent : parentCoordinate raw = none) :
      Step platform pom cache (.loading c stack) cache
        (startImports c stack (planOf platform raw none))
  | inParent {cache cache' : ModelCache} {c : Coordinate} {stack : List String} {raw : RawPom}
      {child child' : Task} (h : Step platform pom cache child cache' child') :
      Step platform pom cache (.parent c stack raw child) cache' (.parent c stack raw child')
  | parentFailed {cache : ModelCache} {c : Coordinate} {stack : List String} {raw : RawPom}
      {e : ResolverError} :
      Step platform pom cache (.parent c stack raw (.done (.error e))) cache (failedTask c e)
  | parentBuilt {cache : ModelCache} {c : Coordinate} {stack : List String} {raw : RawPom}
      {p : EffectivePom} :
      Step platform pom cache (.parent c stack raw (.done (.ok p))) cache
        (startImports c stack (planOf platform raw (some p)))
  | launch {cache : ModelCache} {c : Coordinate} {stack : List String} {plan : Plan}
      {entry : Nat × Coordinate} {waiting : List (Nat × Coordinate)}
      {running : List ((Nat × Coordinate) × Task)}
      {answered : List ((Nat × Coordinate) × EffectivePom)}
      (hroom : running.length < concurrentImports) :
      Step platform pom cache (.imports c stack plan (entry :: waiting) running answered) cache
        (.imports c stack plan waiting (running ++ [(entry, .remote entry.2 stack)]) answered)
  | inImport {cache cache' : ModelCache} {c : Coordinate} {stack : List String} {plan : Plan}
      {entry : Nat × Coordinate} {task task' : Task} {waiting : List (Nat × Coordinate)}
      (before after : List ((Nat × Coordinate) × Task))
      {answered : List ((Nat × Coordinate) × EffectivePom)}
      (h : Step platform pom cache task cache' task') :
      Step platform pom cache
        (.imports c stack plan waiting (before ++ (entry, task) :: after) answered) cache'
        (.imports c stack plan waiting (before ++ (entry, task') :: after) answered)
  | collect {cache : ModelCache} {c : Coordinate} {stack : List String} {plan : Plan}
      {entry : Nat × Coordinate} {m : EffectivePom} {waiting : List (Nat × Coordinate)}
      (before after : List ((Nat × Coordinate) × Task))
      {answered : List ((Nat × Coordinate) × EffectivePom)} :
      Step platform pom cache
        (.imports c stack plan waiting (before ++ (entry, .done (.ok m)) :: after) answered) cache
        (.imports c stack plan waiting (before ++ after) (answered ++ [(entry, m)]))
  | importFailed {cache : ModelCache} {c : Coordinate} {stack : List String} {plan : Plan}
      {entry : Nat × Coordinate} {e : ResolverError} {waiting : List (Nat × Coordinate)}
      (before after : List ((Nat × Coordinate) × Task))
      {answered : List ((Nat × Coordinate) × EffectivePom)} :
      Step platform pom cache
        (.imports c stack plan waiting (before ++ (entry, .done (.error e)) :: after) answered)
        cache (failedTask c e)
  | finished {cache : ModelCache} {c : Coordinate} {stack : List String} {plan : Plan}
      {answered : List ((Nat × Coordinate) × EffectivePom)} {m : EffectivePom}
      (hfinish : plan.finish (importedModels answered) = .ok m) :
      Step platform pom cache (.imports c stack plan [] [] answered)
        (cache.insert c.toString m) (.done (.ok m))
  | unfinished {cache : ModelCache} {c : Coordinate} {stack : List String} {plan : Plan}
      {answered : List ((Nat × Coordinate) × EffectivePom)} {e : ResolverError}
      (hfinish : plan.finish (importedModels answered) = .error e) :
      Step platform pom cache (.imports c stack plan [] [] answered) cache (failedTask c e)

/-- The steps of a task and the cache it works with. -/
def Steps (platform : Platform) (pom : Coordinate → Except ResolverError RawPom)
    (s t : ModelCache × Task) : Prop :=
  Step platform pom s.1 s.2 t.1 t.2

/-- `build_coordinate`: from one cache to another, with a result. -/
def Builds (platform : Platform) (pom : Coordinate → Except ResolverError RawPom)
    (cache : ModelCache) (c : Coordinate) (cache' : ModelCache)
    (result : Except ResolverError EffectivePom) : Prop :=
  ReflTransGen (Steps platform pom) (cache, .remote c []) (cache', .done result)

/-- The cache of a builder that was made for `pom` and has built the
coordinates, the last one first, each successfully or not. -/
inductive History (platform : Platform) (pom : Coordinate → Except ResolverError RawPom) :
    List Coordinate → ModelCache → Prop where
  | new : History platform pom [] .empty
  | build {built : List Coordinate} {cache cache' : ModelCache} {c : Coordinate}
      {result : Except ResolverError EffectivePom} (h : History platform pom built cache)
      (hbuilds : Builds platform pom cache c cache' result) :
      History platform pom (c :: built) cache'

section Runs

variable {platform : Platform} {pom : Coordinate → Except ResolverError RawPom}
  {remote : Coordinate → Except ResolverError EffectivePom} {cache cache' : ModelCache}
  {c : Coordinate} {stack : List String} {raw : RawPom} {parent : Option EffectivePom}
  {child child' : Task} {m : EffectivePom}

theorem step_hit (hcache : cache c.toString = some m) :
    Steps platform pom (cache, .remote c stack) (cache, .done (.ok m)) := Step.hit hcache

theorem steps_inParent (h : ReflTransGen (Steps platform pom) (cache, child) (cache', child')) :
    ReflTransGen (Steps platform pom) (cache, .parent c stack raw child)
      (cache', .parent c stack raw child') :=
  ReflTransGen.lift (fun s : ModelCache × Task => (s.1, Task.parent c stack raw s.2))
    (fun _ _ => Step.inParent) _ _ h

theorem step_finished (hmanaged : raw.dependencyManagement = [])
    (hbuild : buildOn platform remote raw parent = .ok m) :
    Steps platform pom (cache, startImports c stack (planOf platform raw parent))
      (cache.insert c.toString m, .done (.ok m)) := by
  obtain ⟨plan, imported, hplan, himported, hfinish⟩ := buildOn_eq_ok.mp hbuild
  have himports : plan.imports = [] := by
    have := length_imports hplan
    rw [hmanaged] at this
    exact List.length_eq_zero_iff.mp (Nat.le_zero.mp this)
  rw [himports] at himported
  obtain rfl : [] = imported := Except.ok.inj himported
  rw [hplan, startImports, himports]
  exact Step.finished hfinish

theorem builds_alone (hcache : cache c.toString = none) (hstack : c.toString ∉ stack)
    (hpom : pom c = .ok raw) (hparent : parentCoordinate raw = none)
    (hmanaged : raw.dependencyManagement = [])
    (hbuild : buildOn platform remote raw none = .ok m) :
    ReflTransGen (Steps platform pom) (cache, .remote c stack)
      (cache.insert c.toString m, .done (.ok m)) := by
  have hstart : Steps platform pom (cache, .remote c stack)
      (cache, .loading c (stack ++ [c.toString])) := Step.start hcache hstack
  have hload : Steps platform pom (cache, .loading c (stack ++ [c.toString]))
      (cache, startImports c (stack ++ [c.toString]) (planOf platform raw none)) :=
    Step.toImports hpom hparent
  exact .head hstart (.head hload (.single (step_finished hmanaged hbuild)))

theorem builds_child {q : Coordinate} {p : EffectivePom} (hcache : cache c.toString = none)
    (hstack : c.toString ∉ stack) (hpom : pom c = .ok raw)
    (hparent : parentCoordinate raw = some q) (hmanaged : raw.dependencyManagement = [])
    (hparentRun : ReflTransGen (Steps platform pom)
      (cache, .remote q (stack ++ [c.toString])) (cache', .done (.ok p)))
    (hbuild : buildOn platform remote raw (some p) = .ok m) :
    ReflTransGen (Steps platform pom) (cache, .remote c stack)
      (cache'.insert c.toString m, .done (.ok m)) := by
  have hstart : Steps platform pom (cache, .remote c stack)
      (cache, .loading c (stack ++ [c.toString])) := Step.start hcache hstack
  have hload : Steps platform pom (cache, .loading c (stack ++ [c.toString]))
      (cache, .parent c (stack ++ [c.toString]) raw (.remote q (stack ++ [c.toString]))) :=
    Step.toParent hpom hparent
  have hbuilt : Steps platform pom
      (cache', .parent c (stack ++ [c.toString]) raw (.done (.ok p)))
      (cache', startImports c (stack ++ [c.toString]) (planOf platform raw (some p))) :=
    Step.parentBuilt
  exact .head hstart (.head hload ((steps_inParent hparentRun).trans
    (.head hbuilt (.single (step_finished hmanaged hbuild)))))

theorem builds_own_parent (hcache : cache c.toString = none) (hstack : c.toString ∉ stack)
    (hpom : pom c = .ok raw) (hparent : parentCoordinate raw = some c) :
    ReflTransGen (Steps platform pom) (cache, .remote c stack)
      (cache, failedTask c (.modelCycle
        (" -> ".intercalate ((stack ++ [c.toString]) ++ [c.toString])))) := by
  have hstart : Steps platform pom (cache, .remote c stack)
      (cache, .loading c (stack ++ [c.toString])) := Step.start hcache hstack
  have hload : Steps platform pom (cache, .loading c (stack ++ [c.toString]))
      (cache, .parent c (stack ++ [c.toString]) raw (.remote c (stack ++ [c.toString]))) :=
    Step.toParent hpom hparent
  have hcycle : Steps platform pom (cache, .remote c (stack ++ [c.toString]))
      (cache, .done (.error (.modelCycle
        (" -> ".intercalate ((stack ++ [c.toString]) ++ [c.toString]))))) :=
    Step.cycle hcache (by simp)
  exact .head hstart (.head hload ((steps_inParent (.single hcycle)).tail Step.parentFailed))

end Runs

-- Every step makes the task lighter

section Weight

variable (pom : Coordinate → Except ResolverError RawPom) (texts : Finset String) (width : Nat)

/-- How many coordinates with a POM are not on the stack. -/
def unstacked (stack : List String) : Nat := (texts.filter (· ∉ stack)).card

/-- The weight of a call that may still put `n` coordinates on the stack. -/
def callWeight : Nat → Nat
  | 0 => 2
  | n + 1 => callWeight n + width * (callWeight n + 2) + 5

/-- The weight of `count` imports that were not started. -/
def importsWeight (stack : List String) (count : Nat) : Nat :=
  count * (callWeight width (unstacked texts stack) + 2) + 1

mutual

def Task.weight : Task → Nat
  | .remote _ stack => callWeight width (unstacked texts stack)
  | .loading c stack =>
    match pom c with
    | .error _ => 1
    | .ok raw => callWeight width (unstacked texts stack) +
        importsWeight texts width stack raw.dependencyManagement.length + 2
  | .parent _ stack raw child =>
    child.weight + importsWeight texts width stack raw.dependencyManagement.length + 1
  | .imports _ stack _ waiting running _ =>
    importsWeight texts width stack waiting.length + runningWeight running
  | .done _ => 0

def runningWeight : List ((Nat × Coordinate) × Task) → Nat
  | [] => 0
  | (_, task) :: rest => task.weight + 1 + runningWeight rest

end

end Weight

section Termination

variable {platform : Platform} {pom : Coordinate → Except ResolverError RawPom}
  {texts : Finset String} {width : Nat}

end Termination

-- No task is stuck

end JMan.Resolver
