import Mathlib.Data.List.Basic
import Mathlib.Data.Set.Finite.List
import JMan.Lib.Acyclic

/-!
# JMan — the tree of running tests

`HumanTestTree` of `main.rs`: the containers that the test worker reports as started, each
with the parent it was reported with, and the two walks from parent to parent.

* `walks_return_iff` — which walks come to an end.
* `walks_return` — all do when every parent was started before its children.
-/

namespace JMan.Cli

open Acyclic (EntersCycle)
open Relation (ReflTransGen TransGen)

-- Containers
-- ---

inductive TestEventReason where
  | containerStarted
  | containerFinished
  | testStarted
  | testFinished
deriving DecidableEq

/-- What the tree reads of a `TestEvent`. -/
structure TestEvent where
  reason : TestEventReason
  id : String
  parentId : Option String
  className : Option String
  methodName : Option String
deriving DecidableEq

structure TestTreeContainer where
  parentId : Option String
  suite : Bool
deriving DecidableEq

/-- `containers` of `HumanTestTree`; what was put in last is found first. -/
structure HumanTestTree where
  containers : List (String × TestTreeContainer)
deriving DecidableEq

namespace HumanTestTree

def get (tree : HumanTestTree) (id : String) : Option TestTreeContainer := tree.containers.lookup id

def containerStarted (tree : HumanTestTree) (event : TestEvent) : HumanTestTree :=
  let suite := event.className.isSome && event.methodName.isNone
  ⟨(event.id, ⟨event.parentId, suite⟩) :: tree.containers⟩

/-- `report_live_test_event` -/
def report (tree : HumanTestTree) (event : TestEvent) : HumanTestTree :=
  if event.reason = .containerStarted then tree.containerStarted event else tree

def after (events : List TestEvent) : HumanTestTree := events.foldl report ⟨[]⟩

/-- The body of the loop of `nearest_suite`. -/
def nearestSuiteStep (tree : HumanTestTree) : Option String → Loop.Outcome (Option String) (Option String)
  | none => .stop none
  | some identifier =>
    match tree.get identifier with
    | none => .stop none
    | some container => if container.suite then .stop (some identifier) else .next container.parentId

/-- `nearest_suite` returns this. -/
def NearestSuite (tree : HumanTestTree) (identifier : String) (suite : Option String) : Prop :=
  Loop.Returns tree.nearestSuiteStep (some identifier) suite

/-- The body of the loop of `suite_depth`. -/
def suiteDepthStep (tree : HumanTestTree) : Nat × Option String → Loop.Outcome (Nat × Option String) Nat
  | (depth, none) => .stop depth
  | (depth, some identifier) =>
    match tree.get identifier with
    | none => .stop depth
    | some container => .next (if container.suite then depth + 1 else depth, container.parentId)

/-- `suite_depth` returns this. -/
def SuiteDepth (tree : HumanTestTree) (suite : String) (depth : Nat) : Prop :=
  Loop.Returns tree.suiteDepthStep (0, (tree.get suite).bind TestTreeContainer.parentId) depth

-- Parents
-- ---

/-- From a container to what it was reported to be in. -/
def Parent (tree : HumanTestTree) (current parent : Option String) : Prop :=
  ∃ identifier container, current = some identifier ∧ tree.get identifier = some container ∧
    parent = container.parentId

/-- The same from containers that are no suites. -/
def PlainParent (tree : HumanTestTree) (current parent : Option String) : Prop :=
  ∃ identifier container, current = some identifier ∧ tree.get identifier = some container ∧
    container.suite = false ∧ parent = container.parentId

variable {tree : HumanTestTree} {current parent : Option String} {identifier : String}

theorem PlainParent.isParent (h : tree.PlainParent current parent) : tree.Parent current parent := by
  obtain ⟨identifier, container, hcurrent, hget, -, hparent⟩ := h
  exact ⟨identifier, container, hcurrent, hget, hparent⟩

theorem mem_of_lookup {container : TestTreeContainer} {containers : List (String × TestTreeContainer)}
    (h : containers.lookup identifier = some container) : (identifier, container) ∈ containers := by
  obtain ⟨before, after, rfl, -⟩ := List.lookup_eq_some_iff.mp h
  exact List.mem_append_right _ List.mem_cons_self

theorem finite_reached {r : Option String → Option String → Prop} (hr : ∀ a b, r a b → tree.Parent a b)
    (current : Option String) : {b | ReflTransGen r current b}.Finite := by
  let parents := current :: tree.containers.map fun entry => entry.2.parentId
  refine Set.Finite.subset (List.finite_toSet parents) fun b hb => ?_
  cases hb with
  | refl => exact List.mem_cons_self
  | tail _ hlast =>
    obtain ⟨identifier, container, -, hget, rfl⟩ := hr _ _ hlast
    exact List.mem_cons_of_mem _ (List.mem_map.mpr ⟨_, mem_of_lookup hget, rfl⟩)

theorem exists_nearestSuite_iff (tree : HumanTestTree) (identifier : String) :
    (∃ suite, tree.NearestSuite identifier suite) ↔ ¬ EntersCycle tree.PlainParent (some identifier) := by
  refine Acyclic.exists_returns_iff id (fun s t hs => ?_) (fun s b hb => ?_) _
    (finite_reached (fun _ _ => PlainParent.isParent) _)
  · unfold nearestSuiteStep at hs
    split at hs
    · cases hs
    · next identifier =>
      split at hs
      · cases hs
      · next container hget =>
        split at hs
        · cases hs
        · next hplain =>
          cases hs
          exact ⟨identifier, container, rfl, hget, Bool.not_eq_true _ ▸ hplain, rfl⟩
  · obtain ⟨identifier, container, rfl, hget, hplain, rfl⟩ := hb
    refine ⟨container.parentId, ?_, rfl⟩
    show tree.nearestSuiteStep (some identifier) = _
    simp only [nearestSuiteStep, hget, hplain, Bool.false_eq_true, if_false]

theorem exists_depth_iff (tree : HumanTestTree) (depth : Nat) (current : Option String) :
    (∃ result, Loop.Returns tree.suiteDepthStep (depth, current) result) ↔ ¬ EntersCycle tree.Parent current := by
  refine Acyclic.exists_returns_iff Prod.snd (fun s t hs => ?_) (fun s b hb => ?_) _
    (finite_reached (fun _ _ => id) _)
  · obtain ⟨depth, current⟩ := s
    unfold suiteDepthStep at hs
    split at hs
    · cases hs
    · next depth identifier heq =>
      cases heq
      split at hs
      · cases hs
      · next container hget =>
        cases hs
        exact ⟨identifier, container, rfl, hget, rfl⟩
  · obtain ⟨depth, current⟩ := s
    obtain ⟨identifier, container, rfl, hget, rfl⟩ := hb
    refine ⟨(if container.suite then depth + 1 else depth, container.parentId), ?_, rfl⟩
    rw [suiteDepthStep, hget]

theorem entersCycle_parent_iff (tree : HumanTestTree) (identifier : String) :
    EntersCycle tree.Parent ((tree.get identifier).bind TestTreeContainer.parentId) ↔
      EntersCycle tree.Parent (some identifier) := by
  constructor
  · intro h
    cases hget : tree.get identifier with
    | none =>
      rw [hget] at h
      obtain ⟨b, hstep, -⟩ := h.step
      obtain ⟨_, _, habsurd, -⟩ := hstep
      cases habsurd
    | some container =>
      rw [hget] at h
      exact h.of_reaches (.single ⟨identifier, container, rfl, hget, rfl⟩)
  · intro h
    obtain ⟨b, ⟨other, container, hother, hget, rfl⟩, hcycle⟩ := h.step
    cases hother
    rw [hget]
    exact hcycle

/-- **A walk from parent to parent comes to an end exactly when it is not led into a cycle;
the walk to the nearest suite goes through containers that are no suites only.** -/
theorem walks_return_iff (events : List TestEvent) (identifier : String) :
    ((∃ suite, (after events).NearestSuite identifier suite) ↔
        ¬ EntersCycle (after events).PlainParent (some identifier)) ∧
      ((∃ depth, (after events).SuiteDepth identifier depth) ↔
        ¬ EntersCycle (after events).Parent (some identifier)) :=
  ⟨exists_nearestSuite_iff _ _, (exists_depth_iff _ _ _).trans (not_congr (entersCycle_parent_iff _ _))⟩

def selfReferring (suite : Bool) : TestEvent :=
  ⟨.containerStarted, "[engine:a]", some "[engine:a]", if suite then some "A" else none, none⟩

theorem selfReferring_endless :
    (∀ suite, ¬ (after [selfReferring false]).NearestSuite "[engine:a]" suite) ∧
      ∀ depth, ¬ (after [selfReferring true]).SuiteDepth "[engine:a]" depth := by
  refine ⟨fun suite => ?_, fun depth => ?_⟩
  · have hstays : ∀ current, current = some "[engine:a]" → ∃ parent,
        (after [selfReferring false]).nearestSuiteStep current = .next parent ∧ parent = some "[engine:a]" := by
      rintro _ rfl
      exact ⟨_, rfl, rfl⟩
    exact Loop.not_returns_of_closed hstays rfl
  · have hstays : ∀ state : Nat × Option String, state.2 = some "[engine:a]" → ∃ deeper,
        (after [selfReferring true]).suiteDepthStep state = .next deeper ∧ deeper.2 = some "[engine:a]" := by
      rintro ⟨depth, _⟩ rfl
      exact ⟨_, rfl, rfl⟩
    exact Loop.not_returns_of_closed hstays rfl

-- Parents before children
-- ---

def Grows (tree : HumanTestTree) (event : TestEvent) : Prop :=
  event.reason = .containerStarted → tree.get event.id = none ∧
    ∀ parent, event.parentId = some parent → (tree.get parent).isSome

structure Grown (tree : HumanTestTree) : Prop where
  known : ∀ current parent, tree.Parent current (some parent) → (tree.get parent).isSome
  free : ∀ current, ¬ TransGen tree.Parent current current

theorem get_containerStarted (tree : HumanTestTree) (event : TestEvent) (identifier : String) :
    (tree.containerStarted event).get identifier =
      if identifier = event.id then
        some ⟨event.parentId, event.className.isSome && event.methodName.isNone⟩
      else tree.get identifier := by
  unfold get containerStarted
  rw [List.lookup_cons]
  by_cases h : identifier = event.id
  · rw [if_pos h, beq_iff_eq.mpr h]
  · rw [if_neg h, beq_false_of_ne h]

theorem parent_containerStarted {event : TestEvent}
    (h : (tree.containerStarted event).Parent current parent) :
    (current = some event.id ∧ parent = event.parentId) ∨ tree.Parent current parent := by
  obtain ⟨identifier, container, rfl, hget, rfl⟩ := h
  rw [get_containerStarted] at hget
  split at hget
  · next heq =>
    cases hget
    exact .inl ⟨congrArg some heq, rfl⟩
  · exact .inr ⟨identifier, container, rfl, hget, rfl⟩

theorem Grown.report (h : tree.Grown) {event : TestEvent} (hgrows : tree.Grows event) :
    (tree.report event).Grown := by
  unfold HumanTestTree.report
  split
  · next hreason =>
    obtain ⟨hnew, hparent⟩ := hgrows hreason
    -- no container is in the new one
    have hnone : ∀ current, ¬ (tree.containerStarted event).Parent current (some event.id) := by
      intro current hin
      rcases parent_containerStarted hin with ⟨-, heq⟩ | hold
      · have hsome := hparent _ heq.symm
        rw [hnew] at hsome
        cases hsome
      · have hsome := h.known _ _ hold
        rw [hnew] at hsome
        cases hsome
    have hold : ∀ {a b}, TransGen (tree.containerStarted event).Parent a b → a ≠ some event.id →
        TransGen tree.Parent a b := by
      intro a b hab ha
      induction hab with
      | single hstep =>
        rcases parent_containerStarted hstep with ⟨heq, -⟩ | hin
        · exact absurd heq ha
        · exact .single hin
      | @tail b c hreach hstep ih =>
        rcases parent_containerStarted hstep with ⟨heq, -⟩ | hin
        · obtain ⟨last, -, hlast⟩ := TransGen.tail'_iff.mp hreach
          exact absurd (heq ▸ hlast) (hnone last)
        · exact ih.tail hin
    refine ⟨fun current parent hin => ?_, fun current hcycle => ?_⟩
    · rw [get_containerStarted]
      split
      · rfl
      · rcases parent_containerStarted hin with ⟨-, heq⟩ | hin
        · exact hparent parent heq.symm
        · exact h.known _ _ hin
    · have hne : current ≠ some event.id := by
        rintro rfl
        obtain ⟨last, -, hlast⟩ := TransGen.tail'_iff.mp hcycle
        exact hnone last hlast
      exact h.free current (hold hcycle hne)
  · exact h

theorem Grown.after {events : List TestEvent} (h : Loop.Guarded Grows HumanTestTree.report ⟨[]⟩ events) :
    (HumanTestTree.after events).Grown := by
  refine h.invariant Grown (fun tree event _ hgrown hgrows => hgrown.report hgrows) ⟨?_, fun current hcycle => ?_⟩
  · rintro current parent ⟨_, _, _, habsurd, _⟩
    cases habsurd
  · obtain ⟨_, ⟨_, _, _, habsurd, _⟩, _⟩ := TransGen.head'_iff.mp hcycle
    cases habsurd

/-- **No walk is endless** where every container is started once, and after its parent. -/
theorem walks_return {events : List TestEvent} (h : Loop.Guarded Grows HumanTestTree.report ⟨[]⟩ events)
    (identifier : String) :
    (∃ suite, (after events).NearestSuite identifier suite) ∧
      ∃ depth, (after events).SuiteDepth identifier depth := by
  have hfree : ∀ {r}, (∀ a b, r a b → (after events).Parent a b) → ∀ start, ¬ EntersCycle r start := by
    rintro r hr start ⟨current, -, hcycle⟩
    exact (Grown.after h).free current (TransGen.mono hr _ _ hcycle)
  exact ⟨(exists_nearestSuite_iff _ _).mpr (hfree (fun _ _ => PlainParent.isParent) _),
    (exists_depth_iff _ _ _).mpr (hfree (fun _ _ => id) _)⟩

def nested : List TestEvent :=
  [⟨.containerStarted, "[a]", none, none, none⟩, ⟨.containerStarted, "[b]", some "[a]", some "B", none⟩]

theorem walks_return_nested :
    (∃ suite, (after nested).NearestSuite "[b]" suite) ∧ ∃ depth, (after nested).SuiteDepth "[b]" depth := by
  have hguarded : Loop.Guarded Grows HumanTestTree.report ⟨[]⟩ nested :=
    ⟨fun _ => ⟨rfl, by rintro _ ⟨⟩⟩, fun _ => ⟨by decide, by rintro _ ⟨⟩; decide⟩, trivial⟩
  exact walks_return hguarded "[b]"

end HumanTestTree

end JMan.Cli
