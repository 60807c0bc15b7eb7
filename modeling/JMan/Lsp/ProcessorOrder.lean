import Mathlib.Data.Prod.Lex
import Mathlib.Data.String.Basic
import JMan.Lib.Tangles
import JMan.Lsp.CompileModel

/-!
# JMan — the order of annotation processing

`order_processor_models` of `native_backend.rs`: compile units are listed one by one, the
first that waits for no other, or if all wait the first of all, main units before others.
A unit waits for every unit of the projects it depends on, test units included, so what
waits in a circle need not be the main units.

* `orderProcessorModels_exact` — when every unit is listed behind the main units it needs.
-/

namespace JMan.Lsp

open JMan.Tangles (Tangle Harmless Within)

-- The order
-- ---

namespace CompileModel

variable (model : CompileModel)

/-- `is_main_compile_model` -/
def isMain : Bool := isMainCompileTask model.taskPath

/-- `candidate` is not listed while `dependency` remains. -/
def waitsFor (candidate dependency : CompileModel) : Bool :=
  (candidate.projectDependencies.contains dependency.projectPath ||
    (!candidate.isMain && (dependency.isMain && candidate.projectPath == dependency.projectPath))) &&
    candidate.key != dependency.key

def processorRank : Bool ×ₗ (String ×ₗ String) := toLex (!model.isMain, toLex (model.projectPath, model.taskPath))

end CompileModel

def orderProcessorModels (models : List CompileModel) : List CompileModel :=
  Tangles.order CompileModel.waitsFor CompileModel.processorRank models

-- What an order is to be
-- ---

/-- A unit needs another one: the main unit of a project it depends on, or of its own. -/
def CompileModel.Needs (model other : CompileModel) : Prop :=
  other.isMain = true ∧ model.key ≠ other.key ∧
    (other.projectPath ∈ model.projectDependencies ∨ (model.isMain = false ∧ model.projectPath = other.projectPath))

/-- All units are listed, each behind the main units it needs, in whichever order they came. -/
structure ProcessorOrder (models ordered : List CompileModel) : Prop where
  complete : ordered.Perm models
  placed : ordered.Pairwise fun model later => ¬ model.Needs later
  independent : (models.map CompileModel.key).Nodup → ∀ others, others.Perm models →
    orderProcessorModels others = ordered

def AcyclicMains (models : List CompileModel) : Prop :=
  ∀ model, ¬ Relation.TransGen (fun a b => a ∈ models ∧ b ∈ models ∧ a.isMain = true ∧ b.isMain = true ∧
    b.projectPath ∈ a.projectDependencies) model model

section Order

variable {models : List CompileModel} {model other : CompileModel}

theorem CompileModel.Needs.waitsFor (h : model.Needs other) : model.waitsFor other = true := by
  obtain ⟨hmain, hkey, hproject⟩ := h
  rw [CompileModel.waitsFor, Bool.and_eq_true, Bool.or_eq_true, bne_iff_ne]
  refine ⟨?_, hkey⟩
  rcases hproject with hdepends | ⟨hother, hown⟩
  · exact .inl (List.contains_iff_mem.mpr hdepends)
  · right
    rw [hother, hmain, hown, BEq.rfl]
    rfl

theorem nodup_processorRank (h : (models.map CompileModel.key).Nodup) :
    (models.map CompileModel.processorRank).Nodup := by
  refine List.Nodup.map_on (fun a ha b hb hrank => List.inj_on_of_nodup_map h ha hb ?_) (List.Nodup.of_map _ h)
  obtain ⟨hproject, htask⟩ := Prod.mk.inj (toLex.injective (Prod.mk.inj (toLex.injective hrank)).2)
  rw [CompileModel.key, CompileModel.key, hproject, htask]

theorem processorOrder_iff (models : List CompileModel) : ProcessorOrder models (orderProcessorModels models) ↔
    (orderProcessorModels models).Pairwise fun model later => ¬ model.Needs later := by
  refine ⟨fun h => h.placed, fun h => ⟨Tangles.order_perm _ _ _, h, fun hnodup others hperm => ?_⟩⟩
  exact (Tangles.order_eq_of_perm hperm.symm (nodup_processorRank hnodup)).symm

/-- **The order of processing.** All units are listed, and the order they came in does not
matter. Each is behind the main units it needs exactly if, whenever units wait for a circle,
the first of them needs none of the others. -/
theorem orderProcessorModels_exact (models : List CompileModel) :
    ProcessorOrder models (orderProcessorModels models) ↔
      ∀ units, Tangle CompileModel.waitsFor CompileModel.processorRank models units →
        Harmless CompileModel.Needs CompileModel.processorRank units :=
  (processorOrder_iff models).trans (Tangles.order_sound_iff (fun _ _ h => h.waitsFor) models)

theorem orderProcessorModels_of_acyclic
    (h : ∀ model ∈ models, ¬ Acyclic.EntersCycle (Within CompileModel.waitsFor models) model) :
    ProcessorOrder models (orderProcessorModels models) := by
  refine (processorOrder_iff models).mpr ((Tangles.order_sound_iff (fun _ _ h => h.waitsFor) models).mpr ?_)
  intro units hunits
  rw [Tangles.tangle_eq_nil h hunits]
  exact fun _ hleast => by cases hleast

end Order

def unitModel (project task : String) (dependencies : List String) : CompileModel :=
  ⟨1, "gradle", project, [], task, [], [], [], [], dependencies, [], [], none, none, [], none⟩

def testCircle : List CompileModel :=
  [unitModel ":x" ":x:compileJava" [":y"], unitModel ":y" ":y:compileJava" [":z"],
    unitModel ":z" ":z:compileJava" [], unitModel ":z" ":z:compileTestJava" [":y"]]

theorem testCircle_acyclicMains : AcyclicMains testCircle := by
  have hless : ∀ a ∈ testCircle, ∀ b ∈ testCircle, a.isMain = true → b.isMain = true →
      b.projectPath ∈ a.projectDependencies → a.projectPath < b.projectPath := by decide +kernel
  intro model hcircle
  have hchain : model.projectPath < model.projectPath := by
    refine Relation.TransGen.trans_induction_on (motive := fun {a b} _ => a.projectPath < b.projectPath) hcircle ?_ ?_
    · rintro a b ⟨ha, hb, hmain, hmain', hdepends⟩
      exact hless a ha b hb hmain hmain' hdepends
    · exact fun _ _ hab hbc => hab.trans hbc
  exact lt_irrefl _ hchain

theorem test_circle_misplaces : AcyclicMains testCircle ∧
    ¬ ProcessorOrder testCircle (orderProcessorModels testCircle) := by
  refine ⟨testCircle_acyclicMains, fun h => ?_⟩
  have horder : orderProcessorModels testCircle = [unitModel ":z" ":z:compileJava" [],
      unitModel ":x" ":x:compileJava" [":y"], unitModel ":y" ":y:compileJava" [":z"],
      unitModel ":z" ":z:compileTestJava" [":y"]] := by decide +kernel
  have hplaced := h.placed
  rw [horder] at hplaced
  have hfirst := (List.pairwise_cons.mp (List.pairwise_cons.mp hplaced).2).1 _ List.mem_cons_self
  exact hfirst ⟨by decide, by decide, .inl (by decide)⟩

end JMan.Lsp
