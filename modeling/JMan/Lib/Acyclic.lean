import Mathlib.Data.Finite.Defs
import Mathlib.Data.Set.Finite.Basic
import Mathlib.Logic.Relation
import Mathlib.Order.WellFounded
import Mathlib.Data.Fintype.WithTopBot
import Mathlib.Order.RelClasses
import JMan.Lib.Loop

/-!
# Relations without cycles

Following a relation from a point either stays within finitely many points,
and then ends unless it enters a cycle, or it can be followed forever.

* `acc_of_finite` — a finite part without a cycle is well founded.
* `EntersCycle.step` — from a point that leads into a cycle one step does too.
* `wellFounded_of_acc` — a relation, restricted to the points from which it
  ends, is well founded.
* `exists_returns_iff` — a loop that follows a relation returns unless it is led into
  a cycle.
-/

namespace Acyclic

open Relation (ReflTransGen TransGen)

variable {α : Type*} {r : α → α → Prop} {a b : α}

/-- Following `r` from `a` can lead into a cycle. -/
def EntersCycle (r : α → α → Prop) (a : α) : Prop :=
  ∃ b, ReflTransGen r a b ∧ TransGen r b b

theorem EntersCycle.of_reaches (h : ReflTransGen r a b) (hb : EntersCycle r b) :
    EntersCycle r a := by
  obtain ⟨c, hbc, hcc⟩ := hb
  exact ⟨c, h.trans hbc, hcc⟩

theorem EntersCycle.step (h : EntersCycle r a) : ∃ b, r a b ∧ EntersCycle r b := by
  obtain ⟨c, hac, hcc⟩ := h
  rcases ReflTransGen.cases_head hac with rfl | ⟨b, hab, hbc⟩
  · obtain ⟨b, hab, hba⟩ := TransGen.head'_iff.mp hcc
    exact ⟨b, hab, a, hba, hcc⟩
  · exact ⟨b, hab, c, hbc, hcc⟩

/-- A point whose successors are finitely many and which leads into no cycle is
accessible: every chain from it ends. -/
theorem acc_of_finite (hfin : {b | ReflTransGen r a b}.Finite) (h : ¬ EntersCycle r a) :
    Acc (fun y x => r x y) a := by
  let S := {b // ReflTransGen r a b}
  have : Finite S := hfin
  let lt : S → S → Prop := fun y x => TransGen r x.1 y.1
  have : IsTrans S lt := ⟨fun _ _ _ hxy hyz => hyz.trans hxy⟩
  have : Std.Irrefl lt := ⟨fun x hx => h ⟨x.1, x.2, hx⟩⟩
  have hwf : WellFounded lt := Finite.wellFounded_of_trans_of_irrefl lt
  have key : ∀ x : S, Acc (fun y x => r x y) x.1 := by
    intro x
    induction x using hwf.induction with
    | _ x ih =>
      refine ⟨_, fun y hxy => ?_⟩
      exact ih ⟨y, x.2.tail hxy⟩ (TransGen.single hxy)
  exact key ⟨a, ReflTransGen.refl⟩

theorem wellFounded_of_acc (r : α → α → Prop) :
    WellFounded fun y x => r x y ∧ Acc (fun y x => r x y) x := by
  refine ⟨fun a => ?_⟩
  by_cases ha : Acc (fun y x => r x y) a
  · induction ha with
    | intro x _ ih => exact ⟨x, fun y hy => ih y hy.1⟩
  · exact ⟨a, fun y hy => absurd hy.2 ha⟩

/-- **A loop that follows a relation, along which finitely many points are reached, returns
exactly when it is not led into a cycle.** -/
theorem exists_returns_iff {σ ρ : Type*} {step : σ → Loop.Outcome σ ρ} (place : σ → α)
    (hstep : ∀ s t, step s = .next t → r (place s) (place t))
    (hnext : ∀ s b, r (place s) b → ∃ t, step s = .next t ∧ place t = b) (s : σ)
    (hfin : {b | ReflTransGen r (place s) b}.Finite) :
    (∃ result, Loop.Returns step s result) ↔ ¬ EntersCycle r (place s) := by
  constructor
  · rintro ⟨result, hreturns⟩ hcycle
    have hgoes : ∀ s, EntersCycle r (place s) → ∃ t, step s = .next t ∧ EntersCycle r (place t) := by
      intro a ha
      obtain ⟨b, hab, hb⟩ := ha.step
      obtain ⟨t, ht, rfl⟩ := hnext a b hab
      exact ⟨t, ht, hb⟩
    exact Loop.not_returns_of_closed hgoes hcycle hreturns
  · intro hfree
    have hacc := acc_of_finite hfin hfree
    clear hfin hfree
    generalize ha : place s = a at hacc
    induction hacc generalizing s with
    | intro a _ ih =>
      cases hs : step s with
      | stop result => exact ⟨result, s, Loop.Reaches.refl s, hs⟩
      | next t =>
        obtain ⟨result, hresult⟩ := ih (place t) (ha ▸ hstep s t hs) t rfl
        exact ⟨result, hresult.of_reaches (Loop.Reaches.head hs (Loop.Reaches.refl t))⟩

end Acyclic
