import Mathlib.Data.List.Sort
import JMan.Lib.Acyclic
import JMan.Resolver.Inheritance

/-!
# JMan — what a repository of POMs means

`Models pom c m`: the repository `pom` gives the coordinate `c` the effective
model `m`. It knows of no cache, no chain of active coordinates and no order of
completion: a coordinate has a model when its parent and its imports have
theirs and the stages of `build_raw` succeed on them.

* `Models.unique` — a coordinate has at most one model.
* `Models.acc` — a coordinate with a model needs no coordinate forever.
* `Fault` — why a coordinate has none, with the error that says so.
-/

namespace JMan.Resolver

open Fallible (bind_eq_ok map_eq_ok exists_mapM_eq_ok)
open Relation (ReflTransGen TransGen)
open Acyclic (EntersCycle)

-- Models

section Models

variable (platform : Platform) (pom : Coordinate → Except ResolverError RawPom)

/-- The coordinate has the model: its POM builds to it with answers that are
models themselves. -/
inductive Models : Coordinate → EffectivePom → Prop where
  | intro {c : Coordinate} {raw : RawPom} {m : EffectivePom}
      (remote : Coordinate → Except ResolverError EffectivePom)
      (hremote : ∀ d p, remote d = .ok p → Models d p) (hpom : pom c = .ok raw)
      (hbuild : buildRaw platform remote raw = .ok m) : Models c m

open Classical in
/-- The model of a coordinate, as an answer. -/
noncomputable def modelOf (c : Coordinate) : Except ResolverError EffectivePom :=
  if h : ∃ m, Models platform pom c m then .ok h.choose else .error (.offlineMiss c.toString)

end Models

section Unique

variable {platform : Platform} {pom : Coordinate → Except ResolverError RawPom}
  {c d : Coordinate} {raw : RawPom} {m n : EffectivePom}

def eitherAnswer (remote remote' : Coordinate → Except ResolverError EffectivePom)
    (c : Coordinate) : Except ResolverError EffectivePom :=
  match remote c with
  | .ok p => .ok p
  | .error _ => remote' c

theorem buildRaw_agree {remote remote' : Coordinate → Except ResolverError EffectivePom}
    (hagree : ∀ d p q, remote d = .ok p → remote' d = .ok q → p = q)
    (hm : buildRaw platform remote raw = .ok m) (hn : buildRaw platform remote' raw = .ok n) :
    m = n := by
  -- both builds can be run with the answers of either
  have hleft : buildRaw platform (eitherAnswer remote remote') raw = .ok m := by
    refine buildRaw_mono (fun d p hp => ?_) hm
    simp only [eitherAnswer, hp]
  have hright : buildRaw platform (eitherAnswer remote remote') raw = .ok n := by
    refine buildRaw_mono (fun d q hq => ?_) hn
    rw [eitherAnswer]
    cases hp : remote d with
    | error e => exact hq
    | ok p => rw [hagree d p q hp hq]
  exact Except.ok.inj (hleft.symm.trans hright)

theorem Models.unique (hm : Models platform pom c m) (hn : Models platform pom c n) : m = n := by
  induction hm generalizing n with
  | intro remote hremote hpom hbuild ih =>
    obtain ⟨remote', hremote', hpom', hbuild'⟩ := hn
    obtain rfl := Except.ok.inj (hpom.symm.trans hpom')
    exact buildRaw_agree (fun d p q hp hq => ih d p hp (hremote' d q hq)) hbuild hbuild'

@[simp] theorem modelOf_eq_ok : modelOf platform pom c = .ok m ↔ Models platform pom c m := by
  unfold modelOf
  split
  · rename_i h
    constructor
    · intro hm
      exact Except.ok.inj hm ▸ h.choose_spec
    · intro hm
      rw [h.choose_spec.unique hm]
  · rename_i h
    constructor
    · intro hm
      cases hm
    · exact fun hm => absurd ⟨m, hm⟩ h

theorem models_iff : Models platform pom c m ↔
    ∃ raw, pom c = .ok raw ∧ buildRaw platform (modelOf platform pom) raw = .ok m := by
  constructor
  · rintro ⟨remote, hremote, hpom, hbuild⟩
    exact ⟨_, hpom, buildRaw_mono (fun d p hp => modelOf_eq_ok.mpr (hremote d p hp)) hbuild⟩
  · rintro ⟨raw, hpom, hbuild⟩
    exact .intro (modelOf platform pom) (fun d p hp => modelOf_eq_ok.mp hp) hpom hbuild

theorem Models.of_pom_eq (h : Models platform pom c m) (hpom : pom c = pom d) :
    Models platform pom d m := by
  obtain ⟨raw, hraw, hbuild⟩ := models_iff.mp h
  exact models_iff.mpr ⟨raw, hpom ▸ hraw, hbuild⟩

end Unique

-- What a coordinate needs

/-- Building `c` asks for another coordinate: the parent, or an import that the
plan made with the parent's model asks for. -/
inductive Needs (platform : Platform) (pom : Coordinate → Except ResolverError RawPom) :
    Coordinate → Coordinate → Prop where
  | parent {c d : Coordinate} {raw : RawPom} (hpom : pom c = .ok raw)
      (hparent : parentCoordinate raw = some d) : Needs platform pom c d
  | bom {c d : Coordinate} {raw : RawPom} {parent : Option EffectivePom} {plan : Plan}
      (index : Nat) (hpom : pom c = .ok raw)
      (hparent : loadParent (modelOf platform pom) raw = .ok parent)
      (hplan : planOf platform raw parent = .ok plan) (hmem : (index, d) ∈ plan.imports) :
      Needs platform pom c d

/-- The stage at which the coordinate itself fails, and its error. -/
inductive OwnFault (platform : Platform) (pom : Coordinate → Except ResolverError RawPom)
    (c : Coordinate) : ResolverError → Prop where
  | unloaded {e : ResolverError} (h : pom c = .error e) : OwnFault platform pom c e
  | unplanned {raw : RawPom} {parent : Option EffectivePom} {e : ResolverError}
      (hpom : pom c = .ok raw) (hparent : loadParent (modelOf platform pom) raw = .ok parent)
      (h : planOf platform raw parent = .error e) :
      OwnFault platform pom c (.modelContext c.toString e)
  | unfinished {raw : RawPom} {parent : Option EffectivePom} {plan : Plan}
      {imported : List (Nat × EffectivePom)} {e : ResolverError} (hpom : pom c = .ok raw)
      (hparent : loadParent (modelOf platform pom) raw = .ok parent)
      (hplan : planOf platform raw parent = .ok plan)
      (himported : loadImports (modelOf platform pom) plan.imports = .ok imported)
      (h : plan.finish imported = .error e) :
      OwnFault platform pom c (.modelContext c.toString e)

/-- Why a coordinate has no model, with an error that says so. -/
inductive Fault (platform : Platform) (pom : Coordinate → Except ResolverError RawPom) :
    Coordinate → ResolverError → Prop where
  | own {c : Coordinate} {e : ResolverError} (h : OwnFault platform pom c e) :
      Fault platform pom c e
  | cycle {c : Coordinate} (chain : String) (h : TransGen (Needs platform pom) c c) :
      Fault platform pom c (.modelCycle chain)
  | needed {c d : Coordinate} {e : ResolverError} (hneeds : Needs platform pom c d)
      (h : Fault platform pom d e) : Fault platform pom c (.modelContext c.toString e)

/-- The error under the coordinates it was passed through. -/
def ResolverError.rootCause : ResolverError → ResolverError
  | .modelContext _ source => source.rootCause
  | e => e

section Faults

variable {platform : Platform} {pom : Coordinate → Except ResolverError RawPom}
  {c d : Coordinate} {m : EffectivePom} {e : ResolverError}

theorem Needs.of_pom_eq {c' : Coordinate} (h : Needs platform pom c d) (hpom : pom c = pom c') :
    Needs platform pom c' d := by
  cases h with
  | parent hraw hparent => exact .parent (hpom ▸ hraw) hparent
  | bom index hraw hparent hplan hmem => exact .bom index (hpom ▸ hraw) hparent hplan hmem

theorem Needs.parent_of_unmanaged {raw : RawPom} (h : Needs platform pom c d)
    (hpom : pom c = .ok raw) (hmanaged : raw.dependencyManagement = []) :
    parentCoordinate raw = some d := by
  cases h with
  | parent hraw hparent =>
    obtain rfl := Except.ok.inj (hpom.symm.trans hraw)
    exact hparent
  | bom _ hraw _ hplan hmem =>
    obtain rfl := Except.ok.inj (hpom.symm.trans hraw)
    have hlength := length_imports hplan
    rw [hmanaged] at hlength
    rw [List.length_eq_zero_iff.mp (Nat.le_zero.mp hlength)] at hmem
    cases hmem

theorem answered_of_needs {remote : Coordinate → Except ResolverError EffectivePom} {raw : RawPom}
    (hremote : ∀ d p, remote d = .ok p → Models platform pom d p) (hpom : pom c = .ok raw)
    (hbuild : buildRaw platform remote raw = .ok m) (h : Needs platform pom c d) :
    ∃ p, remote d = .ok p := by
  obtain ⟨parent, hload, hbuild⟩ := bind_eq_ok.mp hbuild
  cases h with
  | parent hraw hparent =>
    obtain rfl := Except.ok.inj (hpom.symm.trans hraw)
    obtain ⟨hnone, -⟩ | ⟨q, p, hq, hp, -⟩ := loadParent_eq_ok.mp hload
    · cases hnone.symm.trans hparent
    · obtain rfl := Option.some.inj (hq.symm.trans hparent)
      exact ⟨p, hp⟩
  | bom _ hraw hparent hplan hmem =>
    obtain rfl := Except.ok.inj (hpom.symm.trans hraw)
    obtain ⟨plan, imported, hplan', himported, -⟩ := buildOn_eq_ok.mp hbuild
    -- the parent's model is the one the answer is
    have hsame : loadParent (modelOf platform pom) raw = .ok parent := by
      rw [loadParent_eq_ok] at hload ⊢
      obtain hnone | ⟨q, p, hq, hp, rfl⟩ := hload
      · exact .inl hnone
      · exact .inr ⟨q, p, hq, modelOf_eq_ok.mpr (hremote q p hp), rfl⟩
    obtain rfl := Except.ok.inj (hsame.symm.trans hparent)
    obtain rfl := Except.ok.inj (hplan.symm.trans hplan')
    obtain ⟨answer, hanswer⟩ := exists_mapM_eq_ok.mp ⟨imported, himported⟩ _ hmem
    obtain ⟨p, hp, -⟩ := map_eq_ok.mp hanswer
    exact ⟨p, hp⟩

theorem Models.acc (h : Models platform pom c m) : Acc (fun b a => Needs platform pom a b) c := by
  induction h with
  | intro remote hremote hpom hbuild ih =>
    refine ⟨_, fun d hd => ?_⟩
    obtain ⟨p, hp⟩ := answered_of_needs hremote hpom hbuild hd
    exact ih d p hp

theorem Models.of_needs (h : Models platform pom c m) (hneeds : Needs platform pom c d) :
    ∃ p, Models platform pom d p := by
  obtain ⟨raw, hpom, hbuild⟩ := models_iff.mp h
  obtain ⟨p, hp⟩ := answered_of_needs (fun _ _ => modelOf_eq_ok.mp) hpom hbuild hneeds
  exact ⟨p, modelOf_eq_ok.mp hp⟩

theorem Models.not_entersCycle (h : Models platform pom c m) :
    ¬ EntersCycle (Needs platform pom) c := by
  have hacc := h.acc
  induction hacc generalizing m with
  | intro c _ ih =>
    intro hcycle
    obtain ⟨d, hcd, hd⟩ := hcycle.step
    obtain ⟨p, hp⟩ := h.of_needs hcd
    exact ih d hcd hp hd

theorem OwnFault.not_models (h : OwnFault platform pom c e) : ¬ Models platform pom c m := by
  intro hm
  obtain ⟨raw, hpom, hbuild⟩ := models_iff.mp hm
  obtain ⟨parent, hparent, hbuild⟩ := bind_eq_ok.mp hbuild
  obtain ⟨plan, imported, hplan, himported, hfinish⟩ := buildOn_eq_ok.mp hbuild
  cases h with
  | unloaded h => cases hpom.symm.trans h
  | unplanned hpom' hparent' h =>
    obtain rfl := Except.ok.inj (hpom.symm.trans hpom')
    obtain rfl := Except.ok.inj (hparent.symm.trans hparent')
    cases hplan.symm.trans h
  | unfinished hpom' hparent' hplan' himported' h =>
    obtain rfl := Except.ok.inj (hpom.symm.trans hpom')
    obtain rfl := Except.ok.inj (hparent.symm.trans hparent')
    obtain rfl := Except.ok.inj (hplan.symm.trans hplan')
    obtain rfl := Except.ok.inj (himported.symm.trans himported')
    cases hfinish.symm.trans h

theorem Fault.not_models (h : Fault platform pom c e) : ¬ Models platform pom c m := by
  induction h generalizing m with
  | own h => exact h.not_models
  | cycle chain h => exact fun hm => hm.not_entersCycle ⟨_, .refl, h⟩
  | needed hneeds _ ih =>
    intro hm
    obtain ⟨p, hp⟩ := hm.of_needs hneeds
    exact ih hp

theorem Fault.root (h : Fault platform pom c e) :
    ((∃ chain, e.rootCause = .modelCycle chain) ∧ EntersCycle (Needs platform pom) c) ∨
      ∃ d e', ReflTransGen (Needs platform pom) c d ∧ OwnFault platform pom d e' ∧
        e.rootCause = e'.rootCause := by
  induction h with
  | own h => exact .inr ⟨_, _, .refl, h, rfl⟩
  | cycle chain h => exact .inl ⟨⟨chain, rfl⟩, _, .refl, h⟩
  | needed hneeds _ ih =>
    obtain ⟨hroot, hcycle⟩ | ⟨d, e', hd, hown, hroot⟩ := ih
    · exact .inl ⟨hroot, .of_reaches (.single hneeds) hcycle⟩
    · exact .inr ⟨d, e', .head hneeds hd, hown, hroot⟩

end Faults

end JMan.Resolver
