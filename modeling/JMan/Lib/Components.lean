import Mathlib.Logic.ExistsUnique
import Mathlib.Logic.Relation

/-!
# Components and their names

Elements are related, and each is named after a root that it is connected with. When are
the elements of one name those of one component?

* `NamesRoots` — what is known of the names: a root has a name of its own.
* `named_alike_iff` — the elements that are named like one of them are its component
  exactly when there is one root in it.
-/

namespace Components

open Relation (EqvGen)

variable {α β : Type} {related : α → α → Prop} {isRoot : α → Prop} {name : α → β}

/-- Every element is named after a root of its component, and roots after themselves. -/
structure NamesRoots (related : α → α → Prop) (isRoot : α → Prop) (name : α → β) : Prop where
  root : ∀ a, ∃ r, isRoot r ∧ EqvGen related a r ∧ name a = name r
  injective : ∀ r s, isRoot r → isRoot s → name r = name s → r = s

/-- **The elements of one name are a component exactly when it has one root.** -/
theorem named_alike_iff (h : NamesRoots related isRoot name) (a : α) :
    (∀ b, name b = name a ↔ EqvGen related a b) ↔ ∃! r, isRoot r ∧ EqvGen related a r := by
  obtain ⟨r, hr, har, hname⟩ := h.root a
  constructor
  · intro hcomponent
    refine ⟨r, ⟨hr, har⟩, fun s hs => h.injective s r hs.1 hr ?_⟩
    calc name s = name a := (hcomponent s).mpr hs.2
      _ = name r := hname
  · rintro ⟨root, hroot, hunique⟩ b
    obtain ⟨s, hs, hbs, hnames⟩ := h.root b
    constructor
    · intro hsame
      have hrs : s = r := h.injective s r hs hr (hnames.symm.trans (hsame.trans hname))
      exact .trans a r b har (.symm b r (hrs ▸ hbs))
    · intro hab
      have hs : s = root := hunique s ⟨hs, .trans a b s hab hbs⟩
      have hr : r = root := hunique r ⟨hr, har⟩
      rw [hnames, hname, hs, hr]

end Components
