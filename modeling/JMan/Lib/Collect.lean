import Mathlib.Algebra.BigOperators.Group.Finset.Basic
import Mathlib.Algebra.Order.BigOperators.Group.Finset
import Mathlib.Data.Finset.Insert
import JMan.Lib.Loop

/-!
# Collecting what is reachable

The loop that collects a transitive closure with a stack and a set: pop an
item; unless it was found before, record it and push its successors.

* `collect_returns` — over finitely many items with successors the loop ends.
* `mem_collected` — it returns what is reachable from the roots.
-/

namespace Collect

open Relation (ReflTransGen)

variable {α : Type*} [DecidableEq α]

structure State (α : Type*) where
  found : Finset α
  /-- The stack, its top first. -/
  pending : List α

def step (next : α → List α) (s : State α) : Loop.Outcome (State α) (Finset α) :=
  match s.pending with
  | [] => .stop s.found
  | a :: rest =>
    if a ∈ s.found then .next ⟨s.found, rest⟩
    else .next ⟨insert a s.found, (next a).reverse ++ rest⟩

/-- The successors of the roots are pushed in order, so the last is on top. -/
def start (roots : List α) : State α := ⟨∅, roots.reverse⟩

theorem step_next {next : α → List α} {s t : State α} (h : step next s = .next t) :
    ∃ a rest, s.pending = a :: rest ∧ (a ∈ s.found ∧ t = ⟨s.found, rest⟩ ∨
      a ∉ s.found ∧ t = ⟨insert a s.found, (next a).reverse ++ rest⟩) := by
  unfold step at h
  split at h
  · cases h
  · next a rest hp =>
    split at h
    · next hmem =>
      cases h
      exact ⟨a, rest, hp, Or.inl ⟨hmem, rfl⟩⟩
    · next hnew =>
      cases h
      exact ⟨a, rest, hp, Or.inr ⟨hnew, rfl⟩⟩

/-! ## Termination -/

/-- Every successor of `dom` still to come is counted once. -/
def size (next : α → List α) (dom : Finset α) (s : State α) : Nat :=
  s.pending.length + ∑ a ∈ dom \ s.found, (next a).length

theorem size_lt {next : α → List α} {dom : Finset α} (hdom : ∀ a, a ∉ dom → next a = [])
    {s t : State α} (h : step next s = .next t) : size next dom t < size next dom s := by
  obtain ⟨a, rest, hp, ⟨-, rfl⟩ | ⟨hnew, rfl⟩⟩ := step_next h
  · -- a known item only leaves the stack
    simp [size, hp]
  · by_cases ha : a ∈ dom
    · -- the successors of a new item move from the sum to the stack
      have hsdiff : dom \ insert a s.found = (dom \ s.found).erase a := by
        ext x
        simp only [Finset.mem_sdiff, Finset.mem_insert, Finset.mem_erase]
        tauto
      have hsum := Finset.add_sum_erase (dom \ s.found) (fun a => (next a).length)
        (Finset.mem_sdiff.mpr ⟨ha, hnew⟩)
      simp only [size, hp, hsdiff, List.length_append, List.length_reverse, List.length_cons]
      omega
    · have hsdiff : dom \ insert a s.found = dom \ s.found := by
        ext x
        simp only [Finset.mem_sdiff, Finset.mem_insert]
        constructor
        · tauto
        · rintro ⟨hx, hxs⟩
          refine ⟨hx, ?_⟩
          rintro (rfl | hxf)
          · exact ha hx
          · exact hxs hxf
      simp [size, hp, hsdiff, hdom a ha]

/-- The loop, started on the roots and run as long as it can take. -/
def collect (next : α → List α) (dom : Finset α) (roots : List α) : Option (Finset α) :=
  Loop.run (step next) (size next dom (start roots) + 1) (start roots)

/-- **The loop ends.** -/
theorem collect_returns {next : α → List α} {dom : Finset α} (hdom : ∀ a, a ∉ dom → next a = [])
    (roots : List α) : ∃ found, collect next dom roots = some found :=
  Loop.run_of_measure (size next dom) (fun _ _ h => size_lt hdom h) (start roots)

/-! ## What is collected -/

/-- Found and pending items are reachable, and together they hold the roots and
the successors of everything found. -/
structure Covers (next : α → List α) (roots : List α) (s : State α) : Prop where
  sound : ∀ a, a ∈ s.found ∨ a ∈ s.pending →
    ∃ r ∈ roots, ReflTransGen (fun a b => b ∈ next a) r a
  roots_covered : ∀ r ∈ roots, r ∈ s.found ∨ r ∈ s.pending
  closed : ∀ a ∈ s.found, ∀ b ∈ next a, b ∈ s.found ∨ b ∈ s.pending

omit [DecidableEq α] in
theorem Covers.start (next : α → List α) (roots : List α) : Covers next roots (start roots) where
  sound a ha := by
    rcases ha with ha | ha
    · exact absurd ha (Finset.notMem_empty a)
    · exact ⟨a, List.mem_reverse.mp ha, ReflTransGen.refl⟩
  roots_covered r hr := Or.inr (List.mem_reverse.mpr hr)
  closed a ha := absurd ha (Finset.notMem_empty a)

theorem Covers.step {next : α → List α} {roots : List α} {s t : State α}
    (hs : Covers next roots s) (h : step next s = .next t) : Covers next roots t := by
  obtain ⟨a, rest, hp, hcases⟩ := step_next h
  -- whatever was covered still is
  have hkeep : ∀ x, x ∈ s.found ∨ x ∈ s.pending → x ∈ t.found ∨ x ∈ t.pending := by
    intro x hx
    rw [hp, List.mem_cons] at hx
    rcases hcases with ⟨hmem, rfl⟩ | ⟨-, rfl⟩
    · rcases hx with hx | rfl | hx
      · exact Or.inl hx
      · exact Or.inl hmem
      · exact Or.inr hx
    · rcases hx with hx | rfl | hx
      · exact Or.inl (Finset.mem_insert_of_mem hx)
      · exact Or.inl (Finset.mem_insert_self _ _)
      · exact Or.inr (List.mem_append_right _ hx)
  have ha : a ∈ s.pending := by
    rw [hp]
    exact List.mem_cons_self ..
  have hrest : ∀ x ∈ rest, x ∈ s.pending := by
    intro x hx
    rw [hp]
    exact List.mem_cons_of_mem _ hx
  refine ⟨fun x hx => ?_, fun r hr => hkeep r (hs.roots_covered r hr), fun x hx b hb => ?_⟩
  · rcases hcases with ⟨-, rfl⟩ | ⟨-, rfl⟩
    · exact hs.sound x (hx.imp_right (hrest x))
    · rcases hx with hx | hx
      · rcases Finset.mem_insert.mp hx with rfl | hx
        · exact hs.sound x (Or.inr ha)
        · exact hs.sound x (Or.inl hx)
      · rcases List.mem_append.mp hx with hx | hx
        · obtain ⟨r, hr, hra⟩ := hs.sound a (Or.inr ha)
          exact ⟨r, hr, hra.tail (List.mem_reverse.mp hx)⟩
        · exact hs.sound x (Or.inr (hrest x hx))
  · rcases hcases with ⟨-, rfl⟩ | ⟨-, rfl⟩
    · exact hkeep b (hs.closed x hx b hb)
    · rcases Finset.mem_insert.mp hx with rfl | hx
      · exact Or.inr (List.mem_append_left _ (List.mem_reverse.mpr hb))
      · exact hkeep b (hs.closed x hx b hb)

/-- **What is collected is what is reachable from the roots.** -/
theorem mem_collected {next : α → List α} {dom : Finset α} {roots : List α} {found : Finset α}
    (h : collect next dom roots = some found) {a : α} :
    a ∈ found ↔ ∃ r ∈ roots, ReflTransGen (fun a b => b ∈ next a) r a := by
  obtain ⟨s, hreach, hstop⟩ := Loop.returns_of_run h
  have hs := hreach.invariant (fun _ _ hs hst => Covers.step hs hst) (Covers.start next roots)
  unfold step at hstop
  split at hstop
  · next hp =>
    cases hstop
    have hfound : ∀ {x}, x ∈ s.found ∨ x ∈ s.pending → x ∈ s.found := by
      intro x hx
      simpa [hp] using hx
    constructor
    · exact fun ha => hs.sound a (Or.inl ha)
    · rintro ⟨r, hr, hra⟩
      induction hra with
      | refl => exact hfound (hs.roots_covered r hr)
      | tail _ hb ih => exact hfound (hs.closed _ ih _ hb)
  · split at hstop <;> cases hstop

end Collect
