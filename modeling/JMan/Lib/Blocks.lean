import Mathlib.Data.List.Basic

/-!
# Blocks

Lists put together from blocks, each of which begins with an element of a kind that it has
nowhere else.

* `flatten_injective` — the blocks can be told from what is put together.
-/

namespace Blocks

variable {α : Type*} {head : α → Prop} {block : List α} {xs ys : List (List α)}

/-- The first element is of the kind, and no other is. -/
def IsBlock (head : α → Prop) : List α → Prop
  | [] => False
  | a :: rest => head a ∧ ∀ b ∈ rest, ¬ head b

/-- What follows a block begins with an element of the kind. -/
def Opens (head : α → Prop) (tail : List α) : Prop := ∀ a, tail.head? = some a → head a

theorem opens_flatten (h : ∀ block ∈ xs, IsBlock head block) : Opens head xs.flatten := by
  cases xs with
  | nil =>
    intro a ha
    cases ha
  | cons block rest =>
    have hblock := h block List.mem_cons_self
    cases block with
    | nil => exact hblock.elim
    | cons a tail =>
      intro b hb
      obtain rfl := Option.some.inj hb
      exact hblock.1

theorem append_inj_of_opens : ∀ {left right tail tail' : List α}, (∀ b ∈ left, ¬ head b) →
    (∀ b ∈ right, ¬ head b) → Opens head tail → Opens head tail' → left ++ tail = right ++ tail' →
    left = right ∧ tail = tail'
  | [], [], _, _, _, _, _, _, h => ⟨rfl, h⟩
  | [], b :: right, tail, tail', _, hright, htail, _, h => by
    have hb : head b := htail b (by rw [← List.nil_append tail, h]; rfl)
    exact absurd hb (hright b List.mem_cons_self)
  | a :: left, [], tail, tail', hleft, _, _, htail', h => by
    have ha : head a := htail' a (by rw [← List.nil_append tail', ← h]; rfl)
    exact absurd ha (hleft a List.mem_cons_self)
  | a :: left, b :: right, tail, tail', hleft, hright, htail, htail', h => by
    rw [List.cons_append, List.cons_append, List.cons.injEq] at h
    have hrest := append_inj_of_opens (fun c hc => hleft c (List.mem_cons_of_mem _ hc))
      (fun c hc => hright c (List.mem_cons_of_mem _ hc)) htail htail' h.2
    exact ⟨by rw [h.1, hrest.1], hrest.2⟩

/-- **The blocks can be told from what is put together.** -/
theorem flatten_injective (hxs : ∀ block ∈ xs, IsBlock head block) (hys : ∀ block ∈ ys, IsBlock head block)
    (h : xs.flatten = ys.flatten) : xs = ys := by
  induction xs generalizing ys with
  | nil =>
    cases ys with
    | nil => rfl
    | cons block rest =>
      have hblock := hys block List.mem_cons_self
      cases block with
      | nil => exact hblock.elim
      | cons b tail => cases h
  | cons block rest ih =>
    have hblock := hxs block List.mem_cons_self
    cases ys with
    | nil =>
      cases block with
      | nil => exact hblock.elim
      | cons a tail => cases h
    | cons other others =>
      have hother := hys other List.mem_cons_self
      cases block with
      | nil => exact hblock.elim
      | cons a tail =>
        cases other with
        | nil => exact hother.elim
        | cons b tail' =>
          rw [List.flatten_cons, List.flatten_cons, List.cons_append, List.cons_append,
            List.cons.injEq] at h
          obtain ⟨hhead, htails⟩ := h
          have hrest (block : List α) (hmem : block ∈ rest) := hxs block (List.mem_cons_of_mem _ hmem)
          have hothers (block : List α) (hmem : block ∈ others) := hys block (List.mem_cons_of_mem _ hmem)
          obtain ⟨htail, hflat⟩ := append_inj_of_opens hblock.2 hother.2 (opens_flatten hrest)
            (opens_flatten hothers) htails
          rw [hhead, htail, ih hrest hothers hflat]

end Blocks
