import Mathlib.Data.List.Basic

/-!
# Patterns with stars

A pattern is a list of tokens: a star stands for any run of elements, the others
for one element each.

* `matches_append_iff`, `matches_star_cons` — a match taken apart.
* `star_matches_skip`, `star_matches_next`, `star_matches_end` — a star is never
  given back: what a search by leftmost choices needs at a further star, at a
  mismatch and at the end.
-/

namespace Wildcards

inductive Token (α : Type*) where
  | star
  | one (accepts : α → Prop)

inductive Matches {α : Type*} : List (Token α) → List α → Prop
  | nil : Matches [] []
  | one {p : α → Prop} {a : α} {pattern : List (Token α)} {value : List α} (ha : p a)
      (h : Matches pattern value) : Matches (.one p :: pattern) (a :: value)
  | star (run : List α) {pattern : List (Token α)} {value : List α} (h : Matches pattern value) :
      Matches (.star :: pattern) (run ++ value)

variable {α : Type*} {p : α → Prop} {a : α} {pattern block rest : List (Token α)}
  {value run left right : List α}

-- Matches taken apart

@[simp] theorem matches_nil_iff : Matches [] value ↔ value = [] := by
  constructor
  · intro h
    cases h
    rfl
  · rintro rfl
    exact .nil

@[simp] theorem not_matches_one_nil : ¬ Matches (.one p :: pattern) [] := by
  intro h
  cases h

@[simp] theorem matches_one_cons :
    Matches (.one p :: pattern) (a :: value) ↔ p a ∧ Matches pattern value := by
  constructor
  · intro h
    cases h with
    | one ha h => exact ⟨ha, h⟩
  · rintro ⟨ha, h⟩
    exact .one ha h

theorem matches_star_iff :
    Matches (.star :: pattern) value ↔ ∃ run rest, value = run ++ rest ∧ Matches pattern rest := by
  constructor
  · intro h
    cases h with
    | star run h => exact ⟨run, _, rfl, h⟩
  · rintro ⟨run, rest, rfl, h⟩
    exact .star run h

@[simp] theorem matches_star_nil : Matches (.star :: pattern) [] ↔ Matches pattern [] := by
  simp [matches_star_iff]

theorem matches_star_cons :
    Matches (.star :: pattern) (a :: value) ↔
      Matches pattern (a :: value) ∨ Matches (.star :: pattern) value := by
  simp only [matches_star_iff]
  constructor
  · rintro ⟨run, rest, hsplit, h⟩
    cases run with
    | nil =>
      obtain rfl : a :: value = rest := hsplit
      exact Or.inl h
    | cons b run =>
      obtain ⟨rfl, rfl⟩ := List.cons.inj hsplit
      exact Or.inr ⟨run, rest, rfl, h⟩
  · rintro (h | ⟨run, rest, rfl, h⟩)
    · exact ⟨[], _, rfl, h⟩
    · exact ⟨a :: run, rest, rfl, h⟩

theorem Matches.star_append (h : Matches (.star :: pattern) value) (run : List α) :
    Matches (.star :: pattern) (run ++ value) := by
  obtain ⟨run', rest, rfl, hrest⟩ := matches_star_iff.mp h
  rw [← List.append_assoc]
  exact .star _ hrest

theorem Matches.append (h : Matches block left) (hrest : Matches rest right) :
    Matches (block ++ rest) (left ++ right) := by
  induction h with
  | nil => exact hrest
  | one ha _ ih => exact .one ha ih
  | star run _ ih =>
    rw [List.append_assoc]
    exact .star run ih

theorem matches_append_iff :
    Matches (block ++ rest) value ↔
      ∃ left right, value = left ++ right ∧ Matches block left ∧ Matches rest right := by
  refine ⟨fun h => ?_, ?_⟩
  · induction block generalizing value with
    | nil => exact ⟨[], value, rfl, .nil, h⟩
    | cons token block ih =>
      cases h with
      | one ha h =>
        obtain ⟨left, right, rfl, hleft, hright⟩ := ih h
        exact ⟨_ :: left, right, rfl, .one ha hleft, hright⟩
      | star run h =>
        obtain ⟨left, right, rfl, hleft, hright⟩ := ih h
        exact ⟨run ++ left, right, by simp, .star run hleft, hright⟩
  · rintro ⟨left, right, rfl, hleft, hright⟩
    exact hleft.append hright

-- Leftmost choices

def Single (block : List (Token α)) : Prop := ∀ token ∈ block, ∃ p, token = .one p

theorem Matches.length_eq (h : Matches block value) (hblock : Single block) :
    value.length = block.length := by
  induction h with
  | nil => rfl
  | one _ _ ih => simp [ih fun token htoken => hblock token (List.mem_cons_of_mem _ htoken)]
  | star run _ _ =>
    obtain ⟨p, hp⟩ := hblock .star (List.mem_cons_self ..)
    cases hp

theorem matches_block_iff (hblock : Single block) (h : Matches block left) :
    Matches (block ++ rest) (left ++ right) ↔ Matches rest right := by
  refine ⟨fun hall => ?_, h.append⟩
  obtain ⟨left', right', hsplit, hleft', hright'⟩ := matches_append_iff.mp hall
  have hlength : left.length = left'.length := by rw [h.length_eq hblock, hleft'.length_eq hblock]
  obtain ⟨-, rfl⟩ := List.append_inj hsplit hlength
  exact hright'

/-- **At a further star, the star before it can be forgotten.** -/
theorem star_matches_skip (hblock : Single block) (h : Matches block left) :
    Matches (.star :: (block ++ .star :: rest)) (left ++ right) ↔ Matches (.star :: rest) right := by
  constructor
  · intro hall
    obtain ⟨run, value, hsplit, hvalue⟩ := matches_star_iff.mp hall
    obtain ⟨left', right', rfl, hleft', hright'⟩ := matches_append_iff.mp hvalue
    have hlength : left.length = left'.length := by rw [h.length_eq hblock, hleft'.length_eq hblock]
    -- what the second star is left with ends the value that it is compared with
    rw [← List.append_assoc] at hsplit
    obtain ⟨skipped, hskipped⟩ : right' <:+ right := by
      refine List.suffix_of_suffix_length_le ⟨_, hsplit.symm⟩ ⟨left, rfl⟩ ?_
      have hlengths := congrArg List.length hsplit
      simp only [List.length_append] at hlengths
      omega
    rw [← hskipped]
    exact hright'.star_append skipped
  · intro hright
    exact .star [] (h.append hright)

/-- **At a mismatch, the star takes one element more.** -/
theorem star_matches_next (h : ¬ Matches pattern (a :: value)) :
    Matches (.star :: pattern) (a :: value) ↔ Matches (.star :: pattern) value := by
  rw [matches_star_cons, or_iff_right h]

/-- **At the end of the value, the star took what it took.** -/
theorem star_matches_end (hblock : Single block) (h : Matches block value) :
    Matches (.star :: (block ++ rest)) value ↔ Matches rest [] := by
  constructor
  · intro hall
    obtain ⟨run, value', hsplit, hvalue'⟩ := matches_star_iff.mp hall
    obtain ⟨left, right, rfl, hleft, hright⟩ := matches_append_iff.mp hvalue'
    have hlengths := congrArg List.length hsplit
    rw [h.length_eq hblock, List.length_append, List.length_append, hleft.length_eq hblock] at hlengths
    obtain rfl : right = [] := List.eq_nil_of_length_eq_zero (by omega)
    exact hright
  · intro hrest
    have hall := h.append hrest
    rw [List.append_nil] at hall
    exact .star [] hall

end Wildcards
