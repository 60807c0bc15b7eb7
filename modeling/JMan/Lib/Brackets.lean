import Mathlib.Data.List.Basic

/-!
# JMan — brackets of several kinds on one stack

Opening marks are put on a stack; a closing mark takes the last opening one of its own kind
off it, wherever that is. So each kind is paired by its own levels, and what is open of
another kind does not matter (`mem_pairs_iff`).
-/

namespace JMan.Brackets

structure Mark (κ ι : Type) where
  opening : Bool
  kind : κ
  place : ι
deriving DecidableEq

variable {κ ι : Type} [DecidableEq κ]

/-- The first entry of a kind, and the stack without it. -/
def take (kind : κ) : List (κ × ι) → Option (ι × List (κ × ι))
  | [] => none
  | entry :: stack =>
    if entry.1 = kind then some (entry.2, stack)
    else (take kind stack).map fun taken => (taken.1, entry :: taken.2)

def pairs (stack : List (κ × ι)) : List (Mark κ ι) → List (κ × ι × ι)
  | [] => []
  | mark :: marks =>
    if mark.opening then pairs ((mark.kind, mark.place) :: stack) marks
    else match take mark.kind stack with
      | some (place, rest) => (mark.kind, place, mark.place) :: pairs rest marks
      | none => pairs stack marks

/-- Where the mark stands that closes a kind, some levels of which are open besides. -/
def closing (kind : κ) : Nat → List (Mark κ ι) → Option ι
  | _, [] => none
  | level, mark :: marks =>
    if mark.kind ≠ kind then closing kind level marks
    else if mark.opening then closing kind (level + 1) marks
    else if level = 0 then some mark.place
    else closing kind (level - 1) marks

def places (kind : κ) (stack : List (κ × ι)) : List ι :=
  stack.filterMap fun entry => if entry.1 = kind then some entry.2 else none

section Stack

variable {kind other : κ} {stack rest : List (κ × ι)} {i j place : ι}

theorem places_cons_self : places kind ((kind, place) :: stack) = place :: places kind stack :=
  List.filterMap_cons_some (if_pos rfl)

theorem places_cons_other (h : other ≠ kind) : places kind ((other, place) :: stack) = places kind stack :=
  List.filterMap_cons_none (if_neg h)

theorem places_of_take (h : take kind stack = some (place, rest)) : places kind stack = place :: places kind rest := by
  induction stack generalizing rest with
  | nil => cases h
  | cons entry stack ih =>
    obtain ⟨first, at'⟩ := entry
    rw [take] at h
    by_cases hfirst : first = kind
    · rw [if_pos hfirst] at h
      cases h
      rw [hfirst, places_cons_self]
    · rw [if_neg hfirst] at h
      obtain ⟨⟨taken, left⟩, htake, heq⟩ := Option.map_eq_some_iff.mp h
      cases heq
      rw [places_cons_other hfirst, places_cons_other hfirst]
      exact ih htake

theorem places_other_of_take (h : take other stack = some (place, rest)) (hother : other ≠ kind) :
    places kind stack = places kind rest := by
  induction stack generalizing rest with
  | nil => cases h
  | cons entry stack ih =>
    obtain ⟨first, at'⟩ := entry
    rw [take] at h
    by_cases hfirst : first = other
    · rw [if_pos hfirst] at h
      cases h
      rw [places_cons_other (hfirst ▸ hother)]
    · rw [if_neg hfirst] at h
      obtain ⟨⟨taken, left⟩, htake, heq⟩ := Option.map_eq_some_iff.mp h
      cases heq
      by_cases hkind : first = kind
      · rw [hkind, places_cons_self, places_cons_self, ih htake]
      · rw [places_cons_other hkind, places_cons_other hkind]
        exact ih htake

theorem places_of_take_eq_none (h : take kind stack = none) : places kind stack = [] := by
  induction stack with
  | nil => rfl
  | cons entry stack ih =>
    obtain ⟨first, at'⟩ := entry
    rw [take] at h
    by_cases hfirst : first = kind
    · rw [if_pos hfirst] at h
      cases h
    · rw [if_neg hfirst] at h
      rw [places_cons_other hfirst]
      exact ih (Option.map_eq_none_iff.mp h)

end Stack

section Pairs

variable {kind : κ} {stack : List (κ × ι)} {marks : List (Mark κ ι)} {mark : Mark κ ι} {i j place : ι} {level : Nat}

theorem closing_other (h : mark.kind ≠ kind) : closing kind level (mark :: marks) = closing kind level marks := by
  rw [closing, if_pos h]

theorem closing_opening : closing kind level (⟨true, kind, place⟩ :: marks) = closing kind (level + 1) marks := by
  rw [closing, if_neg (fun h => h rfl), if_pos rfl]

theorem closing_closing_zero : closing kind 0 (⟨false, kind, place⟩ :: marks) = some place := by
  rw [closing, if_neg (fun h => h rfl), if_neg Bool.false_ne_true, if_pos rfl]

theorem closing_closing_succ :
    closing kind (level + 1) (⟨false, kind, place⟩ :: marks) = closing kind level marks := by
  rw [closing, if_neg (fun h => h rfl), if_neg Bool.false_ne_true, if_neg (Nat.succ_ne_zero level),
    Nat.add_sub_cancel]

/-- An opening mark and the one that closes it. -/
def Joined (kind : κ) (i j : ι) (marks : List (Mark κ ι)) : Prop :=
  ∃ before after, marks = before ++ ⟨true, kind, i⟩ :: after ∧ closing kind 0 after = some j

/-- What is open on the stack at some level, and the mark that closes it. -/
def Awaited (kind : κ) (i j : ι) (stack : List (κ × ι)) (marks : List (Mark κ ι)) : Prop :=
  ∃ level : Nat, (places kind stack)[level]? = some i ∧ closing kind level marks = some j

theorem joined_cons : Joined kind i j (mark :: marks) ↔
    (mark = ⟨true, kind, i⟩ ∧ closing kind 0 marks = some j) ∨ Joined kind i j marks := by
  constructor
  · rintro ⟨before, after, hmarks, hclosing⟩
    cases before with
    | nil =>
      obtain ⟨hmark, hmarks⟩ := List.cons.inj hmarks
      exact .inl ⟨hmark, hmarks ▸ hclosing⟩
    | cons first before => exact .inr ⟨before, after, (List.cons.inj hmarks).2, hclosing⟩
  · rintro (⟨rfl, hclosing⟩ | ⟨before, after, rfl, hclosing⟩)
    · exact ⟨[], marks, rfl, hclosing⟩
    · exact ⟨mark :: before, after, rfl, hclosing⟩

theorem awaited_cons_self : Awaited kind i j ((kind, place) :: stack) marks ↔
    (place = i ∧ closing kind 0 marks = some j) ∨
      ∃ level : Nat, (places kind stack)[level]? = some i ∧ closing kind (level + 1) marks = some j := by
  rw [Awaited, places_cons_self]
  constructor
  · rintro ⟨level, hplace, hclosing⟩
    cases level with
    | zero => exact .inl ⟨Option.some.inj hplace, hclosing⟩
    | succ level => exact .inr ⟨level, hplace, hclosing⟩
  · rintro (⟨rfl, hclosing⟩ | ⟨level, hplace, hclosing⟩)
    · exact ⟨0, rfl, hclosing⟩
    · exact ⟨level + 1, hplace, hclosing⟩

theorem mem_pairs_iff_joined : (kind, i, j) ∈ pairs stack marks ↔
    Joined kind i j marks ∨ Awaited kind i j stack marks := by
  induction marks generalizing stack with
  | nil =>
    refine iff_of_false List.not_mem_nil ?_
    rintro (⟨before, after, hmarks, -⟩ | ⟨level, -, hclosing⟩)
    · exact absurd hmarks.symm (List.append_ne_nil_of_right_ne_nil _ (List.cons_ne_nil _ _))
    · cases hclosing
  | cons mark marks ih =>
    obtain ⟨opening, other, place⟩ := mark
    rw [joined_cons]
    by_cases hkind : other = kind
    · subst hkind
      cases opening with
      | true =>
        rw [pairs, if_pos rfl, ih, awaited_cons_self]
        simp only [Awaited, closing_opening, Mark.mk.injEq, true_and]
        tauto
      | false =>
        have hmark : ¬ (⟨false, other, place⟩ : Mark κ ι) = ⟨true, other, i⟩ := fun h => by cases h
        simp only [hmark, false_and, false_or]
        rw [pairs, if_neg Bool.false_ne_true]
        cases htake : take other stack with
        | none =>
          rw [Awaited, places_of_take_eq_none htake]
          simp only [ih, Awaited, places_of_take_eq_none htake, List.getElem?_nil, reduceCtorEq, false_and,
            exists_false]
        | some taken =>
          -- the last opening mark is closed, the others are one level less deep
          obtain ⟨open', rest⟩ := taken
          simp only [List.mem_cons, Prod.mk.injEq, true_and, ih]
          rw [Awaited, Awaited, places_of_take htake]
          constructor
          · rintro (⟨rfl, rfl⟩ | hjoined | ⟨level, hplace, hclosing⟩)
            · exact .inr ⟨0, rfl, closing_closing_zero⟩
            · exact .inl hjoined
            · exact .inr ⟨level + 1, hplace, closing_closing_succ.trans hclosing⟩
          · rintro (hjoined | ⟨level, hplace, hclosing⟩)
            · exact .inr (.inl hjoined)
            · cases level with
              | zero =>
                cases Option.some.inj hplace
                rw [closing_closing_zero] at hclosing
                exact .inl ⟨rfl, (Option.some.inj hclosing).symm⟩
              | succ level => exact .inr (.inr ⟨level, hplace, closing_closing_succ.symm.trans hclosing⟩)
    · have hmark : ¬ (⟨opening, other, place⟩ : Mark κ ι) = ⟨true, kind, i⟩ := fun h => hkind (Mark.mk.inj h).2.1
      have hclosing : ∀ level, closing kind level (⟨opening, other, place⟩ :: marks) = closing kind level marks :=
        fun level => closing_other hkind
      simp only [hmark, false_and, false_or, Awaited, hclosing]
      rw [pairs]
      split
      · rw [ih, Awaited, places_cons_other hkind]
      · cases htake : take other stack with
        | none => exact ih
        | some taken =>
          obtain ⟨open', rest⟩ := taken
          have hpair : ¬ (kind, i, j) = (other, open', place) := fun h => hkind (Prod.mk.inj h).1.symm
          rw [List.mem_cons, or_iff_right hpair, ih, Awaited, places_other_of_take htake hkind]

/-- **The pairs are those of each kind by its levels.** -/
theorem mem_pairs_iff : (kind, i, j) ∈ pairs [] marks ↔ Joined kind i j marks := by
  refine mem_pairs_iff_joined.trans (or_iff_left ?_)
  rintro ⟨level, hplace, -⟩
  cases hplace

theorem mem_of_closing (h : closing kind level marks = some j) : (⟨false, kind, j⟩ : Mark κ ι) ∈ marks := by
  induction marks generalizing level with
  | nil => cases h
  | cons mark marks ih =>
    obtain ⟨opening, other, place⟩ := mark
    rw [closing] at h
    split at h
    · exact List.mem_cons_of_mem _ (ih h)
    · rename_i hkind
      cases Classical.not_not.mp hkind
      split at h
      · exact List.mem_cons_of_mem _ (ih h)
      · rename_i hopening
        split at h
        · cases Option.some.inj h
          rw [Bool.not_eq_true] at hopening
          cases hopening
          exact List.mem_cons_self
        · exact List.mem_cons_of_mem _ (ih h)

end Pairs

end JMan.Brackets
