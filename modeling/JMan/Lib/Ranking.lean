import Mathlib.Data.List.Basic
import Mathlib.Data.List.Induction
import Mathlib.Order.Basic

/-!
# Rankings

Choosing from a list by a comparison that may call different elements equal, and
comparing sequences by the first place where they differ.

* `foldl_keepGreater` — replacing what is kept by what is strictly greater leaves
  the first of the greatest.
* `maxBy_spec` — replacing it by what is not smaller leaves the last of them.
* `compareAt_eq_gt_iff` — a sequence is greater if it is at the first difference.
* `transCmp_compareAt`, `compareAt_range` — the comparison is a preorder, and
  further places that agree change nothing.
-/

namespace Ranking

open Std (TransCmp OrientedCmp ReflCmp)

variable {α : Type*} {cmp : α → α → Ordering}

-- Choosing

/-- What is kept after one more: the new one if it is greater. -/
def keepGreater (cmp : α → α → Ordering) : Option α → α → Option α
  | none, a => some a
  | some b, a => if cmp a b = .gt then some a else some b

/-- What is kept after one more: the old one if it is greater. -/
def keepLatter (cmp : α → α → Ordering) : Option α → α → Option α
  | none, a => some a
  | some b, a => if cmp b a = .gt then some b else some a

def maxBy (cmp : α → α → Ordering) (as : List α) : Option α := as.foldl (keepLatter cmp) none

def FirstGreatest (cmp : α → α → Ordering) (as : List α) (a : α) : Prop :=
  ∃ before after, as = before ++ a :: after ∧ (∀ b ∈ before, cmp a b = .gt) ∧
    ∀ b ∈ after, cmp b a ≠ .gt

def LastGreatest (cmp : α → α → Ordering) (as : List α) (a : α) : Prop :=
  ∃ before after, as = before ++ a :: after ∧ (∀ b ∈ before, cmp b a ≠ .gt) ∧
    ∀ b ∈ after, cmp a b = .gt

/-- A choice from a list that is made unless the list is empty. -/
def Chosen (R : List α → α → Prop) (as : List α) : Option α → Prop
  | none => as = []
  | some a => R as a

variable {as : List α} {a b : α}

theorem not_gt_trans [TransCmp cmp] {a b c : α} (hab : cmp a b ≠ .gt) (hbc : cmp b c ≠ .gt) :
    cmp a c ≠ .gt := by
  simp only [ne_eq, Ordering.ne_gt_iff_isLE] at *
  exact TransCmp.isLE_trans hab hbc

theorem FirstGreatest.mem (h : FirstGreatest cmp as a) : a ∈ as := by
  obtain ⟨before, after, rfl, -⟩ := h
  simp

theorem FirstGreatest.not_gt [TransCmp cmp] (h : FirstGreatest cmp as a) (hb : b ∈ as) :
    cmp b a ≠ .gt := by
  obtain ⟨before, after, rfl, hbefore, hafter⟩ := h
  rcases List.mem_append.mp hb with hb | hb
  · exact OrientedCmp.not_gt_of_gt (hbefore b hb)
  · rcases List.mem_cons.mp hb with rfl | hb
    · simp [ReflCmp.compare_self]
    · exact hafter b hb

theorem FirstGreatest.passes [TransCmp cmp] {before after : List α}
    (h : FirstGreatest cmp (before ++ b :: after) a) (hne : a ≠ b) :
    a ∈ before ∧ cmp b a ≠ .gt ∨ a ∈ after ∧ cmp a b = .gt := by
  have hpassed : cmp b a ≠ .gt := h.not_gt (by simp)
  obtain ⟨before', after', hsplit, hbefore, -⟩ := h
  rcases List.append_eq_append_iff.mp hsplit with ⟨between, hbefore', htail⟩ | ⟨between, hbefore', htail⟩
  · cases between with
    | nil =>
      simp only [List.nil_append, List.cons.injEq] at htail
      exact absurd htail.1.symm hne
    | cons c between =>
      simp only [List.cons_append, List.cons.injEq] at htail
      obtain ⟨rfl, htail⟩ := htail
      exact Or.inr ⟨by simp [htail], hbefore b (by simp [hbefore'])⟩
  · cases between with
    | nil =>
      simp only [List.nil_append, List.cons.injEq] at htail
      exact absurd htail.1 hne
    | cons c between =>
      simp only [List.cons_append, List.cons.injEq] at htail
      obtain ⟨rfl, htail⟩ := htail
      exact Or.inl ⟨by simp [hbefore'], hpassed⟩

theorem FirstGreatest.not_passed {p : α → Bool} {as : List α} (h : FirstGreatest cmp (as.filter p) a) :
    ∃ before after, as = before ++ a :: after ∧
      (∀ b ∈ before, p b = true → cmp a b = .gt) ∧ ∀ b ∈ after, p b = true → cmp b a ≠ .gt := by
  obtain ⟨before, rest, hsplit, hbefore, hafter⟩ := h
  obtain ⟨first, second, rfl, rfl, hsecond⟩ := List.filter_eq_append_iff.mp hsplit
  obtain ⟨skipped, after, rfl, hskipped, -, rfl⟩ := List.filter_eq_cons_iff.mp hsecond
  refine ⟨first ++ skipped, after, by simp, fun b hb hp => ?_, fun b hb hp => ?_⟩
  · rcases List.mem_append.mp hb with hb | hb
    · exact hbefore b (List.mem_filter.mpr ⟨hb, hp⟩)
    · exact absurd hp (hskipped b hb)
  · exact hafter b (List.mem_filter.mpr ⟨hb, hp⟩)

theorem LastGreatest.eq_last {before : List α} (h : LastGreatest cmp (before ++ [b]) a)
    (hb : cmp a b ≠ .gt) : a = b := by
  obtain ⟨before', after, hsplit, -, hafter⟩ := h
  rcases List.eq_nil_or_concat after with rfl | ⟨init, c, rfl⟩
  · exact (List.append_inj_right' hsplit rfl |> List.singleton_inj.mp).symm
  · have hsplit' : before ++ [b] = (before' ++ a :: init) ++ [c] := by simpa using hsplit
    obtain rfl : b = c := List.singleton_inj.mp (List.append_inj_right' hsplit' rfl)
    exact absurd (hafter b (by simp)) hb

theorem LastGreatest.mem (h : LastGreatest cmp as a) : a ∈ as := by
  obtain ⟨before, after, rfl, -⟩ := h
  simp

theorem LastGreatest.not_gt [TransCmp cmp] (h : LastGreatest cmp as a) (hb : b ∈ as) :
    cmp b a ≠ .gt := by
  obtain ⟨before, after, rfl, hbefore, hafter⟩ := h
  rcases List.mem_append.mp hb with hb | hb
  · exact hbefore b hb
  · rcases List.mem_cons.mp hb with rfl | hb
    · simp [ReflCmp.compare_self]
    · exact OrientedCmp.not_gt_of_gt (hafter b hb)

theorem FirstGreatest.snoc_gt [TransCmp cmp] (h : FirstGreatest cmp as a) (hb : cmp b a = .gt) :
    FirstGreatest cmp (as ++ [b]) b := by
  refine ⟨as, [], rfl, fun c hc => ?_, by simp⟩
  have hca := h.not_gt hc
  by_contra hbc
  -- otherwise what is below the old one would pass the new one
  exact not_gt_trans hbc hca hb

theorem FirstGreatest.snoc_not_gt (h : FirstGreatest cmp as a) (hb : cmp b a ≠ .gt) :
    FirstGreatest cmp (as ++ [b]) a := by
  obtain ⟨before, after, rfl, hbefore, hafter⟩ := h
  refine ⟨before, after ++ [b], by simp, hbefore, ?_⟩
  intro c hc
  rcases List.mem_append.mp hc with hc | hc
  · exact hafter c hc
  · obtain rfl := List.mem_singleton.mp hc
    exact hb

theorem LastGreatest.snoc_gt (h : LastGreatest cmp as a) (hb : cmp a b = .gt) :
    LastGreatest cmp (as ++ [b]) a := by
  obtain ⟨before, after, rfl, hbefore, hafter⟩ := h
  refine ⟨before, after ++ [b], by simp, hbefore, ?_⟩
  intro c hc
  rcases List.mem_append.mp hc with hc | hc
  · exact hafter c hc
  · obtain rfl := List.mem_singleton.mp hc
    exact hb

theorem LastGreatest.snoc_not_gt [TransCmp cmp] (h : LastGreatest cmp as a) (hb : cmp a b ≠ .gt) :
    LastGreatest cmp (as ++ [b]) b := by
  refine ⟨as, [], rfl, fun c hc => ?_, by simp⟩
  exact not_gt_trans (h.not_gt hc) hb

theorem foldl_keep {keep : Option α → α → Option α} {R : List α → α → Prop}
    (hfirst : ∀ a, ∃ a', keep none a = some a' ∧ R [a] a')
    (hnext : ∀ as a b, R as a → ∃ a', keep (some a) b = some a' ∧ R (as ++ [b]) a')
    (as : List α) : Chosen R as (as.foldl keep none) := by
  induction as using List.reverseRecOn with
  | nil => rfl
  | append_singleton as b ih =>
    rw [List.foldl_append]
    show Chosen R (as ++ [b]) (keep (as.foldl keep none) b)
    cases hkept : as.foldl keep none with
    | none =>
      rw [hkept] at ih
      obtain rfl : as = [] := ih
      obtain ⟨a', hkeep, hR⟩ := hfirst b
      rw [hkeep]
      exact hR
    | some a =>
      rw [hkept] at ih
      obtain ⟨a', hkeep, hR⟩ := hnext as a b ih
      rw [hkeep]
      exact hR

/-- **Replacing what is kept by what is greater leaves the first of the greatest.** -/
theorem foldl_keepGreater (cmp : α → α → Ordering) [TransCmp cmp] (as : List α) :
    Chosen (FirstGreatest cmp) as (as.foldl (keepGreater cmp) none) := by
  refine foldl_keep (fun a => ⟨a, rfl, [], [], rfl, by simp⟩) (fun as a b h => ?_) as
  by_cases hgt : cmp b a = .gt
  · exact ⟨b, by simp [keepGreater, hgt], h.snoc_gt hgt⟩
  · exact ⟨a, by simp [keepGreater, hgt], h.snoc_not_gt hgt⟩

/-- **The maximum that is taken is the last of the greatest.** -/
theorem maxBy_spec (cmp : α → α → Ordering) [TransCmp cmp] (as : List α) :
    Chosen (LastGreatest cmp) as (maxBy cmp as) := by
  refine foldl_keep (fun a => ⟨a, rfl, [], [], rfl, by simp⟩) (fun as a b h => ?_) as
  by_cases hgt : cmp a b = .gt
  · exact ⟨a, by simp [keepLatter, hgt], h.snoc_gt hgt⟩
  · exact ⟨b, by simp [keepLatter, hgt], h.snoc_not_gt hgt⟩

-- Sequences

/-- Sequences compared at these places, one after the other. -/
def compareAt (cmp : α → α → Ordering) (f g : Nat → α) : List Nat → Ordering
  | [] => .eq
  | i :: rest => (cmp (f i) (g i)).then (compareAt cmp f g rest)

/-- **Sequences are compared by a preorder.** -/
theorem transCmp_compareAt (cmp : α → α → Ordering) [TransCmp cmp] (indices : List Nat) :
    TransCmp fun f g => compareAt cmp f g indices := by
  induction indices with
  | nil =>
    exact { eq_swap := rfl, isLE_trans := fun h _ => h }
  | cons i rest ih =>
    have hat : TransCmp fun f g : Nat → α => cmp (f i) (g i) :=
      { eq_swap := OrientedCmp.eq_swap, isLE_trans := TransCmp.isLE_trans }
    exact inferInstanceAs (TransCmp (compareLex (fun f g : Nat → α => cmp (f i) (g i))
      fun f g => compareAt cmp f g rest))

theorem transCmp_on (cmp : α → α → Ordering) [TransCmp cmp] {β : Type*} (f : β → α) :
    TransCmp fun a b => cmp (f a) (f b) where
  eq_swap := OrientedCmp.eq_swap
  isLE_trans := TransCmp.isLE_trans

variable {f g : Nat → α}

theorem compareAt_append (indices rest : List Nat) :
    compareAt cmp f g (indices ++ rest) =
      (compareAt cmp f g indices).then (compareAt cmp f g rest) := by
  induction indices with
  | nil => rfl
  | cons i indices ih =>
    show (cmp (f i) (g i)).then (compareAt cmp f g (indices ++ rest)) = _
    rw [ih, ← Ordering.then_assoc]
    rfl

theorem compareAt_eq [ReflCmp cmp] {indices : List Nat} (h : ∀ i ∈ indices, f i = g i) :
    compareAt cmp f g indices = .eq := by
  induction indices with
  | nil => rfl
  | cons i rest ih =>
    rw [List.forall_mem_cons] at h
    have hself : cmp (f i) (g i) = .eq := h.1 ▸ ReflCmp.compare_self
    simp [compareAt, hself, ih h.2]

theorem compareAt_eq_iff [Std.LawfulEqCmp cmp] {indices : List Nat} :
    compareAt cmp f g indices = .eq ↔ ∀ i ∈ indices, f i = g i := by
  refine ⟨fun h => ?_, compareAt_eq⟩
  induction indices with
  | nil => simp
  | cons i rest ih =>
    rw [compareAt, Ordering.then_eq_eq] at h
    rw [List.forall_mem_cons]
    exact ⟨Std.LawfulEqCmp.eq_of_compare h.1, ih h.2⟩

theorem compareAt_range [ReflCmp cmp] {n m : Nat} (hle : n ≤ m) (h : ∀ i, n ≤ i → f i = g i) :
    compareAt cmp f g (List.range m) = compareAt cmp f g (List.range n) := by
  obtain ⟨k, rfl⟩ := Nat.exists_eq_add_of_le hle
  have hrest : compareAt cmp f g ((List.range k).map (n + ·)) = .eq := by
    refine compareAt_eq ?_
    simp only [List.forall_mem_map]
    exact fun i _ => h _ (by omega)
  rw [List.range_add, compareAt_append, hrest]
  simp

/-- **A sequence is greater if it is at the first difference.** -/
theorem compareAt_eq_gt_iff [Std.LawfulEqCmp cmp] {n : Nat} :
    compareAt cmp f g (List.range n) = .gt ↔
      ∃ i < n, (∀ j < i, f j = g j) ∧ cmp (f i) (g i) = .gt := by
  induction n with
  | zero => simp [compareAt]
  | succ n ih =>
    rw [List.range_succ, compareAt_append]
    constructor
    · intro h
      cases hfirst : compareAt cmp f g (List.range n) with
      | lt => simp [hfirst] at h
      | gt =>
        obtain ⟨i, hi, hbelow, hgt⟩ := ih.mp hfirst
        exact ⟨i, by omega, hbelow, hgt⟩
      | eq =>
        refine ⟨n, by omega, ?_, by simpa [hfirst, compareAt] using h⟩
        exact fun j hj => (compareAt_eq_iff.mp hfirst) j (by simpa using hj)
    · rintro ⟨i, hi, hbelow, hgt⟩
      by_cases hin : i < n
      · rw [ih.mpr ⟨i, hin, hbelow, hgt⟩]
        rfl
      · obtain rfl : i = n := by omega
        rw [compareAt_eq fun j hj => hbelow j (by simpa using hj)]
        simpa [compareAt] using hgt

end Ranking
