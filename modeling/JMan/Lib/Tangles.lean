import Mathlib.Data.List.Perm.Basic
import Mathlib.Order.Basic
import JMan.Lib.Acyclic

/-!
# JMan — orders of what waits for each other

Elements are listed one by one: the least of those that wait for none of the others, or if
all wait the least of all. What waits for a cycle is left when nothing is free any more, and
which elements these are does not depend on the order (`core_of_free`).

* `order_perm` — all elements are listed.
* `order_eq_of_perm` — the order they came in does not matter if their ranks differ.
* `order_sound_iff` — when nothing is listed before what it needs.
-/

namespace JMan.Tangles

open Acyclic (EntersCycle)

variable {α κ : Type*} [LinearOrder κ]

-- The loop

/-- `min_by_key`: the first of the least. -/
def minByRank (rank : α → κ) : List (α × Nat) → Option (α × Nat)
  | [] => none
  | a :: rest =>
    match minByRank rank rest with
    | none => some a
    | some b => if rank b.1 < rank a.1 then some b else some a

variable (waits : α → α → Bool) (rank : α → κ)

/-- The elements that wait for none, with their indices. -/
def free (as : List α) : List (α × Nat) := as.zipIdx.filter fun entry => !as.any (waits entry.1)

/-- The next element: of those that are free, or else of all. -/
def choose (as : List α) : Option (α × Nat) := (minByRank rank (free waits as)).or (minByRank rank as.zipIdx)

/-- The loop, with as many turns as there is fuel. -/
def orderWith : (fuel : Nat) → List α → List α
  | 0, _ => []
  | fuel + 1, as =>
    match choose waits rank as with
    | none => []
    | some (a, i) => a :: orderWith fuel (as.eraseIdx i)

def order (as : List α) : List α := orderWith waits rank as.length as

section Choice

variable {waits rank} {as : List α} {a b : α} {entries : List (α × Nat)} {i : Nat}

theorem minByRank_eq_none : minByRank rank entries = none ↔ entries = [] := by
  cases entries with
  | nil => exact iff_of_true rfl rfl
  | cons a rest =>
    refine iff_of_false (fun h => ?_) (List.cons_ne_nil _ _)
    rw [minByRank] at h
    split at h
    · cases h
    · split at h <;> cases h

theorem of_minByRank {entry : α × Nat} (h : minByRank rank entries = some entry) :
    entry ∈ entries ∧ ∀ other ∈ entries, rank entry.1 ≤ rank other.1 := by
  induction entries generalizing entry with
  | nil => cases h
  | cons first rest ih =>
    rw [minByRank] at h
    split at h
    · rename_i hrest
      cases h
      rw [minByRank_eq_none.mp hrest]
      refine ⟨List.mem_cons_self, fun other hother => ?_⟩
      rw [List.mem_singleton.mp hother]
    · rename_i best hbest
      obtain ⟨hmem, hleast⟩ := ih hbest
      split at h
      · rename_i hlt
        cases h
        refine ⟨List.mem_cons_of_mem _ hmem, fun other hother => ?_⟩
        rcases List.mem_cons.mp hother with rfl | hother
        · exact hlt.le
        · exact hleast other hother
      · rename_i hle
        cases h
        refine ⟨List.mem_cons_self, fun other hother => ?_⟩
        rcases List.mem_cons.mp hother with rfl | hother
        · exact le_rfl
        · exact (not_lt.mp hle).trans (hleast other hother)

structure At (as : List α) (entry : α × Nat) (before after : List α) : Prop where
  eq : as = before ++ entry.1 :: after
  index : before.length = entry.2

theorem At.eraseIdx {entry : α × Nat} {before after : List α} (h : At as entry before after) :
    as.eraseIdx entry.2 = before ++ after := by
  rw [h.eq, ← h.index, List.eraseIdx_append_of_length_le (Nat.le_refl _), Nat.sub_self]
  rfl

theorem exists_at {entry : α × Nat} (h : entry ∈ as.zipIdx) : ∃ before after, At as entry before after := by
  obtain ⟨a, i⟩ := entry
  have hget := List.mem_zipIdx_iff_getElem?.mp h
  obtain ⟨hi, hget⟩ := List.getElem?_eq_some_iff.mp hget
  refine ⟨as.take i, as.drop (i + 1), ?_, ?_⟩
  · show as = as.take i ++ a :: as.drop (i + 1)
    have hget : as[i] = a := hget
    rw [← hget, ← List.drop_eq_getElem_cons hi, List.take_append_drop]
  · exact List.length_take_of_le (Nat.le_of_lt hi)

def IsFree (waits : α → α → Bool) (as : List α) (a : α) : Prop := ∀ b ∈ as, waits a b = false

theorem mem_free {entry : α × Nat} : entry ∈ free waits as ↔ entry ∈ as.zipIdx ∧ IsFree waits as entry.1 := by
  rw [free, List.mem_filter, Bool.not_eq_true', List.any_eq_false]
  refine and_congr_right fun _ => forall₂_congr fun b _ => ?_
  exact Bool.not_eq_true _ ▸ Iff.rfl

inductive Chosen (waits : α → α → Bool) (rank : α → κ) (as : List α) (entry : α × Nat) : Prop
  | free (hfree : IsFree waits as entry.1) (hleast : ∀ b ∈ as, IsFree waits as b → rank entry.1 ≤ rank b)
  | stuck (hstuck : ∀ b ∈ as, ¬ IsFree waits as b) (hleast : minByRank rank as.zipIdx = some entry)

theorem choose_eq_none : choose waits rank as = none ↔ as = [] := by
  rw [choose, Option.or_eq_none_iff, minByRank_eq_none, minByRank_eq_none, List.zipIdx_eq_nil_iff]
  refine and_iff_right_of_imp ?_
  rintro rfl
  rfl

theorem exists_choose (waits : α → α → Bool) (rank : α → κ) (hne : as ≠ []) :
    ∃ entry, choose waits rank as = some entry :=
  Option.ne_none_iff_exists'.mp (mt choose_eq_none.mp hne)

theorem of_choose {entry : α × Nat} (h : choose waits rank as = some entry) :
    (∃ before after, At as entry before after) ∧ Chosen waits rank as entry := by
  rcases Option.or_eq_some_iff.mp h with h | ⟨hnone, h⟩
  · obtain ⟨hmem, hleast⟩ := of_minByRank h
    obtain ⟨hentry, hfree⟩ := mem_free.mp hmem
    refine ⟨exists_at hentry, .free hfree fun b hb hfreeB => ?_⟩
    obtain ⟨i, hi⟩ := List.mem_iff_getElem?.mp hb
    exact hleast (b, i) (mem_free.mpr ⟨List.mem_zipIdx_iff_getElem?.mpr hi, hfreeB⟩)
  · refine ⟨exists_at (of_minByRank h).1, .stuck (fun b hb hfree => ?_) h⟩
    obtain ⟨i, hi⟩ := List.mem_iff_getElem?.mp hb
    have hmem : (b, i) ∈ free waits as := mem_free.mpr ⟨List.mem_zipIdx_iff_getElem?.mpr hi, hfree⟩
    rw [minByRank_eq_none.mp hnone] at hmem
    cases hmem

theorem order_cons {entry : α × Nat} {before after : List α} (h : choose waits rank as = some entry)
    (hat : At as entry before after) : order waits rank as = entry.1 :: order waits rank (before ++ after) := by
  have hlength : as.length = (before ++ after).length + 1 := by
    rw [hat.eq, List.length_append, List.length_cons, List.length_append]
    omega
  rw [order, hlength, orderWith, h]
  show entry.1 :: orderWith waits rank _ (as.eraseIdx entry.2) = _
  rw [hat.eraseIdx]
  rfl

/-- **All elements are listed.** -/
theorem order_perm (waits : α → α → Bool) (rank : α → κ) (as : List α) : (order waits rank as).Perm as := by
  induction hlength : as.length generalizing as with
  | zero =>
    rw [List.eq_nil_of_length_eq_zero hlength]
    exact .nil
  | succ n ih =>
    cases hchoose : choose waits rank as with
    | none =>
      rw [choose_eq_none.mp hchoose] at hlength
      cases hlength
    | some entry =>
      obtain ⟨⟨before, after, hat⟩, -⟩ := of_choose hchoose
      rw [order_cons hchoose hat]
      have hrest : (before ++ after).length = n := by
        rw [hat.eq, List.length_append, List.length_cons] at hlength
        rw [List.length_append]
        omega
      exact ((ih _ hrest).cons _).trans (hat.eq ▸ List.perm_middle.symm)

end Choice

-- The order of what comes in

section Independent

variable {waits : α → α → Bool} {rank : α → κ} {as bs : List α}

theorem isFree_congr {a : α} (h : as.Perm bs) : IsFree waits as a ↔ IsFree waits bs a :=
  ⟨fun hfree b hb => hfree b (h.mem_iff.mpr hb), fun hfree b hb => hfree b (h.mem_iff.mp hb)⟩

theorem rank_eq_of_choose {entry other : α × Nat} (hperm : as.Perm bs)
    (h : choose waits rank as = some entry) (h' : choose waits rank bs = some other) :
    rank entry.1 = rank other.1 := by
  obtain ⟨⟨before, after, hat⟩, hchosen⟩ := of_choose h
  obtain ⟨⟨before', after', hat'⟩, hchosen'⟩ := of_choose h'
  have hmem : entry.1 ∈ as := hat.eq ▸ List.mem_append_right _ List.mem_cons_self
  have hmem' : other.1 ∈ bs := hat'.eq ▸ List.mem_append_right _ List.mem_cons_self
  cases hchosen with
  | free hfree hleast =>
    cases hchosen' with
    | free hfree' hleast' =>
      exact le_antisymm (hleast _ (hperm.mem_iff.mpr hmem') ((isFree_congr hperm).mpr hfree'))
        (hleast' _ (hperm.mem_iff.mp hmem) ((isFree_congr hperm).mp hfree))
    | stuck hstuck => exact absurd ((isFree_congr hperm).mp hfree) (hstuck _ (hperm.mem_iff.mp hmem))
  | stuck hstuck hleast =>
    cases hchosen' with
    | free hfree' => exact absurd ((isFree_congr hperm).mpr hfree') (hstuck _ (hperm.mem_iff.mpr hmem'))
    | stuck _ hleast' =>
      obtain ⟨i, hi⟩ := List.mem_iff_getElem?.mp (hperm.mem_iff.mpr hmem')
      obtain ⟨j, hj⟩ := List.mem_iff_getElem?.mp (hperm.mem_iff.mp hmem)
      exact le_antisymm ((of_minByRank hleast).2 (other.1, i) (List.mem_zipIdx_iff_getElem?.mpr hi))
        ((of_minByRank hleast').2 (entry.1, j) (List.mem_zipIdx_iff_getElem?.mpr hj))

/-- **The order they came in does not matter if their ranks differ.** -/
theorem order_eq_of_perm (hperm : as.Perm bs) (hnodup : (as.map rank).Nodup) :
    order waits rank as = order waits rank bs := by
  induction hlength : as.length generalizing as bs with
  | zero =>
    cases List.eq_nil_of_length_eq_zero hlength
    rw [List.nil_perm.mp hperm]
  | succ n ih =>
    have hne : as ≠ [] := List.ne_nil_of_length_eq_add_one hlength
    have hne' : bs ≠ [] := fun h => hne (List.perm_nil.mp (h ▸ hperm))
    obtain ⟨entry, hentry⟩ := exists_choose waits rank hne
    obtain ⟨other, hother⟩ := exists_choose waits rank hne'
    obtain ⟨⟨before, after, hat⟩, -⟩ := of_choose hentry
    obtain ⟨⟨before', after', hat'⟩, -⟩ := of_choose hother
    have hmem : entry.1 ∈ as := hat.eq ▸ List.mem_append_right _ List.mem_cons_self
    have hmem' : other.1 ∈ as := hperm.mem_iff.mpr (hat'.eq ▸ List.mem_append_right _ List.mem_cons_self)
    have hsame : entry.1 = other.1 :=
      List.inj_on_of_nodup_map hnodup hmem hmem' (rank_eq_of_choose hperm hentry hother)
    have hmiddle : (entry.1 :: (before ++ after)).Perm (entry.1 :: (before' ++ after')) := by
      refine (hat.eq ▸ List.perm_middle.symm : (entry.1 :: (before ++ after)).Perm as).trans (hperm.trans ?_)
      rw [hat'.eq, hsame]
      exact List.perm_middle
    rw [order_cons hentry hat, order_cons hother hat', hsame]
    have hrest : (before ++ after).Sublist as := by
      rw [hat.eq]
      exact (List.Sublist.refl before).append (List.sublist_cons_self _ _)
    refine congrArg (List.cons other.1) (ih hmiddle.cons_inv (hnodup.sublist (hrest.map rank)) ?_)
    rw [hat.eq, List.length_append, List.length_cons] at hlength
    rw [List.length_append]
    omega

end Independent

-- What waits for a cycle

def Within (waits : α → α → Bool) (as : List α) (a b : α) : Prop := b ∈ as ∧ waits a b = true

open Classical in
/-- The elements that wait for a cycle, directly or not. -/
noncomputable def core (waits : α → α → Bool) (as : List α) : List α :=
  as.filter fun a => decide (EntersCycle (Within waits as) a)

/-- What the loop is stuck with: the core of all, and when the least of it is listed, the core
of what is left. -/
inductive Tangle (waits : α → α → Bool) (rank : α → κ) (as : List α) : List α → Prop
  | first : Tangle waits rank as (core waits as)
  | next {bs : List α} {entry : α × Nat} (h : Tangle waits rank as bs)
      (hleast : minByRank rank bs.zipIdx = some entry) : Tangle waits rank as (core waits (bs.eraseIdx entry.2))

/-- The least element needs none of the others. -/
def Harmless (needs : α → α → Prop) (rank : α → κ) (as : List α) : Prop :=
  ∀ entry, minByRank rank as.zipIdx = some entry → ∀ b ∈ as.eraseIdx entry.2, ¬ needs entry.1 b

section Core

variable {waits : α → α → Bool} {rank : α → κ} {needs : α → α → Prop} {as : List α} {a : α}

abbrev Ends (waits : α → α → Bool) (as : List α) : α → Prop := Acc fun b a => Within waits as a b

theorem entersCycle_iff : EntersCycle (Within waits as) a ↔ ¬ Ends waits as a := by
  constructor
  · intro h hends
    induction hends with
    | intro a _ ih =>
      obtain ⟨b, hstep, hb⟩ := h.step
      exact ih b hstep hb
  · intro h
    refine Classical.byContradiction fun hnone => h (Acyclic.acc_of_finite ?_ hnone)
    refine ((List.finite_toSet as).insert a).subset fun b hb => ?_
    rcases Relation.ReflTransGen.cases_tail hb with rfl | ⟨c, -, hstep⟩
    · exact Set.mem_insert _ _
    · exact Set.mem_insert_of_mem _ hstep.1

open Classical in
open Classical in
theorem core_of_stuck (h : ∀ b ∈ as, ¬ IsFree waits as b) : core waits as = as := by
  refine List.filter_eq_self.mpr fun a ha => ?_
  rw [decide_eq_true_eq, entersCycle_iff]
  intro hends
  induction hends with
  | intro a _ ih =>
    have hwaits := h a ha
    unfold IsFree at hwaits
    push Not at hwaits
    obtain ⟨b, hb, hwaits⟩ := hwaits
    exact ih b ⟨hb, Bool.eq_true_of_not_eq_false hwaits⟩ hb

open Classical in
/-- **Listing a free element leaves the core.** -/
theorem core_of_free {before after : List α} (hfree : IsFree waits (before ++ a :: after) a) :
    core waits (before ++ after) = core waits (before ++ a :: after) := by
  have hends : ∀ c, Ends waits (before ++ after) c ↔ Ends waits (before ++ a :: after) c := by
    intro c
    constructor
    · intro h
      induction h with
      | intro c _ ih =>
        refine ⟨c, fun b ⟨hb, hwaits⟩ => ?_⟩
        by_cases hrest : b ∈ before ++ after
        · exact ih b ⟨hrest, hwaits⟩
        · -- only the free element is missing, and it waits for none
          have hb : b = a := by
            simp only [List.mem_append, List.mem_cons] at hb hrest
            tauto
          subst hb
          exact ⟨b, fun d hd => absurd (hfree d hd.1) (by rw [hd.2]; exact Bool.noConfusion)⟩
    · intro h
      induction h with
      | intro c _ ih =>
        refine ⟨c, fun b ⟨hb, hwaits⟩ => ih b ⟨?_, hwaits⟩⟩
        simp only [List.mem_append, List.mem_cons] at hb ⊢
        tauto
  have hself : Ends waits (before ++ a :: after) a :=
    ⟨a, fun b hb => absurd (hfree b hb.1) (by rw [hb.2]; exact Bool.noConfusion)⟩
  rw [core, core, List.filter_append, List.filter_append, List.filter_cons, if_neg]
  · refine congrArg₂ _ ?_ ?_
    · exact List.filter_congr fun c _ => by
        rw [decide_eq_decide, entersCycle_iff, entersCycle_iff, hends]
    · exact List.filter_congr fun c _ => by
        rw [decide_eq_decide, entersCycle_iff, entersCycle_iff, hends]
  · rw [decide_eq_true_eq, entersCycle_iff]
    exact not_not_intro hself

theorem tangle_congr {bs cs : List α} (h : core waits as = core waits bs) :
    Tangle waits rank as cs → Tangle waits rank bs cs := by
  intro htangle
  induction htangle with
  | first => exact h ▸ .first
  | next _ hleast ih => exact .next ih hleast

theorem tangle_iff_of_stuck {entry : α × Nat} {cs : List α} (hcore : core waits as = as)
    (hleast : minByRank rank as.zipIdx = some entry) : Tangle waits rank as cs ↔
      cs = as ∨ Tangle waits rank (as.eraseIdx entry.2) cs := by
  constructor
  · intro h
    induction h with
    | first => exact .inl hcore
    | next _ hleast' ih =>
      rcases ih with rfl | ih
      · cases hleast.symm.trans hleast'
        exact .inr .first
      · exact .inr (.next ih hleast')
  · rintro (rfl | h)
    · have hfirst : Tangle waits rank cs (core waits cs) := .first
      rwa [hcore] at hfirst
    · induction h with
      | first =>
        have hfirst : Tangle waits rank as (core waits as) := .first
        rw [hcore] at hfirst
        exact .next hfirst hleast
      | next _ hleast' ih => exact .next ih hleast'

/-- **Nothing is listed before what it needs exactly if the least element of every tangle
needs none of the others in it.** -/
theorem order_sound_iff (hneeds : ∀ a b, needs a b → waits a b = true) (as : List α) :
    (order waits rank as).Pairwise (fun a b => ¬ needs a b) ↔
      ∀ bs, Tangle waits rank as bs → Harmless needs rank bs := by
  induction hlength : as.length generalizing as with
  | zero =>
    cases List.eq_nil_of_length_eq_zero hlength
    refine iff_of_true .nil fun bs hbs => ?_
    have hnil : bs = [] := by
      induction hbs with
      | first => rfl
      | next _ hleast ih =>
        rw [ih] at hleast
        cases hleast
    rw [hnil]
    exact fun _ h => by cases h
  | succ n ih =>
    have hne : as ≠ [] := List.ne_nil_of_length_eq_add_one hlength
    obtain ⟨entry, hentry⟩ := exists_choose waits rank hne
    obtain ⟨⟨before, after, hat⟩, hchosen⟩ := of_choose hentry
    have hrest : (before ++ after).length = n := by
      rw [hat.eq, List.length_append, List.length_cons] at hlength
      rw [List.length_append]
      omega
    rw [order_cons hentry hat, List.pairwise_cons, ih _ hrest]
    have hothers : (∀ b ∈ order waits rank (before ++ after), ¬ needs entry.1 b) ↔
        ∀ b ∈ before ++ after, ¬ needs entry.1 b :=
      forall_congr' fun b => imp_congr_left (order_perm waits rank (before ++ after)).mem_iff
    rw [hothers]
    cases hchosen with
    | free hfree _ =>
      have hcore := core_of_free (hat.eq ▸ hfree)
      rw [← hat.eq] at hcore
      have hnone : ∀ b ∈ before ++ after, ¬ needs entry.1 b := by
        intro b hb hneed
        have hmem : b ∈ as := by
          rw [hat.eq]
          simp only [List.mem_append, List.mem_cons] at hb ⊢
          tauto
        exact absurd (hneeds _ _ hneed) (by rw [hfree b hmem]; exact Bool.noConfusion)
      refine (and_iff_right hnone).trans (forall_congr' fun bs => imp_congr_left ?_)
      exact ⟨tangle_congr hcore, tangle_congr hcore.symm⟩
    | stuck hstuck hleast =>
      have hcore := core_of_stuck hstuck
      have herase := hat.eraseIdx
      have hharmless : Harmless needs rank as ↔ ∀ b ∈ before ++ after, ¬ needs entry.1 b := by
        rw [← herase]
        refine ⟨fun h => h entry hleast, fun h other hother => ?_⟩
        cases hleast.symm.trans hother
        exact h
      rw [← hharmless, ← herase]
      constructor
      · rintro ⟨hself, hall⟩ bs hbs
        rcases (tangle_iff_of_stuck hcore hleast).mp hbs with rfl | hbs
        · exact hself
        · exact hall bs hbs
      · intro h
        exact ⟨h as ((tangle_iff_of_stuck hcore hleast).mpr (.inl rfl)),
          fun bs hbs => h bs ((tangle_iff_of_stuck hcore hleast).mpr (.inr hbs))⟩

open Classical in
theorem tangle_eq_nil {bs : List α} (h : ∀ a ∈ as, ¬ EntersCycle (Within waits as) a)
    (hbs : Tangle waits rank as bs) : bs = [] := by
  induction hbs with
  | first =>
    refine List.filter_eq_nil_iff.mpr fun a ha => ?_
    rw [decide_eq_true_eq]
    exact h a ha
  | next _ hleast ih =>
    rw [ih] at hleast
    cases hleast

end Core

end JMan.Tangles
