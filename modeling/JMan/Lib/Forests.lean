import Mathlib.Data.List.Nodup
import Mathlib.Data.List.Perm.Basic
import Mathlib.Logic.Relation

/-!
# JMan — forests from parents

The elements below a number name their parents, or none. The forest is grown from the
elements without a parent by listing the children of each. If some rank falls from an
element to its parent the growth ends, every element is in the forest once, and below its
parent (`exists_forest`).
-/

namespace JMan.Forests

inductive Tree (α : Type) where
  | node (value : α) (children : List (Tree α))

variable {α β : Type}

mutual

/-- The values of a tree, each with the one it is below. -/
def Tree.links (above : Option α) : Tree α → List (Option α × α)
  | .node value children => (above, value) :: linksAll (some value) children

def linksAll (above : Option α) : List (Tree α) → List (Option α × α)
  | [] => []
  | tree :: rest => tree.links above ++ linksAll above rest

end

mutual

def Tree.map (f : α → β) : Tree α → Tree β
  | .node value children => .node (f value) (mapAll f children)

def mapAll (f : α → β) : List (Tree α) → List (Tree β)
  | [] => []
  | tree :: rest => tree.map f :: mapAll f rest

end

mutual

/-- The values of a tree, each before those below it. -/
def Tree.preorder : Tree α → List α
  | .node value children => value :: preorderAll children

def preorderAll : List (Tree α) → List α
  | [] => []
  | tree :: rest => tree.preorder ++ preorderAll rest

end

mutual

/-- A visit of all values of a tree, each before those below it. -/
def Tree.scan (visit : β → α → β) (state : β) : Tree α → β
  | .node value children => scanAll visit (visit state value) children

def scanAll (visit : β → α → β) (state : β) : List (Tree α) → β
  | [] => state
  | tree :: rest => scanAll visit (tree.scan visit state) rest

end

mutual

theorem Tree.scan_eq_foldl (visit : β → α → β) (state : β) :
    ∀ tree : Tree α, tree.scan visit state = tree.preorder.foldl visit state
  | .node value children => by
    rw [Tree.scan, Tree.preorder, List.foldl_cons, scanAll_eq_foldl visit (visit state value) children]

theorem scanAll_eq_foldl (visit : β → α → β) (state : β) :
    ∀ trees : List (Tree α), scanAll visit state trees = (preorderAll trees).foldl visit state
  | [] => rfl
  | tree :: rest => by
    rw [scanAll, preorderAll, List.foldl_append, Tree.scan_eq_foldl visit state tree,
      scanAll_eq_foldl visit _ rest]

end

/-- The value and what it is below, changed both. -/
def mapLink (f : α → β) (link : Option α × α) : Option β × β := (link.1.map f, f link.2)

mutual

theorem Tree.links_map (f : α → β) (above : Option α) :
    ∀ tree : Tree α, (tree.map f).links (above.map f) = (tree.links above).map (mapLink f)
  | .node value children => congrArg (List.cons (above.map f, f value)) (linksAll_mapAll f (some value) children)

theorem linksAll_mapAll (f : α → β) (above : Option α) :
    ∀ trees : List (Tree α), linksAll (above.map f) (mapAll f trees) = (linksAll above trees).map (mapLink f)
  | [] => rfl
  | tree :: rest => by
    rw [mapAll, linksAll, linksAll, List.map_append, Tree.links_map f above tree, linksAll_mapAll f above rest]

end

-- Growing

section Grow

variable (count : Nat) (parent : Nat → Option Nat)

/-- The elements with a parent, or with none, in their order. -/
def listed (above : Option Nat) : List Nat := (List.range count).filter fun i => parent i = above

def growAll (grow : Nat → Option (Tree Nat)) : List Nat → Option (List (Tree Nat))
  | [] => some []
  | i :: rest => do return (← grow i) :: (← growAll grow rest)

/-- The tree of an element, as deep as there is fuel. -/
def grow : (fuel : Nat) → Nat → Option (Tree Nat)
  | 0, _ => none
  | fuel + 1, i => (growAll (grow fuel) (listed count parent (some i))).map (Tree.node i)

def forest (fuel : Nat) : Option (List (Tree Nat)) := growAll (grow count parent fuel) (listed count parent none)

end Grow

-- What has grown

section Grown

variable {count : Nat} {parent : Nat → Option Nat} {rank : Nat → Nat} {i j k : Nat}

/-- A parent is one of the elements, and of a lower rank. -/
def Falls (count : Nat) (parent : Nat → Option Nat) (rank : Nat → Nat) : Prop :=
  ∀ i < count, ∀ j, parent i = some j → j < count ∧ rank j < rank i

/-- The one is reached from the other from parent to parent. -/
abbrev Below (parent : Nat → Option Nat) : Nat → Nat → Prop :=
  Relation.ReflTransGen fun i j => parent i = some j

def valuesAll (trees : List (Tree Nat)) : List Nat := (linksAll none trees).map Prod.snd

theorem mem_listed {above : Option Nat} : i ∈ listed count parent above ↔ i < count ∧ parent i = above := by
  rw [listed, List.mem_filter, List.mem_range, decide_eq_true_eq]

theorem Below.falls (hfalls : Falls count parent rank) (h : Below parent k i) (hk : k < count) :
    i < count ∧ (i = k ∨ rank i < rank k) := by
  induction h with
  | refl => exact ⟨hk, .inl rfl⟩
  | @tail j i _ hstep ih =>
    obtain ⟨hj, hrank⟩ := ih
    obtain ⟨hi, hlower⟩ := hfalls j hj i hstep
    refine ⟨hi, .inr ?_⟩
    rcases hrank with rfl | hrank
    · exact hlower
    · omega

theorem Below.unique (hfalls : Falls count parent rank) (hi : Below parent k i) (hj : Below parent k j)
    (hk : k < count) (hsame : parent i = parent j) : i = j := by
  -- of two that are reached from one element, one is reached from the other
  suffices h : ∀ {i j}, i < count → Below parent i j → parent i = parent j → i = j by
    have hunique : Relator.RightUnique fun i j => parent i = some j :=
      fun a b c hb hc => Option.some.inj (hb.symm.trans hc)
    rcases Relation.ReflTransGen.total_of_right_unique hunique hi hj with hij | hji
    · exact h (hi.falls hfalls hk).1 hij hsame
    · exact (h (hj.falls hfalls hk).1 hji hsame.symm).symm
  intro i j hi hij hsame
  rcases hij.cases_head with heq | ⟨above, hstep, habove⟩
  · exact heq
  · obtain ⟨hcount, hrank⟩ := hfalls i hi above hstep
    have hj := hij.falls hfalls hi
    have hlower := hfalls j hj.1 above (hsame ▸ hstep)
    rcases (Below.falls hfalls habove hcount).2 with rfl | hback
    · exact absurd hlower.2 (Nat.lt_irrefl _)
    · exact absurd hlower.2 (Nat.lt_asymm hback)

theorem exists_root (hfalls : Falls count parent rank) (hk : k < count) :
    ∃ i, Below parent k i ∧ i < count ∧ parent i = none := by
  induction hrank : rank k using Nat.strongRecOn generalizing k with
  | ind n ih =>
    cases hparent : parent k with
    | none => exact ⟨k, .refl, hk, hparent⟩
    | some above =>
      obtain ⟨hcount, hlower⟩ := hfalls k hk above hparent
      obtain ⟨i, hbelow, hi, hroot⟩ := ih (rank above) (hrank ▸ hlower) hcount rfl
      exact ⟨i, .head hparent hbelow, hi, hroot⟩

/-- A tree with everything below its root, once each, under its parent. -/
structure Holds (count : Nat) (parent : Nat → Option Nat) (i : Nat) (links : List (Option Nat × Nat)) : Prop where
  linked : ∀ link ∈ links, link.1 = parent link.2
  mem : ∀ k, k ∈ links.map Prod.snd ↔ k < count ∧ Below parent k i
  nodup : (links.map Prod.snd).Nodup

structure HoldsAll (count : Nat) (parent : Nat → Option Nat) (is : List Nat) (links : List (Option Nat × Nat)) :
    Prop where
  linked : ∀ link ∈ links, link.1 = parent link.2
  mem : ∀ k, k ∈ links.map Prod.snd ↔ k < count ∧ ∃ i ∈ is, Below parent k i
  nodup : (links.map Prod.snd).Nodup

theorem holdsAll_of_growAll (hfalls : Falls count parent rank) {above : Option Nat} {is : List Nat} {m : Nat}
    (hnodup : is.Nodup) (hsame : ∀ i ∈ is, i < count ∧ parent i = above)
    (hgrow : ∀ i ∈ is, ∃ tree, (∀ fuel, m ≤ fuel → grow count parent fuel i = some tree) ∧
      Holds count parent i (tree.links above)) :
    ∃ trees, (∀ fuel, m ≤ fuel → growAll (grow count parent fuel) is = some trees) ∧
      HoldsAll count parent is (linksAll above trees) := by
  induction is with
  | nil =>
    refine ⟨[], fun _ _ => rfl, fun _ h => absurd h List.not_mem_nil, fun k => ?_, .nil⟩
    exact iff_of_false List.not_mem_nil fun h => by
      obtain ⟨-, i, hi, -⟩ := h
      cases hi
  | cons i is ih =>
    obtain ⟨hfresh, hnodup⟩ := List.nodup_cons.mp hnodup
    obtain ⟨tree, htree, hholds⟩ := hgrow i List.mem_cons_self
    obtain ⟨trees, htrees, hall⟩ := ih hnodup (fun j hj => hsame j (List.mem_cons_of_mem _ hj))
      fun j hj => hgrow j (List.mem_cons_of_mem _ hj)
    refine ⟨tree :: trees, fun fuel hfuel => ?_, ?_, fun k => ?_, ?_⟩
    · rw [growAll, htree fuel hfuel, htrees fuel hfuel]
      rfl
    · intro link hlink
      rcases List.mem_append.mp hlink with h | h
      · exact hholds.linked link h
      · exact hall.linked link h
    · rw [linksAll, List.map_append, List.mem_append, hholds.mem, hall.mem]
      simp only [List.mem_cons, exists_eq_or_imp]
      tauto
    · rw [linksAll, List.map_append]
      refine List.nodup_append.mpr ⟨hholds.nodup, hall.nodup, fun k hk l hl hkl => ?_⟩
      subst hkl
      -- below two elements of one parent
      obtain ⟨hcount, hbelow⟩ := (hholds.mem k).mp hk
      obtain ⟨-, j, hj, hbelow'⟩ := (hall.mem k).mp hl
      have hparents : parent i = parent j :=
        (hsame i List.mem_cons_self).2.trans (hsame j (List.mem_cons_of_mem _ hj)).2.symm
      exact hfresh (hbelow.unique hfalls hbelow' hcount hparents ▸ hj)

theorem nodup_listed (above : Option Nat) : (listed count parent above).Nodup :=
  List.nodup_range.filter _

theorem exists_grow (hfalls : Falls count parent rank) {bound : Nat} (hbound : ∀ k < count, rank k ≤ bound)
    (hi : i < count) : ∃ tree, (∀ fuel, bound - rank i < fuel → grow count parent fuel i = some tree) ∧
      Holds count parent i (tree.links (parent i)) := by
  induction hrank : bound - rank i using Nat.strongRecOn generalizing i with
  | ind n ih =>
    have hchildren : ∀ c ∈ listed count parent (some i), ∃ tree,
        (∀ fuel, n ≤ fuel → grow count parent fuel c = some tree) ∧ Holds count parent c (tree.links (some i)) := by
      intro c hc
      obtain ⟨hcount, hparent⟩ := mem_listed.mp hc
      have hlower := (hfalls c hcount i hparent).2
      have hc := hbound c hcount
      obtain ⟨tree, htree, hholds⟩ := ih (bound - rank c) (by omega) hcount rfl
      exact ⟨tree, fun fuel hfuel => htree fuel (by omega), hparent ▸ hholds⟩
    obtain ⟨trees, htrees, hall⟩ := holdsAll_of_growAll hfalls (nodup_listed (some i))
      (fun c hc => mem_listed.mp hc) hchildren
    refine ⟨.node i trees, fun fuel hfuel => ?_, ?_, fun k => ?_, ?_⟩
    · obtain ⟨fuel, rfl⟩ := Nat.exists_eq_add_one_of_ne_zero (Nat.ne_of_gt (Nat.zero_lt_of_lt hfuel))
      rw [grow, htrees fuel (Nat.le_of_lt_succ hfuel)]
      rfl
    · intro link hlink
      rcases List.mem_cons.mp hlink with rfl | h
      · rfl
      · exact hall.linked link h
    · rw [Tree.links, List.map_cons, List.mem_cons, hall.mem]
      constructor
      · rintro (rfl | ⟨hk, c, hc, hbelow⟩)
        · exact ⟨hi, .refl⟩
        · exact ⟨hk, hbelow.tail (mem_listed.mp hc).2⟩
      · rintro ⟨hk, hbelow⟩
        rcases hbelow.cases_tail with rfl | ⟨c, hc, hstep⟩
        · exact .inl rfl
        · exact .inr ⟨hk, c, mem_listed.mpr ⟨(Below.falls hfalls hc hk).1, hstep⟩, hc⟩
    · rw [Tree.links, List.map_cons]
      refine List.nodup_cons.mpr ⟨fun h => ?_, hall.nodup⟩
      -- the element would be below a child of its own
      obtain ⟨-, c, hc, hbelow⟩ := (hall.mem i).mp h
      obtain ⟨hcount, hparent⟩ := mem_listed.mp hc
      have hlower := (hfalls c hcount i hparent).2
      rcases (hbelow.falls hfalls hi).2 with rfl | hback
      · exact absurd hlower (Nat.lt_irrefl _)
      · exact absurd hlower (Nat.lt_asymm hback)

theorem exists_bound (rank : Nat → Nat) (count : Nat) : ∃ bound, ∀ k < count, rank k ≤ bound := by
  induction count with
  | zero => exact ⟨0, fun k hk => absurd hk (Nat.not_lt_zero k)⟩
  | succ count ih =>
    obtain ⟨bound, hbound⟩ := ih
    refine ⟨bound + rank count, fun k hk => ?_⟩
    rcases Nat.lt_succ_iff_lt_or_eq.mp hk with hlt | rfl
    · exact Nat.le_trans (hbound k hlt) (Nat.le_add_right _ _)
    · exact Nat.le_add_left _ _

/-- **The forest grows, and has every element once, below its parent.** -/
theorem exists_forest (hfalls : Falls count parent rank) : ∃ trees, (∃ m, ∀ fuel, m ≤ fuel →
    forest count parent fuel = some trees) ∧
      (linksAll none trees).Perm ((List.range count).map fun i => (parent i, i)) := by
  obtain ⟨bound, hbound⟩ := exists_bound rank count
  have hroots : ∀ i ∈ listed count parent none, ∃ tree,
      (∀ fuel, bound + 1 ≤ fuel → grow count parent fuel i = some tree) ∧ Holds count parent i (tree.links none) := by
    intro i hi
    obtain ⟨hcount, hroot⟩ := mem_listed.mp hi
    obtain ⟨tree, htree, hholds⟩ := exists_grow hfalls hbound hcount
    exact ⟨tree, fun fuel hfuel => htree fuel (by omega), hroot ▸ hholds⟩
  obtain ⟨trees, htrees, hall⟩ := holdsAll_of_growAll hfalls (nodup_listed none)
    (fun i hi => mem_listed.mp hi) hroots
  refine ⟨trees, ⟨bound + 1, htrees⟩, ?_⟩
  have hvalues : ((linksAll none trees).map Prod.snd).Perm (List.range count) := by
    refine (List.perm_ext_iff_of_nodup hall.nodup List.nodup_range).mpr fun k => ?_
    rw [hall.mem, List.mem_range]
    refine and_iff_left_of_imp fun hk => ?_
    obtain ⟨i, hbelow, hi, hroot⟩ := exists_root hfalls hk
    exact ⟨i, mem_listed.mpr ⟨hi, hroot⟩, hbelow⟩
  have hlinks : linksAll none trees = ((linksAll none trees).map Prod.snd).map fun i => (parent i, i) := by
    rw [List.map_map]
    exact (List.map_id _).symm.trans (List.map_congr_left fun link hlink =>
      Prod.ext (hall.linked link hlink) rfl)
  rw [hlinks]
  exact hvalues.map _

end Grown

end JMan.Forests
