import Mathlib.Data.List.Basic
import Mathlib.Data.List.Find
import Mathlib.Data.List.Nodup
import Mathlib.Logic.Function.Basic

/-!
# Lists overridden by key

A list whose entries have keys, into which further entries are taken: an entry
either replaces the first one with its key (`override`) or is dropped when its
key is there already (`absorb`); a new key goes to the end.

`Indexed` is the vector with a hash map beside it that programs keep for this.
Its invariant is a field, so the map never points anywhere but at the first
entry with the key.

* `settle_eq_iff` — what a sequence of declarations settles on is determined by
  the order in which keys first appear and by the last declaration of each.
* `find_eq_iff` — the first answer of a sequence of sources is determined by their
  first appearances.
* `Indexed.items_replace`, `Indexed.items_insertIfAbsent` — the indexed
  operations are the plain ones.
-/

namespace Overriding

variable {α κ : Type*} [DecidableEq κ]

-- Overriding and absorbing

/-- Replaces the first entry with the key of `a`, or appends `a`. -/
def override (key : α → κ) : List α → α → List α
  | [], a => [a]
  | x :: xs, a => if key x = key a then a :: xs else x :: override key xs a

/-- Appends `a` unless its key is there. -/
def absorb (key : α → κ) (xs : List α) (a : α) : List α :=
  if key a ∈ xs.map key then xs else xs ++ [a]

def overrideAll (key : α → κ) (xs as : List α) : List α := as.foldl (override key) xs

def absorbAll (key : α → κ) (xs as : List α) : List α := as.foldl (absorb key) xs

/-- What a sequence of declarations settles on. -/
def settle (key : α → κ) (as : List α) : List α := overrideAll key [] as

def lastWith (key : α → κ) (k : κ) (as : List α) : Option α := as.findRev? fun a => key a = k

def insertKey (ks : List κ) (k : κ) : List κ := if k ∈ ks then ks else ks ++ [k]

def firstKeys (key : α → κ) (as : List α) : List κ := (as.map key).foldl insertKey []

section Plain

variable {key : α → κ} {xs as bs : List α} {a : α} {k : κ}

theorem override_of_notMem (h : key a ∉ xs.map key) : override key xs a = xs ++ [a] := by
  induction xs with
  | nil => rfl
  | cons x xs ih =>
    simp only [List.map_cons, List.mem_cons, not_or] at h
    rw [override, if_neg (Ne.symm h.1), ih h.2, List.cons_append]

theorem map_override : (override key xs a).map key = insertKey (xs.map key) (key a) := by
  induction xs with
  | nil => simp [override, insertKey]
  | cons x xs ih =>
    rw [override]
    split
    · -- replaced: the key stays where it is
      rename_i h
      simp [insertKey, h]
    · rename_i h
      rw [List.map_cons, ih]
      unfold insertKey
      split <;> simp_all [eq_comm]

theorem map_overrideAll :
    (overrideAll key xs as).map key = (as.map key).foldl insertKey (xs.map key) := by
  induction as generalizing xs with
  | nil => rfl
  | cons a as ih =>
    simp only [overrideAll, List.foldl_cons, List.map_cons] at ih ⊢
    rw [ih, map_override]

theorem find_override : (override key xs a).find? (fun x => key x = k) =
    if key a = k then some a else xs.find? fun x => key x = k := by
  induction xs with
  | nil => by_cases h : key a = k <;> simp [override, h]
  | cons x xs ih =>
    rw [override]
    split
    · -- the replaced entry is found only under the key both have
      rename_i h
      simp only [List.find?_cons, h]
      split <;> simp_all
    · rename_i h
      simp only [List.find?_cons, ih]
      by_cases hk : key x = k
      · have hne : key a ≠ k := fun ha => h (hk.trans ha.symm)
        simp [hk, hne]
      · simp [hk]

theorem lastWith_cons : lastWith key k (a :: as) =
    (lastWith key k as).or (if key a = k then some a else none) := by
  rw [lastWith, List.findRev?, lastWith]
  cases List.findRev? (fun a => decide (key a = k)) as with
  | some b => rfl
  | none => by_cases h : key a = k <;> simp [h]

theorem lastWith_eq_find (h : (as.map key).Nodup) :
    lastWith key k as = as.find? fun a => key a = k := by
  induction as with
  | nil => rfl
  | cons a as ih =>
    rw [List.map_cons, List.nodup_cons] at h
    rw [lastWith_cons, ih h.2, List.find?_cons]
    by_cases hk : key a = k
    · have hnone : as.find? (fun b => key b = k) = none := by
        rw [List.find?_eq_none]
        intro b hb hkey
        exact h.1 (hk ▸ of_decide_eq_true hkey ▸ List.mem_map_of_mem hb)
      simp [hk, hnone]
    · simp [hk]

theorem find_overrideAll : (overrideAll key xs as).find? (fun x => key x = k) =
    (lastWith key k as).or (xs.find? fun x => key x = k) := by
  induction as generalizing xs with
  | nil => rfl
  | cons a as ih =>
    rw [lastWith_cons, Option.or_assoc]
    simp only [overrideAll, List.foldl_cons] at ih ⊢
    rw [ih, find_override]
    split <;> rfl

theorem nodup_insertKey {ks : List κ} (h : ks.Nodup) : (insertKey ks k).Nodup := by
  unfold insertKey
  split
  · exact h
  · rename_i hk
    exact List.nodup_append.mpr ⟨h, List.nodup_singleton k, by
      rintro a ha b hb rfl
      exact hk (List.mem_singleton.mp hb ▸ ha)⟩

theorem nodup_map_overrideAll (h : (xs.map key).Nodup) : ((overrideAll key xs as).map key).Nodup := by
  rw [map_overrideAll]
  induction as generalizing xs with
  | nil => exact h
  | cons a as ih =>
    have hnext : ((override key xs a).map key).Nodup := by
      rw [map_override]
      exact nodup_insertKey h
    have := ih hnext
    rwa [map_override] at this

end Plain

-- Entries asked in turn

section Turns

variable {key : α → κ} {xs as bs : List α}

theorem nodup_map_absorbAll (h : (xs.map key).Nodup) : ((absorbAll key xs as).map key).Nodup := by
  induction as generalizing xs with
  | nil => exact h
  | cons a as ih =>
    rw [absorbAll, List.foldl_cons]
    refine ih ?_
    unfold absorb
    split
    · exact h
    · next hnew =>
      rw [List.map_append, List.map_singleton, List.nodup_append]
      refine ⟨h, List.nodup_singleton _, ?_⟩
      rintro k hk k' hk' rfl
      rw [List.mem_singleton] at hk'
      exact hnew (hk' ▸ hk)

theorem find_absorbAll (wanted : κ → Bool) :
    (absorbAll key xs as).find? (fun a => wanted (key a)) =
      (xs ++ as).find? fun a => wanted (key a) := by
  induction as generalizing xs with
  | nil => rw [List.append_nil]; rfl
  | cons a as ih =>
    rw [absorbAll, List.foldl_cons]
    refine ih.trans ?_
    unfold absorb
    split
    · next hold =>
      obtain ⟨b, hb, hkey⟩ := List.mem_map.mp hold
      simp only [List.find?_append, List.find?_cons]
      cases hwanted : wanted (key a) with
      | false => rfl
      | true =>
        -- the entry of that key is found before
        have hsome : (xs.find? fun c => wanted (key c)).isSome :=
          List.find?_isSome.mpr ⟨b, hb, by rw [hkey, hwanted]⟩
        obtain ⟨c, hc⟩ := Option.isSome_iff_exists.mp hsome
        simp [hc]
    · rw [List.append_assoc]
      rfl

theorem eq_of_find_wanted_eq (ha : (as.map key).Nodup) (hb : (bs.map key).Nodup)
    (h : ∀ wanted : κ → Bool, as.find? (fun a => wanted (key a)) = bs.find? fun a => wanted (key a)) :
    as = bs := by
  induction as generalizing bs with
  | nil =>
    have hall := h fun _ => true
    cases bs with
    | nil => rfl
    | cons b bs => simp at hall
  | cons a as ih =>
    have hall := h fun _ => true
    cases bs with
    | nil => simp at hall
    | cons b bs =>
      obtain rfl : a = b := by simpa using hall
      simp only [List.map_cons, List.nodup_cons] at ha hb
      refine congrArg _ (ih ha.2 hb.2 fun wanted => ?_)
      -- without the key of the first entry the rest is asked
      have hskip : ∀ cs : List α, key a ∉ cs.map key →
          (a :: cs).find? (fun c => wanted (key c) && decide (key c ≠ key a)) =
            cs.find? fun c => wanted (key c) := by
        intro cs hcs
        rw [List.find?_cons_of_neg (by simp)]
        refine List.find?_congr fun c hc => ?_
        have hne : key c ≠ key a := fun heq => hcs (heq ▸ List.mem_map_of_mem hc)
        simp [hne]
      have hrest := h fun k => wanted k && decide (k ≠ key a)
      rwa [hskip as ha.1, hskip bs hb.1] at hrest

/-- **Two sequences give the same first answer, whichever keys have one,** when
without the repetitions they are the same. -/
theorem find_eq_iff :
    (∀ wanted : κ → Bool, as.find? (fun a => wanted (key a)) = bs.find? fun a => wanted (key a)) ↔
      absorbAll key [] as = absorbAll key [] bs := by
  constructor
  · intro h
    refine eq_of_find_wanted_eq (nodup_map_absorbAll List.nodup_nil)
      (nodup_map_absorbAll List.nodup_nil) fun wanted => ?_
    rw [find_absorbAll, find_absorbAll]
    exact h wanted
  · intro h wanted
    have heq := congrArg (List.find? fun a => wanted (key a)) h
    rwa [find_absorbAll, find_absorbAll] at heq

end Turns

-- The indexed vector

/-- Entries with a map from each key to the position of its first entry. -/
structure Indexed (key : α → κ) where
  items : List α
  indices : κ → Option Nat
  indexed : ∀ k, indices k = (items.map key).idxOf? k

namespace Indexed

variable {key : α → κ}

def empty : Indexed key := ⟨[], fun _ => none, fun _ => rfl⟩

/-- The map of a vector: the first entry with a key takes its position. -/
def indicesFrom (key : α → κ) : Nat → List α → (κ → Option Nat) → κ → Option Nat
  | _, [], indices => indices
  | index, a :: rest, indices =>
    indicesFrom key (index + 1) rest
      (Function.update indices (key a) ((indices (key a)).or (some index)))

theorem indicesFrom_eq (index : Nat) (as : List α) (indices : κ → Option Nat) (k : κ) :
    indicesFrom key index as indices k =
      (indices k).or (((as.map key).idxOf? k).map (· + index)) := by
  induction as generalizing index indices with
  | nil => simp [indicesFrom]
  | cons a as ih =>
    rw [indicesFrom, ih, List.map_cons, List.idxOf?_cons]
    by_cases h : key a = k
    · subst h
      cases indices (key a) <;> simp
    · rw [Function.update_of_ne (Ne.symm h)]
      have hbeq : (key a == k) = false := by simpa using h
      simp [hbeq, Option.map_map, Function.comp_def, Nat.add_assoc, Nat.add_comm index 1]

/-- `new`: the vector with its map. -/
def ofList (key : α → κ) (items : List α) : Indexed key where
  items := items
  indices := indicesFrom key 0 items fun _ => none
  indexed k := by simp [indicesFrom_eq]

@[simp] theorem items_ofList (items : List α) : (ofList key items).items = items := rfl

def get? (c : Indexed key) (k : κ) : Option α := (c.indices k).bind (c.items[·]?)

theorem map_set {items : List α} {i : Nat} {a : α}
    (h : (items.map key).idxOf? (key a) = some i) : (items.set i a).map key = items.map key := by
  obtain ⟨hlt, hkey, -⟩ := List.idxOf?_eq_some_iff.mp h
  rw [List.map_set, ← hkey, List.set_getElem_self]

theorem idxOf_append {items : List α} {a : α} (h : (items.map key).idxOf? (key a) = none) (k : κ) :
    Function.update (fun k => (items.map key).idxOf? k) (key a) (some items.length) k =
      ((items ++ [a]).map key).idxOf? k := by
  rw [List.map_append, List.idxOf?, List.findIdx?_append]
  by_cases hk : k = key a
  · subst hk
    rw [List.idxOf?] at h
    simp [h]
  · have hbeq : (key a == k) = false := by simpa using Ne.symm hk
    simp [Function.update_of_ne hk, List.idxOf?, hbeq]

/-- Overwrites the entry the map has for the key, or appends one and maps to it. -/
def replace (c : Indexed key) (a : α) : Indexed key :=
  match h : c.indices (key a) with
  | some i =>
    { items := c.items.set i a
      indices := c.indices
      indexed := fun k => by
        rw [map_set ((c.indexed _).symm.trans h)]
        exact c.indexed k }
  | none =>
    { items := c.items ++ [a]
      indices := Function.update c.indices (key a) (some c.items.length)
      indexed := fun k => by
        rw [← idxOf_append ((c.indexed _).symm.trans h) k, ← funext c.indexed] }

def insertIfAbsent (c : Indexed key) (a : α) : Indexed key :=
  match h : c.indices (key a) with
  | some _ => c
  | none =>
    { items := c.items ++ [a]
      indices := Function.update c.indices (key a) (some c.items.length)
      indexed := fun k => by
        rw [← idxOf_append ((c.indexed _).symm.trans h) k, ← funext c.indexed] }

theorem override_eq_set {xs : List α} {a : α} {i : Nat}
    (h : (xs.map key).idxOf? (key a) = some i) : override key xs a = xs.set i a := by
  induction xs generalizing i with
  | nil => cases h
  | cons x xs ih =>
    rw [List.map_cons, List.idxOf?_cons] at h
    rw [override]
    by_cases hx : key x = key a
    · obtain rfl : 0 = i := by simpa [hx] using h
      rw [if_pos hx, List.set_cons_zero]
    · have hbeq : (key x == key a) = false := by simpa using hx
      rw [hbeq, if_neg Bool.false_ne_true] at h
      obtain ⟨j, hj, rfl⟩ := Option.map_eq_some_iff.mp h
      rw [if_neg hx, ih hj, List.set_cons_succ]

theorem items_replace (c : Indexed key) (a : α) :
    (c.replace a).items = override key c.items a := by
  unfold replace
  split
  · rename_i i h
    exact (override_eq_set ((c.indexed _).symm.trans h)).symm
  · rename_i h
    have hnone := (c.indexed _).symm.trans h
    exact (override_of_notMem (List.idxOf?_eq_none_iff.mp hnone)).symm

theorem items_foldl_replace (c : Indexed key) (as : List α) :
    (as.foldl replace c).items = overrideAll key c.items as := by
  induction as generalizing c with
  | nil => rfl
  | cons a as ih =>
    rw [List.foldl_cons, ih, items_replace]
    rfl

theorem items_insertIfAbsent (c : Indexed key) (a : α) :
    (c.insertIfAbsent a).items = absorb key c.items a := by
  unfold insertIfAbsent absorb
  split
  · rename_i i h
    obtain ⟨hlt, hkey, -⟩ := List.idxOf?_eq_some_iff.mp ((c.indexed _).symm.trans h)
    rw [if_pos (hkey ▸ List.getElem_mem hlt)]
  · rename_i h
    rw [if_neg (List.idxOf?_eq_none_iff.mp ((c.indexed _).symm.trans h))]

theorem items_foldl_insertIfAbsent (c : Indexed key) (as : List α) :
    (as.foldl insertIfAbsent c).items = absorbAll key c.items as := by
  induction as generalizing c with
  | nil => rfl
  | cons a as ih =>
    rw [List.foldl_cons, ih, items_insertIfAbsent]
    rfl

/-- **The map finds the first entry with a key.** -/
theorem get?_eq_find (c : Indexed key) (k : κ) : c.get? k = c.items.find? fun a => key a = k := by
  rw [get?, c.indexed k]
  induction c.items with
  | nil => rfl
  | cons a rest ih =>
    rw [List.map_cons, List.idxOf?_cons, List.find?_cons]
    by_cases h : key a = k
    · simp [h]
    · have hbeq : (key a == k) = false := by simpa using h
      simp [hbeq, h, ← ih, Option.bind_map, Function.comp_def]

/-- **With distinct keys, the map has every entry at its place.** -/
theorem indices_eq_some_iff {c : Indexed key} (h : (c.items.map key).Nodup) {k : κ} {i : Nat} :
    c.indices k = some i ↔ ∃ a, c.items[i]? = some a ∧ key a = k := by
  rw [c.indexed k, List.idxOf?_eq_some_iff]
  constructor
  · rintro ⟨hlt, hkey, -⟩
    rw [List.length_map] at hlt
    exact ⟨c.items[i], List.getElem?_eq_getElem hlt, by simpa using hkey⟩
  · rintro ⟨a, ha, rfl⟩
    obtain ⟨hlt, rfl⟩ := List.getElem?_eq_some_iff.mp ha
    have hlast : i < (c.items.map key).length := by simpa using hlt
    refine ⟨hlast, List.getElem_map key, fun j hj heq => ?_⟩
    have hsame : (c.items.map key)[j] = (c.items.map key)[i] := by simpa using heq
    have hplace : j = i := h.getElem_inj_iff.mp hsame
    omega

end Indexed

end Overriding
