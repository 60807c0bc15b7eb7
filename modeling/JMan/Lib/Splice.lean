import Mathlib.Data.List.Basic
import Mathlib.Algebra.Order.Group.Nat

/-!
# JMan — splices

One list made into another by replacing what lies between a common beginning and a
common end (`splice_between`).
-/

namespace Splice

variable {α : Type} [DecidableEq α]

/-- How many elements two lists have in common at their beginnings. -/
def common (xs ys : List α) : Nat := ((xs.zip ys).takeWhile fun pair => pair.1 = pair.2).length

/-- `count` elements from `start` on are replaced. -/
def splice (start count : Nat) (data xs : List α) : List α :=
  xs.take start ++ data ++ xs.drop (start + count)

theorem common_cons (x y : α) (xs ys : List α) :
    common (x :: xs) (y :: ys) = if x = y then common xs ys + 1 else 0 := by
  unfold common
  rw [List.zip_cons_cons, List.takeWhile_cons]
  by_cases h : x = y
  · rw [if_pos (decide_eq_true h), if_pos h]
    rfl
  · rw [if_neg (fun hd => h (of_decide_eq_true hd)), if_neg h]
    rfl

/-- **What two lists have in common at their beginnings is the same.** -/
theorem take_eq_of_le_common {xs ys : List α} {n : Nat} (h : n ≤ common xs ys) :
    xs.take n = ys.take n := by
  induction xs generalizing ys n with
  | nil =>
    obtain rfl : n = 0 := Nat.le_zero.mp h
    rfl
  | cons x xs ih =>
    cases ys with
    | nil =>
      obtain rfl : n = 0 := Nat.le_zero.mp h
      rfl
    | cons y ys =>
      cases n with
      | zero => rfl
      | succ n =>
        rw [common_cons] at h
        split at h
        · next hxy =>
          rw [List.take_succ_cons, List.take_succ_cons, hxy, ih (Nat.le_of_succ_le_succ h)]
        · exact absurd h (Nat.not_succ_le_zero n)

theorem common_le_length (xs ys : List α) :
    common xs ys ≤ xs.length ∧ common xs ys ≤ ys.length := by
  have hzip : common xs ys ≤ (xs.zip ys).length := (List.takeWhile_sublist _).length_le
  rw [List.length_zip] at hzip
  omega

theorem drop_eq_of_le_common {xs ys : List α} {n : Nat} (h : n ≤ common xs.reverse ys.reverse) :
    xs.drop (xs.length - n) = ys.drop (ys.length - n) := by
  have hreverse := take_eq_of_le_common h
  rw [List.take_reverse, List.take_reverse] at hreverse
  exact List.reverse_inj.mp hreverse

/-- **What lies between a common beginning and a common end is replaced,** and nothing
else differs. -/
theorem splice_between {xs ys : List α} {start suffix : Nat} (hstart : start ≤ common xs ys)
    (hsuffix : suffix ≤ common xs.reverse ys.reverse) (hxs : start + suffix ≤ xs.length)
    (hys : start + suffix ≤ ys.length) :
    splice start (xs.length - (start + suffix)) ((ys.drop start).take (ys.length - suffix - start)) xs =
      ys := by
  have hend : start + (xs.length - (start + suffix)) = xs.length - suffix := by omega
  have hmiddle : start + (ys.length - suffix - start) = ys.length - suffix := by omega
  calc splice start (xs.length - (start + suffix))
        ((ys.drop start).take (ys.length - suffix - start)) xs
      = xs.take start ++ (ys.drop start).take (ys.length - suffix - start) ++
          xs.drop (xs.length - suffix) := by rw [splice, hend]
    _ = ys.take start ++ (ys.drop start).take (ys.length - suffix - start) ++
          ys.drop (ys.length - suffix) := by
        rw [take_eq_of_le_common hstart, drop_eq_of_le_common hsuffix]
    _ = ys.take (ys.length - suffix) ++ ys.drop (ys.length - suffix) := by
        rw [← List.take_add, hmiddle]
    _ = ys := List.take_append_drop _ _

end Splice
