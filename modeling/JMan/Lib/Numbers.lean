import Mathlib.Data.List.Basic
import Mathlib.Data.Nat.Basic

/-!
# Numbers in texts

Unsigned numbers of a bounded type, as they are read from decimal digits.

* `parseUnsigned` — the reading, which accepts a plus sign and leading zeros.
* `parseUnsigned_zeros` — a number with zeros in front of it is read as it is.
-/

namespace Numbers

variable {max number n : Nat} {digits rest : List Char}

/-- The digits that are left, when the ones before have been read. -/
def parseFrom (max number : Nat) : List Char → Option Nat
  | [] => some number
  | c :: rest =>
    if c.isDigit then
      let next := number * 10 + (c.toNat - '0'.toNat)
      if max < next then none else parseFrom max next rest
    else none

/-- `str::parse` of an unsigned type with this largest value -/
def parseUnsigned (max : Nat) (part : List Char) : Option Nat :=
  match part with
  | '+' :: digits => if digits = [] then none else parseFrom max 0 digits
  | digits => if digits = [] then none else parseFrom max 0 digits

theorem parseFrom_append (max number : Nat) (digits rest : List Char) :
    parseFrom max number (digits ++ rest) =
      (parseFrom max number digits).bind fun read => parseFrom max read rest := by
  induction digits generalizing number with
  | nil => rfl
  | cons c digits ih =>
    rw [List.cons_append, parseFrom, parseFrom]
    split
    · dsimp only
      split
      · rfl
      · exact ih _
    · rfl

theorem parseFrom_digitChar {d : Nat} (hd : d < 10) (hfits : number * 10 + d ≤ max) :
    parseFrom max number [Nat.digitChar d] = some (number * 10 + d) := by
  have htable : ∀ d : Fin 10, (Nat.digitChar d).isDigit ∧ (Nat.digitChar d).toNat - '0'.toNat = d.val := by
    decide
  obtain ⟨hdigit, hvalue⟩ := htable ⟨d, hd⟩
  rw [parseFrom, if_pos hdigit, hvalue]
  dsimp only
  rw [if_neg (Nat.not_lt.mpr hfits), parseFrom]

/-- **The digits of a number are read as the number.** -/
theorem parseFrom_toDigits (h : n ≤ max) : parseFrom max 0 (Nat.toDigits 10 n) = some n := by
  induction n using Nat.strongRecOn with
  | _ n ih =>
    by_cases hsmall : n < 10
    · rw [Nat.toDigits_of_lt_base hsmall, parseFrom_digitChar hsmall (by omega)]
      simp
    · have hread := ih (n / 10) (by omega) (by omega)
      rw [Nat.toDigits_of_base_le (by decide) (Nat.le_of_not_lt hsmall), parseFrom_append, hread,
        Option.bind_some, parseFrom_digitChar (Nat.mod_lt _ (by decide)) (by omega)]
      congr 1
      omega

theorem parseFrom_mono {max' : Nat} (hle : max ≤ max') {digits : List Char}
    (h : parseFrom max number digits = some n) : parseFrom max' number digits = some n := by
  induction digits generalizing number with
  | nil => exact h
  | cons c digits ih =>
    rw [parseFrom] at h ⊢
    split at h
    case isTrue hdigit =>
      dsimp only at h ⊢
      rw [if_pos hdigit]
      split at h
      case isTrue => cases h
      case isFalse hfits =>
        rw [if_neg (by omega)]
        exact ih h
    case isFalse => cases h

theorem eq_of_parseFrom_toDigits {m : Nat} (h : parseFrom max 0 (Nat.toDigits 10 n) = some m) :
    m = n := by
  have hlarge := parseFrom_mono (Nat.le_max_left max n) h
  rw [parseFrom_toDigits (Nat.le_max_right max n)] at hlarge
  exact (Option.some.inj hlarge).symm

theorem toString_injective {m n : Nat} (h : toString m = toString n) : m = n := by
  have hdigits : Nat.toDigits 10 m = Nat.toDigits 10 n := String.ofList_injective h
  have hm := parseFrom_toDigits (Nat.le_max_left m n)
  rw [hdigits, parseFrom_toDigits (Nat.le_max_right m n)] at hm
  exact (Option.some.inj hm).symm

theorem parseFrom_zeros (max : Nat) (count : Nat) (rest : List Char) :
    parseFrom max 0 (List.replicate count '0' ++ rest) = parseFrom max 0 rest := by
  induction count with
  | zero => rfl
  | succ count ih =>
    rw [List.replicate_succ, List.cons_append, parseFrom, if_pos (by decide)]
    exact ih

theorem parseUnsigned_of_digits (hne : digits ≠ []) (hdigits : ∀ c ∈ digits, c.isDigit) :
    parseUnsigned max digits = parseFrom max 0 digits := by
  unfold parseUnsigned
  split
  · exact absurd (hdigits '+' List.mem_cons_self) (by decide)
  · rw [if_neg hne]

/-- **A number with zeros in front of it is read as it is.** -/
theorem parseUnsigned_zeros (count : Nat) (h : n ≤ max) :
    parseUnsigned max (List.replicate count '0' ++ Nat.toDigits 10 n) = some n := by
  have hdigits : ∀ c ∈ List.replicate count '0' ++ Nat.toDigits 10 n, c.isDigit := by
    intro c hc
    rcases List.mem_append.mp hc with hc | hc
    · rw [List.eq_of_mem_replicate hc]
      rfl
    · exact Nat.isDigit_of_mem_toDigits (by decide) (by decide) hc
  rw [parseUnsigned_of_digits (List.append_ne_nil_of_right_ne_nil _ Nat.toDigits_ne_nil) hdigits,
    parseFrom_zeros, parseFrom_toDigits h]

end Numbers
