import Mathlib.Algebra.Order.Ring.Nat
import Mathlib.Data.String.Basic

/-!
# Encodings

Byte strings put together so that they can be taken apart again.

* `part` — bytes after their length, as eight bytes.
* `part_append`, `parts_injective` — what is written in parts reads in one way,
  whatever follows.
* `paired_injective` — pairs of bytes written one after the other, once their
  number is known.
-/

namespace Encoding

abbrev Bytes := List UInt8

def utf8 (text : String) : Bytes := text.toUTF8.data.toList

theorem utf8_injective : Function.Injective utf8 := by
  intro left right h
  have hdata : left.toUTF8.data = right.toUTF8.data := Array.toList_inj.mp h
  have hbytes : left.toUTF8 = right.toUTF8 := ByteArray.ext hdata
  exact String.toByteArray_inj.mp hbytes

theorem utf8_append (left right : String) : utf8 (left ++ right) = utf8 left ++ utf8 right := by
  simp [utf8]

@[simp] theorem length_utf8 (text : String) : (utf8 text).length = text.utf8ByteSize := by
  simp [utf8]

theorem fromUTF8?_utf8 (text : String) : String.fromUTF8? ⟨(utf8 text).toArray⟩ = some text := by
  have hbytes : (⟨(utf8 text).toArray⟩ : ByteArray) = text.toUTF8 := by
    rw [utf8, Array.toArray_toList]
  rw [hbytes]
  exact dif_pos text.isValidUTF8

theorem eq_utf8_of_fromUTF8? {bytes : Bytes} {text : String}
    (h : String.fromUTF8? ⟨bytes.toArray⟩ = some text) : bytes = utf8 text := by
  unfold String.fromUTF8? at h
  split at h
  · cases h
    rfl
  · cases h

/-- Two byte strings are not a collision of a digest. -/
def Distinguishes (digest : Bytes → String) (left right : Bytes) : Prop :=
  digest left = digest right → left = right

-- Numbers

def littleEndian : Nat → Nat → Bytes
  | 0, _ => []
  | width + 1, n => UInt8.ofNat (n % 256) :: littleEndian width (n / 256)

@[simp] theorem length_littleEndian (width n : Nat) : (littleEndian width n).length = width := by
  induction width generalizing n with
  | zero => rfl
  | succ width ih => rw [littleEndian, List.length_cons, ih]

theorem littleEndian_injective {width n m : Nat} (hn : n < 256 ^ width) (hm : m < 256 ^ width)
    (h : littleEndian width n = littleEndian width m) : n = m := by
  induction width generalizing n m with
  | zero =>
    rw [Nat.pow_zero] at hn hm
    omega
  | succ width ih =>
    rw [littleEndian, littleEndian, List.cons.injEq] at h
    obtain ⟨hlow, hhigh⟩ := h
    have hdiv : n / 256 = m / 256 := by
      refine ih ?_ ?_ hhigh
      · rw [Nat.pow_succ] at hn
        omega
      · rw [Nat.pow_succ] at hm
        omega
    have hmod : n % 256 = m % 256 := by
      have hvalue := congrArg UInt8.toNat hlow
      rw [UInt8.toNat_ofNat', UInt8.toNat_ofNat'] at hvalue
      omega
    omega

/-- The number that bytes stand for, the lowest first. -/
def ofLittleEndian : Bytes → Nat
  | [] => 0
  | byte :: bytes => byte.toNat + 256 * ofLittleEndian bytes

theorem ofLittleEndian_littleEndian (width n : Nat) :
    ofLittleEndian (littleEndian width n) = n % 256 ^ width := by
  induction width generalizing n with
  | zero => rw [littleEndian, ofLittleEndian, Nat.pow_zero, Nat.mod_one]
  | succ width ih =>
    rw [littleEndian, ofLittleEndian, ih, UInt8.toNat_ofNat', Nat.mod_mod_of_dvd _ (dvd_refl _),
      Nat.pow_succ', Nat.mod_mul]

def bigEndian (width n : Nat) : Bytes := (littleEndian width n).reverse

def ofBigEndian (bytes : Bytes) : Nat := ofLittleEndian bytes.reverse

@[simp] theorem length_bigEndian (width n : Nat) : (bigEndian width n).length = width := by
  rw [bigEndian, List.length_reverse, length_littleEndian]

theorem ofBigEndian_bigEndian (width n : Nat) :
    ofBigEndian (bigEndian width n) = n % 256 ^ width := by
  rw [ofBigEndian, bigEndian, List.reverse_reverse, ofLittleEndian_littleEndian]

/-- `(n as u64).to_le_bytes()` -/
def le8 (n : Nat) : Bytes := littleEndian 8 n

theorem le8_append {n m : Nat} {left right : Bytes} (hn : n < 2 ^ 64) (hm : m < 2 ^ 64)
    (h : le8 n ++ left = le8 m ++ right) : n = m ∧ left = right := by
  have hlength : (le8 n).length = (le8 m).length := by
    rw [le8, le8, length_littleEndian, length_littleEndian]
  obtain ⟨hbytes, hrest⟩ := List.append_inj h hlength
  exact ⟨littleEndian_injective hn hm hbytes, hrest⟩

-- Parts

def part (bytes : Bytes) : Bytes := le8 bytes.length ++ bytes

def Fits (bytes : Bytes) : Prop := bytes.length < 2 ^ 64

theorem part_append {a b left right : Bytes} (ha : Fits a) (hb : Fits b)
    (h : part a ++ left = part b ++ right) : a = b ∧ left = right := by
  rw [part, part, List.append_assoc, List.append_assoc] at h
  obtain ⟨hlength, hrest⟩ := le8_append ha hb h
  exact List.append_inj hrest hlength

theorem part_ne_nil (bytes : Bytes) : part bytes ≠ [] := by
  intro h
  have hlength := congrArg List.length h
  rw [part, List.length_append, le8, length_littleEndian, List.length_nil] at hlength
  omega

def parts (items : List Bytes) : Bytes := items.flatMap part

-- Elements that end where they end

section Elements

variable {α : Type} {encode : α → Bytes} {p : α → Prop} {xs ys : List α} {left right : Bytes}

def Delimited (encode : α → Bytes) (p : α → Prop) : Prop :=
  ∀ ⦃x y⦄, p x → p y → ∀ ⦃left right⦄, encode x ++ left = encode y ++ right → x = y ∧ left = right

theorem Delimited.flatMap_append (hencode : Delimited encode p) (hx : ∀ x ∈ xs, p x)
    (hy : ∀ y ∈ ys, p y) (hlength : xs.length = ys.length)
    (h : xs.flatMap encode ++ left = ys.flatMap encode ++ right) : xs = ys ∧ left = right := by
  induction xs generalizing ys with
  | nil =>
    obtain rfl := List.length_eq_zero_iff.mp hlength.symm
    exact ⟨rfl, h⟩
  | cons x xs ih =>
    cases ys with
    | nil => cases hlength
    | cons y ys =>
      rw [List.flatMap_cons, List.flatMap_cons, List.append_assoc, List.append_assoc] at h
      obtain ⟨rfl, hrest⟩ := hencode (hx x List.mem_cons_self) (hy y List.mem_cons_self) h
      obtain ⟨rfl, hend⟩ := ih (fun z hz => hx z (List.mem_cons_of_mem _ hz))
        (fun z hz => hy z (List.mem_cons_of_mem _ hz)) (Nat.succ.inj hlength) hrest
      exact ⟨rfl, hend⟩

/-- **Elements are told apart up to the end.** -/
theorem Delimited.flatMap_injective (hencode : Delimited encode p) (hfilled : ∀ x, encode x ≠ [])
    (hx : ∀ x ∈ xs, p x) (hy : ∀ y ∈ ys, p y) (h : xs.flatMap encode = ys.flatMap encode) :
    xs = ys := by
  induction xs generalizing ys with
  | nil =>
    cases ys with
    | nil => rfl
    | cons y ys =>
      rw [List.flatMap_nil, List.flatMap_cons] at h
      exact absurd (List.append_eq_nil_iff.mp h.symm).1 (hfilled y)
  | cons x xs ih =>
    cases ys with
    | nil =>
      rw [List.flatMap_nil, List.flatMap_cons] at h
      exact absurd (List.append_eq_nil_iff.mp h).1 (hfilled x)
    | cons y ys =>
      rw [List.flatMap_cons, List.flatMap_cons] at h
      obtain ⟨rfl, hrest⟩ := hencode (hx x List.mem_cons_self) (hy y List.mem_cons_self) h
      rw [ih (fun z hz => hx z (List.mem_cons_of_mem _ hz))
        (fun z hz => hy z (List.mem_cons_of_mem _ hz)) hrest]

theorem delimited_part : Delimited part Fits := fun _ _ hx hy _ _ h => part_append hx hy h

theorem parts_append {xs ys : List Bytes} (hx : ∀ x ∈ xs, Fits x) (hy : ∀ y ∈ ys, Fits y)
    (hlength : xs.length = ys.length) (h : parts xs ++ left = parts ys ++ right) :
    xs = ys ∧ left = right :=
  delimited_part.flatMap_append hx hy hlength h

/-- **What is written in parts reads in one way.** -/
theorem parts_injective {xs ys : List Bytes} (hx : ∀ x ∈ xs, Fits x) (hy : ∀ y ∈ ys, Fits y)
    (h : parts xs = parts ys) : xs = ys :=
  delimited_part.flatMap_injective part_ne_nil hx hy h

end Elements

-- Pairs

section Pairs

variable {α β : Type}

theorem eq_of_map_fst_snd {left right : List (α × β)} (hfst : left.map Prod.fst = right.map Prod.fst)
    (hsnd : left.map Prod.snd = right.map Prod.snd) : left = right :=
  (List.zip_of_prod hfst hsnd).trans (List.zip_of_prod rfl rfl).symm

/-- The two halves of each pair, one after the other. -/
def paired : List (α × α) → List α
  | [] => []
  | pair :: pairs => pair.1 :: pair.2 :: paired pairs

@[simp] theorem length_paired (pairs : List (α × α)) : (paired pairs).length = 2 * pairs.length := by
  induction pairs with
  | nil => rfl
  | cons pair pairs ih =>
    rw [paired, List.length_cons, List.length_cons, ih, List.length_cons]
    omega

theorem paired_injective : Function.Injective (paired (α := α)) := by
  intro left right h
  induction left generalizing right with
  | nil =>
    cases right with
    | nil => rfl
    | cons pair pairs => cases h
  | cons pair pairs ih =>
    cases right with
    | nil => cases h
    | cons other others =>
      rw [paired, paired, List.cons.injEq, List.cons.injEq] at h
      obtain ⟨hfirst, hsecond, hrest⟩ := h
      rw [Prod.ext hfirst hsecond, ih hrest]

end Pairs

-- Separators

/-- **What stands before a separator is told from what follows it.** -/
theorem separated_injective {α : Type} {separator : α} {left right rest rest' : List α}
    (hleft : separator ∉ left) (hright : separator ∉ right)
    (h : left ++ separator :: rest = right ++ separator :: rest') : left = right ∧ rest = rest' := by
  induction left generalizing right with
  | nil =>
    cases right with
    | nil => exact ⟨rfl, (List.cons.inj h).2⟩
    | cons b right => exact absurd ((List.cons.inj h).1 ▸ List.mem_cons_self) hright
  | cons a left ih =>
    cases right with
    | nil => exact absurd ((List.cons.inj h).1 ▸ List.mem_cons_self) hleft
    | cons b right =>
      obtain ⟨rfl, htail⟩ := List.cons.inj h
      obtain ⟨rfl, hrest⟩ := ih (fun hmem => hleft (List.mem_cons_of_mem _ hmem))
        (fun hmem => hright (List.mem_cons_of_mem _ hmem)) htail
      exact ⟨rfl, hrest⟩

-- Numerals

/-- **A number is read from its numeral.** -/
theorem numeral_injective : Function.Injective (toString : Nat → String) := by
  intro n m h
  have hdigits : Nat.toDigits 10 n = Nat.toDigits 10 m := by
    rw [← Nat.toList_repr, ← Nat.toList_repr]
    exact congrArg String.toList h
  rw [← Nat.ofDigitChars_ten_toDigits (n := n), hdigits, Nat.ofDigitChars_ten_toDigits]

theorem isDigit_of_mem_numeral {n : Nat} {c : Char} (h : c ∈ (toString n).toList) : c.isDigit := by
  have hdigits : c ∈ Nat.toDigits 10 n := Nat.toList_repr (n := n) ▸ h
  exact Nat.isDigit_of_mem_toDigits (by decide) (by decide) hdigits

theorem signed_ne_numeral (n m : Nat) : "-" ++ toString n ≠ toString m := by
  intro h
  have hminus : '-' ∈ (toString m).toList := by
    rw [← h, String.toList_append]
    exact List.mem_append_left _ (List.mem_singleton.mpr rfl)
  exact absurd (isDigit_of_mem_numeral hminus) (by decide)

theorem signed_numeral_injective : Function.Injective (toString : Int → String) := by
  intro i j h
  cases i with
  | ofNat n =>
    cases j with
    | ofNat m => exact congrArg Int.ofNat (numeral_injective h)
    | negSucc m => exact absurd h.symm (signed_ne_numeral (m + 1) n)
  | negSucc n =>
    cases j with
    | ofNat m => exact absurd h (signed_ne_numeral (n + 1) m)
    | negSucc m =>
      have hsame := numeral_injective ((String.append_right_inj "-").mp h)
      exact congrArg Int.negSucc (Nat.succ_injective hsame)

end Encoding
