import Mathlib.Data.String.Basic
import Mathlib.Tactic.SplitIfs

/-!
# Texts of the operating system

File names and environment values are bytes, which need not be UTF-8. Shown as a
text, each sequence that is not UTF-8 becomes a replacement character.

* `OsString.toStringLossy` — the text shown. Different bytes can show the same
  text.
* `fromUtf8Lossy_toUTF8` — the bytes of a text show the text.
-/

namespace OsText

/-- The bytes of a file name or of the value of an environment variable. -/
structure OsString where
  bytes : List UInt8
deriving DecidableEq

def OsString.ofString (text : String) : OsString := ⟨text.toUTF8.data.toList⟩

/-- What may follow the first byte of a UTF-8 sequence, byte by byte. -/
def following (lead : UInt8) : Option (List (UInt8 × UInt8)) :=
  if lead < 0x80 then some []
  else if 0xC2 ≤ lead ∧ lead ≤ 0xDF then some [(0x80, 0xBF)]
  else if lead = 0xE0 then some [(0xA0, 0xBF), (0x80, 0xBF)]
  else if lead = 0xED then some [(0x80, 0x9F), (0x80, 0xBF)]
  else if 0xE1 ≤ lead ∧ lead ≤ 0xEF then some [(0x80, 0xBF), (0x80, 0xBF)]
  else if lead = 0xF0 then some [(0x90, 0xBF), (0x80, 0xBF), (0x80, 0xBF)]
  else if 0xF1 ≤ lead ∧ lead ≤ 0xF3 then some [(0x80, 0xBF), (0x80, 0xBF), (0x80, 0xBF)]
  else if lead = 0xF4 then some [(0x80, 0x8F), (0x80, 0xBF), (0x80, 0xBF)]
  else none

def matching : List (UInt8 × UInt8) → List UInt8 → Nat
  | (low, high) :: ranges, byte :: bytes =>
    if low ≤ byte ∧ byte ≤ high then matching ranges bytes + 1 else 0
  | _, _ => 0

/-- The bits a first byte contributes, when `n` bytes follow. -/
def leadBits (lead : UInt8) : Nat → Nat
  | 0 => lead.toNat
  | 1 => lead.toNat % 32
  | 2 => lead.toNat % 16
  | _ => lead.toNat % 8

def decode (lead : UInt8) (tail : List UInt8) : Char :=
  Char.ofNat (tail.foldl (fun bits byte => bits * 64 + byte.toNat % 64) (leadBits lead tail.length))

def replacement : Char := Char.ofNat 0xFFFD

def fromUtf8Lossy (bytes : List UInt8) : List Char :=
  match bytes with
  | [] => []
  | lead :: rest =>
    match following lead with
    | none => replacement :: fromUtf8Lossy rest
    | some ranges =>
      if matching ranges rest = ranges.length then
        decode lead (rest.take ranges.length) :: fromUtf8Lossy (rest.drop ranges.length)
      else replacement :: fromUtf8Lossy (rest.drop (matching ranges rest))
termination_by bytes.length
decreasing_by all_goals simp only [List.length_drop, List.length_cons]; omega

def OsString.toStringLossy (text : OsString) : String := String.ofList (fromUtf8Lossy text.bytes)

-- Encoded texts

theorem fromUtf8Lossy_cons {lead : UInt8} {tail rest : List UInt8} {ranges : List (UInt8 × UInt8)}
    (hfollowing : following lead = some ranges) (hlength : tail.length = ranges.length)
    (hmatching : matching ranges (tail ++ rest) = ranges.length) :
    fromUtf8Lossy (lead :: (tail ++ rest)) = decode lead tail :: fromUtf8Lossy rest := by
  rw [fromUtf8Lossy, hfollowing]
  show (if matching ranges (tail ++ rest) = ranges.length then _ else _) = _
  rw [if_pos hmatching, ← hlength, List.take_left, List.drop_left]

theorem matching_cons {low high byte : UInt8} (hlow : low.toNat ≤ byte.toNat)
    (hhigh : byte.toNat ≤ high.toNat) (ranges : List (UInt8 × UInt8)) (bytes : List UInt8) :
    matching ((low, high) :: ranges) (byte :: bytes) = matching ranges bytes + 1 :=
  if_pos ⟨UInt8.le_iff_toNat_le.mpr hlow, UInt8.le_iff_toNat_le.mpr hhigh⟩

theorem following_one {lead : UInt8} (h : lead.toNat ≤ 0x7F) : following lead = some [] := by
  rw [following, if_pos (UInt8.lt_iff_toNat_lt.mpr (by change _ < 0x80; omega))]

theorem following_two {lead : UInt8} (hlow : 0xC2 ≤ lead.toNat) (hhigh : lead.toNat ≤ 0xDF) :
    following lead = some [(0x80, 0xBF)] := by
  unfold following
  simp only [UInt8.lt_iff_toNat_lt, UInt8.le_iff_toNat_le, ← UInt8.toNat_inj, UInt8.toNat_ofNat]
  split_ifs <;> first | rfl | omega

theorem following_three {lead : UInt8} (hlow : 0xE0 ≤ lead.toNat) (hhigh : lead.toNat ≤ 0xEF) :
    following lead = some [(if lead.toNat = 0xE0 then 0xA0 else 0x80,
      if lead.toNat = 0xED then 0x9F else 0xBF), (0x80, 0xBF)] := by
  unfold following
  simp only [UInt8.lt_iff_toNat_lt, UInt8.le_iff_toNat_le, ← UInt8.toNat_inj, UInt8.toNat_ofNat]
  split_ifs <;> first | rfl | omega

theorem following_four {lead : UInt8} (hlow : 0xF0 ≤ lead.toNat) (hhigh : lead.toNat ≤ 0xF4) :
    following lead = some [(if lead.toNat = 0xF0 then 0x90 else 0x80,
      if lead.toNat = 0xF4 then 0x8F else 0xBF), (0x80, 0xBF), (0x80, 0xBF)] := by
  unfold following
  simp only [UInt8.lt_iff_toNat_lt, UInt8.le_iff_toNat_le, ← UInt8.toNat_inj, UInt8.toNat_ofNat]
  split_ifs <;> first | rfl | omega

theorem fromUtf8Lossy_char {lead : UInt8} {tail rest : List UInt8} {ranges : List (UInt8 × UInt8)}
    {c : Char} (hfollowing : following lead = some ranges) (hlength : tail.length = ranges.length)
    (hmatching : matching ranges (tail ++ rest) = ranges.length)
    (hbits : tail.foldl (fun bits byte => bits * 64 + byte.toNat % 64) (leadBits lead tail.length) =
      c.toNat) :
    fromUtf8Lossy (lead :: (tail ++ rest)) = c :: fromUtf8Lossy rest := by
  rw [fromUtf8Lossy_cons hfollowing hlength hmatching, decode, hbits, Char.ofNat_toNat]

theorem matching_continuations {bytes : List UInt8} (h : ∀ byte ∈ bytes, byte.toNat / 64 = 2)
    (rest : List UInt8) :
    matching (List.replicate bytes.length (0x80, 0xBF)) (bytes ++ rest) = bytes.length := by
  induction bytes with
  | nil =>
    cases rest <;> rfl
  | cons byte bytes ih =>
    have hbyte := h byte List.mem_cons_self
    have hlow : (0x80 : UInt8).toNat ≤ byte.toNat := by change 0x80 ≤ _; omega
    have hhigh : byte.toNat ≤ (0xBF : UInt8).toNat := by change _ ≤ 0xBF; omega
    show matching ((0x80, 0xBF) :: List.replicate bytes.length (0x80, 0xBF)) (byte :: (bytes ++ rest))
      = _
    rw [matching_cons hlow hhigh, ih fun b hb => h b (List.mem_cons_of_mem _ hb)]
    rfl

/-- **What is encoded is decoded to what it was.** -/
theorem fromUtf8Lossy_encodeChar (c : Char) (rest : List UInt8) :
    fromUtf8Lossy (String.utf8EncodeChar c ++ rest) = c :: fromUtf8Lossy rest := by
  have hvalid : c.toNat < 0xD800 ∨ 0xDFFF < c.toNat ∧ c.toNat < 0x110000 := c.valid
  have hbyte : ∀ n, n < 256 → (UInt8.ofNat n).toNat = n := fun n => UInt8.toNat_ofNat_of_lt'
  have hlast := hbyte (c.toNat % 0x40 + 0x80) (by omega)
  have hmiddle := hbyte (c.toNat / 64 % 0x40 + 0x80) (by omega)
  have hsecond := hbyte (c.toNat / 4096 % 0x40 + 0x80) (by omega)
  show fromUtf8Lossy ((if c.toNat ≤ 0x7F then [UInt8.ofNat c.toNat]
    else if c.toNat ≤ 0x7FF then
      [UInt8.ofNat (c.toNat / 64 % 0x20 + 0xC0), UInt8.ofNat (c.toNat % 0x40 + 0x80)]
    else if c.toNat ≤ 0xFFFF then
      [UInt8.ofNat (c.toNat / 4096 % 0x10 + 0xE0), UInt8.ofNat (c.toNat / 64 % 0x40 + 0x80),
        UInt8.ofNat (c.toNat % 0x40 + 0x80)]
    else
      [UInt8.ofNat (c.toNat / 262144 % 0x08 + 0xF0), UInt8.ofNat (c.toNat / 4096 % 0x40 + 0x80),
        UInt8.ofNat (c.toNat / 64 % 0x40 + 0x80), UInt8.ofNat (c.toNat % 0x40 + 0x80)]) ++ rest) = _
  split_ifs with hone htwo hthree
  · have hlead := hbyte c.toNat (by omega)
    show fromUtf8Lossy (_ :: ([] ++ rest)) = _
    refine fromUtf8Lossy_char (following_one (hlead.trans_le hone)) rfl ?_ hlead
    cases rest <;> rfl
  · have hlead := hbyte (c.toNat / 64 % 0x20 + 0xC0) (by omega)
    show fromUtf8Lossy (_ :: ([_] ++ rest)) = _
    refine fromUtf8Lossy_char (following_two (by omega) (by omega)) rfl ?_ ?_
    · exact matching_continuations (List.forall_mem_singleton.mpr (by omega)) rest
    · simp only [List.foldl_cons, List.foldl_nil, List.length_singleton, leadBits, hlast, hlead]
      omega
  · have hlead := hbyte (c.toNat / 4096 % 0x10 + 0xE0) (by omega)
    show fromUtf8Lossy (_ :: ([_, _] ++ rest)) = _
    refine fromUtf8Lossy_char (following_three (by omega) (by omega)) rfl ?_ ?_
    · refine (matching_cons ?_ ?_ _ _).trans (congrArg (· + 1)
        (matching_continuations (List.forall_mem_singleton.mpr (by omega)) rest))
      · rw [hlead, hmiddle]
        split_ifs
        · change 0xA0 ≤ _
          omega
        · change 0x80 ≤ _
          omega
      · rw [hlead, hmiddle]
        split_ifs
        · change _ ≤ 0x9F
          omega
        · change _ ≤ 0xBF
          omega
    · simp only [List.foldl_cons, List.foldl_nil, List.length_cons, List.length_nil, leadBits,
        hlast, hmiddle, hlead]
      omega
  · have hlead := hbyte (c.toNat / 262144 % 0x08 + 0xF0) (by omega)
    show fromUtf8Lossy (_ :: ([_, _, _] ++ rest)) = _
    refine fromUtf8Lossy_char (following_four (by omega) (by omega)) rfl ?_ ?_
    · have htail : ∀ byte ∈ [UInt8.ofNat (c.toNat / 64 % 0x40 + 0x80),
          UInt8.ofNat (c.toNat % 0x40 + 0x80)], byte.toNat / 64 = 2 :=
        List.forall_mem_cons.mpr ⟨by omega, List.forall_mem_singleton.mpr (by omega)⟩
      refine (matching_cons ?_ ?_ _ _).trans (congrArg (· + 1) (matching_continuations htail rest))
      · rw [hlead, hsecond]
        split_ifs
        · change 0x90 ≤ _
          omega
        · change 0x80 ≤ _
          omega
      · rw [hlead, hsecond]
        split_ifs
        · change _ ≤ 0x8F
          omega
        · change _ ≤ 0xBF
          omega
    · simp only [List.foldl_cons, List.foldl_nil, List.length_cons, List.length_nil, leadBits,
        hlast, hmiddle, hsecond, hlead]
      omega

theorem toUTF8_eq_flatMap (text : String) :
    text.toUTF8.data.toList = text.toList.flatMap String.utf8EncodeChar := by
  conv_lhs => rw [← String.ofList_toList (s := text)]
  rw [String.toUTF8_eq_toByteArray, String.toByteArray_ofList, List.utf8Encode]
  exact List.toList_data_toByteArray

theorem encodeChar_ascii {c : Char} (h : c.toNat < 128) :
    String.utf8EncodeChar c = [UInt8.ofNat c.toNat] := by
  show (if c.toNat ≤ 0x7F then [UInt8.ofNat c.toNat] else _) = _
  rw [if_pos (by omega)]

theorem exists_lead (c : Char) : ∃ lead tail, String.utf8EncodeChar c = lead :: tail ∧
    lead.toNat / 64 ≠ 2 ∧ ∀ byte ∈ tail, byte.toNat / 64 = 2 := by
  have hvalid : c.toNat < 0xD800 ∨ 0xDFFF < c.toNat ∧ c.toNat < 0x110000 := c.valid
  have hbyte : ∀ n, n < 256 → (UInt8.ofNat n).toNat = n := fun n => UInt8.toNat_ofNat_of_lt'
  have hlast := hbyte (c.toNat % 0x40 + 0x80) (by omega)
  have hmiddle := hbyte (c.toNat / 64 % 0x40 + 0x80) (by omega)
  have hsecond := hbyte (c.toNat / 4096 % 0x40 + 0x80) (by omega)
  show ∃ lead tail, (if c.toNat ≤ 0x7F then [UInt8.ofNat c.toNat]
    else if c.toNat ≤ 0x7FF then
      [UInt8.ofNat (c.toNat / 64 % 0x20 + 0xC0), UInt8.ofNat (c.toNat % 0x40 + 0x80)]
    else if c.toNat ≤ 0xFFFF then
      [UInt8.ofNat (c.toNat / 4096 % 0x10 + 0xE0), UInt8.ofNat (c.toNat / 64 % 0x40 + 0x80),
        UInt8.ofNat (c.toNat % 0x40 + 0x80)]
    else
      [UInt8.ofNat (c.toNat / 262144 % 0x08 + 0xF0), UInt8.ofNat (c.toNat / 4096 % 0x40 + 0x80),
        UInt8.ofNat (c.toNat / 64 % 0x40 + 0x80), UInt8.ofNat (c.toNat % 0x40 + 0x80)]) = lead :: tail ∧ _
  split_ifs
  · have hlead := hbyte c.toNat (by omega)
    exact ⟨_, _, rfl, by omega, by simp⟩
  · have hlead := hbyte (c.toNat / 64 % 0x20 + 0xC0) (by omega)
    exact ⟨_, _, rfl, by omega, List.forall_mem_singleton.mpr (by omega)⟩
  · have hlead := hbyte (c.toNat / 4096 % 0x10 + 0xE0) (by omega)
    exact ⟨_, _, rfl, by omega,
      List.forall_mem_cons.mpr ⟨by omega, List.forall_mem_singleton.mpr (by omega)⟩⟩
  · have hlead := hbyte (c.toNat / 262144 % 0x08 + 0xF0) (by omega)
    exact ⟨_, _, rfl, by omega, List.forall_mem_cons.mpr ⟨by omega,
      List.forall_mem_cons.mpr ⟨by omega, List.forall_mem_singleton.mpr (by omega)⟩⟩⟩

/-- **Characters are told apart from the front.** -/
theorem encodeChar_append_inj {c d : Char} {left right : List UInt8}
    (h : String.utf8EncodeChar c ++ left = String.utf8EncodeChar d ++ right) : c = d ∧ left = right := by
  have hread := congrArg fromUtf8Lossy h
  rw [fromUtf8Lossy_encodeChar, fromUtf8Lossy_encodeChar] at hread
  obtain rfl := (List.cons.inj hread).1
  exact ⟨rfl, List.append_cancel_left h⟩

theorem eq_of_ascii_mem {byte : UInt8} {c : Char} (hascii : byte.toNat < 128)
    (h : byte ∈ String.utf8EncodeChar c) : c = Char.ofNat byte.toNat := by
  have hvalid : c.toNat < 0xD800 ∨ 0xDFFF < c.toNat ∧ c.toNat < 0x110000 := c.valid
  have hbyte : ∀ n, n < 256 → byte = UInt8.ofNat n → byte.toNat = n := by
    intro n hn heq
    rw [heq]
    exact UInt8.toNat_ofNat_of_lt' hn
  have hcases : byte ∈ (if c.toNat ≤ 0x7F then [UInt8.ofNat c.toNat]
    else if c.toNat ≤ 0x7FF then
      [UInt8.ofNat (c.toNat / 64 % 0x20 + 0xC0), UInt8.ofNat (c.toNat % 0x40 + 0x80)]
    else if c.toNat ≤ 0xFFFF then
      [UInt8.ofNat (c.toNat / 4096 % 0x10 + 0xE0), UInt8.ofNat (c.toNat / 64 % 0x40 + 0x80),
        UInt8.ofNat (c.toNat % 0x40 + 0x80)]
    else
      [UInt8.ofNat (c.toNat / 262144 % 0x08 + 0xF0), UInt8.ofNat (c.toNat / 4096 % 0x40 + 0x80),
        UInt8.ofNat (c.toNat / 64 % 0x40 + 0x80), UInt8.ofNat (c.toNat % 0x40 + 0x80)]) := h
  have hlarge : ∀ n, 128 ≤ n → n < 256 → byte ≠ UInt8.ofNat n := by
    intro n hlow hhigh heq
    have hcode := hbyte n hhigh heq
    omega
  split_ifs at hcases
  · have hcode := hbyte c.toNat (by omega) (List.mem_singleton.mp hcases)
    rw [hcode, Char.ofNat_toNat]
  · simp only [List.mem_cons, List.not_mem_nil, or_false] at hcases
    rcases hcases with heq | heq <;> exact absurd heq (hlarge _ (by omega) (by omega))
  · simp only [List.mem_cons, List.not_mem_nil, or_false] at hcases
    rcases hcases with heq | heq | heq <;> exact absurd heq (hlarge _ (by omega) (by omega))
  · simp only [List.mem_cons, List.not_mem_nil, or_false] at hcases
    rcases hcases with heq | heq | heq | heq <;> exact absurd heq (hlarge _ (by omega) (by omega))

/-- **An ASCII byte stands in a text where its character does.** -/
theorem ascii_mem_toUTF8 {byte : UInt8} (hascii : byte.toNat < 128) (text : String) :
    byte ∈ text.toUTF8.data.toList ↔ Char.ofNat byte.toNat ∈ text.toList := by
  rw [toUTF8_eq_flatMap, List.mem_flatMap]
  constructor
  · rintro ⟨c, hc, hmem⟩
    rwa [← eq_of_ascii_mem hascii hmem]
  · intro hmem
    refine ⟨_, hmem, ?_⟩
    have hcode : (Char.ofNat byte.toNat).toNat = byte.toNat := by
      rw [Char.ofNat, dif_pos (show byte.toNat.isValidChar from Or.inl (by omega))]
      rfl
    rw [encodeChar_ascii (by omega), hcode, UInt8.ofNat_toNat]
    exact List.mem_singleton_self _

/-- **A text that is encoded and read lossily is the text.** -/
theorem fromUtf8Lossy_toUTF8 (text : String) :
    fromUtf8Lossy text.toUTF8.data.toList = text.toList := by
  rw [toUTF8_eq_flatMap]
  induction text.toList with
  | nil => rw [List.flatMap_nil, fromUtf8Lossy]
  | cons c rest ih => rw [List.flatMap_cons, fromUtf8Lossy_encodeChar, ih]

-- Paths

abbrev OsPath := List OsString

def OsPath.relative (path : OsPath) : OsString :=
  ⟨[(47 : UInt8)].intercalate (path.map OsString.bytes)⟩

def OsPath.absolute (path : OsPath) : OsString := ⟨47 :: path.relative.bytes⟩

/-- `path.strip_prefix(..)` -/
def OsPath.stripPrefix? (path directory : OsPath) : Option OsPath :=
  if directory.isPrefixOf path then some (path.drop directory.length) else none

theorem OsPath.stripPrefix?_append (root path : OsPath) :
    (root ++ path).stripPrefix? root = some path := by
  rw [OsPath.stripPrefix?, if_pos (List.isPrefixOf_iff_prefix.mpr (List.prefix_append root path)),
    List.drop_left]

example : (OsString.mk [0x80]).toStringLossy = (OsString.mk [0xFF]).toStringLossy := by decide +kernel

end OsText
