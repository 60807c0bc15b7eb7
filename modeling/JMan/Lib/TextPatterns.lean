import JMan.Lib.Encoding
import JMan.Lib.OsText
import JMan.Lib.Wildcards

/-!
# Patterns in text

Patterns with `*` and `?`, read as characters and read as the bytes of these. A
question mark stands for one character in the first reading and for one byte in the
second; this is the only difference.

* `matches_bytes_iff` — without question marks, or for values in ASCII, the bytes
  match exactly where the characters do.
-/

namespace Wildcards

open Encoding (Bytes)

def charToken (c : Char) : Token Char :=
  if c = '*' then .star else if c = '?' then .one fun _ => True else .one (· = c)

def byteToken (b : UInt8) : Token UInt8 :=
  if b = 42 then .star else if b = 63 then .one fun _ => True else .one (· = b)

abbrev charTokens (pattern : List Char) : List (Token Char) := pattern.map charToken

abbrev byteTokens (pattern : Bytes) : List (Token UInt8) := pattern.map byteToken

def encoded (text : List Char) : Bytes := text.flatMap String.utf8EncodeChar

/-- Where characters and bytes read a pattern alike. -/
def ReadsAlike (pattern value : List Char) : Prop :=
  '?' ∉ pattern ∨ ∀ c ∈ value, c.toNat < 128

variable {pattern value : List Char} {c d : Char} {rest left right lit : Bytes}

-- Encoded texts

theorem encoded_cons (c : Char) (text : List Char) :
    encoded (c :: text) = String.utf8EncodeChar c ++ encoded text := rfl

theorem encoded_append (left right : List Char) :
    encoded (left ++ right) = encoded left ++ encoded right := List.flatMap_append

theorem eq_cons_of_encoded (h : encoded value = String.utf8EncodeChar c ++ rest) :
    ∃ text, value = c :: text ∧ rest = encoded text := by
  cases value with
  | nil =>
    obtain ⟨lead, tail, hlead, -⟩ := OsText.exists_lead c
    rw [hlead] at h
    cases h
  | cons d text =>
    obtain ⟨rfl, rfl⟩ := OsText.encodeChar_append_inj h
    exact ⟨text, rfl, rfl⟩

/-- **A byte that continues none starts a character.** -/
theorem split_of_lead {lead : UInt8} (hlead : lead.toNat / 64 ≠ 2) (value : List Char) :
    ∀ left rest, encoded value = left ++ lead :: rest →
      ∃ before after, value = before ++ after ∧ left = encoded before ∧
        lead :: rest = encoded after := by
  induction value with
  | nil =>
    intro left rest h
    simp [encoded] at h
  | cons d text ih =>
    intro left rest h
    cases left with
    | nil => exact ⟨[], d :: text, rfl, rfl, h.symm⟩
    | cons b left =>
      obtain ⟨first, tail, hfirst, -, htail⟩ := OsText.exists_lead d
      rw [encoded_cons, hfirst, List.cons_append, List.cons_append] at h
      obtain ⟨rfl, hbytes⟩ := List.cons.inj h
      rcases List.append_eq_append_iff.mp hbytes with ⟨between, rfl, hrest⟩ | ⟨between, rfl, hrest⟩
      · obtain ⟨before, after, rfl, rfl, hafter⟩ := ih between rest hrest
        exact ⟨d :: before, after, rfl, by rw [encoded_cons, hfirst]; rfl, hafter⟩
      · cases between with
        | nil =>
          refine ⟨[d], text, rfl, ?_, hrest⟩
          rw [encoded_cons, hfirst]
          simp [encoded]
        | cons x between =>
          obtain ⟨rfl, -⟩ := List.cons.inj hrest
          exact absurd (htail lead (by simp)) hlead

theorem split_of_ascii (hascii : ∀ c ∈ value, c.toNat < 128) (h : encoded value = left ++ rest) :
    ∃ before after, value = before ++ after ∧ left = encoded before ∧ rest = encoded after := by
  have hmap : ∀ text : List Char, (∀ c ∈ text, c.toNat < 128) →
      encoded text = text.map fun c => UInt8.ofNat c.toNat := by
    intro text htext
    induction text with
    | nil => rfl
    | cons c text ih =>
      rw [List.forall_mem_cons] at htext
      rw [encoded_cons, OsText.encodeChar_ascii htext.1, ih htext.2]
      rfl
  rw [hmap value hascii] at h
  obtain ⟨before, after, rfl, rfl, rfl⟩ := List.map_eq_append_iff.mp h
  rw [List.forall_mem_append] at hascii
  exact ⟨before, after, rfl, (hmap before hascii.1).symm, (hmap after hascii.2).symm⟩

-- Tokens

theorem byteTokens_star (rest : List Char) :
    byteTokens (encoded ('*' :: rest)) = .star :: byteTokens (encoded rest) := by
  rw [encoded_cons, show String.utf8EncodeChar '*' = [42] by decide]
  rfl

theorem byteTokens_any (rest : List Char) :
    byteTokens (encoded ('?' :: rest)) = .one (fun _ => True) :: byteTokens (encoded rest) := by
  rw [encoded_cons, show String.utf8EncodeChar '?' = [63] by decide]
  rfl

theorem matches_literal_append (hlit : ∀ b ∈ lit, b ≠ 42 ∧ b ≠ 63) (tokens : List (Token UInt8))
    (bytes : Bytes) : Matches (byteTokens lit ++ tokens) bytes ↔
      ∃ rest, bytes = lit ++ rest ∧ Matches tokens rest := by
  induction lit generalizing bytes with
  | nil => simp
  | cons b lit ih =>
    rw [List.forall_mem_cons] at hlit
    have htoken : byteToken b = .one (· = b) := by
      rw [byteToken, if_neg hlit.1.1, if_neg hlit.1.2]
    cases bytes with
    | nil => simp [htoken]
    | cons a bytes =>
      simp [htoken, ih hlit.2]
      grind

theorem literal_encodeChar (hstar : c ≠ '*') (hany : c ≠ '?') :
    ∀ b ∈ String.utf8EncodeChar c, b ≠ 42 ∧ b ≠ 63 := by
  intro b hb
  constructor
  · rintro rfl
    exact hstar (OsText.eq_of_ascii_mem (by decide) hb)
  · rintro rfl
    exact hany (OsText.eq_of_ascii_mem (by decide) hb)

theorem matches_encoded_cons (hstar : c ≠ '*') (hany : c ≠ '?') (bytes : Bytes) :
    Matches (byteTokens (encoded (c :: pattern))) bytes ↔
      ∃ rest, bytes = String.utf8EncodeChar c ++ rest ∧ Matches (byteTokens (encoded pattern)) rest := by
  rw [encoded_cons, byteTokens, List.map_append]
  exact matches_literal_append (literal_encodeChar hstar hany) _ _

theorem ReadsAlike.tail (h : ReadsAlike (c :: pattern) value) : ReadsAlike pattern value :=
  h.imp_left fun hnone hmem => hnone (List.mem_cons_of_mem _ hmem)

theorem ReadsAlike.suffix (before : List Char) {after : List Char}
    (h : ReadsAlike pattern (before ++ after)) :
    ReadsAlike pattern after :=
  h.imp_right fun hascii c hc => hascii c (List.mem_append_right _ hc)

-- Characters and bytes

/-- What a star leaves to the rest of the pattern is made of whole characters, or the
rest starts with a star itself. -/
theorem split_of_matches (halike : ReadsAlike pattern value) (h : encoded value = left ++ rest)
    (hrest : Matches (byteTokens (encoded pattern)) rest) :
    (∃ before after, value = before ++ after ∧ rest = encoded after) ∨
      ∃ pattern', pattern = '*' :: pattern' := by
  rcases halike with hnone | hascii
  swap
  · obtain ⟨before, after, hvalue, -, hafter⟩ := split_of_ascii hascii h
    exact Or.inl ⟨before, after, hvalue, hafter⟩
  cases pattern with
  | nil =>
    obtain rfl : rest = [] := by simpa [encoded] using hrest
    exact Or.inl ⟨value, [], by simp, rfl⟩
  | cons c pattern =>
    by_cases hstar : c = '*'
    · exact Or.inr ⟨pattern, by rw [hstar]⟩
    · have hany : c ≠ '?' := fun hany => hnone (hany ▸ List.mem_cons_self ..)
      obtain ⟨rest', rfl, -⟩ := (matches_encoded_cons hstar hany _).mp hrest
      obtain ⟨lead, tail, hchar, hlead, -⟩ := OsText.exists_lead c
      rw [hchar, List.cons_append] at h ⊢
      obtain ⟨before, after, hvalue, -, hafter⟩ := split_of_lead hlead value left _ h
      exact Or.inl ⟨before, after, hvalue, hafter⟩

/-- **The bytes match where the characters do,** if both read the pattern alike. -/
theorem matches_bytes_iff (pattern : List Char) : ∀ value, ReadsAlike pattern value →
    (Matches (byteTokens (encoded pattern)) (encoded value) ↔
      Matches (charTokens pattern) value) := by
  induction pattern with
  | nil =>
    intro value _
    cases value with
    | nil => simp [encoded]
    | cons c text =>
      obtain ⟨lead, tail, hlead, -⟩ := OsText.exists_lead c
      simp [encoded_cons, hlead, show encoded [] = [] from rfl]
  | cons c pattern ih =>
    intro value halike
    by_cases hstar : c = '*'
    · subst hstar
      rw [byteTokens_star, charTokens, List.map_cons, show charToken '*' = .star from rfl]
      constructor
      · intro h
        obtain ⟨left, rest, hsplit, hrest⟩ := matches_star_iff.mp h
        rcases split_of_matches halike.tail hsplit hrest with
          ⟨before, after, rfl, rfl⟩ | ⟨pattern', rfl⟩
        · exact .star before ((ih after (halike.tail.suffix before)).mp hrest)
        · -- the first star gives its part to the second
          refine .star [] ((ih value halike.tail).mp ?_)
          rw [byteTokens_star] at hrest ⊢
          rw [hsplit]
          exact hrest.star_append left
      · intro h
        obtain ⟨before, after, rfl, hafter⟩ := matches_star_iff.mp h
        rw [encoded_append]
        exact .star _ ((ih after (halike.tail.suffix before)).mpr hafter)
    by_cases hany : c = '?'
    · subst hany
      have hascii : ∀ c ∈ value, c.toNat < 128 :=
        halike.resolve_left fun hnone => hnone (List.mem_cons_self ..)
      rw [byteTokens_any, charTokens, List.map_cons,
        show charToken '?' = .one fun _ => True from rfl]
      cases value with
      | nil => simp [encoded]
      | cons a text =>
        rw [List.forall_mem_cons] at hascii
        rw [encoded_cons, OsText.encodeChar_ascii hascii.1]
        simpa using ih text (Or.inr hascii.2)
    · rw [matches_encoded_cons hstar hany, charTokens, List.map_cons,
        show charToken c = .one (· = c) by rw [charToken, if_neg hstar, if_neg hany]]
      constructor
      · rintro ⟨rest, hrest, hmatches⟩
        obtain ⟨text, rfl, rfl⟩ := eq_cons_of_encoded hrest
        exact .one rfl ((ih text (halike.tail.suffix [c])).mp hmatches)
      · intro h
        cases value with
        | nil => simp at h
        | cons a text =>
          obtain ⟨rfl, htext⟩ := matches_one_cons.mp h
          exact ⟨encoded text, rfl, (ih text (halike.tail.suffix [a])).mpr htext⟩

end Wildcards
