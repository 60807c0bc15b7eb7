import Mathlib.Data.List.TakeWhile
import JMan.Lsp.Rename

/-!
# JMan — positions and offsets

`position_to_byte` and `offset_to_position` of `documents.rs`. The one counts the lines
and then the UTF-16 units of a line, the other counts both along the text. They agree on
what is in front of a position (`positionToByte_iff`).

* `positions_convert` — the conversions are inverse to each other between characters, and monotone.
-/

namespace JMan.Lsp

open JMan.Config

-- Positions in JSON
-- ---

structure LspRange where
  start : LspPosition
  stop : LspPosition
deriving DecidableEq

/-- `json!({"line": line, "character": character})` -/
def LspPosition.toJson (position : LspPosition) : Json :=
  .object [("line", .integer position.line), ("character", .integer position.character)]

structure Json.IsPosition (value : Json) (position : LspPosition) : Prop where
  line : (value.get? "line").bind Json.asU64 = some position.line
  character : (value.get? "character").bind Json.asU64 = some position.character

theorem Json.asU64_integer {n : Nat} (h : n < 2 ^ 64) : Json.asU64 (.integer n) = some n := by
  rw [Json.asU64, if_pos (by omega), Int.toNat_natCast]

theorem LspPosition.isPosition_toJson {position : LspPosition} (hline : position.line < 2 ^ 64)
    (hcharacter : position.character < 2 ^ 64) : position.toJson.IsPosition position where
  line := Json.asU64_integer hline
  character := Json.asU64_integer hcharacter

-- Lines
-- ---

section Lines

variable {text before after line : Text} {offset start character n : Nat} {position : LspPosition}

theorem okOr_eq_ok {α : Type} {error : String} {found : Option α} {a : α} :
    okOr error found = .ok a ↔ found = some a := by
  cases found with
  | none => exact iff_of_false (fun h => by cases h) fun h => by cases h
  | some b => exact Except.ok.injEq b a ▸ (Option.some.injEq b a ▸ Iff.rfl)

theorem newlines_append (offset : Nat) (before after : Text) :
    newlines offset (before ++ after) = newlines offset before ++ newlines (offset + byteLength before) after := by
  induction before generalizing offset with
  | nil => rfl
  | cons c before ih =>
    rw [List.cons_append, newlines, newlines, ih, byteLength_cons, Nat.add_assoc]
    split
    · rfl
    · rfl

theorem line_foldl_advance (position : LspPosition) (offset : Nat) (text : Text) :
    (text.foldl LspPosition.advance position).line = position.line + (newlines offset text).length := by
  induction text generalizing position offset with
  | nil => rfl
  | cons c text ih =>
    rw [List.foldl_cons, ih _ (offset + c.utf8Size), newlines, LspPosition.advance]
    split
    · rw [List.length_cons]
      show position.line + 1 + _ = _
      omega
    · rfl

theorem line_positionAfter (text : Text) : (positionAfter text).line = (newlines 0 text).length := by
  rw [positionAfter, line_foldl_advance ⟨0, 0⟩ 0, Nat.zero_add]

theorem newlines_eq_nil (offset : Nat) : newlines offset text = [] ↔ '\n' ∉ text := by
  induction text generalizing offset with
  | nil => exact iff_of_true rfl List.not_mem_nil
  | cons c text ih =>
    rw [newlines, List.mem_cons, not_or, ← ih (offset + c.utf8Size)]
    split
    · rename_i hc
      exact iff_of_false (fun h => by cases h) fun h => h.1 hc.symm
    · rename_i hc
      exact ⟨fun h => ⟨fun heq => hc heq.symm, h⟩, fun h => h.2⟩

theorem foldl_advance_line (position : LspPosition) (hline : '\n' ∉ line) :
    line.foldl LspPosition.advance position = ⟨position.line, position.character + utf16Length line⟩ := by
  induction line generalizing position with
  | nil => rfl
  | cons c line ih =>
    obtain ⟨hc, hline⟩ := not_or.mp (mt List.mem_cons.mpr hline)
    rw [List.foldl_cons, LspPosition.advance, if_neg (Ne.symm hc), ih _ hline, utf16Length,
      Nat.add_assoc]

def StartsLine (before : Text) : Prop := before = [] ∨ ∃ rest, before = rest ++ ['\n']

theorem StartsLine.positionAfter (h : StartsLine before) :
    positionAfter before = ⟨(newlines 0 before).length, 0⟩ := by
  have hline := line_positionAfter before
  rcases h with rfl | ⟨rest, rfl⟩
  · rfl
  · have hzero : (JMan.Lsp.positionAfter (rest ++ ['\n'])).character = 0 := by
      rw [JMan.Lsp.positionAfter, List.foldl_append]
      rfl
    rw [← hline, ← hzero]

theorem exists_startsLine (text : Text) :
    ∃ before line, text = before ++ line ∧ StartsLine before ∧ '\n' ∉ line := by
  induction text using List.reverseRecOn with
  | nil => exact ⟨[], [], rfl, .inl rfl, List.not_mem_nil⟩
  | append_singleton text c ih =>
    by_cases hc : c = '\n'
    · exact ⟨text ++ [c], [], (List.append_nil _).symm, .inr ⟨text, by rw [hc]⟩, List.not_mem_nil⟩
    · obtain ⟨before, line, rfl, hstarts, hline⟩ := ih
      refine ⟨before, line ++ [c], List.append_assoc .., hstarts, fun hmem => ?_⟩
      rcases List.mem_append.mp hmem with hmem | hmem
      · exact hline hmem
      · exact hc (List.mem_singleton.mp hmem).symm

theorem positionAfter_line (hstarts : StartsLine before) (hline : '\n' ∉ line) :
    positionAfter (before ++ line) = ⟨(newlines 0 before).length, utf16Length line⟩ := by
  have hbefore : before.foldl LspPosition.advance ⟨0, 0⟩ = ⟨(newlines 0 before).length, 0⟩ :=
    hstarts.positionAfter
  rw [positionAfter, List.foldl_append, hbefore, foldl_advance_line _ hline, Nat.zero_add]

theorem getElem?_newlines : (newlines offset text)[n]? = some start ↔
    ∃ before after, text = before ++ '\n' :: after ∧ (newlines offset before).length = n ∧
      offset + byteLength before = start := by
  constructor
  · intro h
    induction text generalizing offset n with
    | nil => cases h
    | cons c text ih =>
      rw [newlines] at h
      split at h
      · next hc =>
        subst hc
        cases n with
        | zero => exact ⟨[], text, rfl, rfl, Option.some.inj h⟩
        | succ n =>
          obtain ⟨before, after, rfl, hcount, hlength⟩ := ih h
          refine ⟨'\n' :: before, after, rfl, ?_, ?_⟩
          · rw [newlines, if_pos rfl, List.length_cons, hcount]
          · rw [byteLength_cons, ← Nat.add_assoc, hlength]
      · next hc =>
        obtain ⟨before, after, rfl, hcount, hlength⟩ := ih h
        refine ⟨c :: before, after, rfl, ?_, ?_⟩
        · rw [newlines, if_neg hc, hcount]
        · rw [byteLength_cons, ← Nat.add_assoc, hlength]
  · rintro ⟨before, after, rfl, rfl, rfl⟩
    rw [newlines_append, newlines, if_pos rfl, List.getElem?_append_right (Nat.le_refl _),
      Nat.sub_self]
    rfl

theorem newlines_concat (offset : Nat) (before : Text) :
    (newlines offset (before ++ ['\n'])).length = (newlines offset before).length + 1 := by
  rw [newlines_append, List.length_append]
  rfl

/-- **A line starts behind as many line feeds as it is counted.** -/
theorem lineStartOf_eq_ok : lineStartOf text n = .ok start ↔
    ∃ before after, text = before ++ after ∧ StartsLine before ∧ (newlines 0 before).length = n ∧
      byteLength before = start := by
  unfold lineStartOf
  cases n with
  | zero =>
    rw [if_pos rfl]
    constructor
    · intro h
      exact ⟨[], text, rfl, .inl rfl, rfl, Except.ok.inj h⟩
    · rintro ⟨before, after, -, rfl | ⟨rest, rfl⟩, hcount, rfl⟩
      · rfl
      · rw [newlines_concat] at hcount
        cases hcount
  | succ n =>
    rw [if_neg (Nat.succ_ne_zero n), okOr_eq_ok, Nat.succ_sub_one, Option.map_eq_some_iff]
    constructor
    · rintro ⟨newline, hnewline, rfl⟩
      obtain ⟨before, after, rfl, hcount, hlength⟩ := getElem?_newlines.mp hnewline
      rw [Nat.zero_add] at hlength
      refine ⟨before ++ ['\n'], after, (List.append_assoc before ['\n'] after).symm,
        .inr ⟨before, rfl⟩, ?_, ?_⟩
      · rw [newlines_concat, hcount]
      · rw [byteLength_append, hlength]
        rfl
    · rintro ⟨before, after, rfl, rfl | ⟨rest, rfl⟩, hcount, rfl⟩
      · cases hcount
      · rw [newlines_concat, Nat.succ.injEq] at hcount
        refine ⟨byteLength rest, getElem?_newlines.mpr ⟨rest, after, ?_, hcount, Nat.zero_add _⟩, ?_⟩
        · exact List.append_assoc rest ['\n'] after
        · rw [byteLength_append]
          rfl

theorem characterOffset_eq_ok {utf16 : Nat} (hle : utf16 ≤ character) :
    characterOffset character offset utf16 text = .ok start ↔
      ∃ before after, text = before ++ after ∧ utf16 + utf16Length before = character ∧
        offset + byteLength before = start := by
  induction text generalizing offset utf16 with
  | nil =>
    rw [characterOffset]
    constructor
    · intro h
      split at h
      · next heq => exact ⟨[], [], rfl, heq, Except.ok.inj h⟩
      · cases h
    · rintro ⟨before, after, htext, hunits, hbytes⟩
      obtain ⟨rfl, rfl⟩ := List.append_eq_nil_iff.mp htext.symm
      have hhere : utf16 = character := hunits
      have hstart : offset = start := hbytes
      rw [if_pos hhere, hstart]
  | cons c text ih =>
    have hpos := lenUtf16_pos c
    rw [characterOffset]
    by_cases heq : utf16 = character
    · rw [if_pos heq]
      constructor
      · intro h
        exact ⟨[], c :: text, rfl, heq, Except.ok.inj h⟩
      · rintro ⟨before, after, -, hunits, rfl⟩
        have hempty : before = [] := by
          by_contra hne
          have := utf16Length_pos hne
          omega
        rw [hempty]
        rfl
    · rw [if_neg heq]
      split
      · next hover =>
        refine iff_of_false (fun h => by cases h) ?_
        rintro ⟨before, after, htext, hunits, -⟩
        cases before with
        | nil => exact heq hunits
        | cons d before =>
          obtain ⟨rfl, -⟩ := List.cons.inj htext
          rw [utf16Length] at hunits
          omega
      · rw [ih (by omega)]
        constructor
        · rintro ⟨before, after, rfl, hunits, hbytes⟩
          refine ⟨c :: before, after, rfl, ?_, ?_⟩
          · rw [utf16Length, ← Nat.add_assoc, hunits]
          · rw [byteLength_cons, ← Nat.add_assoc, hbytes]
        · rintro ⟨before, after, htext, hunits, hbytes⟩
          cases before with
          | nil => exact absurd hunits heq
          | cons d before =>
            obtain ⟨rfl, rfl⟩ := List.cons.inj htext
            refine ⟨before, after, rfl, ?_, ?_⟩
            · rw [utf16Length] at hunits
              omega
            · rw [byteLength_cons] at hbytes
              omega

end Lines

-- Positions that are accepted
-- ---

section Accepted

variable {text before after : Text} {value : Json} {position : LspPosition} {offset : Nat}

theorem positionToByte_eq (hvalue : value.IsPosition position) (text : Text) :
    positionToByte text value = (do
      let lineStart ← lineStartOf text position.line
      characterOffset position.character lineStart 0
        ((splitAtByte lineStart text).2.takeWhile (· ≠ '\n'))) := by
  unfold positionToByte
  rw [hvalue.line, hvalue.character]
  rfl

/-- **A position is accepted for the text that ends there,** and only for it. -/
theorem positionToByte_iff (hvalue : value.IsPosition position) :
    positionToByte text value = .ok offset ↔
      ∃ before after, text = before ++ after ∧ positionAfter before = position ∧
        byteLength before = offset := by
  rw [positionToByte_eq hvalue]
  constructor
  · intro h
    obtain ⟨start, hstart, h⟩ := Fallible.bind_eq_ok.mp h
    obtain ⟨head, tail, rfl, hstarts, hcount, rfl⟩ := lineStartOf_eq_ok.mp hstart
    rw [splitAtByte_append] at h
    obtain ⟨line, more, hline, hunits, hbytes⟩ := (characterOffset_eq_ok (Nat.zero_le _)).mp h
    have hnewline : '\n' ∉ line := by
      intro hmem
      have hkept : '\n' ∈ tail.takeWhile (· ≠ '\n') := hline ▸ List.mem_append_left _ hmem
      have hother := List.mem_takeWhile_imp hkept
      simp at hother
    refine ⟨head ++ line, more ++ tail.dropWhile (· ≠ '\n'), ?_, ?_, ?_⟩
    · rw [List.append_assoc, ← List.append_assoc line, ← hline, List.takeWhile_append_dropWhile]
    · rw [positionAfter_line hstarts hnewline, hcount, ← Nat.zero_add (utf16Length line), hunits]
    · rw [byteLength_append, hbytes]
  · rintro ⟨before, after, rfl, rfl, rfl⟩
    obtain ⟨head, line, rfl, hstarts, hline⟩ := exists_startsLine before
    have hposition := positionAfter_line hstarts hline
    have hlength : (newlines 0 head).length = (positionAfter (head ++ line)).line :=
      (congrArg LspPosition.line hposition).symm
    have hunits : utf16Length line = (positionAfter (head ++ line)).character :=
      (congrArg LspPosition.character hposition).symm
    have hstart : lineStartOf (head ++ line ++ after) (positionAfter (head ++ line)).line =
        .ok (byteLength head) :=
      lineStartOf_eq_ok.mpr ⟨head, line ++ after, List.append_assoc .., hstarts, hlength, rfl⟩
    refine Fallible.bind_eq_ok.mpr ⟨_, hstart, ?_⟩
    rw [List.append_assoc, splitAtByte_append]
    refine (characterOffset_eq_ok (Nat.zero_le _)).mpr ⟨line, after.takeWhile (· ≠ '\n'), ?_, ?_, ?_⟩
    · exact List.takeWhile_append_of_pos fun c hc => decide_eq_true fun hnewline => hline (hnewline ▸ hc)
    · rw [Nat.zero_add, hunits]
    · rw [byteLength_append]

theorem exists_isPosition (h : positionToByte text value = .ok offset) :
    ∃ position, value.IsPosition position := by
  obtain ⟨line, hline, h⟩ := Fallible.bind_eq_ok.mp h
  obtain ⟨character, hcharacter, -⟩ := Fallible.bind_eq_ok.mp h
  exact ⟨⟨line, character⟩, okOr_eq_ok.mp hline, okOr_eq_ok.mp hcharacter⟩

theorem not_positionAfter_le {more : Text} (hmore : more ≠ []) :
    ¬ positionAfter (before ++ more) ≤ positionAfter before := by
  obtain ⟨c, rest, rfl⟩ := List.exists_cons_of_ne_nil hmore
  have hstep : positionAfter (before ++ [c]) ≤ positionAfter (before ++ c :: rest) := by
    have happend : before ++ c :: rest = before ++ [c] ++ rest :=
      (List.append_assoc before [c] rest).symm
    exact happend ▸ positionAfter_le (before ++ [c]) rest
  intro hle
  have hback : positionAfter (before ++ [c]) ≤ positionAfter before := LspPosition.le_trans hstep hle
  have hpos := lenUtf16_pos c
  rw [positionAfter, List.foldl_append, List.foldl_cons, List.foldl_nil, ← positionAfter,
    LspPosition.advance] at hback
  split at hback
  · rcases hback with hline | ⟨hline, -⟩
    · exact absurd hline (by simp)
    · exact absurd hline (by simp)
  · rcases hback with hline | ⟨-, hcharacter⟩
    · exact absurd hline (Nat.lt_irrefl _)
    · have hcharacter : (positionAfter before).character + lenUtf16 c ≤
        (positionAfter before).character := hcharacter
      omega

/-- **Later positions have later offsets.** -/
theorem positionToByte_mono {value' : Json} {position' : LspPosition} {offset' : Nat}
    (hvalue : value.IsPosition position) (hvalue' : value'.IsPosition position')
    (h : positionToByte text value = .ok offset) (h' : positionToByte text value' = .ok offset')
    (hle : position ≤ position') : offset ≤ offset' := by
  obtain ⟨before, after, rfl, rfl, rfl⟩ := (positionToByte_iff hvalue).mp h
  obtain ⟨before', after', htext, rfl, rfl⟩ := (positionToByte_iff hvalue').mp h'
  rcases List.append_eq_append_iff.mp htext with ⟨more, rfl, -⟩ | ⟨more, rfl, -⟩
  · rw [byteLength_append]
    exact Nat.le_add_right _ _
  · by_cases hmore : more = []
    · rw [hmore, List.append_nil]
    · exact absurd hle (not_positionAfter_le hmore)

theorem le_positionFrom (position : LspPosition) (offset : Nat) (text : Text) :
    position ≤ positionFrom position offset text := by
  induction text generalizing position offset with
  | nil => exact .inr ⟨rfl, Nat.le_refl _⟩
  | cons c text ih =>
    rw [positionFrom]
    split
    · exact .inr ⟨rfl, Nat.le_refl _⟩
    · refine LspPosition.le_trans ?_ (ih _ _)
      split
      · exact .inl (Nat.lt_succ_self _)
      · exact .inr ⟨rfl, Nat.le_add_right _ _⟩

/-- **Later offsets have later positions,** within a character too. -/
theorem positionFrom_mono {offset' : Nat} (position : LspPosition) (text : Text)
    (hle : offset ≤ offset') : positionFrom position offset text ≤ positionFrom position offset' text := by
  induction text generalizing position offset offset' with
  | nil => exact .inr ⟨rfl, Nat.le_refl _⟩
  | cons c text ih =>
    have hpos := lenUtf16_pos c
    by_cases hstop : offset = 0 ∨ offset < lenUtf16 c
    · rw [positionFrom, if_pos hstop]
      exact le_positionFrom _ _ _
    · have hon : ¬ (offset' = 0 ∨ offset' < lenUtf16 c) := by omega
      rw [positionFrom, if_neg hstop, positionFrom, if_neg hon]
      exact ih _ (Nat.sub_le_sub_right hle _)

end Accepted

-- Both ways
-- ---

section Conversion

variable {text : Text}

theorem positionAfter_le_utf16Length (before : Text) :
    (positionAfter before).line ≤ utf16Length before ∧
      (positionAfter before).character ≤ utf16Length before := by
  induction before using List.reverseRecOn with
  | nil => exact ⟨Nat.le_refl _, Nat.le_refl _⟩
  | append_singleton before c ih =>
    have hpos := lenUtf16_pos c
    have hlength : utf16Length [c] = lenUtf16 c := rfl
    rw [utf16Length_append, hlength, positionAfter, List.foldl_append, List.foldl_cons,
      List.foldl_nil, ← positionAfter, LspPosition.advance]
    split
    · exact ⟨by dsimp only; omega, Nat.zero_le _⟩
    · exact ⟨by dsimp only; omega, by dsimp only; omega⟩

theorem utf16Length_le_byteLength (text : Text) : utf16Length text ≤ 2 * byteLength text := by
  induction text with
  | nil => exact Nat.le_refl _
  | cons c text ih =>
    have hunits : lenUtf16 c ≤ 2 := by
      unfold lenUtf16
      split <;> decide
    have hbytes := c.utf8Size_pos
    rw [utf16Length, byteLength_cons]
    omega

/-- Between two characters of a text each conversion undoes the other, a position that is
accepted is the one of the text in front of it, and both keep the order. -/
structure Converts (text : Text) : Prop where
  back : ∀ before after, text = before ++ after →
    positionToByte text (offsetToPosition text (utf16Length before)).toJson = .ok (byteLength before)
  accepted : ∀ value offset, positionToByte text value = .ok offset →
    ∃ before after, text = before ++ after ∧ byteLength before = offset ∧
      value.IsPosition (offsetToPosition text (utf16Length before))
  positions : ∀ offset offset', offset ≤ offset' →
    offsetToPosition text offset ≤ offsetToPosition text offset'
  offsets : ∀ value value' position position' offset offset', value.IsPosition position →
    value'.IsPosition position' → positionToByte text value = .ok offset →
      positionToByte text value' = .ok offset' → position ≤ position' → offset ≤ offset'

/-- **Positions and offsets convert,** in every string: it has at most `isize::MAX` bytes. -/
theorem positions_convert (hlength : byteLength text < 2 ^ 63) : Converts text where
  back := by
    rintro before after rfl
    have hunits := utf16Length_le_byteLength before
    obtain ⟨hline, hcharacter⟩ := positionAfter_le_utf16Length before
    rw [byteLength_append] at hlength
    rw [offsetToPosition_append]
    refine (positionToByte_iff (LspPosition.isPosition_toJson ?_ ?_)).mpr
      ⟨before, after, rfl, rfl, rfl⟩
    · omega
    · omega
  accepted := by
    intro value offset h
    obtain ⟨position, hvalue⟩ := exists_isPosition h
    obtain ⟨before, after, rfl, rfl, rfl⟩ := (positionToByte_iff hvalue).mp h
    refine ⟨before, after, rfl, rfl, ?_⟩
    rw [offsetToPosition_append]
    exact hvalue
  positions _ _ := positionFrom_mono _ text
  offsets _ _ _ _ _ _ := positionToByte_mono

theorem emoji_converts : Converts "a😀\nb".toList := positions_convert (by decide)

end Conversion

end JMan.Lsp
