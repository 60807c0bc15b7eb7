import Mathlib.Data.List.Nodup
import JMan.Lib.Fallible

/-!
# Property files of Java

What `java.util.Properties.load` reads in a text.

* `logicalFrom` — the lines of a text: blank lines and comments are passed over, a line
  that ends in a backslash goes on in the next one, and no line starts with a blank.
* `entry` — the key and the value of a line. Escapes are taken out of both.
* `Spells` — a text whose only escapes are of characters that stand for themselves.
  `load_of_spells`: a value that is read from such a text has no line end and does not
  start with a blank.
* `load_entries` — keys and values that are written one under the other are read, less the
  blanks in front of the values.

A text is a list of characters, so an escaped surrogate is no character of it: it is
read as `Char.ofNat` reads it.
-/

namespace JavaProperties

abbrev Text := List Char

def isBlank (c : Char) : Bool := c = ' ' || (c = '\t' || c = '\x0c')

def isEol (c : Char) : Bool := c = '\n' || c = '\r'

-- Lines

/-- What `LineReader.readLine` keeps from one character to the next. -/
structure Reader where
  line : Text
  skipWhiteSpace : Bool
  appendedLineBegin : Bool
  precedingBackslash : Bool
  comment : Bool
  /-- The rest of a line end of two characters comes next. -/
  lineFeed : Bool

def Reader.start : Reader := ⟨[], true, false, false, false, false⟩

def logicalFrom (reader : Reader) : Text → List Text
  | [] =>
    if reader.comment = true ∨ reader.line = [] then []
    else [if reader.precedingBackslash then reader.line.dropLast else reader.line]
  | c :: rest =>
    if reader.lineFeed then logicalFrom { reader with lineFeed := false } rest
    else if reader.comment then
      logicalFrom (if isEol c then { reader with skipWhiteSpace := true, comment := false } else reader) rest
    else if reader.skipWhiteSpace ∧ (isBlank c ∨ (¬ reader.appendedLineBegin ∧ isEol c)) then
      logicalFrom reader rest
    else if reader.line = [] ∧ (c = '#' ∨ c = '!') then
      logicalFrom ⟨[], false, false, reader.precedingBackslash, true, false⟩ rest
    else if ¬ isEol c then
      logicalFrom ⟨reader.line ++ [c], false, false, c = '\\' && !reader.precedingBackslash, false, false⟩
        rest
    else if reader.line = [] then
      logicalFrom ⟨[], true, false, reader.precedingBackslash, false, false⟩ rest
    else if ¬ reader.precedingBackslash then reader.line :: logicalFrom .start rest
    else if rest = [] then [reader.line.dropLast]
    else
      logicalFrom ⟨reader.line.dropLast, true, true, false, false, c = '\r' && rest.head? = some '\n'⟩
        rest

section Steps

variable {line rest : Text} {skip : Bool} {c : Char}

theorem logicalFrom_comment (line rest : Text) (hc : isEol c = false) :
    logicalFrom ⟨line, skip, false, false, true, false⟩ (c :: rest) =
      logicalFrom ⟨line, skip, false, false, true, false⟩ rest := by
  rw [logicalFrom, if_neg Bool.false_ne_true, if_pos rfl, if_neg (hc ▸ Bool.false_ne_true)]

theorem logicalFrom_push {appended preceding : Bool} (rest : Text) (heol : isEol c = false)
    (hblank : skip = true → isBlank c = false) (hcomment : line = [] → c ≠ '#' ∧ c ≠ '!') :
    logicalFrom ⟨line, skip, appended, preceding, false, false⟩ (c :: rest) =
      logicalFrom ⟨line ++ [c], false, false, c = '\\' && !preceding, false, false⟩ rest := by
  have hstarts : ¬ (skip = true ∧ (isBlank c = true ∨ ¬ appended = true ∧ isEol c = true)) := by
    rintro ⟨hskip, hblanks | ⟨-, heols⟩⟩
    · exact absurd (hblanks.symm.trans (hblank hskip)).symm Bool.false_ne_true
    · exact absurd (heols.symm.trans heol).symm Bool.false_ne_true
  have hopens : ¬ (line = [] ∧ (c = '#' ∨ c = '!')) := by
    rintro ⟨hnil, hhash | hmark⟩
    · exact (hcomment hnil).1 hhash
    · exact (hcomment hnil).2 hmark
  rw [logicalFrom, if_neg Bool.false_ne_true, if_neg Bool.false_ne_true, if_neg hstarts, if_neg hopens,
    if_pos (heol ▸ Bool.false_ne_true)]

theorem logicalFrom_plain (rest : Text) (hc : c ≠ '\\') (heol : isEol c = false)
    (hblank : skip = true → isBlank c = false) (hcomment : line = [] → c ≠ '#' ∧ c ≠ '!') :
    logicalFrom ⟨line, skip, false, false, false, false⟩ (c :: rest) =
      logicalFrom ⟨line ++ [c], false, false, false, false, false⟩ rest := by
  rw [logicalFrom_push rest heol hblank hcomment, decide_eq_false hc, Bool.false_and]

theorem logicalFrom_escaped (line rest : Text) (hc : isEol c = false) :
    logicalFrom ⟨line, skip, false, false, false, false⟩ ('\\' :: c :: rest) =
      logicalFrom ⟨line ++ ['\\', c], false, false, false, false, false⟩ rest := by
  have hfilled : line ++ ['\\'] ≠ [] := List.append_ne_nil_of_right_ne_nil _ (List.cons_ne_nil _ _)
  rw [logicalFrom_push _ rfl (fun _ => rfl) (fun _ => by decide),
    logicalFrom_push rest hc (fun h => absurd h Bool.false_ne_true) (fun h => absurd h hfilled),
    List.append_assoc]
  show logicalFrom ⟨_, _, _, decide (c = '\\') && !true, _, _⟩ rest = _
  rw [Bool.not_true, Bool.and_false]
  rfl

theorem logicalFrom_blank {appended : Bool} (line rest : Text) (hc : isBlank c = true) :
    logicalFrom ⟨line, true, appended, false, false, false⟩ (c :: rest) =
      logicalFrom ⟨line, true, appended, false, false, false⟩ rest := by
  rw [logicalFrom, if_neg Bool.false_ne_true, if_neg Bool.false_ne_true, if_pos ⟨rfl, .inl hc⟩]

theorem logicalFrom_sign {appended : Bool} (rest : Text) (hc : c = '#' ∨ c = '!') :
    logicalFrom ⟨[], true, appended, false, false, false⟩ (c :: rest) =
      logicalFrom ⟨[], false, false, false, true, false⟩ rest := by
  have hstarts : ¬ (true = true ∧ (isBlank c = true ∨ ¬ appended = true ∧ isEol c = true)) := by
    rcases hc with rfl | rfl
    · rintro ⟨-, hblank | ⟨-, heol⟩⟩
      · cases hblank
      · cases heol
    · rintro ⟨-, hblank | ⟨-, heol⟩⟩
      · cases hblank
      · cases heol
  rw [logicalFrom, if_neg Bool.false_ne_true, if_neg Bool.false_ne_true, if_neg hstarts,
    if_pos ⟨rfl, hc⟩]

end Steps

-- Line ends

def IsLineEnd (eol : Text) : Prop := eol = ['\n'] ∨ eol = ['\r', '\n']

section LineEnds

variable {line eol rest : Text} {skip appended preceding : Bool} {c : Char}

theorem isEol_iff : isEol c = true ↔ c = '\n' ∨ c = '\r' := by
  rw [isEol, Bool.or_eq_true, decide_eq_true_eq, decide_eq_true_eq]

theorem logicalFrom_start_eol (rest : Text) (hc : isEol c = true) :
    logicalFrom .start (c :: rest) = logicalFrom .start rest := by
  rw [Reader.start, logicalFrom, if_neg Bool.false_ne_true, if_neg Bool.false_ne_true,
    if_pos ⟨rfl, .inr ⟨Bool.false_ne_true, hc⟩⟩]

theorem logicalFrom_lineEnd {reader : Reader} (ls : List Text) (heol : IsLineEnd eol)
    (h : ∀ c rest, isEol c = true → logicalFrom reader (c :: rest) = ls ++ logicalFrom .start rest) :
    logicalFrom reader (eol ++ rest) = ls ++ logicalFrom .start rest := by
  rcases heol with rfl | rfl
  · exact h '\n' rest rfl
  · rw [List.cons_append, h '\r' _ rfl, List.singleton_append, logicalFrom_start_eol rest rfl]

theorem logicalFrom_unfilled (heol : IsLineEnd eol) :
    logicalFrom ⟨[], true, appended, false, false, false⟩ (eol ++ rest) = logicalFrom .start rest := by
  refine logicalFrom_lineEnd [] heol fun c rest hc => ?_
  cases appended with
  | false => exact logicalFrom_start_eol rest hc
  | true => rcases isEol_iff.mp hc with rfl | rfl <;> rfl

theorem logicalFrom_comment_end (heol : IsLineEnd eol) :
    logicalFrom ⟨[], false, false, false, true, false⟩ (eol ++ rest) = logicalFrom .start rest := by
  refine logicalFrom_lineEnd [] heol fun c rest hc => ?_
  rcases isEol_iff.mp hc with rfl | rfl <;> rfl

theorem logicalFrom_eol (heol : IsLineEnd eol) (hskip : skip = true → appended = true)
    (hline : line ≠ []) : logicalFrom ⟨line, skip, appended, false, false, false⟩ (eol ++ rest) =
      line :: logicalFrom .start rest := by
  refine logicalFrom_lineEnd [line] heol fun c rest hc => ?_
  have hstarts : ¬ (skip = true ∧ (isBlank c = true ∨ ¬ appended = true ∧ isEol c = true)) := by
    rintro ⟨hskips, hblank | ⟨happended, -⟩⟩
    · rcases isEol_iff.mp hc with rfl | rfl
      · cases hblank
      · cases hblank
    · exact happended (hskip hskips)
  rw [logicalFrom, if_neg Bool.false_ne_true, if_neg Bool.false_ne_true, if_neg hstarts,
    if_neg (fun h => hline h.1), if_neg (not_not.mpr hc), if_neg hline, if_pos Bool.false_ne_true]
  rfl

/-- **A line that ends in a backslash goes on behind the blanks of the next one.** -/
theorem logicalFrom_continued (heol : IsLineEnd eol) (hline : line ≠ []) (hrest : rest ≠ []) :
    logicalFrom ⟨line, false, false, true, false, false⟩ (eol ++ rest) =
      logicalFrom ⟨line.dropLast, true, true, false, false, false⟩ rest := by
  have hcontinued : ∀ c others, isEol c = true → others ≠ [] →
      logicalFrom ⟨line, false, false, true, false, false⟩ (c :: others) = logicalFrom ⟨line.dropLast,
        true, true, false, false, c = '\r' && others.head? = some '\n'⟩ others := by
    intro c others hc hothers
    rw [logicalFrom, if_neg Bool.false_ne_true, if_neg Bool.false_ne_true,
      if_neg (fun h => absurd h.1 Bool.false_ne_true), if_neg (fun h => hline h.1),
      if_neg (not_not.mpr hc), if_neg hline, if_neg (not_not.mpr rfl), if_neg hothers]
  rcases heol with rfl | rfl
  · rw [List.singleton_append, hcontinued '\n' rest rfl hrest]
    rfl
  · rw [List.cons_append, List.singleton_append, hcontinued '\r' _ rfl (List.cons_ne_nil _ _)]
    show logicalFrom ⟨line.dropLast, true, true, false, false, true⟩ ('\n' :: rest) = _
    rw [logicalFrom, if_pos rfl]

end LineEnds

-- Keys and values

/-- The key of a line, whether it ended at a separator, and what follows. -/
def splitKey (precedingBackslash : Bool) : Text → Text × Bool × Text
  | [] => ([], false, [])
  | c :: rest =>
    if (c = '=' ∨ c = ':') ∧ ¬ precedingBackslash then ([], true, rest)
    else if isBlank c ∧ ¬ precedingBackslash then ([], false, rest)
    else
      let (key, hasSep, value) := splitKey (c = '\\' && !precedingBackslash) rest
      (c :: key, hasSep, value)

def skipToValue (hasSep : Bool) : Text → Text
  | [] => []
  | c :: rest =>
    if isBlank c then skipToValue hasSep rest
    else if ¬ hasSep ∧ (c = '=' ∨ c = ':') then skipToValue true rest
    else c :: rest

def hexValue (c : Char) : Option Nat :=
  if '0' ≤ c ∧ c ≤ '9' then some (c.toNat - 48)
  else if 'a' ≤ c ∧ c ≤ 'f' then some (c.toNat - 87)
  else if 'A' ≤ c ∧ c ≤ 'F' then some (c.toNat - 55)
  else none

def convertEscape (c : Char) : Char :=
  if c = 't' then '\t'
  else if c = 'r' then '\r'
  else if c = 'n' then '\n'
  else if c = 'f' then '\x0c'
  else c

/-- `loadConvert`; no line ends in a backslash that is not escaped. -/
def loadConvert : Text → Except String Text
  | [] => .ok []
  | c :: rest =>
    if c ≠ '\\' then (loadConvert rest).map (c :: ·)
    else
      match rest with
      | [] => .ok []
      | e :: others =>
        if e ≠ 'u' then (loadConvert others).map (convertEscape e :: ·)
        else
          match others with
          | h₁ :: h₂ :: h₃ :: h₄ :: after =>
            match hexValue h₁, hexValue h₂, hexValue h₃, hexValue h₄ with
            | some a, some b, some c, some d =>
              (loadConvert after).map (Char.ofNat (((a * 16 + b) * 16 + c) * 16 + d) :: ·)
            | _, _, _, _ => .error "Malformed \\uxxxx encoding."
          | _ => .error "Malformed \\uxxxx encoding."

def entry (line : Text) : Except String (Text × Text) := do
  let (key, hasSep, value) := splitKey false line
  return (← loadConvert key, ← loadConvert (skipToValue hasSep value))

/-- The entries of a table, in the order in which they are put. -/
abbrev Entries := List (Text × Text)

/-- `Properties.load` -/
def load (text : Text) : Except String Entries := (logicalFrom .start text).mapM entry

/-- `getProperty`: the last entry of a key counts. -/
def getProperty (entries : Entries) (name : Text) : Option Text := entries.reverse.lookup name

-- Texts that spell

/-- A character that stands for itself after a backslash, and is no blank and no line end. -/
def IsLiteral (c : Char) : Prop := c ∉ ['u', 't', 'r', 'n', 'f'] ∧ isBlank c = false ∧ isEol c = false

instance (c : Char) : Decidable (IsLiteral c) := inferInstanceAs (Decidable (_ ∧ _))

/-- A text that reads as a value, character for character. -/
inductive Spells : Text → Text → Prop where
  | nil : Spells [] []
  | plain {c : Char} {text value : Text} (hc : c ≠ '\\') (h : Spells text value) :
      Spells (c :: text) (c :: value)
  | escaped {c : Char} {text value : Text} (hc : IsLiteral c) (h : Spells text value) :
      Spells ('\\' :: c :: text) (c :: value)

def OneLine (text : Text) : Prop := ∀ c ∈ text, isEol c = false

def Flush (text : Text) : Prop := ∀ c, text.head? = some c → isBlank c = false

section Spelling

variable {text value other otherValue line : Text} {c : Char} {reader : Reader}

theorem IsLiteral.convertEscape (hc : IsLiteral c) : convertEscape c = c ∧ c ≠ 'u' := by
  obtain ⟨hletter, -, -⟩ := hc
  simp only [List.mem_cons, List.not_mem_nil, or_false, not_or] at hletter
  obtain ⟨hu, ht, hr, hn, hf⟩ := hletter
  refine ⟨?_, hu⟩
  rw [JavaProperties.convertEscape, if_neg ht, if_neg hr, if_neg hn, if_neg hf]

theorem Spells.append (h : Spells text value) (h' : Spells other otherValue) :
    Spells (text ++ other) (value ++ otherValue) := by
  induction h with
  | nil => exact h'
  | plain hc _ ih => exact .plain hc ih
  | escaped hc _ ih => exact .escaped hc ih

theorem spells_self (h : '\\' ∉ text) : Spells text text := by
  induction text with
  | nil => exact .nil
  | cons c text ih =>
    exact .plain (fun hc => h (hc ▸ List.mem_cons_self)) (ih fun hmem => h (List.mem_cons_of_mem _ hmem))

theorem Spells.loadConvert (h : Spells text value) : loadConvert text = .ok value := by
  induction h with
  | nil => rfl
  | plain hc _ ih =>
    rw [JavaProperties.loadConvert.eq_def]
    simp only [ne_eq, hc, not_false_eq_true, if_true, ih]
    rfl
  | escaped hc _ ih =>
    obtain ⟨hself, hu⟩ := hc.convertEscape
    rw [JavaProperties.loadConvert.eq_def]
    simp only [ne_eq, not_true_eq_false, if_false, hu, not_false_eq_true, if_true, ih, hself]
    rfl

theorem Spells.oneLine (h : Spells text value) (htext : OneLine text) : OneLine value := by
  induction h with
  | nil => exact htext
  | plain hc _ ih =>
    intro c hmem
    rcases List.mem_cons.mp hmem with rfl | hmem
    · exact htext c List.mem_cons_self
    · exact ih (fun c hc => htext c (List.mem_cons_of_mem _ hc)) c hmem
  | escaped hc _ ih =>
    intro c hmem
    rcases List.mem_cons.mp hmem with rfl | hmem
    · exact hc.2.2
    · exact ih (fun c hc => htext c (List.mem_cons_of_mem _ (List.mem_cons_of_mem _ hc))) c hmem

theorem Spells.flush (h : Spells text value) (htext : Flush text) : Flush value := by
  intro c hhead
  cases h with
  | nil => cases hhead
  | plain hc _ => exact htext c hhead
  | escaped hc _ =>
    obtain rfl := Option.some.inj hhead
    exact hc.2.1

end Spelling

-- What is read from such a text

section Reading

variable {text value line : Text} {c : Char}

/-- A line that spells something, as the reader leaves it. -/
structure Proper (line : Text) : Prop where
  spells : ∃ value, Spells line value
  oneLine : OneLine line
  flush : Flush line

theorem proper_nil : Proper [] :=
  ⟨⟨[], .nil⟩, fun _ hmem => absurd hmem List.not_mem_nil, fun _ hhead => absurd hhead (Option.some_ne_none _).symm⟩

theorem Proper.append (h : Proper line) (hspells : Spells text value) (honeLine : OneLine text)
    (hflush : line = [] → Flush text) : Proper (line ++ text) := by
  obtain ⟨lineValue, hline⟩ := h.spells
  refine ⟨⟨lineValue ++ value, hline.append hspells⟩, fun c hmem => ?_, ?_⟩
  · exact (List.mem_append.mp hmem).elim (h.oneLine c) (honeLine c)
  · cases line with
    | nil => exact hflush rfl
    | cons first line => exact h.flush

/-- **Every line of such a text is one.** Before the first character of a line the reader
skips, and in a comment it keeps none. -/
theorem proper_of_mem_logicalFrom (h : Spells text value) {skip comment : Bool} (hline : Proper line)
    (hskip : comment = false → (skip = true ↔ line = [])) (hcomment : comment = true → line = []) :
    ∀ l ∈ logicalFrom ⟨line, skip, false, false, comment, false⟩ text, Proper l := by
  induction h generalizing line skip comment with
  | nil =>
    intro l hmem
    rw [logicalFrom] at hmem
    split at hmem
    · cases hmem
    · rw [List.mem_singleton.mp hmem]
      exact hline
  | @plain c text value hc h ih =>
    intro l hmem
    rw [logicalFrom, if_neg Bool.false_ne_true] at hmem
    split at hmem
    · next hin =>
      obtain rfl := hcomment hin
      split at hmem
      · exact ih proper_nil (fun _ => iff_of_true rfl rfl) (fun h => absurd h Bool.false_ne_true) l hmem
      · exact ih proper_nil (fun h => absurd (h.symm.trans hin) Bool.false_ne_true) (fun _ => rfl) l hmem
    · next hout =>
      have hskip := hskip (Bool.not_eq_true _ ▸ hout)
      split at hmem
      · exact ih hline (fun _ => hskip) hcomment l hmem
      · next hstarts =>
        split at hmem
        · exact ih proper_nil (fun h => absurd h.symm Bool.false_ne_true) (fun _ => rfl) l hmem
        · split at hmem
          · next heol =>
            have hback : decide (c = '\\') = false := decide_eq_false hc
            simp only [hback, Bool.false_and] at hmem
            rw [Bool.not_eq_true] at heol
            have hpushed : Proper (line ++ [c]) := by
              refine hline.append (.plain hc .nil) (fun d hd => List.mem_singleton.mp hd ▸ heol)
                fun hnil d hd => ?_
              obtain rfl := Option.some.inj hd
              exact Bool.not_eq_true _ ▸ fun hblank => hstarts ⟨hskip.mpr hnil, .inl hblank⟩
            exact ih hpushed (fun _ => iff_of_false Bool.false_ne_true (List.append_ne_nil_of_right_ne_nil _
              (List.cons_ne_nil _ _))) (fun h => absurd h Bool.false_ne_true) l hmem
          · split at hmem
            · exact ih proper_nil (fun _ => iff_of_true rfl rfl) (fun h => absurd h Bool.false_ne_true) l hmem
            · rw [if_pos Bool.false_ne_true] at hmem
              rcases List.mem_cons.mp hmem with rfl | hmem
              · exact hline
              · exact ih proper_nil (fun _ => iff_of_true rfl rfl)
                  (fun h => absurd h Bool.false_ne_true) l hmem
  | @escaped c text value hc h ih =>
    intro l hmem
    cases comment with
    | true =>
      rw [logicalFrom_comment _ _ rfl, logicalFrom_comment _ _ hc.2.2] at hmem
      exact ih hline hskip hcomment l hmem
    | false =>
      rw [logicalFrom_escaped _ _ hc.2.2] at hmem
      have hpushed : Proper (line ++ ['\\', c]) := by
        refine hline.append (.escaped hc .nil) (fun d hd => ?_) fun _ d hd => ?_
        · rcases List.mem_cons.mp hd with rfl | hd
          · rfl
          · exact List.mem_singleton.mp hd ▸ hc.2.2
        · obtain rfl := Option.some.inj hd
          rfl
      exact ih hpushed (fun _ => iff_of_false Bool.false_ne_true (List.append_ne_nil_of_right_ne_nil _
        (List.cons_ne_nil _ _))) (fun h => absurd h Bool.false_ne_true) l hmem

theorem OneLine.tail (h : OneLine (c :: text)) : OneLine text :=
  fun d hd => h d (List.mem_cons_of_mem _ hd)

theorem splitKey_spells (h : Spells text value) (honeLine : OneLine text) :
    (∃ key, Spells (splitKey false text).1 key) ∧
      (∃ rest, Spells (splitKey false text).2.2 rest) ∧ OneLine (splitKey false text).2.2 := by
  induction h with
  | nil => exact ⟨⟨[], .nil⟩, ⟨[], .nil⟩, honeLine⟩
  | @plain c text value hc h ih =>
    rw [splitKey]
    split
    · exact ⟨⟨[], .nil⟩, ⟨value, h⟩, honeLine.tail⟩
    · split
      · exact ⟨⟨[], .nil⟩, ⟨value, h⟩, honeLine.tail⟩
      · rw [decide_eq_false hc, Bool.false_and]
        obtain ⟨⟨key, hkey⟩, hrest, hline⟩ := ih honeLine.tail
        exact ⟨⟨c :: key, .plain hc hkey⟩, hrest, hline⟩
  | @escaped c text value hc h ih =>
    rw [splitKey, if_neg (by decide), if_neg (by decide)]
    show (∃ key, Spells ('\\' :: (splitKey true (c :: text)).1) key) ∧
      (∃ rest, Spells (splitKey true (c :: text)).2.2 rest) ∧ OneLine (splitKey true (c :: text)).2.2
    rw [splitKey, if_neg (fun h => h.2 rfl), if_neg (fun h => h.2 rfl), Bool.not_true, Bool.and_false]
    obtain ⟨⟨key, hkey⟩, hrest, hline⟩ := ih honeLine.tail.tail
    exact ⟨⟨c :: key, .escaped hc hkey⟩, hrest, hline⟩

theorem proper_skipToValue (h : Spells text value) (honeLine : OneLine text) (hasSep : Bool) :
    Proper (skipToValue hasSep text) := by
  induction h generalizing hasSep with
  | nil => exact proper_nil
  | @plain c text value hc h ih =>
    rw [skipToValue]
    split
    · exact ih honeLine.tail hasSep
    · next hblank =>
      split
      · exact ih honeLine.tail true
      · refine ⟨⟨c :: value, .plain hc h⟩, honeLine, fun d hd => ?_⟩
        obtain rfl := Option.some.inj hd
        exact Bool.not_eq_true _ ▸ hblank
  | @escaped c text value hc h ih =>
    rw [skipToValue, if_neg (by decide), if_neg (fun h => absurd h.2 (by decide))]
    refine ⟨⟨c :: value, .escaped hc h⟩, honeLine, fun d hd => ?_⟩
    obtain rfl := Option.some.inj hd
    rfl

theorem Proper.entry (h : Proper line) :
    ∃ key value, entry line = .ok (key, value) ∧ OneLine value ∧ Flush value := by
  obtain ⟨lineValue, hline⟩ := h.spells
  obtain ⟨⟨key, hkey⟩, ⟨rest, hrest⟩, honeLine⟩ := splitKey_spells hline h.oneLine
  have hvalue := proper_skipToValue hrest honeLine (splitKey false line).2.1
  obtain ⟨value, hspells⟩ := hvalue.spells
  refine ⟨key, value, ?_, hspells.oneLine hvalue.oneLine, hspells.flush hvalue.flush⟩
  show ((loadConvert (splitKey false line).1).bind fun key => (loadConvert (skipToValue
    (splitKey false line).2.1 (splitKey false line).2.2)).bind fun value => .ok (key, value)) = _
  rw [hkey.loadConvert, hspells.loadConvert]
  rfl

/-- **A value that is read from such a text has no line end, and no blank in front.** -/
theorem load_of_spells (h : Spells text value) :
    ∃ entries, load text = .ok entries ∧ ∀ entry ∈ entries, OneLine entry.2 ∧ Flush entry.2 := by
  have hproper := proper_of_mem_logicalFrom h proper_nil (fun _ => iff_of_true rfl rfl)
    (fun h => absurd h Bool.false_ne_true)
  obtain ⟨entries, hentries⟩ := Fallible.exists_mapM_eq_ok.mpr fun line hline => by
    obtain ⟨key, value, hentry, -⟩ := (hproper line hline).entry
    exact ⟨(key, value), hentry⟩
  refine ⟨entries, hentries, fun pair hpair => ?_⟩
  obtain ⟨line, hline, hread⟩ := Fallible.exists_of_mem_mapM hentries hpair
  obtain ⟨key, value, hentry, hvalue⟩ := (hproper line hline).entry
  rw [hentry] at hread
  obtain rfl := Except.ok.inj hread
  exact hvalue

end Reading

-- Entries one under the other

section Writing

variable {name text value rest : Text}

structure Named (name : Text) : Prop where
  filled : name ≠ []
  plain : ∀ c ∈ name, c ∉ ['\\', '=', ':', '#', '!'] ∧ isBlank c = false ∧ isEol c = false

theorem logicalFrom_spells (h : Spells text value) (honeLine : OneLine text) {line : Text}
    (hline : line ≠ []) : logicalFrom ⟨line, false, false, false, false, false⟩ (text ++ '\n' :: rest) =
      (line ++ text) :: logicalFrom .start rest := by
  induction h generalizing line with
  | nil =>
    rw [List.nil_append, List.append_nil]
    exact logicalFrom_eol (.inl rfl) (fun h => absurd h Bool.false_ne_true) hline
  | @plain c text value hc h ih =>
    rw [List.cons_append, logicalFrom_plain _ hc (honeLine c List.mem_cons_self)
      (fun h => absurd h Bool.false_ne_true) (fun h => absurd h hline),
      ih honeLine.tail (List.append_ne_nil_of_left_ne_nil hline _), List.append_assoc]
    rfl
  | @escaped c text value hc h ih =>
    rw [List.cons_append, List.cons_append, logicalFrom_escaped _ _ hc.2.2,
      ih honeLine.tail.tail (List.append_ne_nil_of_left_ne_nil hline _), List.append_assoc]
    rfl

theorem Named.spells (h : Named name) : Spells name name :=
  spells_self fun hmem => (h.plain _ hmem).1 List.mem_cons_self

theorem logicalFrom_line (hname : Named name) (h : Spells text value) (honeLine : OneLine text) :
    logicalFrom .start (name ++ '=' :: text ++ '\n' :: rest) =
      (name ++ '=' :: text) :: logicalFrom .start rest := by
  obtain ⟨c, name, rfl⟩ := List.exists_cons_of_ne_nil hname.filled
  obtain ⟨hspecial, hblank, heol⟩ := hname.plain c List.mem_cons_self
  simp only [List.mem_cons, List.not_mem_nil, or_false, not_or] at hspecial
  have htail : Spells (name ++ '=' :: text) (name ++ '=' :: value) :=
    Spells.append (spells_self fun hmem => (hname.plain _ (List.mem_cons_of_mem _ hmem)).1 List.mem_cons_self)
      (.plain (by decide) h)
  have htailLine : OneLine (name ++ '=' :: text) := by
    intro d hd
    rcases List.mem_append.mp hd with hd | hd
    · exact (hname.plain d (List.mem_cons_of_mem _ hd)).2.2
    · rcases List.mem_cons.mp hd with rfl | hd
      · rfl
      · exact honeLine d hd
  rw [List.cons_append, List.cons_append, Reader.start, logicalFrom_plain _ hspecial.1 heol
    (fun _ => hblank) (fun _ => ⟨hspecial.2.2.2.1, hspecial.2.2.2.2⟩), List.nil_append,
    logicalFrom_spells htail htailLine (List.cons_ne_nil _ _)]
  rfl

theorem splitKey_named (h : ∀ c ∈ name, c ∉ ['\\', '=', ':', '#', '!'] ∧ isBlank c = false ∧
    isEol c = false) (text : Text) : splitKey false (name ++ '=' :: text) = (name, true, text) := by
  induction name with
  | nil => rfl
  | cons c name ih =>
    obtain ⟨hspecial, hblank, -⟩ := h c List.mem_cons_self
    simp only [List.mem_cons, List.not_mem_nil, or_false, not_or] at hspecial
    rw [List.cons_append, splitKey, if_neg (fun h => h.1.elim hspecial.2.1 hspecial.2.2.1),
      if_neg (fun h => absurd (hblank.symm.trans h.1) Bool.false_ne_true), decide_eq_false hspecial.1,
      Bool.false_and, ih fun d hd => h d (List.mem_cons_of_mem _ hd)]

theorem skipToValue_flush (h : Flush text) : skipToValue true text = text := by
  cases text with
  | nil => rfl
  | cons c text =>
    rw [skipToValue, if_neg (h c rfl ▸ Bool.false_ne_true), if_neg (fun h => h.1 rfl)]

theorem entry_line (hname : Named name) (h : Spells text value) (hflush : Flush text) :
    entry (name ++ '=' :: text) = .ok (name, value) := by
  rw [entry, splitKey_named hname.plain]
  dsimp only
  rw [hname.spells.loadConvert, skipToValue_flush hflush, h.loadConvert]
  rfl

/-- **Entries one under the other are read in their order,** when no value starts with a
blank or goes on in the next line. -/
theorem load_entries {write : Text → Text} {entries : Entries}
    (h : ∀ entry ∈ entries, Named entry.1 ∧ Spells (write entry.2) entry.2 ∧
      OneLine (write entry.2) ∧ Flush (write entry.2)) :
    load (entries.flatMap fun entry => entry.1 ++ '=' :: write entry.2 ++ ['\n']) = .ok entries := by
  rw [load, Fallible.mapM_eq_ok]
  induction entries with
  | nil => exact .nil
  | cons first entries ih =>
    obtain ⟨hname, hspells, honeLine, hflush⟩ := h first List.mem_cons_self
    rw [List.flatMap_cons, List.append_assoc, List.singleton_append,
      logicalFrom_line hname hspells honeLine]
    exact .cons (entry_line hname hspells hflush) (ih fun entry hentry =>
      h entry (List.mem_cons_of_mem _ hentry))

end Writing

section Properties

variable {entries : Entries} {name value : Text}

theorem mem_of_getProperty (h : getProperty entries name = some value) : (name, value) ∈ entries := by
  obtain ⟨before, after, hsplit, -⟩ := List.lookup_eq_some_iff.mp h
  rw [← List.mem_reverse, hsplit]
  exact List.mem_append_right _ List.mem_cons_self

theorem getProperty_of_mem (hnodup : (entries.map Prod.fst).Nodup) (h : (name, value) ∈ entries) :
    getProperty entries name = some value := by
  obtain ⟨before, after, hsplit⟩ := List.append_of_mem (List.mem_reverse.mpr h)
  rw [getProperty, hsplit]
  refine List.lookup_eq_some_iff.mpr ⟨before, after, rfl, fun pair hpair => bne_iff_ne.mpr ?_⟩
  rintro rfl
  rw [← List.nodup_reverse, ← List.map_reverse, hsplit, List.map_append, List.nodup_append] at hnodup
  exact hnodup.2.2 pair.1 (List.mem_map_of_mem hpair) pair.1 List.mem_cons_self rfl

end Properties

end JavaProperties
