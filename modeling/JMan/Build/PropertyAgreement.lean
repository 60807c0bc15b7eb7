import JMan.Lib.JavaProperties
import JMan.Build.Properties

/-!
# JMan — property files as Java reads them

`property_entries` and `parse_property_entry` beside `java.util.Properties.load`. Both
join lines, pass over comments and cut a line at its separator; only Java takes the
escapes out of what it cuts, and it keeps blanks at the end of a value.

Main results:

* `backslash_stays` — an escape in a value stays as it is written.
* `entries_of_regular` — where a text is `Regular`, the entries without their escapes are
  what Java reads in its lines without the blanks at their ends.
-/

namespace JMan.Build

open JMan.Config (whiteSpace)
open Encoding (Bytes utf8)
open Lines (Text)
open JavaProperties (logicalFrom IsLineEnd)

-- Regular texts
-- ---

/-- The line of a turn of the loop over the physical lines. -/
def joined (logical physical : Text) : Text :=
  if logical = [] then physical else logical ++ Lines.trimStart whiteSpace physical

/-- What the loop keeps of a line for the next turn. -/
def kept (line : Text) : Text := if EndsEscaping line then line.dropLast else []

/-- Each line that the loop builds has a property, together with the lines that are left. -/
def EachTurn (P : Text → List Text → Prop) (logical : Text) : List Text → Prop
  | [] => True
  | physical :: rest =>
    P (joined logical physical) rest ∧ EachTurn P (kept (joined logical physical)) rest

/-- Only blanks of Java are trimmed at the start of a text. -/
def PlainStart (text : Text) : Prop :=
  Lines.trimStart whiteSpace text = Lines.trimStart JavaProperties.isBlank text

/-- Only blanks of Java are trimmed at the end of a text. -/
def PlainEnd (text : Text) : Prop :=
  Lines.trimEnd whiteSpace text = Lines.trimEnd JavaProperties.isBlank text

def IsComment (line : Text) : Prop :=
  (Lines.trimStart whiteSpace line).head? = some '#' ∨ (Lines.trimStart whiteSpace line).head? = some '!'

instance EachTurn.decidable {P : Text → List Text → Prop} [∀ line rest, Decidable (P line rest)]
    (logical : Text) : (physicals : List Text) → Decidable (EachTurn P logical physicals)
  | [] => .isTrue trivial
  | physical :: rest =>
    have : Decidable (EachTurn P (kept (joined logical physical)) rest) := EachTurn.decidable _ rest
    inferInstanceAs (Decidable (_ ∧ _))

instance (text : Text) : Decidable (PlainStart text) := inferInstanceAs (Decidable (_ = _))

instance (text : Text) : Decidable (PlainEnd text) := inferInstanceAs (Decidable (_ = _))

instance (line : Text) : Decidable (IsComment line) := inferInstanceAs (Decidable (_ ∨ _))

/-- A line falls apart at signs and at blanks of Java, and none that is trimmed is escaped. -/
structure CutsPlainly (line : Text) : Prop where
  ended : PlainEnd (Lines.trimStart whiteSpace line)
  whole : ¬ EndsEscaping (trimmed line)
  /-- The key, the separator and the rest. -/
  split : ∀ split ∈ splitSeparator false (trimmed line),
    ¬ EndsEscaping (Lines.trimEnd whiteSpace split.1) ∧
      (whiteSpace split.2.1 = true → JavaProperties.isBlank split.2.1 = true) ∧
      PlainStart split.2.2 ∧ PlainStart (valueAfter split.2.1 split.2.2)

/-- A line of a text on which the loop does what Java does. -/
structure RegularLine (line : Text) (rest : List Text) : Prop where
  /-- No comment goes on in the next line. -/
  comment : IsComment line → ¬ EndsEscaping line
  /-- What goes on has a next line. -/
  continued : EndsEscaping line → rest ≠ []
  cut : ¬ EndsEscaping line → ¬ IsComment line → CutsPlainly line

instance (line : Text) : Decidable (CutsPlainly line) :=
  decidable_of_iff (PlainEnd (Lines.trimStart whiteSpace line) ∧ ¬ EndsEscaping (trimmed line) ∧
    ∀ split ∈ splitSeparator false (trimmed line),
      ¬ EndsEscaping (Lines.trimEnd whiteSpace split.1) ∧
        (whiteSpace split.2.1 = true → JavaProperties.isBlank split.2.1 = true) ∧
        PlainStart split.2.2 ∧ PlainStart (valueAfter split.2.1 split.2.2))
    ⟨fun h => ⟨h.1, h.2.1, h.2.2⟩, fun h => ⟨h.ended, h.whole, h.split⟩⟩

instance (line : Text) (rest : List Text) : Decidable (RegularLine line rest) :=
  decidable_of_iff ((IsComment line → ¬ EndsEscaping line) ∧ (EndsEscaping line → rest ≠ []) ∧
    (¬ EndsEscaping line → ¬ IsComment line → CutsPlainly line))
    ⟨fun h => ⟨h.1, h.2.1, h.2.2⟩, fun h => ⟨h.comment, h.continued, h.cut⟩⟩

/-- A text whose carriage returns belong to line ends, whose lines start with no white
space but blanks of Java, and on which each turn of the loop is regular. -/
structure Regular (text : Text) : Prop where
  physical : ∀ line ∈ Lines.lines text, '\r' ∉ line ∧ PlainStart line
  turns : EachTurn RegularLine [] (Lines.lines text)

/-- A line without the blanks at its end that are not escaped. -/
def unpadded (line : Text) : Text :=
  let bare := Lines.trimEnd JavaProperties.isBlank line
  if EndsEscaping bare then line.take (bare.length + 1) else bare

def unescaped (entry : Text × Text) : Except String (Text × Text) := do
  return (← JavaProperties.loadConvert entry.1, ← JavaProperties.loadConvert entry.2)

/-- What Java reads in a text whose lines have no blanks at their ends. -/
def loadUnpadded (text : Text) : Except String (List (Text × Text)) :=
  (logicalFrom .start text).mapM fun line => JavaProperties.entry (unpadded line)

-- Lines that the loop builds
-- ---

section Joining

variable {logical physical line : Text}

theorem endsEscaping_trimStart (text : Text) :
    EndsEscaping (Lines.trimStart whiteSpace text) ↔ EndsEscaping text := by
  rw [← escapedAfter_iff, ← escapedAfter_iff]
  have hblanks : ∀ blanks : Text, (∀ c ∈ blanks, whiteSpace c = true) →
      escapedAfter false blanks = false := by
    intro blanks hblanks
    induction blanks with
    | nil => rfl
    | cons c blanks ih =>
      have hc : c ≠ '\\' := fun h => absurd (h ▸ hblanks c List.mem_cons_self) (by decide)
      rw [escapedAfter, decide_eq_false hc, Bool.and_false]
      exact ih fun d hd => hblanks d (List.mem_cons_of_mem _ hd)
  have hsplit : text = text.takeWhile whiteSpace ++ Lines.trimStart whiteSpace text :=
    List.takeWhile_append_dropWhile.symm
  nth_rewrite 2 [hsplit]
  rw [escapedAfter_append, hblanks _ fun c hc => List.mem_takeWhile_imp hc]

theorem trimStart_joined (logical physical : Text) :
    Lines.trimStart whiteSpace (joined logical physical) =
      Lines.trimStart whiteSpace logical ++ Lines.trimStart whiteSpace physical := by
  unfold joined
  split
  · next hlogical =>
    rw [hlogical]
    rfl
  · unfold Lines.trimStart
    rw [List.dropWhile_append]
    split
    · next hblank =>
      rw [List.isEmpty_iff.mp hblank, List.nil_append]
      exact Lines.trimStart_of_first (Lines.first_trimStart physical)
    · rfl

theorem exists_concat_of_endsEscaping (h : EndsEscaping line) :
    ∃ before, line = before ++ ['\\'] ∧ ¬ EndsEscaping before := by
  induction line using List.reverseRecOn with
  | nil => exact absurd h (by decide)
  | append_singleton before last _ =>
    by_cases hlast : last = '\\'
    · subst hlast
      refine ⟨before, rfl, fun hbefore => ?_⟩
      unfold EndsEscaping at h hbefore
      rw [trailingSlashes_concat_slash] at h
      omega
    · unfold EndsEscaping at h
      rw [trailingSlashes_concat _ hlast] at h
      cases h

theorem trimStart_dropLast (h : EndsEscaping line) :
    Lines.trimStart whiteSpace line.dropLast = (Lines.trimStart whiteSpace line).dropLast := by
  obtain ⟨before, rfl, -⟩ := exists_concat_of_endsEscaping h
  unfold Lines.trimStart
  rw [List.dropLast_concat, List.dropWhile_append]
  split
  · next hblank =>
    rw [List.isEmpty_iff.mp hblank]
    rfl
  · rw [List.dropLast_concat]

end Joining

-- Java reads a physical line
-- ---

section Physical

variable {line text rest physical logical eol : Text} {skip appended escaped : Bool} {c : Char}

theorem logicalFrom_blanks {blanks : Text} (h : ∀ c ∈ blanks, JavaProperties.isBlank c = true) :
    logicalFrom ⟨line, true, appended, false, false, false⟩ (blanks ++ rest) =
      logicalFrom ⟨line, true, appended, false, false, false⟩ rest := by
  induction blanks with
  | nil => rfl
  | cons c blanks ih =>
    rw [List.cons_append, JavaProperties.logicalFrom_blank line _ (h c List.mem_cons_self),
      ih fun d hd => h d (List.mem_cons_of_mem _ hd)]

theorem logicalFrom_trimStart (hstart : PlainStart physical) (rest : Text) :
    logicalFrom ⟨line, true, appended, false, false, false⟩ (physical ++ rest) =
      logicalFrom ⟨line, true, appended, false, false, false⟩
        (Lines.trimStart whiteSpace physical ++ rest) := by
  have hsplit : physical = physical.takeWhile JavaProperties.isBlank ++
      Lines.trimStart whiteSpace physical := by
    rw [show Lines.trimStart whiteSpace physical = _ from hstart]
    exact List.takeWhile_append_dropWhile.symm
  nth_rewrite 1 [hsplit]
  rw [List.append_assoc, logicalFrom_blanks fun c hc => List.mem_takeWhile_imp hc]

theorem logicalFrom_comment_text (honeLine : JavaProperties.OneLine text) (rest : Text) :
    logicalFrom ⟨[], false, false, false, true, false⟩ (text ++ rest) =
      logicalFrom ⟨[], false, false, false, true, false⟩ rest := by
  induction text with
  | nil => rfl
  | cons c text ih =>
    rw [List.cons_append, JavaProperties.logicalFrom_comment [] _ (honeLine c List.mem_cons_self),
      ih honeLine.tail]

theorem logicalFrom_text (hline : line ≠ []) (honeLine : JavaProperties.OneLine text) (rest : Text) :
    logicalFrom ⟨line, false, false, escaped, false, false⟩ (text ++ rest) =
      logicalFrom ⟨line ++ text, false, false, escapedAfter escaped text, false, false⟩ rest := by
  induction text generalizing line escaped with
  | nil => rw [List.nil_append, List.append_nil, escapedAfter]
  | cons c text ih =>
    rw [List.cons_append, JavaProperties.logicalFrom_push _ (honeLine c List.mem_cons_self)
      (fun h => absurd h Bool.false_ne_true) (fun h => absurd h hline),
      ih (List.append_ne_nil_of_left_ne_nil hline _) honeLine.tail, List.append_assoc,
      Bool.and_comm]
    rfl

theorem logicalFrom_first (honeLine : JavaProperties.OneLine (c :: text)) (hblank : JavaProperties.isBlank c = false)
    (hsign : line = [] → c ≠ '#' ∧ c ≠ '!') (rest : Text) :
    logicalFrom ⟨line, true, appended, false, false, false⟩ (c :: text ++ rest) =
      logicalFrom ⟨line ++ c :: text, false, false, escapedAfter false (c :: text), false, false⟩ rest := by
  rw [List.cons_append, JavaProperties.logicalFrom_push _ (honeLine c List.mem_cons_self)
    (fun _ => hblank) hsign, logicalFrom_text
    (List.append_ne_nil_of_right_ne_nil _ (List.cons_ne_nil _ _)) honeLine.tail, List.append_assoc,
    Bool.and_comm]
  rfl

/-- What the loop keeps between two lines, and how Java stands there. -/
structure Pending (logical : Text) (appended : Bool) : Prop where
  even : ¬ EndsEscaping logical
  noComment : ¬ IsComment logical
  appended : logical ≠ [] → appended = true

def javaLines (line : Text) : List Text :=
  if Lines.trimStart whiteSpace line = [] ∨ IsComment line then []
  else [Lines.trimStart whiteSpace line]

theorem whiteSpace_of_isBlank (h : JavaProperties.isBlank c = true) : whiteSpace c = true := by
  simp only [JavaProperties.isBlank, Bool.or_eq_true, decide_eq_true_eq] at h
  rcases h with rfl | rfl | rfl
  · rfl
  · rfl
  · rfl

theorem isBlank_eq_false (h : whiteSpace c = false) : JavaProperties.isBlank c = false :=
  Bool.eq_false_iff.mpr fun hblank => Bool.eq_false_iff.mp h (whiteSpace_of_isBlank hblank)

theorem isComment_joined (logical physical : Text) : IsComment (joined logical physical) ↔
    (Lines.trimStart whiteSpace logical ++ Lines.trimStart whiteSpace physical).head? = some '#' ∨
      (Lines.trimStart whiteSpace logical ++ Lines.trimStart whiteSpace physical).head? = some '!' := by
  rw [IsComment, trimStart_joined]

theorem Pending.noComment_joined (h : Pending logical appended)
    (hlogical : Lines.trimStart whiteSpace logical ≠ []) (physical : Text) :
    ¬ IsComment (joined logical physical) := by
  rw [isComment_joined, List.head?_append_of_ne_nil _ hlogical]
  exact h.noComment

theorem Pending.escapedAfter_iff (h : Pending logical appended) (physical : Text) :
    escapedAfter false (Lines.trimStart whiteSpace physical) = true ↔
      EndsEscaping (joined logical physical) := by
  have heven : escapedAfter false (Lines.trimStart whiteSpace logical) = false := by
    refine Bool.eq_false_iff.mpr fun hescaped => h.even ?_
    exact (endsEscaping_trimStart logical).mp ((JMan.Build.escapedAfter_iff _).mp hescaped)
  rw [← endsEscaping_trimStart (joined logical physical), trimStart_joined,
    ← JMan.Build.escapedAfter_iff, escapedAfter_append, heven]

/-- **Java reads a physical line**: it has passed over blanks, or is in a comment, or has
taken a part of its line. -/
theorem Pending.read (h : Pending logical appended) (honeLine : JavaProperties.OneLine physical)
    (hstart : PlainStart physical) :
    ∃ reader : JavaProperties.Reader,
      (∀ rest, logicalFrom ⟨Lines.trimStart whiteSpace logical, true, appended, false, false, false⟩
        (physical ++ rest) = logicalFrom reader rest) ∧
      ((Lines.trimStart whiteSpace physical = [] ∧
          reader = ⟨Lines.trimStart whiteSpace logical, true, appended, false, false, false⟩) ∨
        (IsComment (joined logical physical) ∧ reader = ⟨[], false, false, false, true, false⟩) ∨
        (¬ IsComment (joined logical physical) ∧ Lines.trimStart whiteSpace physical ≠ [] ∧
          reader = ⟨Lines.trimStart whiteSpace (joined logical physical), false, false,
            escapedAfter false (Lines.trimStart whiteSpace physical), false, false⟩)) := by
  have hsuffix := Lines.trimStart_isSuffix whiteSpace physical
  have hfirst := @Lines.first_trimStart whiteSpace physical
  have hcomment := isComment_joined logical physical
  rw [trimStart_joined]
  cases hread : Lines.trimStart whiteSpace physical with
  | nil =>
    refine ⟨_, fun rest => ?_, .inl ⟨rfl, rfl⟩⟩
    rw [logicalFrom_trimStart hstart, hread, List.nil_append]
  | cons c text =>
    rw [hread] at hsuffix hfirst hcomment
    have honeLine' : JavaProperties.OneLine (c :: text) := fun d hd => honeLine d (hsuffix.subset hd)
    by_cases hin : IsComment (joined logical physical)
    · have hlogical : Lines.trimStart whiteSpace logical = [] :=
        by_contra fun hlogical => h.noComment_joined hlogical physical hin
      rw [hlogical] at hcomment ⊢
      have hsign : c = '#' ∨ c = '!' := (hcomment.mp hin).imp Option.some.inj Option.some.inj
      refine ⟨_, fun rest => ?_, .inr (.inl ⟨hin, rfl⟩)⟩
      rw [logicalFrom_trimStart hstart, hread, List.cons_append, JavaProperties.logicalFrom_sign _ hsign,
        logicalFrom_comment_text honeLine'.tail]
    · have hsign : Lines.trimStart whiteSpace logical = [] → c ≠ '#' ∧ c ≠ '!' := by
        intro hlogical
        rw [hlogical] at hcomment
        exact ⟨fun hc => hin (hcomment.mpr (.inl (congrArg some hc))),
          fun hc => hin (hcomment.mpr (.inr (congrArg some hc)))⟩
      refine ⟨_, fun rest => ?_, .inr (.inr ⟨hin, List.cons_ne_nil _ _, rfl⟩)⟩
      rw [logicalFrom_trimStart hstart, hread, logicalFrom_first honeLine' (isBlank_eq_false (hfirst c rfl))
        hsign]

/-- **A line ends for Java where it ends for the loop,** at the end of the text or at a line
end. -/
theorem Pending.ended (h : Pending logical appended) (honeLine : JavaProperties.OneLine physical)
    (hstart : PlainStart physical) (hended : ¬ EndsEscaping (joined logical physical)) :
    logicalFrom ⟨Lines.trimStart whiteSpace logical, true, appended, false, false, false⟩ physical =
        javaLines (joined logical physical) ∧
      ∀ {eol rest}, IsLineEnd eol →
        logicalFrom ⟨Lines.trimStart whiteSpace logical, true, appended, false, false, false⟩
            (physical ++ (eol ++ rest)) =
          javaLines (joined logical physical) ++ logicalFrom .start rest := by
  obtain ⟨reader, hread, hcases⟩ := h.read honeLine hstart
  have hend := hread []
  rw [List.append_nil] at hend
  rw [hend]
  simp only [hread]
  rcases hcases with ⟨hphysical, rfl⟩ | ⟨hin, rfl⟩ | ⟨hout, hphysical, rfl⟩
  · have hline : Lines.trimStart whiteSpace (joined logical physical) =
        Lines.trimStart whiteSpace logical := by
      rw [trimStart_joined, hphysical, List.append_nil]
    by_cases hlogical : Lines.trimStart whiteSpace logical = []
    · rw [javaLines, hline, if_pos (.inl hlogical), hlogical]
      exact ⟨rfl, fun heol => JavaProperties.logicalFrom_unfilled heol⟩
    · have hne : logical ≠ [] := by
        rintro rfl
        exact hlogical rfl
      rw [javaLines, hline, if_neg (not_or.mpr ⟨hlogical, h.noComment_joined hlogical physical⟩)]
      refine ⟨?_, fun heol => JavaProperties.logicalFrom_eol heol (fun _ => h.appended hne) hlogical⟩
      rw [logicalFrom, if_neg (not_or.mpr ⟨Bool.false_ne_true, hlogical⟩), if_neg Bool.false_ne_true]
  · rw [javaLines, if_pos (.inr hin)]
    exact ⟨rfl, fun heol => JavaProperties.logicalFrom_comment_end heol⟩
  · have hline : Lines.trimStart whiteSpace (joined logical physical) ≠ [] := by
      rw [trimStart_joined]
      exact List.append_ne_nil_of_right_ne_nil _ hphysical
    have heven : escapedAfter false (Lines.trimStart whiteSpace physical) = false :=
      Bool.eq_false_iff.mpr fun hescaped => hended ((h.escapedAfter_iff physical).mp hescaped)
    rw [javaLines, if_neg (not_or.mpr ⟨hline, hout⟩), heven]
    refine ⟨?_, fun heol =>
      JavaProperties.logicalFrom_eol heol (fun h => absurd h Bool.false_ne_true) hline⟩
    rw [logicalFrom, if_neg (not_or.mpr ⟨Bool.false_ne_true, hline⟩), if_neg Bool.false_ne_true]

/-- **A line goes on for Java where it goes on for the loop.** -/
theorem Pending.goes_on (h : Pending logical appended) (honeLine : JavaProperties.OneLine physical)
    (hstart : PlainStart physical) (hescaping : EndsEscaping (joined logical physical))
    (hout : ¬ IsComment (joined logical physical)) (heol : IsLineEnd eol) (hrest : rest ≠ []) :
    logicalFrom ⟨Lines.trimStart whiteSpace logical, true, appended, false, false, false⟩
        (physical ++ (eol ++ rest)) =
      logicalFrom ⟨Lines.trimStart whiteSpace (joined logical physical).dropLast, true, true, false,
        false, false⟩ rest := by
  obtain ⟨reader, hread, hcases⟩ := h.read honeLine hstart
  have hescaped := (h.escapedAfter_iff physical).mpr hescaping
  rw [hread, trimStart_dropLast hescaping]
  rcases hcases with ⟨hphysical, -⟩ | ⟨hin, -⟩ | ⟨-, hphysical, rfl⟩
  · rw [hphysical] at hescaped
    cases hescaped
  · exact absurd hin hout
  · have hline : Lines.trimStart whiteSpace (joined logical physical) ≠ [] := by
      rw [trimStart_joined]
      exact List.append_ne_nil_of_right_ne_nil _ hphysical
    rw [hescaped]
    exact JavaProperties.logicalFrom_continued heol hline hrest

theorem pending_dropLast (hescaping : EndsEscaping line) (hout : ¬ IsComment line) :
    Pending line.dropLast true := by
  refine ⟨?_, fun hin => hout ?_, fun _ => rfl⟩
  · obtain ⟨before, rfl, hbefore⟩ := exists_concat_of_endsEscaping hescaping
    rwa [List.dropLast_concat]
  · rw [IsComment, trimStart_dropLast hescaping] at hin
    have hne : (Lines.trimStart whiteSpace line).dropLast ≠ [] := by
      intro hnil
      rw [hnil] at hin
      rcases hin with hin | hin
      · cases hin
      · cases hin
    rwa [IsComment, head?_of_isPrefix (List.dropLast_prefix _) hne]

theorem pending_nil : Pending [] false where
  even := by decide
  noComment := by decide
  appended := fun h => absurd rfl h

end Physical

-- A line falls apart
-- ---

section Cutting

variable {source name : String} {line text before rest : Text} {separator : Char} {escaped : Bool}

theorem whiteSpace_of_isSeparator (h : IsSeparator separator)
    (hsign : ¬ (separator = '=' ∨ separator = ':')) : whiteSpace separator = true := by
  rcases h with rfl | rfl | hwhite
  · exact absurd (.inl rfl) hsign
  · exact absurd (.inr rfl) hsign
  · exact hwhite

theorem splitKey_eq (h : splitSeparator escaped text = some (before, separator, rest))
    (hblank : whiteSpace separator = true → JavaProperties.isBlank separator = true) :
    JavaProperties.splitKey escaped text =
      (before, decide (separator = '=' ∨ separator = ':'), rest) := by
  induction text generalizing escaped before with
  | nil => cases h
  | cons c text ih =>
    by_cases hpart : escaped = true ∨ ¬ IsSeparator c
    · rw [splitSeparator_cons hpart] at h
      obtain ⟨⟨before, separator, rest⟩, hsplit, heq⟩ := Option.map_eq_some_iff.mp h
      cases heq
      have hsign : ¬ ((c = '=' ∨ c = ':') ∧ ¬ escaped = true) := fun hsign =>
        hpart.elim hsign.2 fun hno => hno (hsign.1.imp_right .inl)
      have hspace : ¬ (JavaProperties.isBlank c = true ∧ ¬ escaped = true) := fun hspace =>
        hpart.elim hspace.2 fun hno => hno (.inr (.inr (whiteSpace_of_isBlank hspace.1)))
      rw [JavaProperties.splitKey, if_neg hsign, if_neg hspace, Bool.and_comm, ih hsplit]
    · obtain ⟨hescaped, hseparator⟩ := not_or.mp hpart
      rw [Bool.not_eq_true] at hescaped
      subst hescaped
      rw [not_not] at hseparator
      rw [splitSeparator_of_separator hseparator] at h
      cases h
      rw [JavaProperties.splitKey]
      by_cases hsign : separator = '=' ∨ separator = ':'
      · rw [if_pos ⟨hsign, Bool.false_ne_true⟩, decide_eq_true hsign]
      · have hwhite := whiteSpace_of_isSeparator hseparator hsign
        rw [if_neg fun h => hsign h.1, if_pos ⟨hblank hwhite, Bool.false_ne_true⟩,
          decide_eq_false hsign]

theorem skipToValue_true (text : Text) :
    JavaProperties.skipToValue true text = Lines.trimStart JavaProperties.isBlank text := by
  induction text with
  | nil => rfl
  | cons c text ih =>
    rw [JavaProperties.skipToValue, Lines.trimStart, List.dropWhile_cons]
    split
    · exact ih
    · rw [if_neg fun h => h.1 rfl]

theorem skipToValue_false (text : Text) : JavaProperties.skipToValue false text =
    match Lines.trimStart JavaProperties.isBlank text with
    | [] => []
    | c :: value =>
      if c = '=' ∨ c = ':' then Lines.trimStart JavaProperties.isBlank value else c :: value := by
  induction text with
  | nil => rfl
  | cons c text ih =>
    rw [JavaProperties.skipToValue, Lines.trimStart, List.dropWhile_cons]
    split
    · exact ih
    · show _ = if c = '=' ∨ c = ':' then Lines.trimStart JavaProperties.isBlank text else c :: text
      by_cases hsign : c = '=' ∨ c = ':'
      · rw [if_pos ⟨Bool.false_ne_true, hsign⟩, if_pos hsign, skipToValue_true]
      · rw [if_neg fun h => hsign h.2, if_neg hsign]

theorem skipToValue_eq (hseparator : IsSeparator separator) (hrest : PlainStart rest)
    (hvalue : PlainStart (valueAfter separator rest)) :
    JavaProperties.skipToValue (decide (separator = '=' ∨ separator = ':')) rest =
      Lines.trimStart whiteSpace (valueAfter separator rest) := by
  rw [show Lines.trimStart whiteSpace (valueAfter separator rest) = _ from hvalue]
  by_cases hsign : separator = '=' ∨ separator = ':'
  · have hwhite : whiteSpace separator = false := by
      rcases hsign with rfl | rfl
      · rfl
      · rfl
    rw [decide_eq_true hsign, skipToValue_true, valueAfter, hwhite, if_neg Bool.false_ne_true]
  · have hwhite := whiteSpace_of_isSeparator hseparator hsign
    have hfirst := @Lines.first_trimStart JavaProperties.isBlank rest
    rw [decide_eq_false hsign, skipToValue_false, valueAfter, if_pos hwhite,
      show Lines.trimStart whiteSpace rest = _ from hrest]
    cases hstart : Lines.trimStart JavaProperties.isBlank rest with
    | nil => rfl
    | cons c value =>
      rw [hstart] at hfirst
      dsimp only
      by_cases hc : c = '=' ∨ c = ':'
      · rw [if_pos hc, if_pos hc]
      · rw [if_neg hc, if_neg hc, Lines.trimStart_of_first hfirst]

theorem trimEnd_key (hclosed : splitSeparator false before = none)
    (huncut : ¬ EndsEscaping (Lines.trimEnd whiteSpace before)) :
    Lines.trimEnd whiteSpace before = before := by
  refine Lines.trimEnd_of_last fun c hc => Bool.eq_false_iff.mpr fun hwhite => ?_
  obtain ⟨key, rfl⟩ : ∃ key, before = key ++ [c] := by
    obtain ⟨hne, rfl⟩ := List.mem_getLast?_eq_getLast hc
    exact ⟨before.dropLast, (List.dropLast_append_getLast hne).symm⟩
  have hkey : splitSeparator false key = none :=
    splitSeparator_of_isPrefix (List.prefix_append _ _) hclosed
  rw [splitSeparator_append hkey, Option.map_eq_none_iff] at hclosed
  have hescaped : escapedAfter false key = true := by
    by_contra hno
    rw [Bool.not_eq_true] at hno
    rw [hno, splitSeparator_of_separator (.inr (.inr hwhite))] at hclosed
    cases hclosed
  have hends := (escapedAfter_iff key).mp hescaped
  obtain ⟨start, rfl, -⟩ := exists_concat_of_endsEscaping hends
  have hslash : whiteSpace '\\' = false := by decide
  have htrim : Lines.trimEnd whiteSpace (start ++ ['\\'] ++ [c]) = start ++ ['\\'] := by
    rw [Lines.trimEnd, List.rdropWhile_concat_pos _ _ _ hwhite]
    exact Lines.trimEnd_of_last fun d hd => by
      rw [List.getLast?_concat] at hd
      exact Option.some.inj hd ▸ hslash
  rw [htrim] at huncut
  exact huncut hends

theorem trimEnd_of_isSuffix (h : text <:+ trimmed line) : Lines.trimEnd whiteSpace text = text := by
  obtain ⟨start, hstart⟩ := h
  refine Lines.trimEnd_of_last fun c hc => (Lines.trimmed_trim line).last c ?_
  show c ∈ (trimmed line).getLast?
  rw [← hstart]
  exact List.mem_getLast?_append_of_mem_getLast? hc

theorem trimmed_ne_nil (h : Lines.trimStart whiteSpace line ≠ []) : trimmed line ≠ [] := by
  obtain ⟨c, rest, hline⟩ := List.exists_cons_of_ne_nil h
  have hc := @Lines.first_trimStart whiteSpace line c (hline ▸ rfl)
  have hkept := Lines.prefix_trimEnd hc [] rest
  rw [List.nil_append, ← hline] at hkept
  exact hkept.ne_nil (List.cons_ne_nil _ _)

theorem head?_trimmed (h : Lines.trimStart whiteSpace line ≠ []) :
    (trimmed line).head? = (Lines.trimStart whiteSpace line).head? :=
  (head?_of_isPrefix (Lines.trimEnd_isPrefix _ _) (trimmed_ne_nil h)).symm

theorem parse_of_javaLines_nil
    (h : Lines.trimStart whiteSpace line = [] ∨ IsComment line) :
    parsePropertyEntry line source name = .ok none := by
  refine if_pos ?_
  by_cases hline : Lines.trimStart whiteSpace line = []
  · left
    rw [trimmed, Lines.trim, hline]
    rfl
  · right
    rw [head?_trimmed hline]
    exact h.resolve_left hline

/-- **A line that is cut plainly is cut by Java into the same key and value.** -/
theorem entry_of_cutsPlainly {entry : Option (Text × Text)} (hcut : CutsPlainly line)
    (hline : Lines.trimStart whiteSpace line ≠ []) (hout : ¬ IsComment line)
    (h : parsePropertyEntry line source name = .ok entry) :
    ∃ pair, entry = some pair ∧
      JavaProperties.entry (unpadded (Lines.trimStart whiteSpace line)) = unescaped pair := by
  have hfilled : ¬ (trimmed line = [] ∨ (trimmed line).head? = some '#' ∨
      (trimmed line).head? = some '!') := by
    rw [head?_trimmed hline]
    exact not_or.mpr ⟨trimmed_ne_nil hline, hout⟩
  unfold parsePropertyEntry at h
  rw [if_neg hfilled] at h
  cases hsplit : splitSeparator false (trimmed line) with
  | none =>
    rw [hsplit] at h
    cases h
  | some split =>
    obtain ⟨before, separator, rest⟩ := split
    obtain ⟨huncut, hblank, hrest, hvalue⟩ := hcut.split _ hsplit
    obtain ⟨htext, hclosed, -, hseparator⟩ := splitSeparator_eq_some hsplit
    have hkey : Lines.trimEnd whiteSpace before = before := trimEnd_key hclosed huncut
    have hsuffix : Lines.trimStart whiteSpace (valueAfter separator rest) <:+ trimmed line := by
      rw [htext]
      exact (Lines.trimStart_isSuffix _ _).trans ((valueAfter_suffix separator rest).trans
        ((List.suffix_cons separator rest).trans (List.suffix_append before _)))
    have hend : Lines.trimEnd JavaProperties.isBlank (Lines.trimStart whiteSpace line) =
        trimmed line := hcut.ended.symm
    have hbare : unpadded (Lines.trimStart whiteSpace line) = trimmed line := by
      unfold unpadded
      rw [hend]
      exact if_neg hcut.whole
    rw [hsplit, cutEntry] at h
    split at h
    · cases h
    cases h
    refine ⟨_, rfl, ?_⟩
    rw [hbare, JavaProperties.entry, splitKey_eq hsplit hblank, unescaped, hkey, trimmed, Lines.trim,
      trimEnd_of_isSuffix hsuffix]
    dsimp only
    rw [skipToValue_eq hseparator hrest hvalue]

theorem RegularLine.entries {lines : List Text} {entry : Option (Text × Text)}
    (hregular : RegularLine line lines) (hended : ¬ EndsEscaping line)
    (h : parsePropertyEntry line source name = .ok entry) :
    ((javaLines line).mapM fun l => JavaProperties.entry (unpadded l)) =
      entry.toList.mapM unescaped := by
  unfold javaLines
  split
  · next hnone =>
    rw [parse_of_javaLines_nil hnone] at h
    cases h
    rfl
  · next hsome =>
    obtain ⟨hline, hout⟩ := not_or.mp hsome
    obtain ⟨pair, rfl, hpair⟩ := entry_of_cutsPlainly (hregular.cut hended hout) hline hout h
    rw [Option.toList_some, List.mapM_cons, List.mapM_cons, hpair]
    rfl

end Cutting

-- Whole texts
-- ---

section Texts

variable {source name : String} {text logical : Text} {found : List (Text × Text)} {appended : Bool}

theorem propertyEntriesFrom_turn {physical : Text} {rest : List Text}
    (h : propertyEntriesFrom source name logical (physical :: rest) = .ok found) :
    (EndsEscaping (joined logical physical) ∧
      propertyEntriesFrom source name (joined logical physical).dropLast rest = .ok found) ∨
    ¬ EndsEscaping (joined logical physical) ∧ ∃ entry others,
      parsePropertyEntry (joined logical physical) source name = .ok entry ∧
        propertyEntriesFrom source name [] rest = .ok others ∧ found = entry.toList ++ others := by
  change (if EndsEscaping (joined logical physical) then
      propertyEntriesFrom source name (joined logical physical).dropLast rest
    else do
      let entry ← parsePropertyEntry (joined logical physical) source name
      let entries ← propertyEntriesFrom source name [] rest
      return entry.toList ++ entries) = .ok found at h
  by_cases hescaping : EndsEscaping (joined logical physical)
  · rw [if_pos hescaping] at h
    exact .inl ⟨hescaping, h⟩
  · rw [if_neg hescaping] at h
    obtain ⟨entry, hentry, h⟩ := Fallible.bind_eq_ok.mp h
    obtain ⟨others, hothers, h⟩ := Fallible.bind_eq_ok.mp h
    exact .inr ⟨hescaping, entry, others, hentry, hothers, (Except.ok.inj h).symm⟩

theorem oneLine_of_physical {line : Text} (hnewline : '\n' ∉ line) (hreturn : '\r' ∉ line) :
    JavaProperties.OneLine line := by
  intro c hc
  refine Bool.eq_false_iff.mpr fun heol => ?_
  rcases JavaProperties.isEol_iff.mp heol with rfl | rfl
  · exact hnewline hc
  · exact hreturn hc

/-- **The loop over the physical lines goes along with Java,** from any line that it keeps.
Java is behind the blanks in front of that line. -/
theorem load_turns (hpending : Pending logical appended)
    (hphysical : ∀ line ∈ Lines.lines text, '\r' ∉ line ∧ PlainStart line)
    (hturns : EachTurn RegularLine logical (Lines.lines text))
    (h : propertyEntriesFrom source name logical (Lines.lines text) = .ok found) :
    ((logicalFrom ⟨Lines.trimStart whiteSpace logical, true, appended, false, false, false⟩ text).mapM
      fun line => JavaProperties.entry (unpadded line)) = found.mapM unescaped := by
  generalize hlines : Lines.lines text = physicals at hphysical hturns h
  induction physicals generalizing text logical appended found with
  | nil =>
    have htext : text = [] := by
      by_contra hne
      obtain ⟨line, -, ⟨-, hone⟩ | ⟨eol, rest, -, -, hmore⟩⟩ := Lines.lines_cases hne
      · exact absurd (hlines.symm.trans hone) (List.cons_ne_nil _ _).symm
      · exact absurd (hlines.symm.trans hmore) (List.cons_ne_nil _ _).symm
    unfold propertyEntriesFrom at h
    split at h
    · next hlogical =>
      cases h
      subst htext hlogical
      rfl
    · cases h
  | cons physical rest ih =>
    have hne : text ≠ [] := by
      rintro rfl
      cases hlines
    obtain ⟨line, hnewline, hsplit⟩ := Lines.lines_cases hne
    have hfirst : line = physical := by
      rcases hsplit with ⟨-, hone⟩ | ⟨eol, tail, -, -, hmore⟩
      · exact (List.cons.inj (hone.symm.trans hlines)).1
      · exact (List.cons.inj (hmore.symm.trans hlines)).1
    subst hfirst
    obtain ⟨hreturn, hstart⟩ := hphysical line List.mem_cons_self
    have honeLine := oneLine_of_physical hnewline hreturn
    have hrest := fun l hl => hphysical l (List.mem_cons_of_mem _ hl)
    obtain ⟨hregular, hturns⟩ := hturns
    rcases propertyEntriesFrom_turn h with ⟨hescaping, h⟩ |
      ⟨hended, entry, others, hentry, hothers, rfl⟩
    · -- The line goes on, so there is a next one.
      have hout : ¬ IsComment (joined logical line) := fun hin => hregular.comment hin hescaping
      rw [kept, if_pos hescaping] at hturns
      have hmore := hregular.continued hescaping
      rcases hsplit with ⟨-, hone⟩ | ⟨eol, tail, heol, rfl, htail⟩
      · exact absurd (List.cons.inj (hlines.symm.trans hone)).2 hmore
      · obtain rfl := (List.cons.inj (htail.symm.trans hlines)).2
        have htailne : tail ≠ [] := by
          rintro rfl
          exact hmore rfl
        rw [hpending.goes_on honeLine hstart hescaping hout heol htailne]
        exact ih (pending_dropLast hescaping hout) rfl hrest hturns h
    · -- The line ends, with the text or at a line end.
      have hentries := hregular.entries hended hentry
      rw [kept, if_neg hended] at hturns
      obtain ⟨hlast, hmore⟩ := hpending.ended honeLine hstart hended
      rcases hsplit with ⟨rfl, hone⟩ | ⟨eol, tail, heol, rfl, htail⟩
      · obtain rfl := (List.cons.inj (hlines.symm.trans hone)).2
        cases hothers
        rw [hlast, hentries, List.append_nil]
      · obtain rfl := (List.cons.inj (htail.symm.trans hlines)).2
        rw [hmore heol, List.mapM_append, List.mapM_append, hentries]
        have htailRead : ((logicalFrom .start tail).mapM fun line =>
            JavaProperties.entry (unpadded line)) = others.mapM unescaped :=
          ih pending_nil rfl hrest hturns hothers
        rw [htailRead]

/-- **Where a text is regular, the entries without their escapes are those of Java.** -/
theorem entries_of_regular {bytes : Bytes}
    (hregular : Regular (OsText.fromUtf8Lossy bytes))
    (h : propertyEntries bytes source name = .ok found) :
    found.mapM unescaped = loadUnpadded (OsText.fromUtf8Lossy bytes) :=
  (load_turns pending_nil hregular.physical hregular.turns h).symm

def written : String := "# a\\\\\nkey\\:1 = x\\\n   y\\tz  \n"

theorem written_entries (source name : String) : propertyEntries (utf8 written) source name =
    .ok [("key\\:1".toList, "xy\\tz".toList)] := by
  rw [propertyEntries, utf8, OsText.fromUtf8Lossy_toUTF8]
  rfl

theorem written_is_regular :
    [("key\\:1".toList, "xy\\tz".toList)].mapM unescaped =
      loadUnpadded (OsText.fromUtf8Lossy (utf8 written)) := by
  have hregular : Regular (OsText.fromUtf8Lossy (utf8 written)) := by
    rw [utf8, OsText.fromUtf8Lossy_toUTF8]
    exact ⟨by decide +kernel, by decide +kernel⟩
  exact entries_of_regular hregular (written_entries "dependency a:a:1" "META-INF/spring.handlers")

/-- **An escape in a value stays as it is written.** -/
theorem backslash_stays : ¬ ∀ (bytes : Bytes) (source name : String) (entries : List (Text × Text)),
    propertyEntries bytes source name = .ok entries →
      JavaProperties.load (OsText.fromUtf8Lossy bytes) = .ok entries := by
  intro h
  have hentries : propertyEntries (utf8 "a=x\\ty") "dependency a:a:1" "META-INF/spring.handlers" =
      .ok [("a".toList, "x\\ty".toList)] := by
    rw [propertyEntries, utf8, OsText.fromUtf8Lossy_toUTF8]
    rfl
  have hload := h _ _ _ _ hentries
  rw [utf8, OsText.fromUtf8Lossy_toUTF8] at hload
  exact absurd hload (by decide +kernel)

end Texts

end JMan.Build
