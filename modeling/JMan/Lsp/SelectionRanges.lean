import JMan.Lib.Brackets
import JMan.Lib.Chains
import JMan.Lsp.Positions

/-!
# JMan — selection ranges

`semantic_selection_range` of `server.rs`: the word at the cursor, the brackets around it,
its line and the whole text, sorted by their lengths, each in the next as its parent.

* `selection_nests_iff` — when the ranges of the answer nest.
-/

namespace JMan.Lsp

open JMan.Brackets (Mark)

-- The ranges of a cursor
-- ---

structure ByteRange where
  start : Nat
  stop : Nat
deriving DecidableEq

/-- The answer: a range, in that of its parent if it has one. -/
inductive SelectionRange where
  | outermost (range : LspRange)
  | within (range : LspRange) (parent : SelectionRange)
deriving DecidableEq

/-- `offset_to_position(source, source[..offset].encode_utf16().count() as u64)` -/
def byteToPosition (source : Text) (offset : Nat) : LspPosition :=
  offsetToPosition source (utf16Length (splitAtByte offset source).1)

def openingBracket : Char → Option Char
  | ')' => some '('
  | ']' => some '['
  | '}' => some '{'
  | _ => none

/-- The loop over the bytes of `semantic_selection_range`. The first of `stack` is what was
pushed last. A byte of a longer character is none of those that are looked for. -/
def bracketRanges (cursor : Nat) (quote : Option Char) (escaped : Bool) (stack : List (Char × Nat))
    (index : Nat) : Text → List ByteRange
  | [] => []
  | c :: rest =>
    let next := index + c.utf8Size
    match quote with
    | some delimiter =>
      if escaped then bracketRanges cursor quote false stack next rest
      else if c = '\\' then bracketRanges cursor quote true stack next rest
      else bracketRanges cursor (if c = delimiter then none else quote) escaped stack next rest
    | none =>
      if c = '"' ∨ c = '\'' then bracketRanges cursor (some c) escaped stack next rest
      else if c = '(' ∨ c = '[' ∨ c = '{' then bracketRanges cursor none escaped ((c, index) :: stack) next rest
      else match (openingBracket c).bind fun kind => Brackets.take kind stack with
        | some (place, left) =>
          if place ≤ cursor ∧ cursor ≤ index + 1 then
            ⟨place, index + 1⟩ :: bracketRanges cursor none escaped left next rest
          else bracketRanges cursor none escaped left next rest
        | none => bracketRanges cursor none escaped stack next rest

section Model

variable (isAlphanumeric : Char → Bool)

/-- The loop to the front, over what is before the cursor from its end on. -/
def wordStart (start : Nat) : Text → Nat
  | [] => start
  | c :: rest => if javaIdentifierPart isAlphanumeric c then wordStart (start - c.utf8Size) rest else start

def wordStop (stop : Nat) : Text → Nat
  | [] => stop
  | c :: rest => if javaIdentifierPart isAlphanumeric c then wordStop (stop + c.utf8Size) rest else stop

/-- All that is pushed to `ranges`. -/
def collectedRanges (source : Text) (cursor : Nat) : List ByteRange :=
  let halves := splitAtByte cursor source
  let start := wordStart isAlphanumeric cursor halves.1.reverse
  let stop := wordStop isAlphanumeric cursor halves.2
  let lineStart := ((newlines 0 halves.1).getLast?.map (· + 1)).getD 0
  let lineStop := (newlines cursor halves.2).head?.getD (byteLength source)
  (if start < stop then [⟨start, stop⟩] else []) ++
    (bracketRanges cursor none false [] 0 source ++ [⟨lineStart, lineStop⟩, ⟨0, byteLength source⟩])

/-- The length of a range, by which they are sorted. -/
def ByteRange.length (range : ByteRange) : Nat := range.stop - range.start

def ByteRange.toLsp (source : Text) (range : ByteRange) : LspRange :=
  ⟨byteToPosition source range.start, byteToPosition source range.stop⟩

/-- A turn of the loop over the sorted ranges, the longest first. -/
def SelectionRange.push (source : Text) (parent : Option SelectionRange) (range : ByteRange) :
    Option SelectionRange :=
  match parent with
  | some parent => some (.within (range.toLsp source) parent)
  | none => some (.outermost (range.toLsp source))

def semanticSelectionRange (source : Text) (cursor : Nat) : SelectionRange :=
  let ranges := Chains.ranked ByteRange.length
    (collectedRanges isAlphanumeric source (min cursor (byteLength source)))
  (ranges.reverse.foldl (SelectionRange.push source) none).getD (.outermost ⟨⟨0, 0⟩, ⟨0, 0⟩⟩)

end Model

-- What is around a cursor
-- ---

/-- The brackets of a text that are not in quotes. -/
def bracketMarks (quote : Option Char) (escaped : Bool) (index : Nat) : Text → List (Mark Char Nat)
  | [] => []
  | c :: rest =>
    let next := index + c.utf8Size
    match quote with
    | some delimiter =>
      if escaped then bracketMarks quote false next rest
      else if c = '\\' then bracketMarks quote true next rest
      else bracketMarks (if c = delimiter then none else quote) escaped next rest
    | none =>
      if c = '"' ∨ c = '\'' then bracketMarks (some c) escaped next rest
      else if c = '(' ∨ c = '[' ∨ c = '{' then ⟨true, c, index⟩ :: bracketMarks none escaped next rest
      else match openingBracket c with
        | some kind => ⟨false, kind, index⟩ :: bracketMarks none escaped next rest
        | none => bracketMarks none escaped next rest

/-- The ranges around the cursor between two texts: its word, two brackets of a kind that
belong together, its line and all of it. -/
inductive Around (isPart : Char → Bool) (before after : Text) : ByteRange → Prop
  | word {front left right rest : Text} (hbefore : before = front ++ left) (hafter : after = right ++ rest)
      (hword : ∀ c ∈ left ++ right, isPart c = true) (hfront : ∀ c ∈ front.getLast?, isPart c = false)
      (hrest : ∀ c ∈ rest.head?, isPart c = false) (hne : left ++ right ≠ []) :
      Around isPart before after ⟨byteLength front, byteLength (before ++ right)⟩
  | brackets {kind : Char} {i j : Nat}
      (hjoined : Brackets.Joined kind i j (bracketMarks none false 0 (before ++ after)))
      (hstart : i ≤ byteLength before) (hstop : byteLength before ≤ j + 1) :
      Around isPart before after ⟨i, j + 1⟩
  | line {front left right rest : Text} (hbefore : before = front ++ left) (hafter : after = right ++ rest)
      (hline : '\n' ∉ left ++ right) (hfront : StartsLine front) (hrest : ∀ c ∈ rest.head?, c = '\n') :
      Around isPart before after ⟨byteLength front, byteLength (before ++ right)⟩
  | whole : Around isPart before after ⟨0, byteLength (before ++ after)⟩

def SelectionRange.ranges : SelectionRange → List LspRange
  | .outermost range => [range]
  | .within range parent => range :: parent.ranges

def LspRange.Within (child parent : LspRange) : Prop :=
  parent.start ≤ child.start ∧ child.stop ≤ parent.stop

/-- Every range is in its parent and differs from it; the first has the cursor, the last is
the whole text. -/
structure SelectionSound (source : Text) (cursor : LspPosition) (selection : SelectionRange) : Prop where
  nested : selection.ranges.IsChain fun child parent => child.Within parent ∧ parent ≠ child
  innermost : ∃ range, selection.ranges.head? = some range ∧ range.start ≤ cursor ∧ cursor ≤ range.stop
  outermost : selection.ranges.getLast? = some ⟨⟨0, 0⟩, positionAfter source⟩

-- Brackets
-- ---

section BracketRanges

variable {cursor index : Nat} {quote : Option Char} {escaped : Bool} {stack : List (Char × Nat)} {text : Text}
  {mark : Mark Char Nat}

def pairRange? (cursor : Nat) (pair : Char × Nat × Nat) : Option ByteRange :=
  if pair.2.1 ≤ cursor ∧ cursor ≤ pair.2.2 + 1 then some ⟨pair.2.1, pair.2.2 + 1⟩ else none

theorem bracketRanges_eq : bracketRanges cursor quote escaped stack index text =
    (Brackets.pairs stack (bracketMarks quote escaped index text)).filterMap (pairRange? cursor) := by
  induction text generalizing quote escaped stack index with
  | nil => rfl
  | cons c rest ih =>
    cases quote with
    | some delimiter =>
      simp only [bracketRanges, bracketMarks]
      split_ifs <;> exact ih
    | none =>
      simp only [bracketRanges, bracketMarks]
      split_ifs
      · exact ih
      · rw [Brackets.pairs, if_pos rfl]
        exact ih
      · cases openingBracket c with
        | none => exact ih
        | some kind =>
          rw [Option.bind_some]
          simp only [Brackets.pairs, Bool.false_eq_true, if_false]
          cases Brackets.take kind stack with
          | none => exact ih
          | some taken =>
            simp only [List.filterMap_cons, pairRange?]
            split_ifs
            · exact congrArg _ ih
            · exact ih

theorem mem_bracketRanges_iff {range : ByteRange} : range ∈ bracketRanges cursor none false [] 0 text ↔
    ∃ kind i j, Brackets.Joined kind i j (bracketMarks none false 0 text) ∧ i ≤ cursor ∧ cursor ≤ j + 1 ∧
      range = ⟨i, j + 1⟩ := by
  rw [bracketRanges_eq, List.mem_filterMap]
  constructor
  · rintro ⟨⟨kind, i, j⟩, hpair, hrange⟩
    rw [pairRange?] at hrange
    split_ifs at hrange with hcursor
    exact ⟨kind, i, j, Brackets.mem_pairs_iff.mp hpair, hcursor.1, hcursor.2, (Option.some.inj hrange).symm⟩
  · rintro ⟨kind, i, j, hjoined, hstart, hstop, rfl⟩
    exact ⟨(kind, i, j), Brackets.mem_pairs_iff.mpr hjoined, if_pos ⟨hstart, hstop⟩⟩

theorem utf8Size_of_openingBracket {c kind : Char} (h : openingBracket c = some kind) : c.utf8Size = 1 := by
  unfold openingBracket at h
  split at h
  · rfl
  · rfl
  · rfl
  · cases h

theorem of_mem_bracketMarks (h : mark ∈ bracketMarks quote escaped index text) :
    ∃ before c after, text = before ++ c :: after ∧ mark.place = index + byteLength before ∧ c.utf8Size = 1 := by
  induction text generalizing quote escaped index with
  | nil => cases h
  | cons c rest ih =>
    have hlater : ∀ {quote escaped}, mark ∈ bracketMarks quote escaped (index + c.utf8Size) rest →
        ∃ before d after, c :: rest = before ++ d :: after ∧ mark.place = index + byteLength before ∧
          d.utf8Size = 1 := by
      intro quote escaped h
      obtain ⟨before, d, after, rfl, hplace, hsize⟩ := ih h
      exact ⟨c :: before, d, after, rfl, by rw [hplace, byteLength_cons, Nat.add_assoc], hsize⟩
    cases quote with
    | some delimiter =>
      simp only [bracketMarks] at h
      split_ifs at h <;> exact hlater h
    | none =>
      simp only [bracketMarks] at h
      split_ifs at h with hquote hopening
      · exact hlater h
      · rcases List.mem_cons.mp h with rfl | h
        · refine ⟨[], c, rest, rfl, rfl, ?_⟩
          rcases hopening with rfl | rfl | rfl <;> rfl
        · exact hlater h
      · cases hkind : openingBracket c with
        | none =>
          rw [hkind] at h
          exact hlater h
        | some kind =>
          rw [hkind] at h
          rcases List.mem_cons.mp h with rfl | h
          · exact ⟨[], c, rest, rfl, rfl, utf8Size_of_openingBracket hkind⟩
          · exact hlater h

end BracketRanges

-- Words and lines
-- ---

section Words

variable {isAlphanumeric : Char → Bool} {front left right rest text : Text} {offset : Nat}

theorem wordStart_append (hleft : ∀ c ∈ left, javaIdentifierPart isAlphanumeric c = true)
    (hfront : ∀ c ∈ front.getLast?, javaIdentifierPart isAlphanumeric c = false) :
    wordStart isAlphanumeric (byteLength (front ++ left)) (front ++ left).reverse = byteLength front := by
  induction left using List.reverseRecOn with
  | nil =>
    rw [List.append_nil]
    cases hreverse : front.reverse with
    | nil => rfl
    | cons c before =>
      have hlast : front.getLast? = some c := by rw [← List.head?_reverse, hreverse, List.head?_cons]
      rw [wordStart, if_neg (by rw [hfront c hlast]; exact Bool.false_ne_true)]
  | append_singleton left c ih =>
    rw [← List.append_assoc, List.reverse_append, List.reverse_singleton, List.singleton_append, wordStart,
      if_pos (hleft c (List.mem_append_right _ List.mem_cons_self)), byteLength_append]
    have hsize : byteLength [c] = c.utf8Size := Nat.add_zero _
    rw [hsize, Nat.add_sub_cancel]
    exact ih fun d hd => hleft d (List.mem_append_left _ hd)

theorem wordStop_append (hright : ∀ c ∈ right, javaIdentifierPart isAlphanumeric c = true)
    (hrest : ∀ c ∈ rest.head?, javaIdentifierPart isAlphanumeric c = false) :
    wordStop isAlphanumeric offset (right ++ rest) = offset + byteLength right := by
  induction right generalizing offset with
  | nil =>
    cases rest with
    | nil => rfl
    | cons c rest =>
      rw [List.nil_append, wordStop, if_neg (by rw [hrest c rfl]; exact Bool.false_ne_true)]
      rfl
  | cons c right ih =>
    rw [List.cons_append, wordStop, if_pos (hright c List.mem_cons_self),
      ih fun d hd => hright d (List.mem_cons_of_mem _ hd), byteLength_cons, Nat.add_assoc]

theorem exists_endsInWord (isPart : Char → Bool) (text : Text) : ∃ front left, text = front ++ left ∧
    (∀ c ∈ left, isPart c = true) ∧ ∀ c ∈ front.getLast?, isPart c = false := by
  induction text using List.reverseRecOn with
  | nil => exact ⟨[], [], rfl, fun _ h => absurd h List.not_mem_nil, fun _ h => by cases h⟩
  | append_singleton text c ih =>
    by_cases hc : isPart c = true
    · obtain ⟨front, left, rfl, hleft, hfront⟩ := ih
      refine ⟨front, left ++ [c], List.append_assoc .., fun d hd => ?_, hfront⟩
      rcases List.mem_append.mp hd with hd | hd
      · exact hleft d hd
      · rw [List.mem_singleton.mp hd, hc]
    · refine ⟨text ++ [c], [], (List.append_nil _).symm, fun _ h => absurd h List.not_mem_nil, fun d hd => ?_⟩
      rw [List.getLast?_concat] at hd
      rw [← Option.some.inj hd]
      exact Bool.eq_false_of_not_eq_true hc

theorem exists_startsWithWord (isPart : Char → Bool) (text : Text) : ∃ right rest, text = right ++ rest ∧
    (∀ c ∈ right, isPart c = true) ∧ ∀ c ∈ rest.head?, isPart c = false := by
  refine ⟨text.takeWhile isPart, text.dropWhile isPart, List.takeWhile_append_dropWhile.symm,
    fun c hc => List.mem_takeWhile_imp hc, fun c hc => ?_⟩
  have hdrop := List.head?_dropWhile_not isPart text
  rwa [Option.mem_def.mp hc] at hdrop

theorem lineStart_append (hleft : '\n' ∉ left) (hfront : StartsLine front) :
    (((newlines 0 (front ++ left)).getLast?).map (· + 1)).getD 0 = byteLength front := by
  rw [newlines_append, (newlines_eq_nil _).mpr hleft, List.append_nil]
  rcases hfront with rfl | ⟨before, rfl⟩
  · rfl
  · have hlast : newlines 0 (before ++ ['\n']) = newlines 0 before ++ [0 + byteLength before] := newlines_append _ _ _
    rw [hlast, List.getLast?_concat, byteLength_append]
    show 0 + byteLength before + 1 = byteLength before + 1
    rw [Nat.zero_add]

theorem lineStop_append (hright : '\n' ∉ right) (hrest : ∀ c ∈ rest.head?, c = '\n') (length : Nat)
    (hlength : length = offset + byteLength (right ++ rest)) :
    ((newlines offset (right ++ rest)).head?).getD length = offset + byteLength right := by
  rw [newlines_append, (newlines_eq_nil _).mpr hright, List.nil_append]
  cases rest with
  | nil => rw [hlength, List.append_nil]; rfl
  | cons c rest => rw [hrest c rfl, newlines, if_pos rfl]; rfl

theorem exists_endsLine (text : Text) : ∃ right rest, text = right ++ rest ∧ '\n' ∉ right ∧ ∀ c ∈ rest.head?, c = '\n' := by
  obtain ⟨right, rest, htext, hright, hrest⟩ := exists_startsWithWord (· ≠ '\n') text
  refine ⟨right, rest, htext, fun h => ?_, fun c hc => ?_⟩
  · exact absurd rfl (of_decide_eq_true (hright _ h))
  · exact Classical.not_not.mp (of_decide_eq_false (hrest c hc))

end Words

-- The collected ranges
-- ---

section Collected

variable {isAlphanumeric : Char → Bool} {before after : Text} {range : ByteRange}

/-- **What is collected is what is around the cursor.** -/
theorem mem_collectedRanges_iff : range ∈ collectedRanges isAlphanumeric (before ++ after) (byteLength before) ↔
    Around (javaIdentifierPart isAlphanumeric) before after range := by
  obtain ⟨front, left, hbefore, hleft, hfront⟩ := exists_endsInWord (javaIdentifierPart isAlphanumeric) before
  obtain ⟨right, rest, hafter, hright, hrest⟩ := exists_startsWithWord (javaIdentifierPart isAlphanumeric) after
  have hword : wordStart isAlphanumeric (byteLength before) before.reverse = byteLength front := by
    rw [hbefore]
    exact wordStart_append hleft hfront
  have hword' : wordStop isAlphanumeric (byteLength before) after = byteLength (before ++ right) := by
    rw [hafter, byteLength_append]
    exact wordStop_append hright hrest
  obtain ⟨front', left', hbefore', hfront', hleft'⟩ := exists_startsLine before
  obtain ⟨right', rest', hafter', hright', hrest'⟩ := exists_endsLine after
  have hline : (((newlines 0 before).getLast?).map (· + 1)).getD 0 = byteLength front' := by
    rw [hbefore']
    exact lineStart_append hleft' hfront'
  have hline' : ((newlines (byteLength before) after).head?).getD (byteLength (before ++ after)) =
      byteLength (before ++ right') := by
    rw [byteLength_append before right', hafter']
    exact lineStop_append hright' hrest' _ (byteLength_append _ _)
  simp only [collectedRanges, splitAtByte_append, hword, hword', hline, hline', List.mem_append, List.mem_cons,
    List.not_mem_nil, or_false, mem_bracketRanges_iff]
  constructor
  · rintro (hmem | ⟨kind, i, j, hjoined, hstart, hstop, rfl⟩ | rfl | rfl)
    · split_ifs at hmem with hlt
      · cases List.mem_singleton.mp hmem
        refine .word hbefore hafter (fun c hc => (List.mem_append.mp hc).elim (hleft c) (hright c)) hfront hrest ?_
        intro hempty
        obtain ⟨rfl, rfl⟩ := List.append_eq_nil_iff.mp hempty
        rw [hbefore, List.append_nil, List.append_nil] at hlt
        exact absurd hlt (Nat.lt_irrefl _)
      · cases hmem
    · exact .brackets hjoined hstart hstop
    · refine .line hbefore' hafter' (fun h => ?_) hfront' hrest'
      exact (List.mem_append.mp h).elim hleft' hright'
    · exact .whole
  · rintro (⟨hb, ha, hall, hf, hr, hne⟩ | ⟨hjoined, hstart, hstop⟩ | ⟨hb, ha, hnone, hf, hr⟩ | _)
    · -- the word is found from its two ends
      rename_i front₁ left₁ right₁ rest₁
      have hstart : byteLength front₁ = byteLength front := by
        rw [← hword, hb]
        exact (wordStart_append (fun c hc => hall c (List.mem_append_left _ hc)) hf).symm
      have hstop : byteLength (before ++ right₁) = byteLength (before ++ right) := by
        rw [← hword', ha, byteLength_append]
        exact (wordStop_append (fun c hc => hall c (List.mem_append_right _ hc)) hr).symm
      left
      rw [hstart, hstop, if_pos, List.mem_singleton]
      rw [← hstart, ← hstop, hb, List.append_assoc, byteLength_append]
      obtain ⟨c, more, hmore⟩ := List.exists_cons_of_ne_nil hne
      have hpos := c.utf8Size_pos
      rw [hmore, byteLength_cons]
      omega
    · exact .inr (.inl ⟨_, _, _, hjoined, hstart, hstop, rfl⟩)
    · rename_i front₁ left₁ right₁ rest₁
      have hstart : byteLength front₁ = byteLength front' := by
        rw [← hline, hb]
        exact (lineStart_append (fun h => hnone (List.mem_append_left _ h)) hf).symm
      have hstop : byteLength (before ++ right₁) = byteLength (before ++ right') := by
        rw [← hline', byteLength_append before right₁, ha]
        exact (lineStop_append (fun h => hnone (List.mem_append_right _ h)) hr _ (byteLength_append _ _)).symm
      right; right; left
      rw [hstart, hstop]
    · exact .inr (.inr (.inr rfl))

/-- A range around a cursor has it, and starts and stops between characters. -/
structure ByteRange.Has (source : Text) (cursor : Nat) (range : ByteRange) : Prop where
  start : Boundary source range.start
  stop : Boundary source range.stop
  before : range.start ≤ cursor
  after : cursor ≤ range.stop

theorem has_of_split {front left right rest : Text} (hbefore : before = front ++ left) (hafter : after = right ++ rest) :
    ByteRange.Has (before ++ after) (byteLength before) ⟨byteLength front, byteLength (before ++ right)⟩ := by
  refine ⟨⟨front, left ++ after, ?_, rfl⟩, ⟨before ++ right, rest, ?_, rfl⟩, ?_, ?_⟩
  · rw [hbefore, List.append_assoc]
  · rw [hafter, List.append_assoc]
  · show byteLength front ≤ byteLength before
    rw [hbefore, byteLength_append]
    exact Nat.le_add_right _ _
  · show byteLength before ≤ byteLength (before ++ right)
    rw [byteLength_append]
    exact Nat.le_add_right _ _

theorem Around.has {isPart : Char → Bool} (h : Around isPart before after range) :
    range.Has (before ++ after) (byteLength before) := by
  cases h with
  | word hbefore hafter => exact has_of_split hbefore hafter
  | @brackets kind i j hjoined hstart hstop =>
    obtain ⟨marks, marks', hmarks, hclosing⟩ := hjoined
    have hopen : (⟨true, kind, i⟩ : Mark Char Nat) ∈ bracketMarks none false 0 (before ++ after) :=
      hmarks ▸ List.mem_append_right marks List.mem_cons_self
    have hclose : (⟨false, kind, j⟩ : Mark Char Nat) ∈ bracketMarks none false 0 (before ++ after) :=
      hmarks ▸ List.mem_append_right marks (List.mem_cons_of_mem _ (Brackets.mem_of_closing hclosing))
    obtain ⟨front, c, rest, hsource, hplace, hsize⟩ := of_mem_bracketMarks hopen
    obtain ⟨front', c', rest', hsource', hplace', hsize'⟩ := of_mem_bracketMarks hclose
    refine ⟨⟨front, c :: rest, hsource, ?_⟩, ⟨front' ++ [c'], rest', ?_, ?_⟩, hstart, hstop⟩
    · rw [Nat.zero_add] at hplace
      exact hplace.symm
    · rw [hsource', List.append_assoc, List.singleton_append]
    · have hone : byteLength [c'] = 1 := hsize'
      rw [Nat.zero_add] at hplace'
      rw [byteLength_append, hone, ← hplace']
  | line hbefore hafter => exact has_of_split hbefore hafter
  | whole =>
    refine ⟨⟨[], before ++ after, rfl, rfl⟩, ⟨before ++ after, [], (List.append_nil _).symm, rfl⟩, Nat.zero_le _, ?_⟩
    rw [byteLength_append]
    exact Nat.le_add_right _ _

end Collected

-- Nested ranges
-- ---

/-- A range is smaller that is inside. -/
instance : PartialOrder ByteRange :=
  PartialOrder.lift (fun range => (OrderDual.toDual range.start, range.stop)) fun a b h => by
    cases a
    cases b
    cases h
    rfl

theorem ByteRange.le_iff {a b : ByteRange} : a ≤ b ↔ b.start ≤ a.start ∧ a.stop ≤ b.stop := Iff.rfl

section Nested

variable {isAlphanumeric : Char → Bool} {before after source : Text} {a b range : ByteRange} {cursor offset offset' : Nat}

theorem byteToPosition_append (before after : Text) :
    byteToPosition (before ++ after) (byteLength before) = positionAfter before := by
  rw [byteToPosition, splitAtByte_append, offsetToPosition_append]

theorem byteToPosition_le_iff (h : Boundary source offset) (h' : Boundary source offset') :
    byteToPosition source offset ≤ byteToPosition source offset' ↔ offset ≤ offset' := by
  obtain ⟨front, rest, rfl, rfl⟩ := h
  obtain ⟨front', rest', hsource, rfl⟩ := h'
  rw [byteToPosition_append, hsource, byteToPosition_append]
  rcases List.append_eq_append_iff.mp hsource with ⟨more, rfl, -⟩ | ⟨more, rfl, -⟩
  · rw [byteLength_append]
    exact iff_of_true (positionAfter_le _ _) (Nat.le_add_right _ _)
  · cases more with
    | nil =>
      rw [List.append_nil]
      exact iff_of_true (.inr ⟨rfl, Nat.le_refl _⟩) (Nat.le_refl _)
    | cons c more =>
      have hpos := c.utf8Size_pos
      rw [byteLength_append, byteLength_cons]
      exact iff_of_false (not_positionAfter_le (List.cons_ne_nil _ _)) (by omega)

theorem byteToPosition_inj (h : Boundary source offset) (h' : Boundary source offset')
    (heq : byteToPosition source offset = byteToPosition source offset') : offset = offset' := by
  have hle : byteToPosition source offset ≤ byteToPosition source offset := .inr ⟨rfl, Nat.le_refl _⟩
  refine Nat.le_antisymm ((byteToPosition_le_iff h h').mp ?_) ((byteToPosition_le_iff h' h).mp ?_)
  · exact heq ▸ hle
  · exact heq ▸ hle

theorem toLsp_within_iff (ha : a.Has source cursor) (hb : b.Has source cursor) :
    ((a.toLsp source).Within (b.toLsp source) ∧ b.toLsp source ≠ a.toLsp source) ↔ a < b := by
  have hwithin : (a.toLsp source).Within (b.toLsp source) ↔ a ≤ b :=
    and_congr (byteToPosition_le_iff hb.start ha.start) (byteToPosition_le_iff ha.stop hb.stop)
  have hne : b.toLsp source = a.toLsp source ↔ b = a := by
    refine ⟨fun h => ?_, fun h => h ▸ rfl⟩
    have hstart := byteToPosition_inj hb.start ha.start (LspRange.mk.inj h).1
    have hstop := byteToPosition_inj hb.stop ha.stop (LspRange.mk.inj h).2
    cases a
    cases b
    cases hstart
    cases hstop
    rfl
  rw [hwithin, ne_eq, hne, lt_iff_le_and_ne]
  exact and_congr_right fun _ => not_congr eq_comm

theorem length_lt (ha : a.Has source cursor) (hlt : a < b) : a.length < b.length := by
  have hle := ByteRange.le_iff.mp hlt.le
  have hback : ¬ b ≤ a := not_le_of_gt hlt
  rw [ByteRange.le_iff] at hback
  have h := ha.before
  have h' := ha.after
  show a.stop - a.start < b.stop - b.start
  omega

theorem le_whole (h : range.Has source cursor) : range ≤ ⟨0, byteLength source⟩ := by
  obtain ⟨front, rest, hsource, hstop⟩ := h.stop
  refine ByteRange.le_iff.mpr ⟨Nat.zero_le _, ?_⟩
  rw [← hstop, hsource, byteLength_append]
  exact Nat.le_add_right _ _

end Nested

-- The answer
-- ---

section Answer

variable {isAlphanumeric : Char → Bool} {before after source : Text}

theorem foldl_push (source : Text) {sorted : List ByteRange} (hne : sorted ≠ []) : ∃ selection,
    sorted.reverse.foldl (SelectionRange.push source) none = some selection ∧
      selection.ranges = sorted.map (·.toLsp source) := by
  rw [List.foldl_reverse]
  induction sorted with
  | nil => cases hne rfl
  | cons range sorted ih =>
    by_cases hrest : sorted = []
    · rw [hrest]
      exact ⟨.outermost (range.toLsp source), rfl, rfl⟩
    · obtain ⟨parent, hparent, hranges⟩ := ih hrest
      refine ⟨.within (range.toLsp source) parent, ?_, ?_⟩
      · rw [List.foldr_cons, hparent]
        rfl
      · rw [SelectionRange.ranges, hranges, List.map_cons]

/-- **Selection ranges.** The innermost range has the cursor, and the outermost is the whole
text. Every range is in its parent and differs from it exactly if of any two ranges around
the cursor one is in the other. -/
theorem selection_nests_iff (isAlphanumeric : Char → Bool) (before after : Text) :
    SelectionSound (before ++ after) (positionAfter before)
        (semanticSelectionRange isAlphanumeric (before ++ after) (byteLength before)) ↔
      ∀ a b, Around (javaIdentifierPart isAlphanumeric) before after a →
        Around (javaIdentifierPart isAlphanumeric) before after b → a ≤ b ∨ b ≤ a := by
  have hcursor : min (byteLength before) (byteLength (before ++ after)) = byteLength before :=
    Nat.min_eq_left (by rw [byteLength_append]; exact Nat.le_add_right _ _)
  have hcollected : ∀ range, range ∈ collectedRanges isAlphanumeric (before ++ after) (byteLength before) →
      range.Has (before ++ after) (byteLength before) := fun range h => (mem_collectedRanges_iff.mp h).has
  have hwhole : (⟨0, byteLength (before ++ after)⟩ : ByteRange) ∈
      collectedRanges isAlphanumeric (before ++ after) (byteLength before) := mem_collectedRanges_iff.mpr .whole
  generalize hranges : collectedRanges isAlphanumeric (before ++ after) (byteLength before) = ranges at *
  have hmem : ∀ range, range ∈ Chains.ranked ByteRange.length ranges → range.Has (before ++ after) (byteLength before) :=
    fun range h => hcollected range (Chains.mem_ranked.mp h)
  have hne : Chains.ranked ByteRange.length ranges ≠ [] := List.ne_nil_of_mem (Chains.mem_ranked.mpr hwhole)
  obtain ⟨selection, hselection, hlist⟩ := foldl_push (before ++ after) hne
  have hanswer : semanticSelectionRange isAlphanumeric (before ++ after) (byteLength before) = selection := by
    rw [semanticSelectionRange, hcursor, hranges, hselection, Option.getD_some]
  have hchain : selection.ranges.IsChain (fun child parent => child.Within parent ∧ parent ≠ child) ↔
      ∀ a ∈ ranges, ∀ b ∈ ranges, a ≤ b ∨ b ≤ a := by
    rw [← Chains.isChain_ranked_iff fun a ha b _ => length_lt (hcollected a ha), hlist,
      List.isChain_map]
    exact List.IsChain.iff_of_mem_imp fun a b ha hb => toLsp_within_iff (hmem a ha) (hmem b hb)
  have hiff : (∀ a ∈ ranges, ∀ b ∈ ranges, a ≤ b ∨ b ≤ a) ↔
      ∀ a b, Around (javaIdentifierPart isAlphanumeric) before after a →
        Around (javaIdentifierPart isAlphanumeric) before after b → a ≤ b ∨ b ≤ a := by
    simp only [← mem_collectedRanges_iff, hranges]
    exact ⟨fun h a b ha hb => h a ha b hb, fun h a ha b hb => h a b ha hb⟩
  rw [hanswer, ← hiff, ← hchain]
  refine ⟨fun h => h.nested, fun h => ⟨h, ?_, ?_⟩⟩
  · obtain ⟨range, rest, hsorted⟩ := List.exists_cons_of_ne_nil hne
    have hhas := hmem range (hsorted ▸ List.mem_cons_self)
    have hhere : Boundary (before ++ after) (byteLength before) := ⟨before, after, rfl, rfl⟩
    refine ⟨range.toLsp (before ++ after), by rw [hlist, hsorted]; rfl, ?_⟩
    rw [← byteToPosition_append before after]
    exact ⟨(byteToPosition_le_iff hhas.start hhere).mpr hhas.before,
      (byteToPosition_le_iff hhere hhas.stop).mpr hhas.after⟩
  · have hlast : (Chains.ranked ByteRange.length ranges).getLast? = some ⟨0, byteLength (before ++ after)⟩ := by
      refine Chains.getLast?_ranked hwhole fun range hrange hdiffers => ?_
      exact length_lt (hcollected range hrange) ((le_whole (hcollected range hrange)).lt_of_ne hdiffers)
    have hstart := byteToPosition_append [] (before ++ after)
    have hstop := byteToPosition_append (before ++ after) []
    rw [List.append_nil] at hstop
    rw [hlist, List.getLast?_map, hlast, Option.map_some, ByteRange.toLsp, hstop]
    exact congrArg (fun start => some (⟨start, positionAfter (before ++ after)⟩ : LspRange)) hstart

/-- The word in front of its arguments: neither range is in the other. -/
theorem word_beside_brackets : ¬ SelectionSound "f()".toList ⟨0, 1⟩
    (semanticSelectionRange Char.isAlphanum "f()".toList 1) := by
  intro h
  have hranges : (semanticSelectionRange Char.isAlphanum "f()".toList 1).ranges =
      [⟨⟨0, 0⟩, ⟨0, 1⟩⟩, ⟨⟨0, 1⟩, ⟨0, 3⟩⟩, ⟨⟨0, 0⟩, ⟨0, 3⟩⟩] := by decide
  have hnested := h.nested
  rw [hranges, List.isChain_cons_cons] at hnested
  -- the brackets start behind the word
  rcases hnested.1.1.1 with hline | ⟨-, hcharacter⟩
  · exact absurd hline (by decide)
  · exact absurd hcharacter (by decide)

end Answer

end JMan.Lsp
