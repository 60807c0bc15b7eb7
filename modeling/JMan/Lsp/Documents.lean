import JMan.Config.Manifest

/-!
# JMan — the documents open in an editor

`documents.rs` of `jman-java-lsp`: the texts of the open documents, and the content
changes an editor sends for them. A range of a change is found in the text the
changes before it have produced, and the changes are made in place as they are
read, so that a list of them can fail half-way (`change_all_or_nothing_iff`).
-/

namespace JMan.Lsp

open JMan.Config

-- JSON
-- ---

/-- `serde_json::Value` -/
inductive Json where
  | null
  | bool (value : Bool)
  | integer (value : Int)
  | float (text : String)
  | string (value : String)
  | array (items : List Json)
  | object (members : List (String × Json))

/-- `value.get(key)` -/
def Json.get? (key : String) : Json → Option Json
  | .object members => members.lookup key
  | _ => none

/-- `value[key]` -/
def Json.member (value : Json) (key : String) : Json := (value.get? key).getD .null

def Json.asStr : Json → Option String
  | .string value => some value
  | _ => none

def Json.asU64 : Json → Option Nat
  | .integer value => if 0 ≤ value ∧ value ≤ 18446744073709551615 then some value.toNat else none
  | _ => none

-- Positions
-- ---

def byteLength : List Char → Nat
  | [] => 0
  | c :: rest => c.utf8Size + byteLength rest

/-- `text.match_indices('\n')`, for a text that starts at an offset. -/
def newlines (offset : Nat) : List Char → List Nat
  | [] => []
  | c :: rest =>
    if c = '\n' then offset :: newlines (offset + c.utf8Size) rest
    else newlines (offset + c.utf8Size) rest

/-- `text.split_at(offset)` -/
def splitAtByte : Nat → List Char → List Char × List Char
  | 0, text => ([], text)
  | _, [] => ([], [])
  | offset, c :: rest =>
    let halves := splitAtByte (offset - c.utf8Size) rest
    (c :: halves.1, halves.2)

/-- `value.len_utf16()` -/
def lenUtf16 (c : Char) : Nat := if c.val < 0x10000 then 1 else 2

/-- The loop over the characters of a line: the offset of the one at a UTF-16
position. -/
def characterOffset (character offset utf16 : Nat) : List Char → Except String Nat
  | [] => if utf16 = character then .ok offset else .error "character is outside line"
  | c :: rest =>
    if utf16 = character then .ok offset
    else if utf16 + lenUtf16 c > character then .error "position splits a UTF-16 surrogate pair"
    else characterOffset character (offset + c.utf8Size) (utf16 + lenUtf16 c) rest

/-- `.ok_or(error)` -/
def okOr {α : Type} (error : String) : Option α → Except String α
  | some a => .ok a
  | none => .error error

/-- `line_start` -/
def lineStartOf (text : List Char) (line : Nat) : Except String Nat :=
  if line = 0 then .ok 0
  else okOr "line is outside document" ((newlines 0 text)[line - 1]?.map (· + 1))

def positionToByte (text : List Char) (position : Json) : Except String Nat := do
  let line ← okOr "position has no line" ((position.get? "line").bind Json.asU64)
  let character ← okOr "position has no character" ((position.get? "character").bind Json.asU64)
  let lineStart ← lineStartOf text line
  characterOffset character lineStart 0 ((splitAtByte lineStart text).2.takeWhile (· ≠ '\n'))

-- Changes
-- ---

structure Document where
  version : Int
  text : List Char
deriving DecidableEq

/-- `text.replace_range(start..end, replacement)` -/
def replaceRange (text : List Char) (start stop : Nat) (replacement : List Char) : List Char :=
  (splitAtByte start text).1 ++ replacement ++ (splitAtByte stop text).2

def applyChange (text : List Char) (change : Json) : Except String (List Char) := do
  let replacement ← okOr "change has no text" ((change.get? "text").bind Json.asStr)
  match change.get? "range" with
  | some range => do
    let start ← positionToByte text (range.member "start")
    let stop ← positionToByte text (range.member "end")
    if start > stop then .error "change range is reversed"
    else return replaceRange text start stop replacement.toList
  | none => return replacement.toList

/-- The loop, which leaves a text when it fails. -/
def applyChanges (text : List Char) : List Json → Except String Unit × List Char
  | [] => (.ok (), text)
  | change :: rest =>
    match applyChange text change with
    | .error e => (.error e, text)
    | .ok changed => applyChanges changed rest

abbrev Documents := BTreeMap Document

def Documents.change (documents : Documents) (uri : String) (version : Int) (changes : List Json) :
    Except String Document × Documents :=
  match documents[uri]? with
  | none => (.error "document is not open", documents)
  | some document =>
    if version ≤ document.version then (.error "document version is not newer", documents)
    else
      match applyChanges document.text changes with
      | (.error e, text) => (.error e, documents.insert uri ⟨document.version, text⟩)
      | (.ok (), text) => (.ok ⟨version, text⟩, documents.insert uri ⟨version, text⟩)

-- Ranges
-- ---

section Ranges

variable {text replacement : List Char} {offset character : Nat} {position change : Json}

@[simp] theorem byteLength_append (before after : List Char) :
    byteLength (before ++ after) = byteLength before + byteLength after := by
  induction before with
  | nil => exact (Nat.zero_add _).symm
  | cons c rest ih =>
    show c.utf8Size + byteLength (rest ++ after) = c.utf8Size + byteLength rest + byteLength after
    rw [ih, Nat.add_assoc]

theorem byteLength_cons (c : Char) (rest : List Char) :
    byteLength (c :: rest) = c.utf8Size + byteLength rest := rfl

/-- The offset is between two characters of the text. -/
def Boundary (text : List Char) (offset : Nat) : Prop :=
  ∃ before after, text = before ++ after ∧ byteLength before = offset

theorem splitAtByte_append (before after : List Char) :
    splitAtByte (byteLength before) (before ++ after) = (before, after) := by
  induction before with
  | nil =>
    show splitAtByte 0 after = ([], after)
    cases after <;> rfl
  | cons c rest ih =>
    have hpos := c.utf8Size_pos
    rw [byteLength_cons]
    obtain ⟨n, hn⟩ : ∃ n, c.utf8Size + byteLength rest = n + 1 :=
      ⟨c.utf8Size + byteLength rest - 1, by omega⟩
    rw [hn, List.cons_append, splitAtByte, ← hn, Nat.add_sub_cancel_left, ih]
    exact Nat.succ_ne_zero n

end Ranges

-- All or nothing
-- ---

section AllOrNothing

variable {text left : List Char} {changes : List Json} {e : String}

theorem applyChanges_eq_ok :
    applyChanges text changes = (.ok (), left) ↔ changes.foldlM applyChange text = .ok left := by
  induction changes generalizing text with
  | nil =>
    show (Except.ok (), text) = (Except.ok (), left) ↔ Except.ok text = Except.ok left
    rw [Prod.mk.injEq, and_iff_right rfl]
    exact ⟨congrArg _, Except.ok.inj⟩
  | cons change rest ih =>
    unfold applyChanges
    rw [List.foldlM_cons]
    cases hchange : applyChange text change with
    | error e =>
      refine iff_of_false (fun h => ?_) fun h => ?_
      · cases h
      · cases h
    | ok changed => exact ih

theorem applyChanges_eq_error : applyChanges text changes = (.error e, left) ↔
    ∃ before change after, changes = before ++ change :: after ∧
      before.foldlM applyChange text = .ok left ∧ applyChange left change = .error e := by
  induction changes generalizing text with
  | nil =>
    refine iff_of_false (fun h => by cases h) ?_
    rintro ⟨before, change, after, h, -⟩
    exact absurd h (List.append_ne_nil_of_right_ne_nil _ (List.cons_ne_nil _ _)).symm
  | cons change rest ih =>
    unfold applyChanges
    cases hchange : applyChange text change with
    | error e' =>
      constructor
      · intro h
        cases h
        exact ⟨[], change, rest, rfl, rfl, hchange⟩
      · rintro ⟨before, failing, after, hsplit, hbefore, hfailing⟩
        cases before with
        | nil =>
          cases hsplit
          cases hbefore
          rw [hchange] at hfailing
          cases hfailing
          rfl
        | cons first before =>
          cases hsplit
          rw [List.foldlM_cons, hchange] at hbefore
          cases hbefore
    | ok changed =>
      show applyChanges changed rest = _ ↔ _
      rw [ih]
      constructor
      · rintro ⟨before, failing, after, rfl, hbefore, hfailing⟩
        refine ⟨change :: before, failing, after, rfl, ?_, hfailing⟩
        rw [List.foldlM_cons, hchange]
        exact hbefore
      · rintro ⟨before, failing, after, hsplit, hbefore, hfailing⟩
        cases before with
        | nil =>
          cases hsplit
          cases hbefore
          rw [hchange] at hfailing
          cases hfailing
        | cons first before =>
          cases hsplit
          rw [List.foldlM_cons, hchange] at hbefore
          exact ⟨before, failing, after, rfl, hbefore, hfailing⟩

end AllOrNothing

/-- The changes were made and the document has the new version, or every document is
as it was. -/
def AllOrNothing (documents : Documents) (uri : String) (version : Int) (changes : List Json) :
    Prop :=
  (∃ document changed, documents[uri]? = some document ∧
      changes.foldlM applyChange document.text = .ok changed ∧
      documents.change uri version changes =
        (.ok ⟨version, changed⟩, documents.insert uri ⟨version, changed⟩)) ∨
    ∃ e, documents.change uri version changes = (.error e, documents)

theorem insert_of_getElem? {documents : Documents} {uri : String} {document : Document}
    (h : documents[uri]? = some document) : documents.insert uri document = documents := by
  refine Std.ExtTreeMap.ext_getElem? fun other => ?_
  rw [Std.ExtTreeMap.getElem?_insert]
  split
  · next heq => rw [← compare_eq_iff_eq.mp heq, h]
  · rfl

/-- **Changes are all made or none is, exactly if a change that cannot be made
comes after none that changed the text.** -/
theorem change_all_or_nothing_iff (documents : Documents) (uri : String) (version : Int)
    (changes : List Json) : AllOrNothing documents uri version changes ↔
      ∀ document, documents[uri]? = some document → document.version < version →
        ∀ before change after left, changes = before ++ change :: after →
          before.foldlM applyChange document.text = .ok left →
            (∃ e, applyChange left change = .error e) → left = document.text := by
  cases hopen : documents[uri]? with
  | none =>
    refine iff_of_true (Or.inr ⟨"document is not open", ?_⟩) fun document h => by cases h
    rw [Documents.change, hopen]
  | some document =>
    by_cases hversion : version ≤ document.version
    · refine iff_of_true (Or.inr ⟨"document version is not newer", ?_⟩) fun _ h hnewer => ?_
      · rw [Documents.change, hopen]
        exact if_pos hversion
      · cases h
        omega
    rcases happlied : applyChanges document.text changes with ⟨⟨e⟩ | ⟨⟨⟩⟩, left⟩
    · have hchange : documents.change uri version changes =
          (.error e, documents.insert uri ⟨document.version, left⟩) := by
        rw [Documents.change, hopen]
        show (if version ≤ document.version then _ else _) = _
        rw [if_neg hversion, happlied]
      constructor
      · intro hatomic found hfound _ before change after text hsplit hbefore hfails
        cases hfound
        obtain ⟨e', he'⟩ := hfails
        have hfailed := applyChanges_eq_error.mpr ⟨before, change, after, hsplit, hbefore, he'⟩
        rw [happlied] at hfailed
        cases hfailed
        rcases hatomic with ⟨_, changed, _, _, hok⟩ | ⟨e'', hnothing⟩
        · rw [hchange] at hok
          cases hok
        · rw [hchange] at hnothing
          have hsame : documents.insert uri ⟨document.version, left⟩ = documents :=
            congrArg Prod.snd hnothing
          have hread : (documents.insert uri ⟨document.version, left⟩)[uri]? =
              some ⟨document.version, left⟩ := Std.ExtTreeMap.getElem?_insert_self
          rw [hsame, hopen] at hread
          exact (congrArg Document.text (Option.some.inj hread)).symm
      · intro hfirst
        obtain ⟨before, change, after, hsplit, hbefore, hfails⟩ := applyChanges_eq_error.mp happlied
        have hleft := hfirst document rfl (by omega) before change after left hsplit hbefore
          ⟨e, hfails⟩
        refine Or.inr ⟨e, ?_⟩
        rw [hchange, hleft]
        show (_, documents.insert uri document) = _
        rw [insert_of_getElem? hopen]
    · have hmade := applyChanges_eq_ok.mp happlied
      refine iff_of_true (Or.inl ⟨document, left, hopen, hmade, ?_⟩) ?_
      · rw [Documents.change, hopen]
        show (if version ≤ document.version then _ else _) = _
        rw [if_neg hversion, happlied]
      · intro found hfound _ before change after text hsplit hbefore hfails
        cases hfound
        obtain ⟨e, he⟩ := hfails
        have herror := applyChanges_eq_error.mpr ⟨before, change, after, hsplit, hbefore, he⟩
        rw [happlied] at herror
        cases herror

def openDocument : Documents := (∅ : Documents).insert "a" ⟨1, ['a', 'b']⟩

def replacedThenUnreadable : List Json := [.object [("text", .string "x")], .object []]

theorem failed_change_keeps_edits :
    ¬ AllOrNothing openDocument "a" 2 replacedThenUnreadable := by
  have hopen : openDocument["a"]? = some ⟨1, ['a', 'b']⟩ := Std.ExtTreeMap.getElem?_insert_self
  have hchange : openDocument.change "a" 2 replacedThenUnreadable =
      (.error "change has no text", openDocument.insert "a" ⟨1, ['x']⟩) := by
    rw [Documents.change, hopen]
    rfl
  rintro (⟨document, changed, -, -, hok⟩ | ⟨e, hnothing⟩)
  · rw [hchange] at hok
    cases hok
  · rw [hchange] at hnothing
    have hsame : openDocument.insert "a" ⟨1, ['x']⟩ = openDocument := congrArg Prod.snd hnothing
    have hread : (openDocument.insert "a" ⟨1, ['x']⟩)["a"]? = some ⟨1, ['x']⟩ :=
      Std.ExtTreeMap.getElem?_insert_self
    rw [hsame, hopen] at hread
    exact absurd hread (by decide)

end JMan.Lsp
