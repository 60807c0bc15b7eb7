import JMan.Lib.JavaLexis
import JMan.Lib.Lines
import JMan.Lsp.Positions

/-!
# JMan — the import quick fix

`import_edit` and `java_import_context` of `server.rs`. The header is read from the lines of
the whole file, and the byte where its last line ends is taken for a number of UTF-16
units.

* `importEdit_meets_iff` — on which compilation units the fix does what it is for.
-/

namespace JMan.Lsp

open JMan.Config JavaLexis

-- Reading the header
-- ---

/-- `str::split_inclusive('\n')`, when the first line has been read up to here. -/
def inclusiveLinesFrom (line : Text) : Text → List Text
  | [] => if line = [] then [] else [line]
  | c :: rest =>
    if c = '\n' then (line ++ [c]) :: inclusiveLinesFrom [] rest else inclusiveLinesFrom (line ++ [c]) rest

def inclusiveLines (source : Text) : List Text := inclusiveLinesFrom [] source

/-- `trim_start_matches("static ")` -/
def trimStatic : Text → Text
  | 's' :: 't' :: 'a' :: 't' :: 'i' :: 'c' :: ' ' :: rest => trimStatic rest
  | value => value

/-- What a line has between a keyword and its semicolon. -/
def declared (keyword : String) (line : Text) : Option Text :=
  (keyword.toList.isPrefixOf? (Lines.trim whiteSpace line)).bind fun value => [';'].isSuffixOf? value

def packageLine (line : Text) : Option Text := (declared "package " line).map (Lines.trim whiteSpace)

def importLine (line : Text) : Option Text :=
  (declared "import " line).map fun value => trimStatic (Lines.trim whiteSpace value)

structure ImportContext where
  package : Option Text
  imports : List Text
  insertion : Nat
deriving DecidableEq

/-- One turn of the loop over the lines: what is read so far, and the offset of the line. -/
def readLine (read : ImportContext × Nat) (line : Text) : ImportContext × Nat :=
  let offset := read.2 + byteLength line
  match packageLine line with
  | some value => ({ read.1 with package := some value, insertion := offset }, offset)
  | none =>
    match importLine line with
    | some value => ({ read.1 with imports := read.1.imports ++ [value], insertion := offset }, offset)
    | none => (read.1, offset)

def javaImportContext (source : Text) : ImportContext :=
  ((inclusiveLines source).foldl readLine (⟨none, [], 0⟩, 0)).1

/-- `name.starts_with(&format!("{package}."))` -/
def startsIn (package name : Text) : Bool := (package ++ ['.']).isPrefixOf name

/-- An import as it was read is the name, or has it below its star. -/
def covers (name imported : Text) : Bool :=
  imported = name || (['.', '*'].isSuffixOf? imported).any fun package => startsIn package name

def importEdit (source name : Text) : Option TextEdit :=
  let context := javaImportContext source
  if !name.contains '.' || "java.lang.".toList.isPrefixOf name ||
      context.package.any (startsIn · name) || context.imports.any (covers name) then none
  else
    let position := offsetToPosition source context.insertion
    some ⟨position, position, String.ofList ("import ".toList ++ name ++ ";\n".toList)⟩

-- Compilation units
-- ---

inductive ImportKind where
  | type
  | static
  | module
deriving DecidableEq

def ImportKind.tokens : ImportKind → List Text
  | .type => []
  | .static => ["static".toList]
  | .module => ["module".toList]

structure ImportDeclaration where
  kind : ImportKind
  name : List Text
  onDemand : Bool

def dotted (name : List Text) : List Text := name.intersperse ['.']

def ImportDeclaration.tokens (declaration : ImportDeclaration) : List Text :=
  "import".toList :: declaration.kind.tokens ++ dotted declaration.name ++
    (if declaration.onDemand then [['.'], ['*']] else []) ++ [[';']]

structure PackageDeclaration where
  annotations : List Text
  name : List Text

def PackageDeclaration.tokens (declaration : PackageDeclaration) : List Text :=
  declaration.annotations ++ "package".toList :: dotted declaration.name ++ [[';']]

structure Header where
  package : Option PackageDeclaration
  imports : List ImportDeclaration

def Header.tokens (header : Header) : List Text :=
  (header.package.map PackageDeclaration.tokens).getD [] ++ header.imports.flatMap ImportDeclaration.tokens

def Header.packageName (header : Header) : List Text :=
  (header.package.map PackageDeclaration.name).getD []

structure TypeName where
  package : List Text
  simple : Text
  named : package ≠ []
  identifiers : ∀ word ∈ simple :: package, word ≠ [] ∧ '.' ∉ word

def TypeName.text (type : TypeName) : Text := ['.'].intercalate (type.package ++ [type.simple])

def ImportDeclaration.imports (declaration : ImportDeclaration) (type : TypeName) : Prop :=
  declaration.kind = .type ∧
    declaration.name = if declaration.onDemand then type.package else type.package ++ [type.simple]

def Header.Shows (header : Header) (type : TypeName) : Prop :=
  type.package = header.packageName ∨ type.package = ["java".toList, "lang".toList] ∨
    ∃ declaration ∈ header.imports, declaration.imports type

/-- A compilation unit: its header up to the last semicolon, and what is below. -/
structure SourceUnit (isPart : Char → Bool) where
  header : Header
  head : Text
  body : List Text
  rest : Text
  tail : Text
  spelledHead : Spelled isPart rest header.tokens (head ++ rest)
  spelledBody : Spelled isPart tail body rest
  closed : IsTail tail
  annotations : ∀ declaration ∈ header.package, ∀ token ∈ ["package".toList, "import".toList],
    token ∉ declaration.annotations
  keywords : ∀ token ∈ ["package".toList, "import".toList], token ∉ body

variable {isPart : Char → Bool}

def SourceUnit.source (unit : SourceUnit isPart) : Text := unit.head ++ unit.rest

/-- A line end, a carriage return only when no line feed follows. -/
def IsLineBreak (text after : Text) : Prop :=
  text = ['\n'] ∨ text = ['\r', '\n'] ∨ (text = ['\r'] ∧ ¬ ['\n'] <+: after)

/-- Where a line stands directly after the header: behind the line that the header ends
on, with nothing of the program on it, or in front of everything. -/
def SourceUnit.Below (unit : SourceUnit isPart) (before after : Text) : Prop :=
  if unit.header.tokens = [] then before = [] ∧ after = unit.source
  else ∃ line lineBreak, before = unit.head ++ (line ++ lineBreak) ∧ unit.rest = line ++ lineBreak ++ after ∧
    Gap (line ++ lineBreak) ∧ (∀ c ∈ line, ¬ IsLineEnd c) ∧ IsLineBreak lineBreak after

def TextEdit.Inserts (edit : TextEdit) (before inserted : Text) : Prop :=
  edit = ⟨positionAfter before, positionAfter before, String.ofList inserted⟩

def importDirective (type : TypeName) : Text := "import ".toList ++ type.text ++ ";\n".toList

/-- **What the fix is for:** nothing is offered for a type that is visible, and else the
import, on a line of its own below the header. -/
structure SourceUnit.Meets (unit : SourceUnit isPart) (type : TypeName) : Prop where
  silent : importEdit unit.source type.text = none ↔ unit.header.Shows type
  inserts : ∀ edit, importEdit unit.source type.text = some edit →
    ∃ before after, unit.source = before ++ after ∧ unit.Below before after ∧
      edit.Inserts before (importDirective type)

-- When it does
-- ---

/-- The lines up to the last one that reads as a declaration. -/
def headerLines (source : Text) : List Text :=
  (inclusiveLines source).rdropWhile fun line => (packageLine line).isNone && (importLine line).isNone

/-- A type as the lines of a file show it: with a star for every package below a package. -/
def ShownByLines (source name : Text) : Prop :=
  startsIn "java.lang".toList name ∨
    (∃ package ∈ ((inclusiveLines source).filterMap packageLine).getLast?, startsIn package name) ∨
    ∃ line ∈ inclusiveLines source, ∃ imported ∈ importLine line, covers name imported

instance (source name : Text) : Decidable (ShownByLines source name) :=
  inferInstanceAs (Decidable (_ ∨ _ ∨ _))

/-- An offset is the length of a text in UTF-16 units, as far as whole characters count. -/
def Reaches (before after : Text) (offset : Nat) : Prop :=
  utf16Length before ≤ offset ∧ ∀ c ∈ after.head?, offset < utf16Length before + lenUtf16 c

/-- The lines show what the header shows, and where they end in bytes the header's line
ends in UTF-16 units. -/
structure SourceUnit.WellRead (unit : SourceUnit isPart) (type : TypeName) : Prop where
  seen : unit.header.Shows type → ShownByLines unit.source type.text
  unseen : ¬ unit.header.Shows type → ¬ ShownByLines unit.source type.text
  reached : ¬ unit.header.Shows type → ∃ before after, unit.source = before ++ after ∧
    unit.Below before after ∧ Reaches before after (byteLength (headerLines unit.source).flatten)

section Reading

variable {line value name source : Text} {lines : List Text}

theorem declared_eq_some {keyword : String} (h : declared keyword line = some value) :
    keyword.toList <+: Lines.trim whiteSpace line := by
  obtain ⟨rest, hrest, -⟩ := Option.bind_eq_some_iff.mp h
  exact ⟨rest, List.isPrefixOf?_eq_some_iff_append_eq.mp hrest⟩

theorem importLine_of_packageLine (h : (packageLine line).isSome) : importLine line = none := by
  by_contra hne
  obtain ⟨value, hpackage, -⟩ := Option.map_eq_some_iff.mp (Option.eq_some_of_isSome h)
  obtain ⟨value', himport, -⟩ := Option.map_eq_some_iff.mp (Option.eq_some_of_isSome (Option.isSome_iff_ne_none.mpr hne))
  obtain ⟨rest, hrest⟩ := declared_eq_some hpackage
  obtain ⟨rest', hrest'⟩ := declared_eq_some himport
  -- one starts with a p, the other with an i
  have hhead := congrArg List.head? (hrest.trans hrest'.symm)
  exact absurd hhead (by simp)

/-- **What the loop over the lines has read.** -/
theorem foldl_readLine (lines : List Text) :
    lines.foldl readLine (⟨none, [], 0⟩, 0) =
      (⟨(lines.filterMap packageLine).getLast?, lines.filterMap importLine,
        byteLength (lines.rdropWhile fun line => (packageLine line).isNone && (importLine line).isNone).flatten⟩,
        byteLength lines.flatten) := by
  induction lines using List.reverseRecOn with
  | nil => rfl
  | append_singleton lines line ih =>
    have hoffset : byteLength (lines ++ [line]).flatten = byteLength lines.flatten + byteLength line := by
      rw [List.flatten_append, byteLength_append, List.flatten_singleton]
    rw [List.foldl_append, ih, List.foldl_cons, List.foldl_nil, readLine, hoffset, List.filterMap_append,
      List.filterMap_append]
    cases hpackage : packageLine line with
    | some value =>
      have himport := importLine_of_packageLine (Option.isSome_of_eq_some hpackage)
      rw [List.rdropWhile_concat_neg _ _ _ (by simp [hpackage]), hoffset]
      simp [hpackage, himport]
    | none =>
      cases himport : importLine line with
      | some value =>
        rw [List.rdropWhile_concat_neg _ _ _ (by simp [himport]), hoffset]
        simp [hpackage, himport]
      | none =>
        rw [List.rdropWhile_concat_pos _ _ _ (by simp [hpackage, himport])]
        simp [hpackage, himport]

theorem javaImportContext_eq (source : Text) : javaImportContext source =
    ⟨((inclusiveLines source).filterMap packageLine).getLast?, (inclusiveLines source).filterMap importLine,
      byteLength (headerLines source).flatten⟩ :=
  congrArg Prod.fst (foldl_readLine (inclusiveLines source))

theorem TypeName.dot_mem_text (type : TypeName) : '.' ∈ type.text := by
  obtain ⟨word, words, hwords⟩ := List.exists_cons_of_ne_nil type.named
  cases words with
  | nil => simp [TypeName.text, hwords, List.intercalate_cons_cons]
  | cons next words => simp [TypeName.text, hwords, List.intercalate_cons_cons]

theorem any_covers_iff : ((inclusiveLines source).filterMap importLine).any (covers name) = true ↔
    ∃ line ∈ inclusiveLines source, ∃ imported ∈ importLine line, covers name imported := by
  rw [List.any_eq_true]
  constructor
  · rintro ⟨imported, hmem, hcovers⟩
    obtain ⟨line, hline, himported⟩ := List.mem_filterMap.mp hmem
    exact ⟨line, hline, imported, himported, hcovers⟩
  · rintro ⟨line, hline, imported, himported, hcovers⟩
    exact ⟨imported, List.mem_filterMap.mpr ⟨line, hline, himported⟩, hcovers⟩

theorem importEdit_eq (source : Text) (type : TypeName) :
    importEdit source type.text = if ShownByLines source type.text then none else
      some ⟨offsetToPosition source (byteLength (headerLines source).flatten),
        offsetToPosition source (byteLength (headerLines source).flatten),
        String.ofList (importDirective type)⟩ := by
  have hdot : type.text.contains '.' = true := List.contains_iff_mem.mpr type.dot_mem_text
  have hlang : "java.lang.".toList = "java.lang".toList ++ ['.'] := by decide
  have hpackage : (((inclusiveLines source).filterMap packageLine).getLast?.any (startsIn · type.text)) = true ↔
      ∃ package ∈ ((inclusiveLines source).filterMap packageLine).getLast?, startsIn package type.text :=
    Option.any_eq_true _ _
  rw [importEdit, javaImportContext_eq, hlang, hdot]
  refine if_congr ?_ rfl rfl
  rw [Bool.or_eq_true, Bool.or_eq_true, Bool.or_eq_true, hpackage, any_covers_iff, or_assoc, or_assoc]
  exact or_iff_right Bool.false_ne_true

end Reading

-- Offsets that are not the length of a text
-- ---

section Offsets

variable {text before after before' after' : Text} {offset : Nat}

theorem exists_reaches (text : Text) (offset : Nat) :
    ∃ before after, text = before ++ after ∧ Reaches before after offset := by
  induction text generalizing offset with
  | nil => exact ⟨[], [], rfl, Nat.zero_le _, fun c hc => by cases hc⟩
  | cons c text ih =>
    by_cases hwidth : offset < lenUtf16 c
    · refine ⟨[], c :: text, rfl, Nat.zero_le _, fun d hd => ?_⟩
      have hd : c = d := Option.some.inj hd
      rw [← hd]
      exact Nat.lt_of_lt_of_le hwidth (Nat.le_add_left _ _)
    · obtain ⟨before, after, rfl, hle, hlt⟩ := ih (offset - lenUtf16 c)
      refine ⟨c :: before, after, rfl, ?_, fun d hd => ?_⟩
      · rw [utf16Length]
        omega
      · have hd := hlt d hd
        rw [utf16Length]
        omega

theorem positionFrom_of_reaches (position : LspPosition) (h : Reaches before after offset) :
    positionFrom position offset (before ++ after) = before.foldl LspPosition.advance position := by
  induction before generalizing position offset with
  | nil =>
    cases after with
    | nil => rfl
    | cons c after =>
      have hwidth : offset < 0 + lenUtf16 c := h.2 c rfl
      rw [List.nil_append, positionFrom, if_pos (.inr (by omega))]
      rfl
  | cons c before ih =>
    obtain ⟨hle, hlt⟩ := h
    have hpos := lenUtf16_pos c
    rw [utf16Length] at hle
    rw [List.cons_append, positionFrom, if_neg (by omega), ih]
    · rfl
    · refine ⟨by omega, fun d hd => ?_⟩
      have hd := hlt d hd
      rw [utf16Length] at hd
      omega

theorem eq_of_positionAfter_eq (htext : before ++ after = before' ++ after')
    (h : positionAfter before = positionAfter before') : before = before' := by
  rcases List.append_eq_append_iff.mp htext with ⟨more, hmore, -⟩ | ⟨more, hmore, -⟩
  · by_cases hempty : more = []
    · rw [hmore, hempty, List.append_nil]
    · have hlater : ¬ positionAfter (before ++ more) ≤ positionAfter before := not_positionAfter_le hempty
      rw [← hmore, ← h] at hlater
      exact absurd (.inr ⟨rfl, Nat.le_refl _⟩) hlater
  · by_cases hempty : more = []
    · rw [hmore, hempty, List.append_nil]
    · have hlater : ¬ positionAfter (before' ++ more) ≤ positionAfter before' := not_positionAfter_le hempty
      rw [← hmore, h] at hlater
      exact absurd (.inr ⟨rfl, Nat.le_refl _⟩) hlater

/-- **An offset is turned into the position of the text it reaches behind.** -/
theorem offsetToPosition_eq_iff :
    offsetToPosition (before ++ after) offset = positionAfter before ↔ Reaches before after offset := by
  constructor
  · intro h
    obtain ⟨before', after', htext, hreaches⟩ := exists_reaches (before ++ after) offset
    have hposition : offsetToPosition (before ++ after) offset = positionAfter before' := by
      rw [htext]
      exact positionFrom_of_reaches _ hreaches
    have hbefore := eq_of_positionAfter_eq htext (h.symm.trans hposition)
    subst hbefore
    rwa [List.append_cancel_left htext]
  · exact positionFrom_of_reaches _

end Offsets

-- The fix
-- ---

/-- **The fix does what it is for exactly when the lines show what the header shows,** and
the line the header ends on is reached by the bytes in front of it. -/
theorem importEdit_meets_iff (unit : SourceUnit isPart) (type : TypeName) :
    unit.Meets type ↔ unit.WellRead type := by
  have hedit := importEdit_eq unit.source type
  constructor
  · intro h
    have hshown : ShownByLines unit.source type.text ↔ unit.header.Shows type := by
      rw [← h.silent, hedit, ite_eq_left_iff]
      exact ⟨fun hshown hnot => absurd hshown hnot, fun hnot => by_contra fun hshown => by cases hnot hshown⟩
    refine ⟨hshown.mpr, mt hshown.mp, fun hnot => ?_⟩
    rw [if_neg (mt hshown.mp hnot)] at hedit
    obtain ⟨before, after, htext, hbelow, hinserts⟩ := h.inserts _ hedit
    refine ⟨before, after, htext, hbelow, ?_⟩
    rw [← offsetToPosition_eq_iff, ← htext]
    exact congrArg TextEdit.start hinserts
  · intro h
    by_cases hshows : unit.header.Shows type
    · rw [if_pos (h.seen hshows)] at hedit
      exact ⟨iff_of_true hedit hshows, fun edit hsome => by cases hedit.symm.trans hsome⟩
    · rw [if_neg (h.unseen hshows)] at hedit
      refine ⟨iff_of_false (fun hnone => by cases hedit.symm.trans hnone) hshows, fun edit hsome => ?_⟩
      obtain ⟨before, after, htext, hbelow, hreaches⟩ := h.reached hshows
      refine ⟨before, after, htext, hbelow, ?_⟩
      have hposition := offsetToPosition_eq_iff.mpr hreaches
      rw [← htext] at hposition
      rw [← Option.some.inj (hedit.symm.trans hsome), hposition]
      rfl

def unitOfA : SourceUnit Char.isAlphanum where
  header := ⟨some ⟨[], ["a".toList]⟩, []⟩
  head := "package a;".toList
  body := []
  rest := ['\n']
  tail := ['\n']
  spelledHead := by
    have hsemicolon : Spelled Char.isAlphanum ['\n'] [[';']] ";\n".toList :=
      .cons .nil (.symbol (by decide) (by decide) (by decide)) (.of_endsAt (by decide)) .nil
    have hname : Spelled Char.isAlphanum ['\n'] ["a".toList, [';']] " a;\n".toList :=
      .cons (.blank (.inl rfl) .nil) (.of_all (by decide) (by decide)) (.of_endsAt (by decide)) hsemicolon
    exact .cons .nil (.of_all (by decide) (by decide)) (.of_endsAt (by decide)) hname
  spelledBody := .nil
  closed := .inl (.blank (.inr (.inr (.inr (.inl rfl)))) .nil)
  annotations := by
    rintro declaration hdeclaration token -
    rw [← Option.some.inj hdeclaration]
    exact List.not_mem_nil
  keywords := fun _ _ => List.not_mem_nil

def typeBelowA : TypeName := ⟨["a".toList, "b".toList], "C".toList, by decide, by decide⟩

/-- A type of a package below the own one is not visible, and not offered. -/
theorem package_below_is_taken_for_visible : ¬ unitOfA.Meets typeBelowA := by
  intro h
  have hnone : importEdit unitOfA.source typeBelowA.text = none := by decide
  rcases h.silent.mp hnone with hpackage | hlang | ⟨declaration, hmem, -⟩
  · exact absurd hpackage (by decide)
  · exact absurd hlang (by decide)
  · cases hmem

end JMan.Lsp
