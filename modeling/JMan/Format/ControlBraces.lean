import JMan.Format.Edits
import JMan.Lib.JavaStatements
import JMan.Lib.JavaTokens

/-!
# JMan — braces around the bodies of control statements

`normalizeControlBraces` of `JavaFormatter.java` puts braces around each body of a
conditional or a loop that is no block. All braces are inserted into the text as it was,
the last one first.

* `normalizeControlBraces_parses` — the new text is read as the tree with the braces put in.
-/

namespace JMan.Format

open JavaLexis JavaStatements
open JMan.Lsp (utf16Length lenUtf16 utf16Length_append)

-- Disabled regions

/-- `source.lastIndexOf(pattern, position)`, of a text that starts at an offset. -/
def lastIndexOfFrom (pattern : Text) (position offset : Nat) (found : Option Nat) : Text → Option Nat
  | [] => found
  | c :: rest =>
    lastIndexOfFrom pattern position (offset + lenUtf16 c)
      (if offset ≤ position ∧ pattern.isPrefixOf (c :: rest) then some offset else found) rest

def lastIndexOf (source pattern : Text) (position : Nat) : Option Nat := lastIndexOfFrom pattern position 0 none source

def disabledAt (source : Text) (position : Nat) : Bool :=
  (lastIndexOf source "// jjfs: off".toList position).any fun off =>
    (lastIndexOf source "// jjfs: on".toList position).all fun on => on < off

theorem lastIndexOfFrom_eq {pattern text : Text} (h : ¬ pattern <:+: text) (position offset : Nat) (found : Option Nat) :
    lastIndexOfFrom pattern position offset found text = found := by
  induction text generalizing offset with
  | nil => rfl
  | cons c text ih =>
    have hprefix : ¬ (offset ≤ position ∧ pattern.isPrefixOf (c :: text) = true) := fun hfound =>
      h (List.isPrefixOf_iff_prefix.mp hfound.2).isInfix
    rw [lastIndexOfFrom, if_neg hprefix, ih fun hin => h (hin.trans (List.suffix_cons c text).isInfix)]

theorem disabledAt_eq_false {source : Text} (h : ¬ "// jjfs: off".toList <:+: source) (position : Nat) :
    disabledAt source position = false := by
  unfold disabledAt lastIndexOf
  rw [lastIndexOfFrom_eq h]
  rfl

-- Statements in a text

structure Lexeme where
  gap : Text
  token : Text
deriving DecidableEq

def Lexeme.text (lexeme : Lexeme) : Text := lexeme.gap ++ lexeme.token

def textOf (lexemes : List Lexeme) : Text := lexemes.flatMap Lexeme.text

abbrev Statement := Tree Lexeme .statement

def Statement.firstGap (statement : Statement) : Text := (statement.tokens.head?.map Lexeme.gap).getD []

/-- `getStartPosition`, of a statement whose text starts at an offset. -/
def Statement.start (offset : Nat) (statement : Statement) : Nat := offset + utf16Length statement.firstGap

/-- `getEndPosition` -/
def Statement.stop (offset : Nat) (statement : Statement) : Nat := offset + utf16Length (textOf statement.tokens)

-- The edits

section Edits

variable (source : Text)

def addBraces (offset : Nat) (statement : Statement) : List Edit :=
  let start := statement.start offset
  let stop := statement.stop offset
  if statement.isBlock then []
  else if stop ≤ start ∨ disabledAt source start then []
  else [⟨stop, stop, ['\x7d']⟩, ⟨start, start, ['\x7b']⟩]

/-- The visitor: the edits of a tree whose text starts at an offset. -/
def braceEdits {level : Level} (offset : Nat) : Tree Lexeme level → List Edit
  | .simple _ => []
  | .block opening body _ => braceEdits (offset + utf16Length opening.text) body
  | .labeled label colon body => braceEdits (offset + utf16Length (textOf [label, colon])) body
  | .ifThen keyword condition thenPart =>
    let inner := offset + utf16Length (textOf (keyword :: condition))
    addBraces source inner thenPart ++ braceEdits inner thenPart
  | .ifElse keyword condition thenPart elseKeyword elsePart =>
    let inner := offset + utf16Length (textOf (keyword :: condition))
    let later := inner + utf16Length (textOf (thenPart.tokens ++ [elseKeyword]))
    addBraces source inner thenPart ++ ((if elsePart.isIf then [] else addBraces source later elsePart) ++
      (braceEdits inner thenPart ++ braceEdits later elsePart))
  | .loop keyword header body =>
    let inner := offset + utf16Length (textOf (keyword :: header))
    addBraces source inner body ++ braceEdits inner body
  | .doWhile keyword body _ =>
    let inner := offset + utf16Length keyword.text
    addBraces source inner body ++ braceEdits inner body
  | .nil => []
  | .cons first rest => braceEdits offset first ++ braceEdits (offset + utf16Length (textOf first.tokens)) rest

/-- The text with the edits of the statement that stands there from an offset on. -/
def normalizeControlBraces (offset : Nat) (statement : Statement) : Text :=
  applyEdits source (braceEdits source offset statement)

end Edits

-- Blocks as bodies

/-- A body with the blocks in it: a block stays, and anything else is put into one. -/
def wrapBody (body new : Tree Token .statement) : Tree Token .statement :=
  if body.isBlock then new else .block ['\x7b'] (.cons new .nil) ['\x7d']

/-- **The tree in which every body of a control statement is a block**, but an `if` behind `else`. -/
def withBlocks {level : Level} : Tree Token level → Tree Token level
  | .simple tokens => .simple tokens
  | .block opening body closing => .block opening (withBlocks body) closing
  | .labeled label colon body => .labeled label colon (withBlocks body)
  | .ifThen keyword condition thenPart => .ifThen keyword condition (wrapBody thenPart (withBlocks thenPart))
  | .ifElse keyword condition thenPart elseKeyword elsePart =>
    .ifElse keyword condition (wrapBody thenPart (withBlocks thenPart)) elseKeyword
      (if elsePart.isIf then withBlocks elsePart else wrapBody elsePart (withBlocks elsePart))
  | .loop keyword header body => .loop keyword header (wrapBody body (withBlocks body))
  | .doWhile keyword body tail => .doWhile keyword (wrapBody body (withBlocks body)) tail
  | .nil => .nil
  | .cons first rest => .cons (withBlocks first) (withBlocks rest)

/-- A text is read as a statement, with another text behind it. -/
def ParsesAs (isPart : Char → Bool) (after text : Text) (tree : Tree Token .statement) : Prop :=
  ∃ tokens, Spelled isPart after tokens (text ++ after) ∧ parseStatement tokens = some (tree, [])

/-- The tokens of a text are these, each behind its gap. -/
def Reads (isPart : Char → Bool) (after : Text) : List Lexeme → Prop
  | [] => True
  | lexeme :: lexemes =>
    Gap lexeme.gap ∧ IsToken isPart lexeme.token ∧ Ends isPart lexeme.token (textOf lexemes ++ after) ∧
      Reads isPart after lexemes

structure StatementSource (isPart : Char → Bool) where
  before : Text
  statement : Statement
  after : Text
  valid : (statement.map Lexeme.token).Valid
  reads : Reads isPart after statement.tokens

namespace StatementSource

variable {isPart : Char → Bool} (s : StatementSource isPart)

def text : Text := textOf s.statement.tokens

def source : Text := s.before ++ (s.text ++ s.after)

def offset : Nat := utf16Length s.before

def tree : Tree Token .statement := s.statement.map Lexeme.token

end StatementSource

-- Insertions

/-- Braces are inserted between tokens: an opening one takes the place of a token behind one
that stays, a closing one comes behind a token. The offset is where the text starts. -/
inductive Inserted : (behind : Bool) → (offset : Nat) → (old new : List Lexeme) → List Edit → Prop
  | nil {behind : Bool} {offset : Nat} : Inserted behind offset [] [] []
  | keep {behind : Bool} {offset : Nat} {old new : List Lexeme} {edits : List Edit} (lexeme : Lexeme)
      (h : Inserted true (offset + utf16Length lexeme.text) old new edits) :
      Inserted behind offset (lexeme :: old) (lexeme :: new) edits
  | opening {offset : Nat} {old new : List Lexeme} {edits : List Edit} (lexeme : Lexeme)
      (h : Inserted true (offset + utf16Length lexeme.text) old new edits) :
      Inserted true offset (lexeme :: old) (⟨lexeme.gap, ['\x7b']⟩ :: ⟨[], lexeme.token⟩ :: new)
        (⟨offset + utf16Length lexeme.gap, offset + utf16Length lexeme.gap, ['\x7b']⟩ :: edits)
  | closing {behind : Bool} {offset : Nat} {old new : List Lexeme} {edits : List Edit}
      (h : Inserted false offset old new edits) :
      Inserted behind offset old (⟨[], ['\x7d']⟩ :: new) (⟨offset, offset, ['\x7d']⟩ :: edits)

theorem textOf_cons (lexeme : Lexeme) (lexemes : List Lexeme) : textOf (lexeme :: lexemes) = lexeme.text ++ textOf lexemes :=
  List.flatMap_cons ..

theorem textOf_append (lexemes more : List Lexeme) : textOf (lexemes ++ more) = textOf lexemes ++ textOf more :=
  List.flatMap_append

theorem textOf_cons_length (lexeme : Lexeme) (lexemes : List Lexeme) (offset : Nat) :
    offset + utf16Length (textOf (lexeme :: lexemes)) =
      offset + utf16Length lexeme.text + utf16Length (textOf lexemes) := by
  rw [textOf_cons, utf16Length_append, Nat.add_assoc]

namespace Inserted

variable {behind : Bool} {offset : Nat} {old new more more' : List Lexeme} {edits later : List Edit}

theorem weaken (h : Inserted false offset old new edits) : Inserted behind offset old new edits := by
  cases h with
  | nil => exact .nil
  | keep lexeme h => exact .keep lexeme h
  | closing h => exact .closing h

theorem refl (offset : Nat) (old : List Lexeme) : Inserted behind offset old old [] := by
  induction old generalizing behind offset with
  | nil => exact .nil
  | cons lexeme old ih => exact .keep lexeme (ih _)

theorem append (h : Inserted behind offset old new edits)
    (h' : Inserted false (offset + utf16Length (textOf old)) more more' later) :
    Inserted behind offset (old ++ more) (new ++ more') (edits ++ later) := by
  induction h with
  | nil => exact h'.weaken
  | keep lexeme _ ih => exact .keep lexeme (ih (textOf_cons_length .. ▸ h'))
  | opening lexeme _ ih => exact .opening lexeme (ih (textOf_cons_length .. ▸ h'))
  | closing _ ih => exact .closing (ih h')

theorem keepAll (kept : List Lexeme) (h : Inserted true (offset + utf16Length (textOf kept)) old new edits) :
    Inserted true offset (kept ++ old) (kept ++ new) edits := by
  induction kept generalizing offset with
  | nil => exact h
  | cons lexeme kept ih => exact .keep lexeme (ih (textOf_cons_length .. ▸ h))

/-- **The insertions, the last one first, give the new text.** -/
theorem foldr_apply (h : Inserted behind offset old new edits) (before after : Text)
    (hoffset : utf16Length before = offset) :
    edits.foldr Edit.apply (before ++ (textOf old ++ after)) = before ++ (textOf new ++ after) := by
  induction h generalizing before with
  | nil => rfl
  | @keep _ offset old new edits lexeme h ih =>
    have hread := ih (before ++ lexeme.text) (by rw [utf16Length_append, hoffset])
    rw [List.append_assoc, List.append_assoc, ← List.append_assoc lexeme.text, ← List.append_assoc lexeme.text] at hread
    exact hread
  | @opening offset old new edits lexeme h ih =>
    have hread := ih (before ++ lexeme.text) (by rw [utf16Length_append, hoffset])
    have happly := Edit.apply_append (before ++ lexeme.gap) [] (lexeme.token ++ (textOf new ++ after)) ['\x7b']
    have hold : before ++ (textOf (lexeme :: old) ++ after) = (before ++ lexeme.text) ++ (textOf old ++ after) := by
      rw [textOf, List.flatMap_cons, List.append_assoc, List.append_assoc]
      rfl
    have hnew : before ++ (textOf (⟨lexeme.gap, ['\x7b']⟩ :: ⟨[], lexeme.token⟩ :: new) ++ after) =
        (before ++ lexeme.gap) ++ (['\x7b'] ++ (lexeme.token ++ (textOf new ++ after))) := by
      simp [textOf, Lexeme.text]
    have hbetween : (before ++ lexeme.text) ++ (textOf new ++ after) =
        (before ++ lexeme.gap) ++ ([] ++ (lexeme.token ++ (textOf new ++ after))) := by
      simp [Lexeme.text]
    rw [utf16Length_append, hoffset] at happly
    rw [List.foldr_cons, hold, hread, hnew, hbetween]
    exact happly
  | @closing _ offset old new edits h ih =>
    have happly := Edit.apply_append before [] (textOf new ++ after) ['\x7d']
    rw [List.foldr_cons, ih before hoffset, ← hoffset]
    exact happly

/-- Where insertions stand: in order, and only equal ones in one place. -/
def InOrder (edit next : Edit) : Prop := edit.start ≤ next.start ∧ (edit.start = next.start → edit = next)

/-- No edit stands before the offset, and behind an inserted brace only another closing one. -/
structure Places (behind : Bool) (offset : Nat) (edits : List Edit) : Prop where
  order : edits.Pairwise InOrder
  le : ∀ edit ∈ edits, offset ≤ edit.start ∧ edit.stop = edit.start
  closing : behind = false → ∀ edit ∈ edits, edit.start = offset → edit = ⟨offset, offset, ['\x7d']⟩

theorem places (h : Inserted behind offset old new edits) (hold : ∀ lexeme ∈ old, lexeme.token ≠ []) :
    Places behind offset edits := by
  induction h with
  | nil => exact ⟨.nil, fun edit hedit => absurd hedit List.not_mem_nil, fun _ edit hedit => absurd hedit List.not_mem_nil⟩
  | @keep _ offset old new edits lexeme h ih =>
    obtain ⟨hlexeme, hold⟩ := List.forall_mem_cons.mp hold
    have hpos := JMan.Lsp.utf16Length_pos hlexeme
    have hlength : utf16Length lexeme.text = utf16Length lexeme.gap + utf16Length lexeme.token := utf16Length_append _ _
    have hplaces := ih hold
    refine ⟨hplaces.order, fun edit hedit => ?_, fun _ edit hedit hstart => ?_⟩
    · have hle := hplaces.le edit hedit
      exact ⟨by omega, hle.2⟩
    · have hle := hplaces.le edit hedit
      omega
  | @opening offset old new edits lexeme h ih =>
    obtain ⟨hlexeme, hold⟩ := List.forall_mem_cons.mp hold
    have hpos := JMan.Lsp.utf16Length_pos hlexeme
    have hlength : utf16Length lexeme.text = utf16Length lexeme.gap + utf16Length lexeme.token := utf16Length_append _ _
    have hplaces := ih hold
    refine ⟨.cons (fun edit hedit => ?_) hplaces.order, List.forall_mem_cons.mpr ⟨⟨Nat.le_add_right _ _, rfl⟩, ?_⟩,
      fun hbehind => absurd hbehind (by decide)⟩
    · have hle := hplaces.le edit hedit
      exact ⟨by dsimp only; omega, fun hstart => by dsimp only at hstart; omega⟩
    · intro edit hedit
      have hle := hplaces.le edit hedit
      exact ⟨by omega, hle.2⟩
  | @closing _ offset old new edits h ih =>
    have hplaces := ih hold
    refine ⟨.cons (fun edit hedit => ⟨(hplaces.le edit hedit).1, fun hstart => ?_⟩) hplaces.order,
      List.forall_mem_cons.mpr ⟨⟨Nat.le_refl _, rfl⟩, hplaces.le⟩, fun _ edit hedit hstart => ?_⟩
    · exact (hplaces.closing rfl edit hedit hstart.symm).symm
    · rcases List.mem_cons.mp hedit with rfl | hedit
      · rfl
      · exact hplaces.closing rfl edit hedit hstart

/-- **Sorted, the edits come in the order of the insertions, the last one first.** -/
theorem sort_eq (h : Inserted behind offset old new edits) (hold : ∀ lexeme ∈ old, lexeme.token ≠ [])
    {unsorted : List Edit} (hperm : unsorted.Perm edits) :
    (unsorted.insertionSort fun left right => right.place ≤ left.place) = edits.reverse := by
  have hplaces := h.places hold
  have hsorted : edits.reverse.Pairwise fun left right => right.place ≤ left.place := by
    refine List.pairwise_reverse.mpr (hplaces.order.imp_of_mem fun {edit next} hedit hnext horder => ?_)
    have hedit := (hplaces.le edit hedit).2
    have hnext := (hplaces.le next hnext).2
    have hle := horder.1
    refine Prod.Lex.le_iff.mpr ?_
    show edit.start < next.start ∨ edit.start = next.start ∧ edit.stop ≤ next.stop
    omega
  have : Std.Total fun left right : Edit => right.place ≤ left.place := ⟨fun left right => le_total right.place left.place⟩
  have : IsTrans Edit fun left right => right.place ≤ left.place := ⟨fun _ _ _ h h' => h'.trans h⟩
  have hsort := List.perm_insertionSort (fun left right : Edit => right.place ≤ left.place) unsorted
  refine List.Perm.eq_of_pairwise (fun left right hleft hright hle hge => ?_) (List.pairwise_insertionSort _ _) hsorted
    (hsort.trans (hperm.trans (List.reverse_perm edits).symm))
  -- two edits in one place are the same
  have hplace : left.place = right.place := le_antisymm hge hle
  have hstart : left.start = right.start := congrArg (fun place => (ofLex place).1) hplace
  have hsame : edits.Pairwise fun edit next => edit.start = next.start → edit = next := hplaces.order.imp And.right
  exact hsame.forall_of_forall_of_flip (fun _ _ _ => rfl) (hsame.imp fun h hstart => (h hstart.symm).symm)
    (hperm.mem_iff.mp (hsort.mem_iff.mp hleft)) (List.mem_reverse.mp hright) hstart

theorem applyEdits_eq (h : Inserted behind offset old new edits) (hold : ∀ lexeme ∈ old, lexeme.token ≠ [])
    {unsorted : List Edit} (hperm : unsorted.Perm edits) (before after : Text) (hoffset : utf16Length before = offset) :
    applyEdits (before ++ (textOf old ++ after)) unsorted = before ++ (textOf new ++ after) := by
  rw [applyEdits, h.sort_eq hold hperm, List.foldl_reverse]
  exact h.foldr_apply before after hoffset

end Inserted

-- The tokens of the new text

section Reading

variable {isPart : Char → Bool} {behind : Bool} {offset : Nat} {old new : List Lexeme} {edits : List Edit}
  {token rest rest' after : Text}

theorem Reads.token_ne_nil (h : Reads isPart after old) : ∀ lexeme ∈ old, lexeme.token ≠ [] := by
  induction old with
  | nil => exact fun lexeme hlexeme => absurd hlexeme List.not_mem_nil
  | cons lexeme old ih => exact List.forall_mem_cons.mpr ⟨h.2.1.ne_nil, ih h.2.2.2⟩

theorem Reads.spelled (h : Reads isPart after old) :
    Spelled isPart after (old.map Lexeme.token) (textOf old ++ after) := by
  induction old with
  | nil => exact .nil
  | cons lexeme old ih =>
    obtain ⟨hgap, htoken, hends, hrest⟩ := h
    have hspelled := Spelled.cons hgap htoken hends (ih hrest)
    rw [← List.append_assoc, ← List.append_assoc] at hspelled
    exact hspelled

theorem ends_of_head (hopening : isPart '\x7b' = false) (hclosing : isPart '\x7d' = false) (h : Ends isPart token rest)
    (hhead : ∀ b ∈ rest'.head?, b ∈ rest.head? ∨ b = '\x7b' ∨ b = '\x7d') : Ends isPart token rest' where
  word := by
    intro a ha b hb hpart
    rcases hhead b hb with hb | rfl | rfl
    · exact h.word a ha b hb hpart
    · exact absurd hpart.2 (by rw [hopening]; exact Bool.false_ne_true)
    · exact absurd hpart.2 (by rw [hclosing]; exact Bool.false_ne_true)
  slash := by
    intro hslash b hb
    rcases hhead b hb with hb | rfl | rfl
    · exact h.slash hslash b hb
    · exact ⟨by decide, by decide⟩
    · exact ⟨by decide, by decide⟩
  empty := by
    intro hempty b hb
    rcases hhead b hb with hb | rfl | rfl
    · exact h.empty hempty b hb
    · decide
    · decide

theorem Inserted.head (h : Inserted behind offset old new edits) (hold : ∀ lexeme ∈ old, lexeme.token ≠ [])
    (after : Text) :
    ∀ b ∈ (textOf new ++ after).head?, b ∈ (textOf old ++ after).head? ∨ b = '\x7b' ∨ b = '\x7d' := by
  intro b hb
  cases h with
  | nil => exact .inl hb
  | @keep _ _ old new _ lexeme h =>
    have hne : lexeme.text ≠ [] := List.append_ne_nil_of_right_ne_nil _ (hold lexeme List.mem_cons_self)
    rw [textOf_cons, List.append_assoc, List.head?_append_of_ne_nil _ hne] at hb ⊢
    exact .inl hb
  | @opening _ old new _ lexeme h =>
    rw [textOf_cons, List.append_assoc, Lexeme.text, List.append_assoc] at hb ⊢
    cases hgap : lexeme.gap with
    | nil =>
      rw [hgap] at hb
      exact .inr (.inl (Option.some.inj hb).symm)
    | cons c gap =>
      rw [hgap] at hb
      exact .inl hb
  | closing h => exact .inr (.inr (Option.some.inj hb).symm)

theorem isToken_brace {c : Char} (hpart : isPart c = false) (hc : c = '\x7b' ∨ c = '\x7d') : IsToken isPart [c] := by
  rcases hc with rfl | rfl
  · exact .symbol hpart (by decide) (by decide)
  · exact .symbol hpart (by decide) (by decide)

theorem ends_brace {c : Char} (hpart : isPart c = false) (hc : c = '\x7b' ∨ c = '\x7d') : Ends isPart [c] rest where
  word := by
    intro a ha b _ hparts
    obtain rfl : c = a := Option.some.inj ha
    exact absurd hparts.1 (by rw [hpart]; exact Bool.false_ne_true)
  slash := by
    intro hslash
    rcases hc with rfl | rfl
    · exact absurd hslash (by decide)
    · exact absurd hslash (by decide)
  empty := fun hempty => absurd (List.cons.inj hempty).2 (List.cons_ne_nil _ _).symm

/-- **With braces inserted, the tokens are those that were there, and the braces.** -/
theorem Inserted.reads (h : Inserted behind offset old new edits) (hopening : isPart '\x7b' = false)
    (hclosing : isPart '\x7d' = false) (hreads : Reads isPart after old) : Reads isPart after new := by
  induction h with
  | nil => exact hreads
  | @keep _ _ old new _ lexeme h ih =>
    obtain ⟨hgap, htoken, hends, hrest⟩ := hreads
    exact ⟨hgap, htoken, ends_of_head hopening hclosing hends (h.head hrest.token_ne_nil after), ih hrest⟩
  | @opening _ old new _ lexeme h ih =>
    obtain ⟨hgap, htoken, hends, hrest⟩ := hreads
    exact ⟨hgap, isToken_brace hopening (.inl rfl), ends_brace hopening (.inl rfl), .nil, htoken,
      ends_of_head hopening hclosing hends (h.head hrest.token_ne_nil after), ih hrest⟩
  | closing h ih => exact ⟨.nil, isToken_brace hclosing (.inr rfl), ends_brace hclosing (.inr rfl), ih hreads⟩

end Reading

-- The edits of a tree

/-- Edits that turn the text of these tokens into one with those. -/
def InsertsTo (behind : Bool) (offset : Nat) (old : List Lexeme) (tokens : List Token) (edits : List Edit) : Prop :=
  ∃ new inserted, Inserted behind offset old new inserted ∧ new.map Lexeme.token = tokens ∧ edits.Perm inserted

namespace InsertsTo

variable {behind : Bool} {offset : Nat} {old more : List Lexeme} {tokens tokens' : List Token} {edits later : List Edit}

theorem weaken (h : InsertsTo false offset old tokens edits) : InsertsTo behind offset old tokens edits := by
  obtain ⟨new, inserted, hinserted, htokens, hperm⟩ := h
  exact ⟨new, inserted, hinserted.weaken, htokens, hperm⟩

theorem refl (offset : Nat) (old : List Lexeme) : InsertsTo behind offset old (old.map Lexeme.token) [] :=
  ⟨old, [], .refl offset old, rfl, .nil⟩

theorem keep (lexeme : Lexeme) (h : InsertsTo true (offset + utf16Length lexeme.text) old tokens edits) :
    InsertsTo behind offset (lexeme :: old) (lexeme.token :: tokens) edits := by
  obtain ⟨new, inserted, hinserted, rfl, hperm⟩ := h
  exact ⟨lexeme :: new, inserted, .keep lexeme hinserted, rfl, hperm⟩

theorem keepAll (kept : List Lexeme) (h : InsertsTo true (offset + utf16Length (textOf kept)) old tokens edits) :
    InsertsTo true offset (kept ++ old) (kept.map Lexeme.token ++ tokens) edits := by
  obtain ⟨new, inserted, hinserted, rfl, hperm⟩ := h
  exact ⟨kept ++ new, inserted, .keepAll kept hinserted, List.map_append .., hperm⟩

theorem append (h : InsertsTo behind offset old tokens edits)
    (h' : InsertsTo false (offset + utf16Length (textOf old)) more tokens' later) :
    InsertsTo behind offset (old ++ more) (tokens ++ tokens') (edits ++ later) := by
  obtain ⟨new, inserted, hinserted, rfl, hperm⟩ := h
  obtain ⟨new', inserted', hinserted', rfl, hperm'⟩ := h'
  exact ⟨new ++ new', inserted ++ inserted', hinserted.append hinserted', List.map_append .., hperm.append hperm'⟩

theorem move {place : Nat} (h : InsertsTo behind offset old tokens edits) (hplace : offset = place) :
    InsertsTo behind place old tokens edits := hplace ▸ h

theorem perm {unsorted : List Edit} (h : InsertsTo behind offset old tokens edits) (hperm : unsorted.Perm edits) :
    InsertsTo behind offset old tokens unsorted := by
  obtain ⟨new, inserted, hinserted, htokens, hedits⟩ := h
  exact ⟨new, inserted, hinserted, htokens, hperm.trans hedits⟩

end InsertsTo

section Trees

variable {source : Text} {offset : Nat} {level : Level}

/-- The edits of a statement leave its first token where it is. -/
structure InsertsInside (source : Text) (offset : Nat) (statement : Statement) (lexeme : Lexeme) (old : List Lexeme)
    (tokens : List Token) : Prop where
  shape : statement.tokens = lexeme :: old
  blocks : (withBlocks (statement.map Lexeme.token)).tokens = lexeme.token :: tokens
  inserts : InsertsTo true (offset + utf16Length lexeme.text) old tokens (braceEdits source offset statement)

/-- What is to be shown of a tree: its edits insert the braces of the blocks. -/
def InsertsBlocks (source : Text) (offset : Nat) : {level : Level} → Tree Lexeme level → Prop
  | .statement, statement => ∃ lexeme old tokens, InsertsInside source offset statement lexeme old tokens
  | .statements, statements =>
    InsertsTo false offset statements.tokens (withBlocks (statements.map Lexeme.token)).tokens
      (braceEdits source offset statements)

theorem InsertsBlocks.inserts {statement : Statement} (h : InsertsBlocks source offset statement) (behind : Bool) :
    InsertsTo behind offset statement.tokens (withBlocks (statement.map Lexeme.token)).tokens
      (braceEdits source offset statement) := by
  obtain ⟨lexeme, old, tokens, hinside⟩ := h
  rw [hinside.shape, hinside.blocks]
  exact hinside.inserts.keep lexeme

theorem isBlock_map {level : Level} (f : Lexeme → Token) (tree : Tree Lexeme level) : (tree.map f).isBlock = tree.isBlock := by
  cases tree <;> rfl

theorem isIf_map {level : Level} (f : Lexeme → Token) (tree : Tree Lexeme level) : (tree.map f).isIf = tree.isIf := by
  cases tree <;> rfl

/-- **A body behind a token gets its braces.** -/
theorem InsertsBlocks.inserts_wrapBody {statement : Statement} (h : InsertsBlocks source offset statement)
    (henabled : ∀ position, disabledAt source position = false) (hne : ∀ lexeme ∈ statement.tokens, lexeme.token ≠ []) :
    InsertsTo true offset statement.tokens
      (wrapBody (statement.map Lexeme.token) (withBlocks (statement.map Lexeme.token))).tokens
      (addBraces source offset statement ++ braceEdits source offset statement) := by
  unfold wrapBody addBraces
  rw [isBlock_map]
  cases hblock : statement.isBlock with
  | true => exact h.inserts true
  | false =>
    obtain ⟨lexeme, old, tokens, hinside⟩ := h
    obtain ⟨new, inserted, hinserted, rfl, hperm⟩ := hinside.inserts
    have hstart : statement.start offset = offset + utf16Length lexeme.gap := by
      unfold Statement.start Statement.firstGap
      rw [hinside.shape]
      rfl
    have hstop : statement.stop offset = offset + utf16Length lexeme.text + utf16Length (textOf old) := by
      unfold Statement.stop
      rw [hinside.shape, textOf_cons_length]
    have hlength : utf16Length lexeme.text = utf16Length lexeme.gap + utf16Length lexeme.token := utf16Length_append _ _
    have hpos := JMan.Lsp.utf16Length_pos (hne lexeme (hinside.shape ▸ List.mem_cons_self))
    have hplace : ¬ (statement.stop offset ≤ statement.start offset ∨ disabledAt source (statement.start offset) = true) :=
      not_or.mpr ⟨by omega, by rw [henabled]; exact Bool.false_ne_true⟩
    rw [if_neg Bool.false_ne_true, if_neg Bool.false_ne_true, if_neg hplace]
    have hclosing : Inserted false (offset + utf16Length lexeme.text + utf16Length (textOf old)) [] [⟨[], ['\x7d']⟩]
        [⟨statement.stop offset, statement.stop offset, ['\x7d']⟩] := by
      rw [hstop]
      exact .closing .nil
    have hall := Inserted.opening lexeme (hinserted.append hclosing)
    rw [List.append_nil, ← hinside.shape, ← hstart] at hall
    refine ⟨_, _, hall, ?_, ?_⟩
    · simp [Tree.tokens, hinside.blocks]
    · refine (List.Perm.swap _ _ _).trans (.cons _ ?_)
      exact (List.perm_append_singleton _ _).symm.trans (hperm.append_right _)

theorem InsertsBlocks.inserts_elsePart {statement : Statement} (h : InsertsBlocks source offset statement)
    (henabled : ∀ position, disabledAt source position = false) (hne : ∀ lexeme ∈ statement.tokens, lexeme.token ≠ []) :
    InsertsTo true offset statement.tokens
      (if (statement.map Lexeme.token).isIf then withBlocks (statement.map Lexeme.token)
        else wrapBody (statement.map Lexeme.token) (withBlocks (statement.map Lexeme.token))).tokens
      ((if statement.isIf then [] else addBraces source offset statement) ++ braceEdits source offset statement) := by
  rw [isIf_map]
  cases statement.isIf with
  | true => exact h.inserts true
  | false => exact h.inserts_wrapBody henabled hne

/-- **The edits of a tree insert the braces of the tree with blocks as its bodies.** -/
theorem exists_inserted (henabled : ∀ position, disabledAt source position = false) (tree : Tree Lexeme level)
    (hvalid : (tree.map Lexeme.token).Valid) (hne : ∀ lexeme ∈ tree.tokens, lexeme.token ≠ []) (offset : Nat) :
    InsertsBlocks source offset tree := by
  induction tree generalizing offset with
  | simple tokens =>
    obtain ⟨⟨inner, htokens, -⟩, -⟩ := hvalid
    cases tokens with
    | nil => exact absurd htokens.symm (List.append_ne_nil_of_right_ne_nil _ (List.cons_ne_nil _ _))
    | cons lexeme old => exact ⟨lexeme, old, _, rfl, rfl, .refl _ old⟩
  | block opening body closing ih =>
    obtain ⟨-, hne⟩ := List.forall_mem_cons.mp hne
    have hbody := ih hvalid.2.1 (fun lexeme hlexeme => hne lexeme (List.mem_append_left _ hlexeme))
      (offset + utf16Length opening.text)
    have hall := InsertsTo.append hbody (InsertsTo.refl _ [closing])
    rw [List.append_nil] at hall
    exact ⟨opening, _, _, rfl, rfl, hall.weaken⟩
  | labeled label colon body ih =>
    obtain ⟨-, hne⟩ := List.forall_mem_cons.mp hne
    obtain ⟨-, hne⟩ := List.forall_mem_cons.mp hne
    have hbody := (ih hvalid.2.2 hne (offset + utf16Length (textOf [label, colon]))).inserts true
    exact ⟨label, _, _, rfl, rfl, .keepAll [colon] (textOf_cons_length label [colon] offset ▸ hbody)⟩
  | ifThen keyword condition thenPart ih =>
    obtain ⟨-, hne⟩ := List.forall_mem_cons.mp hne
    have hne := fun lexeme hlexeme => hne lexeme (List.mem_append_right condition hlexeme)
    have hbody := (ih hvalid.2.2 hne (offset + utf16Length (textOf (keyword :: condition)))).inserts_wrapBody henabled hne
    exact ⟨keyword, _, _, rfl, rfl, .keepAll condition (textOf_cons_length keyword condition offset ▸ hbody)⟩
  | loop keyword header body ih =>
    obtain ⟨-, hne⟩ := List.forall_mem_cons.mp hne
    have hne := fun lexeme hlexeme => hne lexeme (List.mem_append_right header hlexeme)
    have hbody := (ih hvalid.2.2 hne (offset + utf16Length (textOf (keyword :: header)))).inserts_wrapBody henabled hne
    exact ⟨keyword, _, _, rfl, rfl, .keepAll header (textOf_cons_length keyword header offset ▸ hbody)⟩
  | doWhile keyword body tail ih =>
    obtain ⟨-, hne⟩ := List.forall_mem_cons.mp hne
    have hne := fun lexeme hlexeme => hne lexeme (List.mem_append_left tail hlexeme)
    have hbody := (ih hvalid.2.1 hne (offset + utf16Length keyword.text)).inserts_wrapBody henabled hne
    have hall := hbody.append (InsertsTo.refl _ tail)
    rw [List.append_nil] at hall
    exact ⟨keyword, _, _, rfl, rfl, hall⟩
  | ifElse keyword condition thenPart elseKeyword elsePart ihThen ihElse =>
    obtain ⟨-, hne⟩ := List.forall_mem_cons.mp hne
    have hne := fun lexeme hlexeme => hne lexeme (List.mem_append_right condition hlexeme)
    have hneThen := fun lexeme hlexeme => hne lexeme (List.mem_append_left _ hlexeme)
    have hneElse := fun lexeme hlexeme => hne lexeme (List.mem_append_right _ (List.mem_cons_of_mem elseKeyword hlexeme))
    have hthen := (ihThen hvalid.2.2.1 hneThen (offset + utf16Length (textOf (keyword :: condition)))).inserts_wrapBody
      henabled hneThen
    have helse := ihElse hvalid.2.2.2.2.2 hneElse (offset + utf16Length (textOf (keyword :: condition)) +
      utf16Length (textOf (thenPart.tokens ++ [elseKeyword])))
    have hpart := helse.inserts_elsePart henabled hneElse
    have hlater : offset + utf16Length (textOf (keyword :: condition)) +
        utf16Length (textOf (thenPart.tokens ++ [elseKeyword])) =
          offset + utf16Length (textOf (keyword :: condition)) + utf16Length (textOf thenPart.tokens) +
            utf16Length elseKeyword.text := by
      have hsingle : textOf [elseKeyword] = elseKeyword.text := List.flatMap_singleton ..
      rw [textOf_append, utf16Length_append, ← Nat.add_assoc, hsingle]
    have hall := hthen.append (.keep elseKeyword (hpart.move hlater))
    refine ⟨keyword, _, _, rfl, rfl, .keepAll condition (textOf_cons_length keyword condition offset ▸ hall.perm ?_)⟩
    -- the visitor goes through the parts once it has put braces around both of them
    exact (List.perm_append_left_iff _).mpr (List.perm_append_comm_assoc _ _ _) |>.trans
      (.of_eq (List.append_assoc _ _ _).symm)
  | nil => exact InsertsTo.refl offset []
  | cons first rest ihFirst ihRest =>
    have hfirst := ihFirst hvalid.1 (fun lexeme hlexeme => hne lexeme (List.mem_append_left _ hlexeme)) offset
    have hrest := ihRest hvalid.2 (fun lexeme hlexeme => hne lexeme (List.mem_append_right _ hlexeme))
      (offset + utf16Length (textOf first.tokens))
    exact (hfirst.inserts false).append hrest

end Trees

-- What the new text is read as

section Parsing

variable {level : Level} {isPart : Char → Bool}

theorem valid_wrapBody {body new : Tree Token .statement} (h : new.Valid) : (wrapBody body new).Valid := by
  unfold wrapBody
  split
  · exact h
  · exact ⟨rfl, ⟨h, trivial⟩, rfl⟩

theorem endsShort_wrapBody (body : Tree Token .statement) : (wrapBody body (withBlocks body)).endsShort = false := by
  unfold wrapBody
  split
  · next hblock =>
    cases body with
    | block opening body closing => rfl
    | _ => cases hblock
  · rfl

theorem valid_withBlocks {tree : Tree Token level} (h : tree.Valid) : (withBlocks tree).Valid := by
  induction tree with
  | simple tokens => exact h
  | block opening body closing ih => exact ⟨h.1, ih h.2.1, h.2.2⟩
  | labeled label colon body ih => exact ⟨h.1, h.2.1, ih h.2.2⟩
  | ifThen keyword condition thenPart ih => exact ⟨h.1, h.2.1, valid_wrapBody (ih h.2.2)⟩
  | ifElse keyword condition thenPart elseKeyword elsePart ihThen ihElse =>
    obtain ⟨hkeyword, hcondition, hthen, -, helse, hpart⟩ := h
    refine ⟨hkeyword, hcondition, valid_wrapBody (ihThen hthen), endsShort_wrapBody thenPart, helse, ?_⟩
    split
    · exact ihElse hpart
    · exact valid_wrapBody (ihElse hpart)
  | loop keyword header body ih => exact ⟨h.1, h.2.1, valid_wrapBody (ih h.2.2)⟩
  | doWhile keyword body tail ih => exact ⟨h.1, valid_wrapBody (ih h.2.1), h.2.2⟩
  | nil => trivial
  | cons first rest ihFirst ihRest => exact ⟨ihFirst h.1, ihRest h.2⟩

theorem Reads.parsesAs_iff (hpart : IsWordPart isPart) {lexemes : List Lexeme} {after : Text} {tree : Tree Token .statement}
    (h : Reads isPart after lexemes) (htokens : lexemes.map Lexeme.token = tree.tokens) (hvalid : tree.Valid)
    (other : Tree Token .statement) : ParsesAs isPart after (textOf lexemes) other ↔ other = tree := by
  have hspelled := h.spelled
  rw [htokens] at hspelled
  constructor
  · rintro ⟨tokens, hother, hread⟩
    rw [hother.unique hpart hspelled, Tree.parseStatement_tokens hvalid] at hread
    exact congrArg Prod.fst (Option.some.inj hread.symm)
  · rintro rfl
    exact ⟨_, hspelled, Tree.parseStatement_tokens hvalid⟩

/-- **Bodies are put into blocks, and nothing else changes**: the text was read as its tree, and
the new one is read as the tree with blocks as its bodies. -/
theorem normalizeControlBraces_parses (hpart : IsWordPart isPart) (s : StatementSource isPart)
    (henabled : ∀ position, disabledAt s.source position = false) :
    (∀ tree, ParsesAs isPart s.after s.text tree ↔ tree = s.tree) ∧
      ∃ text, normalizeControlBraces s.source s.offset s.statement = s.before ++ (text ++ s.after) ∧
        ∀ tree, ParsesAs isPart s.after text tree ↔ tree = withBlocks s.tree := by
  have hne := s.reads.token_ne_nil
  have hinserts : InsertsTo false s.offset s.statement.tokens (withBlocks s.tree).tokens
      (braceEdits s.source s.offset s.statement) :=
    (exists_inserted henabled s.statement s.valid hne s.offset).inserts false
  obtain ⟨new, edits, hinserted, htokens, hperm⟩ := hinserts
  have hreads := hinserted.reads (hpart.symbol _ (by decide)) (hpart.symbol _ (by decide)) s.reads
  refine ⟨s.reads.parsesAs_iff hpart (Tree.tokens_map _ _).symm s.valid, textOf new, ?_, ?_⟩
  · exact hinserted.applyEdits_eq hne hperm s.before s.after rfl
  · exact hreads.parsesAs_iff hpart htokens (valid_withBlocks s.valid)

def conditionalCall : StatementSource Char.isAlphanum where
  before := []
  statement := .ifElse ⟨[], "if".toList⟩ [⟨[], ['(']⟩, ⟨[], ['a']⟩, ⟨[], [')']⟩]
    (.simple [⟨[], ['b']⟩, ⟨[], ['(']⟩, ⟨[], [')']⟩, ⟨[], [';']⟩]) ⟨[], "else".toList⟩
    (.simple [⟨[' '], ['c']⟩, ⟨[], ['(']⟩, ⟨[], [')']⟩, ⟨[], [';']⟩])
  after := []
  valid := by
    have hcall : ∀ name : Char, Nested true [[name], ['('], [')']] → [name] ∉ reserved →
        (Tree.simple [[name], ['('], [')'], [';']]).Valid := fun name hnested hname =>
      ⟨⟨_, rfl, hnested⟩, fun token htoken => Option.some.inj htoken ▸ hname, fun hcolon => absurd (Option.some.inj hcolon) (by decide)⟩
    have hgroup : Nested true [['('], [')']] := .group (by decide) (by decide) .nil .nil
    refine ⟨rfl, ⟨[['a']], rfl, ?_⟩, hcall 'b' ?_ (by decide), rfl, rfl, hcall 'c' ?_ (by decide)⟩
    · exact .other (by decide) (by decide) (by decide) .nil
    · exact .other (by decide) (by decide) (by decide) hgroup
    · exact .other (by decide) (by decide) (by decide) hgroup
  reads := by
    have hword : ∀ {text : Text}, text ≠ [] → text.all Char.isAlphanum → IsToken Char.isAlphanum text := fun hne hall =>
      .word hne (List.all_eq_true.mp hall)
    have hsymbol : ∀ {c : Char}, c.isAlphanum = false → ¬ IsBlank c → c ≠ '"' ∧ c ≠ '\'' → IsToken Char.isAlphanum [c] :=
      fun hpart hblank hquote => .symbol hpart hblank hquote
    refine ⟨.nil, hword (by decide) (by decide), .of_endsAt (by decide), ?_⟩
    refine ⟨.nil, hsymbol (by decide) (by decide) (by decide), .of_endsAt (by decide), ?_⟩
    refine ⟨.nil, hword (by decide) (by decide), .of_endsAt (by decide), ?_⟩
    refine ⟨.nil, hsymbol (by decide) (by decide) (by decide), .of_endsAt (by decide), ?_⟩
    refine ⟨.nil, hword (by decide) (by decide), .of_endsAt (by decide), ?_⟩
    refine ⟨.nil, hsymbol (by decide) (by decide) (by decide), .of_endsAt (by decide), ?_⟩
    refine ⟨.nil, hsymbol (by decide) (by decide) (by decide), .of_endsAt (by decide), ?_⟩
    refine ⟨.nil, hsymbol (by decide) (by decide) (by decide), .of_endsAt (by decide), ?_⟩
    refine ⟨.nil, hword (by decide) (by decide), .of_endsAt (by decide), ?_⟩
    refine ⟨.blank (by decide) .nil, hword (by decide) (by decide), .of_endsAt (by decide), ?_⟩
    refine ⟨.nil, hsymbol (by decide) (by decide) (by decide), .of_endsAt (by decide), ?_⟩
    refine ⟨.nil, hsymbol (by decide) (by decide) (by decide), .of_endsAt (by decide), ?_⟩
    exact ⟨.nil, hsymbol (by decide) (by decide) (by decide), .of_endsAt (by decide), trivial⟩

theorem isWordPart_alphanum : IsWordPart Char.isAlphanum where
  blank := by
    rintro c (rfl | rfl | rfl | rfl | rfl) <;> decide
  symbol := by
    intro c hc
    simp only [List.mem_cons, List.not_mem_nil, or_false] at hc
    rcases hc with rfl | rfl | rfl | rfl | rfl <;> decide

theorem conditionalCall_parses :
    (∀ tree, ParsesAs Char.isAlphanum conditionalCall.after conditionalCall.text tree ↔ tree = conditionalCall.tree) ∧
      ∃ text, normalizeControlBraces conditionalCall.source conditionalCall.offset conditionalCall.statement =
          conditionalCall.before ++ (text ++ conditionalCall.after) ∧
        ∀ tree, ParsesAs Char.isAlphanum conditionalCall.after text tree ↔ tree = withBlocks conditionalCall.tree :=
  normalizeControlBraces_parses isWordPart_alphanum conditionalCall (disabledAt_eq_false (by decide))

end Parsing

end JMan.Format
