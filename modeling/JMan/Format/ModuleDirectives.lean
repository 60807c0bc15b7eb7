import JMan.Format.Edits
import Mathlib.Data.List.Chain
import Mathlib.Data.List.Forall2

/-!
# JMan — the directives of a module

`orderedModuleDirectives` of `JavaFormatter.java`: the directives of a module declaration are
sorted, each with the text behind the one before it. What stands behind the last of them is
left out.

* `orderedModuleDirectives_eq` — the edit for a module declaration.
* `ModuleText.keepsComments_iff` — when it keeps the comments, each with its directive.
-/

namespace JMan.Format

open JavaLexis
open JMan.Lsp (utf16Length utf16Length_append)
open JMan.Lsp.ProcessedSemantics (isWhitespace)

-- Positions

/-- `position`, with `none` for `-1` -/
def position (offset : Int) : Option Nat :=
  if offset < 0 ∨ offset > 2147483647 then none else some offset.toNat

structure Token where
  start : Nat
  text : Text
deriving DecidableEq

def Token.stop (token : Token) : Nat := token.start + utf16Length token.text

def firstTokenPosition (start stop : Nat) (expected : Text) : List Token → Option Nat
  | [] => none
  | token :: tokens =>
    if stop ≤ token.start then none
    else if start ≤ token.start ∧ token.stop ≤ stop ∧ token.text = expected then some token.start
    else firstTokenPosition start stop expected tokens

def lastTokenPosition (start stop : Nat) (expected : Text) (found : Option Nat) : List Token → Option Nat
  | [] => found
  | token :: tokens =>
    if stop ≤ token.start then found
    else
      lastTokenPosition start stop expected
        (if start ≤ token.start ∧ token.stop ≤ stop ∧ token.text = expected then some token.start else found)
        tokens

-- Directives

inductive DirectiveKind where
  | requires
  | exports
  | opens
  | uses
  | provides
deriving DecidableEq

/-- A directive of javac's tree, with what its `toString` gives. -/
structure DirectiveTree where
  kind : DirectiveKind
  shown : Text
  start : Int
  stop : Int

structure ModuleTree where
  start : Int
  stop : Int
  directives : List DirectiveTree

structure ModuleDirectiveSource where
  category : Nat
  key : Text
  originalIndex : Nat
  source : Text
deriving DecidableEq

def moduleDirectiveCategory : DirectiveKind → Nat
  | .requires => 0
  | .exports => 1
  | .opens => 2
  | .uses => 3
  | .provides => 4

def ModuleDirectiveSource.place (directive : ModuleDirectiveSource) : Nat ×ₗ List Nat ×ₗ Nat :=
  toLex (directive.category, toLex (units directive.key, directive.originalIndex))

/-- The loop over the directives: each with the source from the end of the one before it. -/
def directiveSources (source : Text) (index cursor : Nat) :
    List DirectiveTree → Option (List ModuleDirectiveSource)
  | [] => some []
  | directive :: directives => do
    let start ← position directive.start
    let stop ← position directive.stop
    if stop ≤ start then none
    else
      let later ← directiveSources source (index + 1) stop directives
      some (⟨moduleDirectiveCategory directive.kind, directive.shown, index,
        strip (substring source cursor stop)⟩ :: later)

def sortDirectives (directives : List ModuleDirectiveSource) : List ModuleDirectiveSource :=
  directives.insertionSort fun left right => left.place ≤ right.place

/-- What stands before a directive: one line end, or two for another category. -/
def directiveSeparator (previous : Option ModuleDirectiveSource) (directive : ModuleDirectiveSource) : Text :=
  match previous with
  | none => []
  | some previous => if previous.category = directive.category then ['\n'] else ['\n', '\n']

def appendDirectives (previous : Option ModuleDirectiveSource) : List ModuleDirectiveSource → Text
  | [] => []
  | directive :: directives =>
    directiveSeparator previous directive ++ (directive.source ++ appendDirectives (some directive) directives)

def directivesBody (directives : List ModuleDirectiveSource) : Text :=
  '\n' :: (appendDirectives none directives ++ ['\n'])

def orderedModuleDirectives (source : Text) (tokens : List Token) (module : ModuleTree) : Option Edit :=
  if module.directives.length < 2 then none
  else do
    let moduleStart ← position module.start
    let moduleEnd ← position module.stop
    let firstStart ← module.directives.head?.bind fun directive => position directive.start
    let lastEnd ← module.directives.getLast?.bind fun directive => position directive.stop
    if moduleEnd ≤ moduleStart then none
    else
      let opening ← lastTokenPosition moduleStart firstStart ['\x7b'] none tokens
      let close ← firstTokenPosition lastEnd moduleEnd ['\x7d'] tokens
      let directives ← directiveSources source 0 (opening + 1) module.directives
      some ⟨opening + 1, close, directivesBody (sortDirectives directives)⟩

-- Directives and their comments

/-- The comments of what is read, without the blanks at their ends. -/
def comments (items : List Item) : List Text :=
  (items.filterMap Item.comment?).map (Lines.trimEnd isWhitespace)

/-- The comments on the line that the text before has begun. -/
def behind (items : List Item) : List Text := comments (items.takeWhile (· ≠ .lineEnd))

/-- The comments above what comes next, and those on its line. -/
def above (items : List Item) : List Text :=
  if .lineEnd ∈ items then comments (items.dropWhile (· ≠ .lineEnd)) else comments items

/-- The comments that belong to the text before only. -/
def apart (items : List Item) : List Text :=
  if .lineEnd ∈ items then behind items else []

/-- A directive as it is read: what stands before it, and its program. -/
structure Entry where
  before : List Item
  code : List Item

def Entry.items (entry : Entry) : List Item := entry.before ++ entry.code

/-- The directives of what is read, up to their semicolons, and what is left. -/
def entriesFrom (before code : List Item) : List Item → List Entry × List Item
  | [] => ([], before ++ code)
  | item :: items =>
    if item = .code ';' then
      let later := entriesFrom [] [] items
      (⟨before, code ++ [item]⟩ :: later.1, later.2)
    else if code = [] ∧ item.isCode = false then entriesFrom (before ++ [item]) [] items
    else entriesFrom before (code ++ [item]) items

/-- A directive, and the comments on its line and directly above it. -/
structure Reading where
  code : List Item
  comments : List Text

def readingsFrom (tail : List Item) : List Entry → List Reading
  | [] => []
  | entry :: entries =>
    ⟨entry.code, above entry.before ++ behind ((entries.head?.map Entry.before).getD tail)⟩ ::
      readingsFrom tail entries

def readings (text : Text) : List Reading :=
  let read := entriesFrom [] [] (itemsOf text)
  readingsFrom read.2 read.1

/-- The same directive, with all of its comments. -/
structure Reading.KeptIn (reading new : Reading) : Prop where
  code : new.code = reading.code
  comments : reading.comments.Subperm new.comments

/-- Every comment is there once, and those of a directive are with it. The directives are
given in their new order. -/
structure KeepsDirectives (range produced : Text) (order : List Nat) : Prop where
  comments : (comments (itemsOf produced)).Perm (comments (itemsOf range))
  directives : List.Forall₂ (fun index new => ∃ reading ∈ (readings range)[index]?, reading.KeptIn new)
    order (readings produced)

-- Module declarations

/-- A directive in a text, without its semicolon, and what stands before it. -/
structure AuthoredDirective where
  kind : DirectiveKind
  shown : Text
  gap : Text
  body : Text
  isGap : Gap gap
  reads : ∃ c items, ReadsAs body (.code c :: items) ∧ .code ';' ∉ .code c :: items
  starts : ∀ c ∈ body.head?, isWhitespace c = false

def AuthoredDirective.text (directive : AuthoredDirective) : Text := directive.body ++ [';']

def AuthoredDirective.source (directive : AuthoredDirective) : Text := directive.gap ++ directive.text

/-- What is sorted of a directive and its number. -/
def directiveSource (directive : AuthoredDirective × Nat) : ModuleDirectiveSource :=
  ⟨moduleDirectiveCategory directive.1.kind, directive.1.shown, directive.2, strip directive.1.source⟩

/-- The text of a module declaration, behind its opening brace to the closing one. -/
structure ModuleText where
  before : Text
  directives : List AuthoredDirective
  tail : Text
  after : Text
  isTail : Gap tail

namespace ModuleText

variable (m : ModuleText)

def range : Text := m.directives.flatMap AuthoredDirective.source ++ m.tail

def source : Text := (m.before ++ ['\x7b']) ++ (m.range ++ ('\x7d' :: m.after))

def opening : Nat := utf16Length m.before

def close : Nat := m.opening + 1 + utf16Length m.range

/-- The trees of directives, where the first of them stands behind an offset. -/
def treesFrom (cursor : Nat) : List AuthoredDirective → List DirectiveTree
  | [] => []
  | directive :: directives =>
    let start := cursor + utf16Length directive.gap
    let stop := start + utf16Length directive.text
    ⟨directive.kind, directive.shown, start, stop⟩ :: treesFrom stop directives

def trees : List DirectiveTree := treesFrom (m.opening + 1) m.directives

end ModuleText

/-- A module declaration as javac reads it: its tree, and the tokens around its braces. -/
structure ModuleDeclaration extends ModuleText where
  start : Nat
  stop : Nat
  starts : start ≤ toModuleText.opening
  stops : toModuleText.close < stop
  short : stop ≤ 2147483647
  earlier : List Token
  inner : List Token
  later : List Token
  earlier_lt : ∀ token ∈ earlier, token.start < toModuleText.opening
  inner_le : ∀ token ∈ inner, ∀ tree ∈ toModuleText.trees.head?, tree.start ≤ token.start
  inner_lt : ∀ token ∈ inner, ∀ tree ∈ toModuleText.trees.getLast?, token.start < tree.stop

namespace ModuleDeclaration

variable (m : ModuleDeclaration)

def tree : ModuleTree := ⟨m.start, m.stop, m.trees⟩

def tokens : List Token :=
  m.earlier ++ ⟨m.opening, ['\x7b']⟩ :: (m.inner ++ ⟨m.close, ['\x7d']⟩ :: m.later)

def sources : List ModuleDirectiveSource := m.directives.zipIdx.map directiveSource

/-- **What is promised**: where the directives are rewritten, their comments are kept. -/
def KeepsComments : Prop :=
  ∀ edit ∈ orderedModuleDirectives m.source m.tokens m.tree,
    KeepsDirectives (substring m.source edit.start edit.stop) edit.replacement
      ((sortDirectives m.sources).map ModuleDirectiveSource.originalIndex)

/-- No comment stands behind the last directive, and what stands on the line behind another
one stands on the line behind the one before it, or the brace, too. -/
def CommentsStandAbove : Prop :=
  comments (itemsOf m.tail) = [] ∧
    ((m.directives.map fun directive => itemsOf directive.gap) ++ [itemsOf m.tail]).IsChain fun gap next =>
      (behind next).Subperm (apart gap)

end ModuleDeclaration

-- Reading directives

section Reading

variable {items rest tail code before : List Item} {entries : List Entry} {directive : AuthoredDirective}

@[simp] theorem comments_append (items rest : List Item) : comments (items ++ rest) = comments items ++ comments rest := by
  unfold comments
  rw [List.filterMap_append, List.map_append]

@[simp] theorem comments_lineEnd (items : List Item) : comments (.lineEnd :: items) = comments items := rfl

theorem behind_lineEnd (items : List Item) : behind (.lineEnd :: items) = [] := rfl

theorem above_lineEnd (items : List Item) : above (.lineEnd :: items) = comments items := by
  unfold above
  rw [if_pos List.mem_cons_self, List.dropWhile_cons_of_neg (by decide)]
  rfl

theorem apart_append_above (items : List Item) : apart items ++ above items = comments items := by
  unfold apart above behind
  split
  · rw [← comments_append, List.takeWhile_append_dropWhile]
  · exact List.nil_append _

structure Entry.IsDirective (entry : Entry) : Prop where
  before : ∀ item ∈ entry.before, item.isCode = false
  code : ∃ c items, entry.code = .code c :: items ++ [.code ';'] ∧ .code ';' ∉ .code c :: items

theorem ne_semicolon {item : Item} (h : item.isCode = false) : item ≠ .code ';' := by
  rintro rfl
  cases h

theorem entriesFrom_before (hitems : ∀ item ∈ items, item.isCode = false) (before rest : List Item) :
    entriesFrom before [] (items ++ rest) = entriesFrom (before ++ items) [] rest := by
  induction items generalizing before with
  | nil => rw [List.nil_append, List.append_nil]
  | cons item items ih =>
    have hitem := hitems item List.mem_cons_self
    rw [List.cons_append, entriesFrom, if_neg (ne_semicolon hitem), if_pos ⟨rfl, hitem⟩,
      ih (fun later hlater => hitems later (List.mem_cons_of_mem _ hlater)), List.append_assoc]
    rfl

theorem entriesFrom_code (hitems : .code ';' ∉ items) (hcode : code ≠ []) (before rest : List Item) :
    entriesFrom before code (items ++ rest) = entriesFrom before (code ++ items) rest := by
  induction items generalizing code with
  | nil => rw [List.nil_append, List.append_nil]
  | cons item items ih =>
    obtain ⟨hitem, hlater⟩ := List.ne_and_not_mem_of_not_mem_cons hitems
    rw [List.cons_append, entriesFrom, if_neg (Ne.symm hitem), if_neg fun h => hcode h.1,
      ih hlater (List.append_ne_nil_of_right_ne_nil _ (List.cons_ne_nil _ _)), List.append_assoc]
    rfl

theorem entriesFrom_directive {entry : Entry} (h : entry.IsDirective) (rest : List Item) :
    entriesFrom [] [] (entry.before ++ (entry.code ++ rest)) =
      (entry :: (entriesFrom [] [] rest).1, (entriesFrom [] [] rest).2) := by
  obtain ⟨c, items, hcode, hitems⟩ := h.code
  obtain ⟨hc, hitems⟩ := List.ne_and_not_mem_of_not_mem_cons hitems
  rw [entriesFrom_before h.before, List.nil_append, hcode, List.cons_append, List.cons_append, entriesFrom,
    if_neg (Ne.symm hc), if_neg fun h => Bool.noConfusion h.2, List.append_assoc, List.nil_append,
    entriesFrom_code hitems (List.cons_ne_nil _ _), List.singleton_append, List.singleton_append, entriesFrom,
    if_pos rfl, ← hcode]

/-- **Directives one behind the other are read as they are.** -/
theorem entriesFrom_flatMap (h : ∀ entry ∈ entries, entry.IsDirective)
    (htail : ∀ item ∈ tail, item.isCode = false) :
    entriesFrom [] [] (entries.flatMap Entry.items ++ tail) = (entries, tail) := by
  induction entries with
  | nil =>
    have hend := entriesFrom_before htail [] []
    rw [List.append_nil, List.nil_append] at hend
    rw [List.flatMap_nil, List.nil_append, hend]
    exact congrArg (Prod.mk []) (List.append_nil tail)
  | cons entry entries ih =>
    rw [List.flatMap_cons, Entry.items, List.append_assoc, List.append_assoc,
      entriesFrom_directive (h entry List.mem_cons_self), ih fun later hlater => h later (List.mem_cons_of_mem _ hlater)]

end Reading

-- Authored directives

namespace AuthoredDirective

variable {directive : AuthoredDirective}

def code (directive : AuthoredDirective) : List Item := itemsOf directive.body ++ [.code ';']

def entry (directive : AuthoredDirective) : Entry := ⟨itemsOf directive.gap, directive.code⟩

theorem readsAs_text (directive : AuthoredDirective) : ReadsAs directive.text directive.code := by
  obtain ⟨c, items, hreads, -⟩ := directive.reads
  exact hreads.self.append (.cons (by decide) .nil)

theorem readsAs_gap (directive : AuthoredDirective) : ReadsAs directive.gap (itemsOf directive.gap) := by
  obtain ⟨items, hreads, -⟩ := directive.isGap.readsAs
  exact hreads.self

theorem readsAs_source (directive : AuthoredDirective) : ReadsAs directive.source directive.entry.items :=
  directive.readsAs_gap.append directive.readsAs_text

theorem exists_code (directive : AuthoredDirective) :
    ∃ c items, directive.code = .code c :: items ++ [.code ';'] ∧ .code ';' ∉ .code c :: items := by
  obtain ⟨c, items, hreads, hitems⟩ := directive.reads
  exact ⟨c, items, by rw [code, hreads.itemsOf], hitems⟩

end AuthoredDirective

-- The texts that are put together

section Produced

variable {directive : AuthoredDirective} {directives : List AuthoredDirective} {gap : Text}

theorem isWhitespace_of_isBlank {c : Char} (h : IsBlank c) : isWhitespace c = true := by
  rcases h with rfl | rfl | rfl | rfl | rfl <;> decide

theorem readsAs_stripped (h : Gap gap) :
    ∃ items, ReadsAs (gap.dropWhile isWhitespace) items ∧ (∀ item ∈ items, item.isCode = false) ∧
      comments items = comments (itemsOf gap) := by
  induction h with
  | nil => exact ⟨[], .nil, fun item hitem => absurd hitem List.not_mem_nil, rfl⟩
  | @blank c rest hc hrest ih =>
    obtain ⟨items, hitems, hcode, hcomments⟩ := ih
    have hslash : c ≠ '/' := by
      rintro rfl
      exact absurd hc (by decide)
    obtain ⟨restItems, hrestItems, -⟩ := hrest.readsAs
    refine ⟨items, ?_, hcode, ?_⟩
    · rwa [List.dropWhile_cons_of_pos (isWhitespace_of_isBlank hc)]
    · rw [hcomments, (hrestItems.cons hslash).itemsOf, hrestItems.itemsOf]
      show _ = ((Item.ofChar c :: restItems).filterMap Item.comment?).map _
      rw [List.filterMap_cons_none (Item.comment?_ofChar c)]
      rfl
  | line hbody hc hrest ih =>
    obtain ⟨items, hitems, hcode⟩ := (Gap.line hbody hc hrest).readsAs
    exact ⟨items, hitems, hcode, congrArg comments hitems.itemsOf.symm⟩
  | block hbody hrest ih =>
    obtain ⟨items, hitems, hcode⟩ := (Gap.block hbody hrest).readsAs
    exact ⟨items, hitems, hcode, congrArg comments hitems.itemsOf.symm⟩

theorem strip_source (directive : AuthoredDirective) :
    strip directive.source = directive.gap.dropWhile isWhitespace ++ directive.text := by
  have htext : directive.text.dropWhile isWhitespace = directive.text := by
    obtain ⟨c, items, hreads, -⟩ := directive.reads
    refine Lines.trimStart_of_first fun d hd => directive.starts d ?_
    cases hbody : directive.body with
    | nil =>
      rw [hbody] at hreads
      cases hreads
    | cons e body =>
      rw [AuthoredDirective.text, hbody] at hd
      exact hd
  have hstart : directive.source.dropWhile isWhitespace = directive.gap.dropWhile isWhitespace ++ directive.text := by
    rw [AuthoredDirective.source, List.dropWhile_append]
    split
    · next hempty => rw [htext, List.isEmpty_iff.mp hempty, List.nil_append]
    · rfl
  rw [strip, Lines.trim, Lines.trimStart, hstart]
  refine Lines.trimEnd_of_last fun c hc => ?_
  rw [AuthoredDirective.text, ← List.append_assoc, List.getLast?_concat] at hc
  cases hc
  decide

/-- A directive in its new place, on a line of its own. -/
structure Renders (directive : AuthoredDirective) (entry : Entry) : Prop where
  isDirective : entry.IsDirective
  code : entry.code = directive.code
  before : ∃ items, entry.before = .lineEnd :: items ∧ comments items = comments (itemsOf directive.gap)

theorem exists_renders (directive : AuthoredDirective) {breaks : Text} (hbreaks : breaks = ['\n'] ∨ breaks = ['\n', '\n']) :
    ∃ entry, Renders directive entry ∧ ReadsAs (breaks ++ strip directive.source) entry.items := by
  obtain ⟨items, hitems, hcode, hcomments⟩ := readsAs_stripped directive.isGap
  have htext : ReadsAs (strip directive.source) (items ++ directive.code) := by
    rw [strip_source]
    exact hitems.append directive.readsAs_text
  rcases hbreaks with rfl | rfl
  · exact ⟨⟨.lineEnd :: items, directive.code⟩,
      ⟨⟨List.forall_mem_cons.mpr ⟨rfl, hcode⟩, directive.exists_code⟩, rfl, items, rfl, hcomments⟩,
      .cons (by decide) htext⟩
  · exact ⟨⟨.lineEnd :: .lineEnd :: items, directive.code⟩,
      ⟨⟨List.forall_mem_cons.mpr ⟨rfl, List.forall_mem_cons.mpr ⟨rfl, hcode⟩⟩, directive.exists_code⟩, rfl,
        .lineEnd :: items, rfl, hcomments⟩,
      .cons (by decide) (.cons (by decide) htext)⟩

/-- What is read of a directive in its new place. -/
def rendered (directive : AuthoredDirective × Nat) : Reading :=
  ⟨directive.1.code, comments (itemsOf directive.1.gap)⟩

variable {sorted : List (AuthoredDirective × Nat)} {entries : List Entry}

theorem appendDirectives_reads (previous : ModuleDirectiveSource) (sorted : List (AuthoredDirective × Nat)) :
    ∃ entries, List.Forall₂ (fun directive => Renders directive.1) sorted entries ∧
      ReadsAs (appendDirectives (some previous) (sorted.map directiveSource) ++ ['\n'])
        (entries.flatMap Entry.items ++ [.lineEnd]) := by
  induction sorted generalizing previous with
  | nil => exact ⟨[], .nil, .cons (by decide) .nil⟩
  | cons directive sorted ih =>
    obtain ⟨entries, hentries, hreads⟩ := ih (directiveSource directive)
    have hbreaks : directiveSeparator (some previous) (directiveSource directive) = ['\n'] ∨
        directiveSeparator (some previous) (directiveSource directive) = ['\n', '\n'] := by
      unfold directiveSeparator
      dsimp only
      split
      · exact .inl rfl
      · exact .inr rfl
    obtain ⟨entry, hentry, hfirst⟩ := exists_renders directive.1 hbreaks
    refine ⟨entry :: entries, .cons hentry hentries, ?_⟩
    have hall := hfirst.append hreads
    rw [List.append_assoc] at hall
    rw [List.map_cons, appendDirectives, List.append_assoc, List.append_assoc, List.flatMap_cons,
      List.append_assoc entry.items]
    exact hall

theorem directivesBody_reads (hne : sorted ≠ []) :
    ∃ entries, List.Forall₂ (fun directive => Renders directive.1) sorted entries ∧
      ReadsAs (directivesBody (sorted.map directiveSource)) (entries.flatMap Entry.items ++ [.lineEnd]) := by
  obtain ⟨directive, sorted, rfl⟩ := List.exists_cons_of_ne_nil hne
  obtain ⟨entries, hentries, hreads⟩ := appendDirectives_reads (directiveSource directive) sorted
  obtain ⟨entry, hentry, hfirst⟩ := exists_renders directive.1 (.inl rfl)
  refine ⟨entry :: entries, .cons hentry hentries, ?_⟩
  rw [List.flatMap_cons, List.append_assoc]
  show ReadsAs (['\n'] ++ (strip directive.1.source ++ _ ++ ['\n'])) _
  rw [List.append_assoc, ← List.append_assoc]
  exact hfirst.append hreads

theorem isDirective_renders (h : List.Forall₂ (fun directive => Renders directive.1) sorted entries) :
    ∀ entry ∈ entries, entry.IsDirective := by
  induction h with
  | nil => exact fun entry hentry => absurd hentry List.not_mem_nil
  | cons hentry _ ih => exact List.forall_mem_cons.mpr ⟨hentry.isDirective, ih⟩

theorem behind_next (h : List.Forall₂ (fun directive => Renders directive.1) sorted entries) :
    behind ((entries.head?.map Entry.before).getD [.lineEnd]) = [] := by
  cases h with
  | nil => rfl
  | cons hentry _ =>
    obtain ⟨items, hbefore, -⟩ := hentry.before
    show behind (Entry.before _) = []
    rw [hbefore, behind_lineEnd]

theorem readingsFrom_renders (h : List.Forall₂ (fun directive => Renders directive.1) sorted entries) :
    readingsFrom [.lineEnd] entries = sorted.map rendered := by
  induction h with
  | nil => rfl
  | cons hentry hentries ih =>
    obtain ⟨items, hbefore, hcomments⟩ := hentry.before
    rw [readingsFrom, behind_next hentries, ih, hentry.code, hbefore, above_lineEnd, hcomments, List.append_nil]
    rfl

theorem comments_renders (h : List.Forall₂ (fun directive => Renders directive.1) sorted entries) :
    comments (entries.flatMap Entry.items ++ [.lineEnd]) =
      sorted.flatMap fun directive => comments directive.1.entry.items := by
  induction h with
  | nil => rfl
  | cons hentry hentries ih =>
    obtain ⟨items, hbefore, hcomments⟩ := hentry.before
    rw [List.flatMap_cons, List.append_assoc, comments_append, ih, List.flatMap_cons, Entry.items, hbefore, hentry.code,
      comments_append, comments_lineEnd, hcomments, ← comments_append]
    rfl

end Produced

-- The edit of a module declaration

section Edit

variable {m : ModuleDeclaration} {directives : List AuthoredDirective}

theorem position_natCast {offset : Nat} (h : offset ≤ 2147483647) : position (offset : Int) = some offset := by
  unfold position
  rw [if_neg (by omega), Int.toNat_natCast]

theorem utf16Length_text_pos (directive : AuthoredDirective) : 0 < utf16Length directive.text :=
  JMan.Lsp.utf16Length_pos (List.append_ne_nil_of_right_ne_nil _ (List.cons_ne_nil _ _))

theorem directiveSources_eq (before rest : Text) (index : Nat) (directives : List AuthoredDirective)
    (hshort : utf16Length before + utf16Length (directives.flatMap AuthoredDirective.source) ≤ 2147483647) :
    directiveSources (before ++ (directives.flatMap AuthoredDirective.source ++ rest)) index (utf16Length before)
        (ModuleText.treesFrom (utf16Length before) directives) =
      some ((directives.zipIdx index).map directiveSource) := by
  induction directives generalizing before index with
  | nil => rfl
  | cons directive directives ih =>
    have hpos := utf16Length_text_pos directive
    have hsplit : before ++ ((directive :: directives).flatMap AuthoredDirective.source ++ rest) =
        (before ++ directive.source) ++ (directives.flatMap AuthoredDirective.source ++ rest) := by
      rw [List.flatMap_cons, List.append_assoc, List.append_assoc]
    have hstop : utf16Length (before ++ directive.source) =
        utf16Length before + utf16Length directive.gap + utf16Length directive.text := by
      rw [AuthoredDirective.source, utf16Length_append, utf16Length_append, Nat.add_assoc]
    rw [List.flatMap_cons, utf16Length_append, ← Nat.add_assoc, ← utf16Length_append] at hshort
    have hlater := ih (before ++ directive.source) (index + 1) hshort
    have hlength : utf16Length before + utf16Length directive.gap + utf16Length directive.text ≤ 2147483647 := by
      omega
    have hsource : substring (before ++ ((directive :: directives).flatMap AuthoredDirective.source ++ rest))
        (utf16Length before) (utf16Length before + utf16Length directive.gap + utf16Length directive.text) =
          directive.source := by
      have htext := substring_append before directive.source (directives.flatMap AuthoredDirective.source ++ rest)
      rwa [← List.append_assoc, ← hsplit, ← utf16Length_append, hstop] at htext
    rw [← hsplit, hstop] at hlater
    simp only [ModuleText.treesFrom, directiveSources, position_natCast hlength,
      position_natCast (Nat.le_of_add_right_le hlength), Option.bind_eq_bind, Option.bind_some, hsource, hlater]
    rw [if_neg (by omega)]
    rfl

theorem length_treesFrom (cursor : Nat) (directives : List AuthoredDirective) :
    (ModuleText.treesFrom cursor directives).length = directives.length := by
  induction directives generalizing cursor with
  | nil => rfl
  | cons directive directives ih => exact congrArg (· + 1) (ih _)

theorem bounds_of_mem_treesFrom {cursor : Nat} {tree : DirectiveTree}
    (h : tree ∈ ModuleText.treesFrom cursor directives) :
    ∃ start stop : Nat, tree.start = start ∧ tree.stop = stop ∧ cursor ≤ start ∧ start < stop ∧
      stop ≤ cursor + utf16Length (directives.flatMap AuthoredDirective.source) := by
  induction directives generalizing cursor with
  | nil => exact absurd h List.not_mem_nil
  | cons directive directives ih =>
    have hpos := utf16Length_text_pos directive
    have hlength : utf16Length ((directive :: directives).flatMap AuthoredDirective.source) =
        utf16Length directive.gap + utf16Length directive.text +
          utf16Length (directives.flatMap AuthoredDirective.source) := by
      rw [List.flatMap_cons, utf16Length_append, AuthoredDirective.source, utf16Length_append]
    rcases List.mem_cons.mp h with rfl | h
    · exact ⟨_, _, rfl, rfl, Nat.le_add_right _ _, by omega, by omega⟩
    · obtain ⟨start, stop, hstart, hstop, hle, hlt, hend⟩ := ih h
      exact ⟨start, stop, hstart, hstop, by omega, hlt, by omega⟩

theorem lastTokenPosition_append {earlier : List Token} {stop : Nat} (h : ∀ token ∈ earlier, token.start < stop)
    (start : Nat) (expected : Text) (found : Option Nat) (tokens : List Token) :
    ∃ found', lastTokenPosition start stop expected found (earlier ++ tokens) =
      lastTokenPosition start stop expected found' tokens := by
  induction earlier generalizing found with
  | nil => exact ⟨found, rfl⟩
  | cons token earlier ih =>
    rw [List.cons_append, lastTokenPosition, if_neg (Nat.not_le.mpr (h token List.mem_cons_self))]
    exact ih (fun later hlater => h later (List.mem_cons_of_mem _ hlater)) _

theorem lastTokenPosition_stop {tokens : List Token} {start stop : Nat} {expected : Text} {found : Option Nat}
    (h : ∀ token ∈ tokens.head?, stop ≤ token.start) :
    lastTokenPosition start stop expected found tokens = found := by
  cases tokens with
  | nil => rfl
  | cons token tokens => rw [lastTokenPosition, if_pos (h token rfl)]

theorem firstTokenPosition_append {earlier tokens : List Token} {start stop : Nat} {expected : Text}
    (hstart : ∀ token ∈ earlier, token.start < start) (hstop : start ≤ stop) :
    firstTokenPosition start stop expected (earlier ++ tokens) = firstTokenPosition start stop expected tokens := by
  induction earlier with
  | nil => rfl
  | cons token earlier ih =>
    have htoken := hstart token List.mem_cons_self
    rw [List.cons_append, firstTokenPosition, if_neg (by omega), if_neg fun h => by omega]
    exact ih fun later hlater => hstart later (List.mem_cons_of_mem _ hlater)

theorem utf16Length_range (m : ModuleText) :
    utf16Length m.range = utf16Length (m.directives.flatMap AuthoredDirective.source) + utf16Length m.tail :=
  utf16Length_append _ _

/-- **The edit replaces all that stands between the braces.** -/
theorem orderedModuleDirectives_eq (hlength : 2 ≤ m.directives.length) :
    orderedModuleDirectives m.source m.tokens m.tree =
      some ⟨m.opening + 1, m.close, directivesBody (sortDirectives m.sources)⟩ := by
  have hrange := utf16Length_range m.toModuleText
  have hclose : m.close = m.opening + 1 + utf16Length m.range := rfl
  have hstarts := m.starts
  have hstops := m.stops
  have hshort := m.short
  have htrees : m.trees ≠ [] := by
    intro hnil
    have hzero := length_treesFrom (m.opening + 1) m.directives
    rw [show ModuleText.treesFrom (m.opening + 1) m.directives = [] from hnil] at hzero
    exact absurd (hzero ▸ hlength) (by decide)
  -- the first and the last directive
  have hhead := List.head?_eq_some_head htrees
  have hlast := List.getLast?_eq_some_getLast htrees
  obtain ⟨firstStart, firstStop, hfirst, -, hfirst_ge, hfirst_lt, hfirst_le⟩ :=
    bounds_of_mem_treesFrom (List.head_mem htrees)
  obtain ⟨lastStart, lastEnd, -, hend, hlast_ge, hlast_lt, hlast_le⟩ :=
    bounds_of_mem_treesFrom (List.getLast_mem htrees)
  have hinner_le : ∀ token ∈ m.inner, firstStart ≤ token.start := by
    intro token htoken
    have hle := m.inner_le token htoken _ hhead
    rw [hfirst] at hle
    exact Int.ofNat_le.mp hle
  have hinner_lt : ∀ token ∈ m.inner, token.start < lastEnd := by
    intro token htoken
    have hlt := m.inner_lt token htoken _ hlast
    rw [hend] at hlt
    exact Int.ofNat_lt.mp hlt
  have hopening : lastTokenPosition m.start firstStart ['\x7b'] none m.tokens = some m.opening := by
    have hearlier : ∀ token ∈ m.earlier, token.start < firstStart := fun token htoken =>
      Nat.lt_trans (m.earlier_lt token htoken) hfirst_ge
    obtain ⟨found, hfound⟩ := lastTokenPosition_append hearlier m.start ['\x7b'] none
      (⟨m.opening, ['\x7b']⟩ :: (m.inner ++ ⟨m.close, ['\x7d']⟩ :: m.later))
    have hbrace : Token.stop ⟨m.opening, ['\x7b']⟩ = m.opening + 1 := rfl
    rw [ModuleDeclaration.tokens, hfound, lastTokenPosition, if_neg (by dsimp only; omega),
      if_pos ⟨hstarts, by omega, rfl⟩]
    refine lastTokenPosition_stop fun token htoken => ?_
    cases hinner : m.inner with
    | nil =>
      rw [hinner] at htoken
      cases htoken
      dsimp only
      omega
    | cons first inner =>
      rw [hinner] at htoken
      cases htoken
      exact hinner_le _ (hinner ▸ List.mem_cons_self)
  have hclosing : firstTokenPosition lastEnd m.stop ['\x7d'] m.tokens = some m.close := by
    have hearlier : ∀ token ∈ m.earlier ++ (⟨m.opening, ['\x7b']⟩ :: m.inner), token.start < lastEnd := by
      intro token htoken
      rcases List.mem_append.mp htoken with htoken | htoken
      · have hlt := m.earlier_lt token htoken
        omega
      · rcases List.mem_cons.mp htoken with rfl | htoken
        · dsimp only
          omega
        · exact hinner_lt token htoken
    have hbrace : Token.stop ⟨m.close, ['\x7d']⟩ = m.close + 1 := rfl
    have htokens : m.tokens = (m.earlier ++ (⟨m.opening, ['\x7b']⟩ :: m.inner)) ++ ⟨m.close, ['\x7d']⟩ :: m.later := by
      rw [List.append_assoc]
      rfl
    rw [htokens, firstTokenPosition_append hearlier (by omega), firstTokenPosition, if_neg (by dsimp only; omega),
      if_pos ⟨by dsimp only; omega, by omega, rfl⟩]
  have hsources : directiveSources m.source 0 (m.opening + 1) m.trees = some m.sources := by
    have heq := directiveSources_eq (m.before ++ ['\x7b']) (m.tail ++ '\x7d' :: m.after) 0 m.directives
      (by rw [utf16Length_append]; show m.opening + 1 + _ ≤ _; omega)
    rw [utf16Length_append, ← List.append_assoc (m.directives.flatMap _)] at heq
    exact heq
  unfold orderedModuleDirectives
  rw [if_neg (by rw [show m.tree.directives.length = m.directives.length from length_treesFrom _ _]; omega)]
  have hfirst_at : m.tree.directives.head?.bind (fun directive => position directive.start) = some firstStart := by
    rw [show m.tree.directives.head? = _ from hhead, Option.bind_some, hfirst, position_natCast (by omega)]
  have hend_at : m.tree.directives.getLast?.bind (fun directive => position directive.stop) = some lastEnd := by
    rw [show m.tree.directives.getLast? = _ from hlast, Option.bind_some, hend, position_natCast (by omega)]
  have hstart_at : position m.tree.start = some m.start := position_natCast (by omega)
  have hstop_at : position m.tree.stop = some m.stop := position_natCast hshort
  simp only [hstart_at, hstop_at, hfirst_at, hend_at, Option.bind_eq_bind, Option.bind_some]
  rw [if_neg (by omega), hopening, Option.bind_some, hclosing, Option.bind_some,
    show directiveSources m.source 0 (m.opening + 1) m.tree.directives = _ from hsources, Option.bind_some]

theorem sortDirectives_map (directives : List (AuthoredDirective × Nat)) :
    sortDirectives (directives.map directiveSource) =
      (directives.insertionSort fun left right =>
        (directiveSource left).place ≤ (directiveSource right).place).map directiveSource := by
  unfold sortDirectives
  rw [List.map_insertionSort _ fun left right : ModuleDirectiveSource => left.place ≤ right.place]
  exact fun _ _ _ _ => Iff.rfl

theorem keptIn_iff {gap next code : List Item} :
    Reading.KeptIn ⟨code, above gap ++ behind next⟩ ⟨code, comments gap⟩ ↔ (behind next).Subperm (apart gap) := by
  have hcomments : (above gap ++ behind next).Subperm (comments gap) ↔ (behind next).Subperm (apart gap) := by
    rw [← apart_append_above, List.perm_append_comm.subperm_left, List.subperm_append_left]
  exact ⟨fun h => hcomments.mp h.comments, fun h => ⟨rfl, hcomments.mpr h⟩⟩

/-- The directives of the range are kept if what stands behind one of them on its line
stands behind the one before it. -/
theorem forall₂_readingsFrom (directives : List AuthoredDirective) (tail : List Item) :
    List.Forall₂ (fun directive reading => Reading.KeptIn reading ⟨directive.code, comments (itemsOf directive.gap)⟩)
        directives (readingsFrom tail (directives.map AuthoredDirective.entry)) ↔
      ((directives.map fun directive => itemsOf directive.gap) ++ [tail]).IsChain fun gap next =>
        (behind next).Subperm (apart gap) := by
  induction directives with
  | nil => exact ⟨fun _ => .singleton _, fun _ => .nil⟩
  | cons directive directives ih =>
    have hnext : ((directives.map fun directive => itemsOf directive.gap) ++ [tail]).head? =
        some (((directives.map AuthoredDirective.entry).head?.map Entry.before).getD tail) := by
      cases directives <;> rfl
    rw [List.map_cons, readingsFrom, List.forall₂_cons, ih, List.map_cons, List.cons_append, List.isChain_cons, hnext,
      show directive.entry.code = directive.code from rfl, show directive.entry.before = itemsOf directive.gap from rfl,
      keptIn_iff]
    exact and_congr_left fun _ => ⟨fun h _ hb => Option.some.inj hb ▸ h, fun h => h _ rfl⟩

theorem length_readingsFrom (tail : List Item) (entries : List Entry) :
    (readingsFrom tail entries).length = entries.length := by
  induction entries with
  | nil => rfl
  | cons entry entries ih => exact congrArg (· + 1) ih

theorem forall_zipIdx_iff {α β : Type} {R : α → β → Prop} {l : List α} {l' : List β} (hlength : l.length = l'.length) :
    (∀ entry ∈ l.zipIdx, ∃ b ∈ l'[entry.2]?, R entry.1 b) ↔ List.Forall₂ R l l' := by
  rw [List.forall₂_iff_get]
  constructor
  · refine fun h => ⟨hlength, fun i hi hi' => ?_⟩
    obtain ⟨b, hb, hR⟩ := h (l[i], i) (List.mk_mem_zipIdx_iff_getElem?.mpr (List.getElem?_eq_getElem hi))
    rw [List.getElem?_eq_getElem hi'] at hb
    cases hb
    exact hR
  · rintro ⟨-, h⟩ ⟨a, i⟩ hmem
    obtain ⟨hi, rfl⟩ := List.getElem?_eq_some_iff.mp (List.mk_mem_zipIdx_iff_getElem?.mp hmem)
    exact ⟨_, List.getElem?_eq_getElem (hlength ▸ hi), h i hi (hlength ▸ hi)⟩

theorem range_reads (m : ModuleText) :
    ReadsAs m.range ((m.directives.map AuthoredDirective.entry).flatMap Entry.items ++ itemsOf m.tail) := by
  obtain ⟨items, htail, -⟩ := m.isTail.readsAs
  refine ReadsAs.append ?_ htail.self
  induction m.directives with
  | nil => exact .nil
  | cons directive directives ih => exact directive.readsAs_source.append ih

theorem readings_range (m : ModuleText) :
    readings m.range = readingsFrom (itemsOf m.tail) (m.directives.map AuthoredDirective.entry) := by
  unfold readings
  rw [(range_reads m).itemsOf, entriesFrom_flatMap _ m.isTail.isCode_itemsOf]
  intro entry hentry
  obtain ⟨directive, -, rfl⟩ := List.mem_map.mp hentry
  exact ⟨directive.isGap.isCode_itemsOf, directive.exists_code⟩

theorem comments_range (m : ModuleText) :
    comments (itemsOf m.range) =
      (m.directives.flatMap fun directive => comments directive.entry.items) ++ comments (itemsOf m.tail) := by
  rw [(range_reads m).itemsOf, comments_append]
  congr 1
  induction m.directives with
  | nil => rfl
  | cons directive directives ih => rw [List.map_cons, List.flatMap_cons, comments_append, ih, List.flatMap_cons]

theorem flatMap_zipIdx {α β : Type} (f : α → List β) (l : List α) (n : Nat) :
    ((l.zipIdx n).flatMap fun entry => f entry.1) = l.flatMap f := by
  induction l generalizing n with
  | nil => rfl
  | cons a l ih => rw [List.zipIdx_cons, List.flatMap_cons, ih, List.flatMap_cons]

theorem keepsDirectives_iff {sorted : List (AuthoredDirective × Nat)} (hsorted : sorted.Perm m.directives.zipIdx)
    (hne : sorted ≠ []) :
    KeepsDirectives m.range (directivesBody (sorted.map directiveSource)) (sorted.map Prod.snd) ↔
      m.CommentsStandAbove := by
  obtain ⟨entries, hrenders, hreads⟩ := directivesBody_reads hne
  have hreadings : readings (directivesBody (sorted.map directiveSource)) = sorted.map rendered := by
    unfold readings
    rw [hreads.itemsOf, entriesFrom_flatMap (isDirective_renders hrenders) (by decide), readingsFrom_renders hrenders]
  have hproduced : (comments (itemsOf (directivesBody (sorted.map directiveSource)))).Perm
      (m.directives.flatMap fun directive => comments directive.entry.items) := by
    rw [hreads.itemsOf, comments_renders hrenders, ← flatMap_zipIdx _ m.directives 0]
    exact hsorted.flatMap_right _
  have hcomments : (comments (itemsOf (directivesBody (sorted.map directiveSource)))).Perm
      (comments (itemsOf m.range)) ↔ comments (itemsOf m.tail) = [] := by
    rw [hproduced.congr_left, comments_range]
    constructor
    · intro hperm
      have hlength := hperm.length_eq
      rw [List.length_append] at hlength
      exact List.length_eq_zero_iff.mp (by omega)
    · intro hnil
      rw [hnil, List.append_nil]
  have hdirectives : List.Forall₂ (fun index new => ∃ reading ∈ (readings m.range)[index]?, reading.KeptIn new)
      (sorted.map Prod.snd) (readings (directivesBody (sorted.map directiveSource))) ↔
        ((m.directives.map fun directive => itemsOf directive.gap) ++ [itemsOf m.tail]).IsChain fun gap next =>
          (behind next).Subperm (apart gap) := by
    have hlength : m.directives.length = (readings m.range).length := by
      rw [readings_range, length_readingsFrom, List.length_map]
    rw [← forall₂_readingsFrom, ← readings_range, ← forall_zipIdx_iff hlength, hreadings, List.forall₂_map_left_iff,
      List.forall₂_map_right_iff, List.forall₂_same]
    exact ⟨fun h entry hentry => h entry (hsorted.mem_iff.mpr hentry),
      fun h entry hentry => h entry (hsorted.mem_iff.mp hentry)⟩
  exact ⟨fun h => ⟨hcomments.mp h.comments, hdirectives.mp h.directives⟩,
    fun h => ⟨hcomments.mpr h.1, hdirectives.mpr h.2⟩⟩

/-- **The comments are kept exactly where they stand above the directives.** -/
theorem ModuleDeclaration.keepsComments_iff (m : ModuleDeclaration) :
    m.KeepsComments ↔ m.directives.length < 2 ∨ m.CommentsStandAbove := by
  by_cases hlength : m.directives.length < 2
  · refine iff_of_true (fun edit hedit => ?_) (.inl hlength)
    have hnone : orderedModuleDirectives m.source m.tokens m.tree = none := by
      unfold orderedModuleDirectives
      rw [if_pos (by rw [show m.tree.directives.length = m.directives.length from length_treesFrom _ _]; exact hlength)]
    rw [hnone] at hedit
    cases hedit
  · rw [or_iff_right hlength]
    have hedit := orderedModuleDirectives_eq (m := m) (Nat.not_lt.mp hlength)
    have hperm := List.perm_insertionSort (fun left right => (directiveSource left).place ≤ (directiveSource right).place)
      m.directives.zipIdx
    have hne : m.directives.zipIdx.insertionSort
        (fun left right => (directiveSource left).place ≤ (directiveSource right).place) ≠ [] := by
      intro hnil
      have hzero := hperm.length_eq
      rw [hnil, List.length_zipIdx, List.length_nil] at hzero
      omega
    have hrange : substring m.source (m.opening + 1) m.close = m.range := by
      have htext := substring_append (m.before ++ ['\x7b']) m.range ('\x7d' :: m.after)
      rwa [utf16Length_append] at htext
    have horder : (sortDirectives m.sources).map ModuleDirectiveSource.originalIndex =
        (m.directives.zipIdx.insertionSort fun left right =>
          (directiveSource left).place ≤ (directiveSource right).place).map Prod.snd := by
      rw [ModuleDeclaration.sources, sortDirectives_map, List.map_map]
      rfl
    unfold ModuleDeclaration.KeepsComments
    rw [hedit]
    simp only [Option.mem_def, Option.some.injEq, forall_eq', hrange, horder]
    rw [ModuleDeclaration.sources, sortDirectives_map]
    exact keepsDirectives_iff hperm hne

end Edit

end JMan.Format
