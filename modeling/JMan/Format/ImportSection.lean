import JMan.Format.ModuleDirectives
import Mathlib.Data.List.Dedup

/-!
# JMan — the imports of a text

`expandedImports` of `JavaFormatter.java` replaces all imports by those that are used, and
`importChoices` reads the marks of the imports that are preferred. What attribution says
about the names of a text is given.

* `losesNoComment_iff` — when the rewriting of directives and imports keeps all comments.
-/

namespace JMan.Format

open JavaLexis
open JMan.Lsp (utf16Length)

-- Names

structure QualifiedName where
  text : Text
  plain : '/' ∉ text
deriving DecidableEq

/-- `name.endsWith(".*")`, with what stands before. -/
def QualifiedName.wildcard? (name : QualifiedName) : Option Text := ['.', '*'].isSuffixOf? name.text

/-- `name.lastIndexOf('.')`: what stands before it, and behind it. -/
def lastSeparator (name : Text) : Option (Text × Text) :=
  if '.' ∈ name then
    let simple := name.rtakeWhile (· ≠ '.')
    some ((name.rdropWhile (· ≠ '.')).dropLast, simple)
  else none

def packageOf (name : Text) : Text := ((lastSeparator name).map Prod.fst).getD []

def simpleOf (name : Text) : Text := ((lastSeparator name).map Prod.snd).getD name

def sortNames (names : List QualifiedName) : List QualifiedName :=
  names.insertionSort fun left right => units left.text ≤ units right.text

-- Compilation units

structure ImportTree where
  name : QualifiedName
  isStatic : Bool
  start : Nat
  stop : Nat

/-- The package of a compilation unit with the end of its declaration, and its imports. -/
structure CompilationUnit where
  package : Option (Text × Nat)
  imports : List ImportTree

structure ReferencedType where
  package : Text
  name : QualifiedName

/-- What attribution says: the types that are referenced, and the top-level type with a name. -/
structure Attribution where
  complete : Bool
  referenced : List ReferencedType
  identifiers : List Text
  getTypeElement : Text → Option QualifiedName
  candidates : List (Text × List QualifiedName)
  simpleReferences : Text → List QualifiedName

def preferImport : Text := "// jjfs: prefer-import".toList

def restOfLine (source : Text) (offset : Nat) : Text := (splitAtUnit offset source).2.takeWhile (· ≠ '\n')

def preferredImportDirective (source : Text) (imported : ImportTree) : Bool :=
  imported.stop ≤ utf16Length source ∧ strip (restOfLine source imported.stop) = preferImport

-- Choices

structure ImportChoices where
  selectedBySimpleName : List (Text × QualifiedName)
  preferredImports : List QualifiedName

/-- `Map.put` -/
def put {α : Type} (map : List (Text × α)) (key : Text) (value : α) : List (Text × α) :=
  map.filter (fun entry => entry.1 ≠ key) ++ [(key, value)]

def get? {α : Type} (map : List (Text × α)) (key : Text) : Option α :=
  (map.find? fun entry => entry.1 = key).map Prod.snd

def putPreferred (source : Text) (preferred : List (Text × QualifiedName)) (imported : ImportTree) :
    List (Text × QualifiedName) :=
  if imported.isStatic ∨ imported.name.wildcard?.isSome ∨ !preferredImportDirective source imported then preferred
  else
    match lastSeparator imported.name.text with
    | none => preferred
    | some (_, simple) => put preferred simple imported.name

def chooseImport (preferred : List (Text × QualifiedName)) (attribution : Attribution)
    (entry : Text × List QualifiedName) : Option (Text × QualifiedName) :=
  (sortNames entry.2).head?.map fun first =>
    let choice :=
      match attribution.simpleReferences entry.1 with
      | [boundType] => if boundType ∈ entry.2 then boundType else first
      | _ => first
    match get? preferred entry.1 with
    | some preference => (entry.1, if preference ∈ entry.2 then preference else choice)
    | none => (entry.1, choice)

def importChoices (source : Text) (unit : CompilationUnit) (attribution : Attribution) : ImportChoices :=
  let preferred := unit.imports.foldl (putPreferred source) []
  ⟨attribution.candidates.filterMap (chooseImport preferred attribution), preferred.map Prod.snd⟩

def ImportChoices.selected (choices : ImportChoices) (name : QualifiedName) : Bool :=
  (get? choices.selectedBySimpleName (simpleOf name.text)).all (· = name)

def ImportChoices.preferred (choices : ImportChoices) (name : QualifiedName) : Bool := name ∈ choices.preferredImports

-- The new imports

section Imports

variable (attribution : Attribution)

/-- What a wildcard import of a package stands for. -/
def expansion (package : Text) : List QualifiedName :=
  (attribution.referenced.filter fun type => type.package = package).map ReferencedType.name ++
    attribution.identifiers.filterMap fun identifier => attribution.getTypeElement (package ++ '.' :: identifier)

/-- A referenced type has this name, or is nested in one that has. -/
def used (name : QualifiedName) : Bool :=
  attribution.referenced.any fun type => type.name = name || (name.text ++ ['.']).isPrefixOf type.name.text

def ordinaryNames (imported : ImportTree) : List QualifiedName :=
  match imported.name.wildcard?, imported.isStatic with
  | some package, false => if attribution.complete then expansion attribution package else [imported.name]
  | none, false => if !attribution.complete || used attribution imported.name then [imported.name] else []
  | _, true => []

def staticNames (imported : ImportTree) : List QualifiedName :=
  if imported.isStatic ∧ !attribution.complete then [imported.name] else []

def isVisible (unit : CompilationUnit) (name : QualifiedName) : Bool :=
  packageOf name.text = "java.lang".toList ∨ packageOf name.text = (unit.package.map Prod.fst).getD []

def ordinaryImports (unit : CompilationUnit) (additional : List QualifiedName) (choices : ImportChoices) :
    List QualifiedName :=
  (((unit.imports.flatMap (ordinaryNames attribution) ++ additional).dedup).filter choices.selected).filter
    fun name => !isVisible unit name

def staticImports (unit : CompilationUnit) : List QualifiedName :=
  (unit.imports.flatMap (staticNames attribution)).dedup

def importLine (choices : ImportChoices) (name : QualifiedName) : Text :=
  "import ".toList ++ name.text ++ [';'] ++ (if choices.preferred name then ' ' :: preferImport else [])

def staticImportLine (name : QualifiedName) : Text := "import static ".toList ++ name.text ++ [';']

def importLines (ordinary statics : List QualifiedName) (choices : ImportChoices) : List Text :=
  (sortNames ordinary).map (importLine choices) ++ (if ordinary ≠ [] ∧ statics ≠ [] then [[]] else []) ++
    (sortNames statics).map staticImportLine

/-- The place of the imports: from the first to the last, and to the end of the line where a
mark stands behind that. -/
def importRange (source : Text) (unit : CompilationUnit) : Nat × Nat :=
  match unit.imports.head?, unit.imports.getLast? with
  | some first, some last =>
    (first.start,
      if preferredImportDirective source last then last.stop + utf16Length (restOfLine source last.stop) else last.stop)
  | _, _ =>
    let start := (unit.package.map Prod.snd).getD 0
    (start, start)

def expandedImports (source : Text) (unit : CompilationUnit) (additional : List QualifiedName)
    (choices : ImportChoices) : Option Edit :=
  if unit.imports = [] ∧ additional = [] then none
  else
    let ordinary := ordinaryImports attribution unit additional choices
    let lines := importLines ordinary (staticImports attribution unit) choices
    let leading := if unit.package.isNone then [] else ['\n', '\n']
    let range := importRange source unit
    some ⟨range.1, range.2, if lines = [] then [] else leading ++ ['\n'].intercalate lines ++ ['\n', '\n']⟩

end Imports

-- What is promised

/-- A compilation unit with what is said of it. -/
structure ImportSection where
  source : Text
  unit : CompilationUnit
  attribution : Attribution
  additional : List QualifiedName

namespace ImportSection

variable (s : ImportSection)

def choices : ImportChoices := importChoices s.source s.unit s.attribution

/-- Every comment between the imports is there once where they are rewritten. -/
def KeepsComments : Prop :=
  ∀ edit ∈ expandedImports s.attribution s.source s.unit s.additional s.choices,
    (comments (itemsOf edit.replacement)).Perm (comments (itemsOf (substring s.source edit.start edit.stop)))

def IsImported (name : QualifiedName) : Prop :=
  (name ∈ s.additional ∨ ∃ imported ∈ s.unit.imports, name ∈ ordinaryNames s.attribution imported) ∧
    s.choices.selected name ∧ isVisible s.unit name = false

instance (name : QualifiedName) : Decidable (s.IsImported name) := inferInstanceAs (Decidable (_ ∧ _))

/-- The comments between the imports are marks, as many as preferred imports stay. -/
def OnlyMarks : Prop :=
  comments (itemsOf (substring s.source (importRange s.source s.unit).1 (importRange s.source s.unit).2)) =
    List.replicate (s.choices.preferredImports.filter s.IsImported).length preferImport

end ImportSection

-- The comments of the new imports

section Comments

variable {text before after : Text} {found more : List Text} {choices : ImportChoices} {s : ImportSection}

/-- A text that does not end in a comment, and the comments of it. -/
def HasComments (text : Text) (found : List Text) : Prop := ∃ items, ReadsAs text items ∧ comments items = found

theorem HasComments.append (h : HasComments before found) (h' : HasComments after more) :
    HasComments (before ++ after) (found ++ more) := by
  obtain ⟨items, hreads, rfl⟩ := h
  obtain ⟨items', hreads', rfl⟩ := h'
  exact ⟨items ++ items', hreads.append hreads', comments_append items items'⟩

theorem HasComments.eq (h : HasComments text found) : comments (itemsOf text) = found := by
  obtain ⟨items, hreads, rfl⟩ := h
  rw [hreads.itemsOf]

theorem HasComments.plain (h : '/' ∉ text) : HasComments text [] := by
  refine ⟨_, .plain h, ?_⟩
  unfold comments
  rw [List.filterMap_map, List.map_eq_nil_iff, List.filterMap_eq_nil_iff]
  exact fun c _ => Item.comment?_ofChar c

theorem HasComments.flatMap {α : Type} {l : List α} {f : α → Text} {g : α → List Text}
    (h : ∀ a ∈ l, HasComments (f a) (g a)) : HasComments (l.flatMap f) (l.flatMap g) := by
  induction l with
  | nil => exact ⟨[], .nil, rfl⟩
  | cons a l ih =>
    exact (h a List.mem_cons_self).append (ih fun b hb => h b (List.mem_cons_of_mem a hb))

def marks (choices : ImportChoices) (name : QualifiedName) : List Text :=
  if choices.preferred name then [preferImport] else []

theorem importLine_comments (choices : ImportChoices) (name : QualifiedName) :
    HasComments (importLine choices name ++ ['\n']) (marks choices name) := by
  have hplain : HasComments ("import ".toList ++ name.text ++ [';']) [] := by
    refine .plain fun hmem => ?_
    rcases List.mem_append.mp hmem with hmem | hmem
    · rcases List.mem_append.mp hmem with hmem | hmem
      · exact absurd hmem (by decide)
      · exact name.plain hmem
    · exact absurd hmem (by decide)
  have hmark : HasComments ((if choices.preferred name then ' ' :: preferImport else []) ++ ['\n']) (marks choices name) := by
    unfold marks
    by_cases hpreferred : choices.preferred name
    · rw [if_pos hpreferred, if_pos hpreferred]
      exact ⟨[.blank, .comment preferImport, .lineEnd], by unfold ReadsAs; decide, by decide⟩
    · rw [if_neg hpreferred, if_neg hpreferred]
      exact ⟨[.lineEnd], .cons (by decide) .nil, rfl⟩
  have hall := hplain.append hmark
  rw [List.nil_append, ← List.append_assoc] at hall
  exact hall

theorem staticImportLine_comments (name : QualifiedName) : HasComments (staticImportLine name ++ ['\n']) [] := by
  refine .plain fun hmem => ?_
  rcases List.mem_append.mp hmem with hmem | hmem
  · rcases List.mem_append.mp hmem with hmem | hmem
    · rcases List.mem_append.mp hmem with hmem | hmem
      · exact absurd hmem (by decide)
      · exact name.plain hmem
    · exact absurd hmem (by decide)
  · exact absurd hmem (by decide)

theorem unlines_importLines_comments (ordinary statics : List QualifiedName) (choices : ImportChoices) :
    HasComments (Lines.unlines (importLines ordinary statics choices)) ((sortNames ordinary).flatMap (marks choices)) := by
  unfold Lines.unlines importLines
  rw [List.flatMap_append, List.flatMap_append, List.flatMap_map, List.flatMap_map]
  have hordinary : HasComments ((sortNames ordinary).flatMap fun name => importLine choices name ++ ['\n'])
      ((sortNames ordinary).flatMap (marks choices)) :=
    .flatMap fun name _ => importLine_comments choices name
  have hstatics : HasComments ((sortNames statics).flatMap fun name => staticImportLine name ++ ['\n'])
      ((sortNames statics).flatMap fun _ => []) :=
    .flatMap fun name _ => staticImportLine_comments name
  have hgap : HasComments ((if ordinary ≠ [] ∧ statics ≠ [] then [[]] else []).flatMap fun line => line ++ ['\n']) [] := by
    split
    · exact ⟨[.lineEnd], .cons (by decide) .nil, rfl⟩
    · exact ⟨[], .nil, rfl⟩
  have hall := (hordinary.append hgap).append hstatics
  rw [List.flatMap_eq_nil_iff.mpr fun _ _ => rfl, List.append_nil, List.append_nil] at hall
  exact hall

theorem flatMap_marks (choices : ImportChoices) (names : List QualifiedName) :
    names.flatMap (marks choices) = List.replicate (names.filter choices.preferred).length preferImport := by
  induction names with
  | nil => rfl
  | cons name names ih =>
    rw [List.flatMap_cons, ih, marks]
    by_cases hpreferred : choices.preferred name
    · rw [if_pos hpreferred, List.filter_cons_of_pos hpreferred]
      rfl
    · rw [if_neg hpreferred, List.filter_cons_of_neg hpreferred]
      rfl

theorem ordinary_eq_nil {ordinary statics : List QualifiedName} (h : importLines ordinary statics choices = []) :
    sortNames ordinary = [] := by
  have hleft := (List.append_eq_nil_iff.mp h).1
  exact List.map_eq_nil_iff.mp (List.append_eq_nil_iff.mp hleft).1

/-- **The comments of the new imports are their marks.** -/
theorem expandedImports_comments {edit : Edit}
    (h : edit ∈ expandedImports s.attribution s.source s.unit s.additional s.choices) :
    comments (itemsOf edit.replacement) =
      List.replicate ((sortNames (ordinaryImports s.attribution s.unit s.additional s.choices)).filter
        s.choices.preferred).length preferImport := by
  unfold expandedImports at h
  split at h
  · cases h
  · cases h
    rw [← flatMap_marks]
    have hlines := unlines_importLines_comments (ordinaryImports s.attribution s.unit s.additional s.choices)
      (staticImports s.attribution s.unit) s.choices
    dsimp only
    split
    · next hnil =>
      rw [ordinary_eq_nil hnil]
      rfl
    · next hne =>
      obtain ⟨line, lines, hcons⟩ := List.exists_cons_of_ne_nil hne
      have hleading : HasComments (if s.unit.package.isNone then [] else ['\n', '\n']) [] := by
        split
        · exact ⟨[], .nil, rfl⟩
        · exact ⟨[.lineEnd, .lineEnd], .cons (by decide) (.cons (by decide) .nil), rfl⟩
      have hend : HasComments ['\n'] [] := ⟨[.lineEnd], .cons (by decide) .nil, rfl⟩
      rw [hcons] at hlines ⊢
      have hall := (hleading.append hlines).append hend
      rw [← Lines.intercalate_append, List.nil_append, List.append_nil, List.append_assoc, List.append_assoc,
        ← List.append_assoc] at hall
      exact hall.eq

theorem nodup_ordinaryImports (attribution : Attribution) (unit : CompilationUnit) (additional : List QualifiedName)
    (choices : ImportChoices) : (ordinaryImports attribution unit additional choices).Nodup :=
  ((List.nodup_dedup _).filter _).filter _

theorem mem_ordinaryImports_iff {name : QualifiedName} :
    name ∈ ordinaryImports s.attribution s.unit s.additional s.choices ↔ s.IsImported name := by
  unfold ordinaryImports ImportSection.IsImported
  rw [List.mem_filter, List.mem_filter, List.mem_dedup, List.mem_append, List.mem_flatMap, and_assoc, Bool.not_eq_true',
    or_comm]

/-- A map from simple names to names that have them. -/
structure BySimpleName (map : List (Text × QualifiedName)) : Prop where
  keys : (map.map Prod.fst).Nodup
  simple : ∀ entry ∈ map, simpleOf entry.2.text = entry.1

theorem BySimpleName.put {map : List (Text × QualifiedName)} (h : BySimpleName map) {key : Text} {name : QualifiedName}
    (hname : simpleOf name.text = key) : BySimpleName (put map key name) where
  keys := by
    unfold Format.put
    rw [List.map_append]
    refine List.nodup_append.mpr ⟨h.keys.sublist (List.filter_sublist.map _), List.nodup_singleton _, ?_⟩
    intro a ha b hb hab
    obtain ⟨entry, hentry, rfl⟩ := List.mem_map.mp ha
    obtain rfl := List.mem_singleton.mp hb
    exact of_decide_eq_true (List.mem_filter.mp hentry).2 hab
  simple := by
    intro entry hentry
    rcases List.mem_append.mp hentry with hentry | hentry
    · exact h.simple entry (List.mem_of_mem_filter hentry)
    · obtain rfl := List.mem_singleton.mp hentry
      exact hname

theorem BySimpleName.putPreferred {map : List (Text × QualifiedName)} (h : BySimpleName map) (source : Text)
    (imported : ImportTree) : BySimpleName (putPreferred source map imported) := by
  unfold Format.putPreferred
  split
  · exact h
  · split
    · exact h
    · next hseparator =>
      refine h.put ?_
      unfold simpleOf
      rw [hseparator]
      rfl

theorem bySimpleName_preferred (source : Text) (imports : List ImportTree) :
    BySimpleName (imports.foldl (putPreferred source) []) := by
  induction imports using List.reverseRecOn with
  | nil => exact ⟨List.nodup_nil, fun entry hentry => absurd hentry List.not_mem_nil⟩
  | append_singleton imports imported ih =>
    rw [List.foldl_append]
    exact ih.putPreferred source imported

theorem nodup_preferredImports (s : ImportSection) : s.choices.preferredImports.Nodup := by
  have hmap := bySimpleName_preferred s.source s.unit.imports
  have hkeys : s.choices.preferredImports.map (fun name => simpleOf name.text) =
      (s.unit.imports.foldl (putPreferred s.source) []).map Prod.fst := by
    show ((s.unit.imports.foldl (putPreferred s.source) []).map Prod.snd).map _ = _
    rw [List.map_map]
    exact List.map_congr_left hmap.simple
  exact .of_map _ (hkeys ▸ hmap.keys)

theorem length_preferred (s : ImportSection) :
    ((sortNames (ordinaryImports s.attribution s.unit s.additional s.choices)).filter s.choices.preferred).length =
      (s.choices.preferredImports.filter s.IsImported).length := by
  refine List.Perm.length_eq ((List.perm_ext_iff_of_nodup ?_ ?_).mpr fun name => ?_)
  · exact ((List.perm_insertionSort _ _).nodup_iff.mpr (nodup_ordinaryImports _ _ _ _)).filter _
  · exact (nodup_preferredImports s).filter _
  · rw [List.mem_filter, List.mem_filter, sortNames, List.mem_insertionSort, mem_ordinaryImports_iff, decide_eq_true_eq,
      ImportChoices.preferred, decide_eq_true_eq, and_comm]

/-- **The comments between imports are kept exactly where they are marks that stay.** -/
theorem ImportSection.keepsComments_iff (s : ImportSection) : s.KeepsComments ↔ s.OnlyMarks := by
  by_cases hempty : s.unit.imports = [] ∧ s.additional = []
  · refine iff_of_true (fun edit hedit => ?_) ?_
    · unfold expandedImports at hedit
      rw [if_pos hempty] at hedit
      cases hedit
    · have hnone : s.choices.preferredImports = [] := by
        show (s.unit.imports.foldl (putPreferred s.source) []).map Prod.snd = []
        rw [hempty.1]
        rfl
      unfold ImportSection.OnlyMarks importRange
      rw [hnone, hempty.1]
      dsimp only [List.head?_nil]
      rw [substring, Nat.sub_self, splitAtUnit]
      rfl
  · obtain ⟨edit, hedit, hrange⟩ : ∃ edit ∈ expandedImports s.attribution s.source s.unit s.additional s.choices,
        (edit.start, edit.stop) = importRange s.source s.unit := by
      unfold expandedImports
      rw [if_neg hempty]
      exact ⟨_, rfl, rfl⟩
    have hcomments := expandedImports_comments hedit
    rw [length_preferred] at hcomments
    unfold ImportSection.KeepsComments ImportSection.OnlyMarks
    rw [Option.mem_def.mp hedit, ← hrange]
    simp only [Option.mem_def, Option.some.injEq, forall_eq', hcomments]
    exact ⟨fun h => List.perm_replicate.mp h.symm, fun h => h ▸ .refl _⟩

end Comments

/-- **Comments are lost but for those that stand above the directives of a module, and the
marks of the imports that stay.** -/
theorem losesNoComment_iff (m : ModuleDeclaration) (s : ImportSection) :
    (m.KeepsComments ↔ m.directives.length < 2 ∨ m.CommentsStandAbove) ∧ (s.KeepsComments ↔ s.OnlyMarks) :=
  ⟨m.keepsComments_iff, s.keepsComments_iff⟩

def requiresDirective (name : Char) (hname : ReadsAs ("requires ".toList ++ [name]) (("requires ".toList ++ [name]).map Item.ofChar))
    (hsemicolon : .code ';' ∉ ("requires ".toList ++ [name]).map Item.ofChar) : AuthoredDirective where
  kind := .requires
  shown := "requires ".toList ++ [name, ';']
  gap := "\n  ".toList
  body := "requires ".toList ++ [name]
  isGap := .blank (by decide) (.blank (by decide) (.blank (by decide) .nil))
  reads := ⟨'r', _, hname, hsemicolon⟩
  starts := by
    intro c hc
    cases hc
    decide

def modulesOfShop : ModuleDeclaration where
  before := "module shop ".toList
  directives := [requiresDirective 'a' (.plain (by decide)) (by decide), requiresDirective 'b' (.plain (by decide)) (by decide)]
  tail := " // keep\n".toList
  after := []
  isTail := .blank (by decide) (@Gap.line " keep".toList [] '\n' (List.all_iff_forall_prop.mp (by decide)) (by decide) .nil)
  start := 0
  stop := 51
  starts := by decide
  stops := by decide
  short := by decide
  earlier := [⟨0, "module".toList⟩, ⟨7, "shop".toList⟩]
  inner := [⟨16, "requires".toList⟩, ⟨25, "a".toList⟩, ⟨26, ";".toList⟩, ⟨30, "requires".toList⟩, ⟨39, "b".toList⟩, ⟨40, ";".toList⟩]
  later := []
  earlier_lt := by decide
  inner_le := by decide
  inner_lt := by decide

theorem comment_behind_last_is_lost :
    modulesOfShop.source = "module shop \x7b\n  requires a;\n  requires b; // keep\n\x7d".toList ∧ ¬ modulesOfShop.KeepsComments := by
  refine ⟨by decide, fun hkeeps => ?_⟩
  rcases modulesOfShop.keepsComments_iff.mp hkeeps with hlength | habove
  · exact absurd hlength (by decide)
  · exact absurd habove.1 (by decide)

end JMan.Format
