import JMan.Lsp.Server

/-!
# JMan — the symbols of a text

`analyze` and `parseWorkspace` of `JavacFrontend.java`, from what javac says of the trees
of a text: which symbols are reported, and the ranges `identifierRange` gives them. A
range is where the name of the symbol stands in its tree; it is all of the tree where the
name does not stand there (`range_cases`).
-/

namespace JMan.Lsp

-- Names in texts
-- ---

/-- `text.length()` -/
def utf16Length : Text → Nat
  | [] => 0
  | c :: rest => lenUtf16 c + utf16Length rest

@[simp] theorem utf16Length_append (before after : Text) :
    utf16Length (before ++ after) = utf16Length before + utf16Length after := by
  induction before with
  | nil => exact (Nat.zero_add _).symm
  | cons c rest ih =>
    show lenUtf16 c + utf16Length (rest ++ after) = lenUtf16 c + utf16Length rest + utf16Length after
    rw [ih, Nat.add_assoc]

theorem lenUtf16_pos (c : Char) : 0 < lenUtf16 c := by
  unfold lenUtf16
  split <;> decide

theorem utf16Length_pos {text : Text} (h : text ≠ []) : 0 < utf16Length text := by
  cases text with
  | nil => exact absurd rfl h
  | cons c rest => exact Nat.add_pos_left (lenUtf16_pos c) _

/-- A place where a name stands in a text, and the characters around it. -/
structure Occurrence where
  offset : Nat
  previous : Option Char
  next : Option Char
deriving DecidableEq

/-- The places where a name stands in what is left of a text after an offset. -/
def occurrencesFrom (name : Text) (offset : Nat) (previous : Option Char) : Text → List Occurrence
  | [] => []
  | c :: rest =>
    let later := occurrencesFrom name (offset + lenUtf16 c) (some c) rest
    if name.isPrefixOf (c :: rest) then
      ⟨offset, previous, ((c :: rest).drop name.length).head?⟩ :: later
    else later

section Ranges

variable (isJavaIdentifierPart : Char → Bool)

/-- `Character.isJavaIdentifierPart(char)`, which no half of a surrogate pair is -/
def unitIsIdentifierPart (c : Char) : Bool := c.val < 0x10000 && isJavaIdentifierPart c

/-- `leftBoundary && rightBoundary` -/
def Occurrence.isBounded (occurrence : Occurrence) : Bool :=
  occurrence.previous.all (fun c => !unitIsIdentifierPart isJavaIdentifierPart c) &&
    occurrence.next.all (fun c => !unitIsIdentifierPart isJavaIdentifierPart c)

/-- The loop of `identifierRange`, over the places it comes to. -/
def searchFrom (start stop length : Nat) : List Occurrence → Option Nat
  | [] => none
  | occurrence :: rest =>
    if start ≤ occurrence.offset ∧ occurrence.offset + length ≤ stop then
      if occurrence.isBounded isJavaIdentifierPart then some occurrence.offset
      else searchFrom start stop length rest
    else none

/-- Where `identifierRange` finds a name; the last place in a reference is the first
one it comes to. -/
def findIdentifier (source : Text) (treeStart treeEnd : Nat) (name : Text) (declaration : Bool) :
    Option Nat :=
  if name = [] ∨ name.head? = some '<' then none
  else
    let start := min treeStart (utf16Length source)
    let stop := min treeEnd (utf16Length source)
    let length := utf16Length name
    let occurrences := occurrencesFrom name 0 none source
    searchFrom isJavaIdentifierPart start stop length
      (if declaration then occurrences.filter fun occurrence => start ≤ occurrence.offset
      else (occurrences.filter fun occurrence => occurrence.offset ≤ max start (stop - length)).reverse)

def identifierRange (source : Text) (treeStart treeEnd : Nat) (name : Text) (declaration : Bool) :
    Nat × Nat :=
  match findIdentifier isJavaIdentifierPart source treeStart treeEnd name declaration with
  | some start => (start, start + utf16Length name)
  | none => (treeStart, treeEnd)

end Ranges

-- Trees
-- ---

/-- A tree that is reported under a name; a tree without a position has a negative
one. -/
structure NamedTree where
  start : Int
  stop : Int
  name : String
  isDeclaration : Bool
deriving DecidableEq

/-- A tree with an element, and what javac says of it: the supertypes of a type, the
family of a method, and the method around a use of a method. -/
structure SymbolTree extends NamedTree where
  isSymbolTree : Bool
  isWriteAccess : Bool
  kind : String
  qualifiedName : String
  symbolId : String
  supertypes : List (String × String)
  overrideFamily : String
  callerId : String

structure PackageTree where
  start : Int
  stop : Int
  name : String
  qualifiedName : String
  symbolId : String

def PackageTree.named (tree : PackageTree) : NamedTree := ⟨tree.start, tree.stop, tree.name, true⟩

structure CompilationUnit where
  package : Option PackageTree
  trees : List SymbolTree

/-- A tree of `parseWorkspace`. -/
structure StructuralTree extends NamedTree where
  kind : String
  qualifiedName : String

section Symbols

variable (isJavaIdentifierPart : Char → Bool) (source : Text)

def NamedTree.range (tree : NamedTree) : Nat × Nat :=
  identifierRange isJavaIdentifierPart source tree.start.toNat tree.stop.toNat tree.name.toList
    tree.isDeclaration

def NamedTree.isSpelled (tree : NamedTree) : Bool :=
  (findIdentifier isJavaIdentifierPart source tree.start.toNat tree.stop.toNat tree.name.toList
    tree.isDeclaration).isSome

/-- `start >= 0 && end >= start` -/
def NamedTree.isPlaced (tree : NamedTree) : Bool := 0 ≤ tree.start && tree.start ≤ tree.stop

def NamedTree.symbol (tree : NamedTree) (role kind name qualifiedName symbolId : String) :
    SemanticSymbol :=
  ⟨role, kind, name, qualifiedName, symbolId, (tree.range isJavaIdentifierPart source).1,
    (tree.range isJavaIdentifierPart source).2⟩

def PackageTree.symbols (tree : PackageTree) : List SemanticSymbol :=
  [tree.named.symbol isJavaIdentifierPart source "declaration" "package" tree.name tree.qualifiedName
    tree.symbolId]

def SymbolTree.role (tree : SymbolTree) : String :=
  if tree.isDeclaration then "declaration" else if tree.isWriteAccess then "write" else "reference"

/-- The symbols `scan` adds for a tree. -/
def SymbolTree.symbols (tree : SymbolTree) : List SemanticSymbol :=
  let symbol := tree.toNamedTree.symbol isJavaIdentifierPart source
  if tree.isPlaced && tree.isSymbolTree then
    symbol tree.role tree.kind tree.name tree.qualifiedName tree.symbolId ::
      ((if tree.isDeclaration then tree.supertypes.map fun supertype =>
        symbol "type_edge" "type" supertype.1 tree.symbolId supertype.2 else []) ++
      (if tree.overrideFamily ≠ "" then
        [symbol "override_family" "method" tree.name tree.overrideFamily tree.symbolId] else []) ++
      (if !tree.isDeclaration && tree.callerId ≠ "" then
        [symbol "call_edge" "method" tree.name tree.callerId tree.symbolId] else []))
  else []

/-- The symbols of `analyze` -/
def CompilationUnit.symbols (unit : CompilationUnit) : List SemanticSymbol :=
  unit.package.toList.flatMap (PackageTree.symbols isJavaIdentifierPart source) ++
    unit.trees.flatMap (SymbolTree.symbols isJavaIdentifierPart source)

/-- `addStructuralSymbol` -/
def StructuralTree.symbols (tree : StructuralTree) : List SemanticSymbol :=
  if tree.isPlaced then
    [tree.toNamedTree.symbol isJavaIdentifierPart source
      (if tree.isDeclaration then "declaration" else "reference") tree.kind tree.name
      tree.qualifiedName tree.qualifiedName]
  else []

/-- The symbols of a file of `parseWorkspace` -/
def structuralSymbols (trees : List StructuralTree) : List SemanticSymbol :=
  trees.flatMap (StructuralTree.symbols isJavaIdentifierPart source)

end Symbols

-- Where names stand
-- ---

section Standing

variable {isJavaIdentifierPart : Char → Bool} {source name before after text : Text}
  {occurrence : Occurrence} {occurrences : List Occurrence} {start stop length offset offset' : Nat}
  {previous : Option Char} {declaration : Bool}

theorem of_mem_occurrencesFrom (h : occurrence ∈ occurrencesFrom name offset previous text) :
    ∃ before after, text = before ++ name ++ after ∧ occurrence.offset = offset + utf16Length before ∧
      occurrence.previous = before.getLast?.or previous ∧ occurrence.next = after.head? := by
  induction text generalizing offset previous with
  | nil => exact absurd h List.not_mem_nil
  | cons c rest ih =>
    have hlater : occurrence ∈ occurrencesFrom name (offset + lenUtf16 c) (some c) rest →
        ∃ before after, c :: rest = before ++ name ++ after ∧
          occurrence.offset = offset + utf16Length before ∧
          occurrence.previous = before.getLast?.or previous ∧ occurrence.next = after.head? := by
      intro hmem
      obtain ⟨before, after, rfl, hoffset, hprevious, hnext⟩ := ih hmem
      refine ⟨c :: before, after, rfl, ?_, ?_, hnext⟩
      · rw [hoffset, utf16Length, Nat.add_assoc]
      · rw [hprevious, List.getLast?_cons]
        cases before.getLast? <;> rfl
    unfold occurrencesFrom at h
    dsimp only at h
    split at h
    · next hprefix =>
      rcases List.mem_cons.mp h with rfl | hmem
      · obtain ⟨after, hafter⟩ := List.isPrefixOf_iff_prefix.mp hprefix
        refine ⟨[], after, hafter.symm, rfl, rfl, ?_⟩
        rw [← hafter, List.drop_left]
      · exact hlater hmem
    · exact hlater h

theorem of_searchFrom (h : searchFrom isJavaIdentifierPart start stop length occurrences = some offset) :
    ∃ occurrence ∈ occurrences, occurrence.isBounded isJavaIdentifierPart ∧ occurrence.offset = offset := by
  induction occurrences with
  | nil => cases h
  | cons first rest ih =>
    unfold searchFrom at h
    split at h
    · split at h
      · next hbounded => exact ⟨first, List.mem_cons_self, hbounded, Option.some.inj h⟩
      · obtain ⟨occurrence, hmem, hfound⟩ := ih h
        exact ⟨occurrence, List.mem_cons_of_mem _ hmem, hfound⟩
    · cases h

/-- The name stands at the offset, as a word of its own. -/
def StandsAt (isJavaIdentifierPart : Char → Bool) (source name : Text) (offset : Nat) : Prop :=
  ∃ before after, source = before ++ name ++ after ∧ utf16Length before = offset ∧
    before.getLast?.all (fun c => !unitIsIdentifierPart isJavaIdentifierPart c) ∧
    after.head?.all (fun c => !unitIsIdentifierPart isJavaIdentifierPart c)

/-- **What `identifierRange` finds is the name.** -/
theorem standsAt_of_findIdentifier {treeStart treeEnd : Nat}
    (h : findIdentifier isJavaIdentifierPart source treeStart treeEnd name declaration = some offset) :
    name ≠ [] ∧ StandsAt isJavaIdentifierPart source name offset := by
  unfold findIdentifier at h
  split at h
  · cases h
  · next hname =>
    obtain ⟨occurrence, hmem, hbounded, rfl⟩ := of_searchFrom h
    have hoccurs : occurrence ∈ occurrencesFrom name 0 none source := by
      split at hmem
      · exact (List.mem_filter.mp hmem).1
      · exact (List.mem_filter.mp (List.mem_reverse.mp hmem)).1
    obtain ⟨before, after, hsource, hoffset, hprevious, hnext⟩ := of_mem_occurrencesFrom hoccurs
    rw [Option.or_none] at hprevious
    rw [Occurrence.isBounded, Bool.and_eq_true, hprevious, hnext] at hbounded
    refine ⟨fun hempty => hname (.inl hempty), before, after, hsource, ?_, hbounded⟩
    rw [hoffset, Nat.zero_add]

/-- A second name that begins inside the name begins after a character of an
identifier. -/
def Solid (isJavaIdentifierPart : Char → Bool) (name : Text) : Prop :=
  ∀ before after, name = before ++ after → before ≠ [] → after ≠ [] → after <+: name →
    before.getLast?.any (unitIsIdentifierPart isJavaIdentifierPart)

/-- **Two places of a name do not overlap.** -/
theorem StandsAt.add_le (h : StandsAt isJavaIdentifierPart source name offset)
    (h' : StandsAt isJavaIdentifierPart source name offset') (hsolid : Solid isJavaIdentifierPart name)
    (hlt : offset < offset') : offset + utf16Length name ≤ offset' := by
  obtain ⟨before, after, rfl, rfl, -, -⟩ := h
  obtain ⟨before', after', hsource, rfl, hleft, -⟩ := h'
  rw [List.append_assoc, List.append_assoc] at hsource
  -- the later place is behind a part of the text that starts at the first one
  obtain ⟨between, rfl, hname⟩ : ∃ between, before' = before ++ between ∧
      name ++ after = between ++ (name ++ after') := by
    rcases List.append_eq_append_iff.mp hsource with ⟨between, hbefore, hrest⟩ | ⟨between, hbefore, -⟩
    · exact ⟨between, hbefore, hrest⟩
    · rw [hbefore, utf16Length_append] at hlt
      omega
  have hbetween : between ≠ [] := by
    rintro rfl
    rw [List.append_nil] at hlt
    exact absurd hlt (Nat.lt_irrefl _)
  rw [utf16Length_append]
  rcases List.append_eq_append_iff.mp hname with ⟨gap, hgap, -⟩ | ⟨inner, hinner, hagain⟩
  · rw [hgap, utf16Length_append]
    omega
  · by_cases hempty : inner = []
    · rw [hinner, hempty, List.append_nil]
    · -- the later name begins inside the first one
      have hprefix : inner <+: name := by
        refine List.prefix_of_prefix_length_le ⟨after, rfl⟩ ⟨after', hagain⟩ ?_
        rw [hinner, List.length_append]
        exact Nat.le_add_left _ _
      have hpart := hsolid between inner hinner hbetween hempty hprefix
      rw [List.getLast?_append_of_ne_nil _ hbetween] at hleft
      obtain ⟨c, hlast⟩ : ∃ c, between.getLast? = some c :=
        ⟨between.getLast hbetween, List.getLast?_eq_getLast_of_ne_nil hbetween⟩
      rw [hlast] at hpart hleft
      have hc : unitIsIdentifierPart isJavaIdentifierPart c = true := hpart
      rw [Option.all_some, hc] at hleft
      exact absurd hleft Bool.false_ne_true

end Standing

-- What is reported
-- ---

section Reports

variable (isJavaIdentifierPart : Char → Bool)

/-- **A range is where the name stands, or all of the tree.** -/
theorem NamedTree.range_cases (source : Text) (tree : NamedTree) :
    (tree.isSpelled isJavaIdentifierPart source = true ∧ tree.name.toList ≠ [] ∧ ∃ offset,
      StandsAt isJavaIdentifierPart source tree.name.toList offset ∧
        tree.range isJavaIdentifierPart source = (offset, offset + utf16Length tree.name.toList)) ∨
      (tree.isSpelled isJavaIdentifierPart source = false ∧
        tree.range isJavaIdentifierPart source = (tree.start.toNat, tree.stop.toNat)) := by
  rw [NamedTree.isSpelled, NamedTree.range, identifierRange]
  cases hfind : findIdentifier isJavaIdentifierPart source tree.start.toNat tree.stop.toNat
      tree.name.toList tree.isDeclaration with
  | none => exact .inr ⟨rfl, rfl⟩
  | some offset =>
    obtain ⟨hname, hstands⟩ := standsAt_of_findIdentifier hfind
    exact .inl ⟨rfl, hname, offset, hstands, rfl⟩

/-- A symbol is reported for a tree of the text; a supertype has the range of the type
below it. -/
def OfTree (source : Text) (P : NamedTree → Prop) (role name : String) (range : Nat × Nat) : Prop :=
  ∃ tree, P tree ∧ range = NamedTree.range isJavaIdentifierPart source tree ∧
    (role ≠ "type_edge" → name = tree.name)

def CompilationUnit.reported (unit : CompilationUnit) : List NamedTree :=
  unit.package.toList.map PackageTree.named ++
    (unit.trees.filter fun tree => tree.isPlaced && tree.isSymbolTree).map SymbolTree.toNamedTree

/-- Symbols are those of `analyze` or of `parseWorkspace` for a text, and the trees they
are reported for satisfy a condition. -/
inductive AreReported (source : Text) (P : NamedTree → Prop) (symbols : List SemanticSymbol) : Prop where
  | analyzed (unit : CompilationUnit) (same : symbols = unit.symbols isJavaIdentifierPart source)
      (trees : ∀ tree ∈ unit.reported, P tree)
  | parsed (trees : List StructuralTree) (same : symbols = structuralSymbols isJavaIdentifierPart source trees)
      (placed : ∀ tree ∈ trees, tree.isPlaced → P tree.toNamedTree)

variable {isJavaIdentifierPart} {source : Text} {P : NamedTree → Prop} {symbol : SemanticSymbol}
  {symbols : List SemanticSymbol}

theorem ofTree_symbol {tree : NamedTree} (htree : P tree) (role kind name qualifiedName symbolId : String)
    (hname : role ≠ "type_edge" → name = tree.name) :
    let symbol := tree.symbol isJavaIdentifierPart source role kind name qualifiedName symbolId
    OfTree isJavaIdentifierPart source P symbol.role symbol.name (symbol.start, symbol.stop) :=
  ⟨tree, htree, rfl, hname⟩

theorem SymbolTree.ofTree {tree : SymbolTree} (htree : tree.isPlaced && tree.isSymbolTree → P tree.toNamedTree)
    (h : symbol ∈ tree.symbols isJavaIdentifierPart source) :
    OfTree isJavaIdentifierPart source P symbol.role symbol.name (symbol.start, symbol.stop) := by
  unfold SymbolTree.symbols at h
  dsimp only at h
  split at h
  · next hreported =>
    have hP := htree hreported
    rcases List.mem_cons.mp h with rfl | hmore
    · exact ofTree_symbol hP _ _ _ _ _ fun _ => rfl
    rcases List.mem_append.mp hmore with hmore | hcall
    · rcases List.mem_append.mp hmore with hsuper | hfamily
      · split at hsuper
        · obtain ⟨supertype, -, rfl⟩ := List.mem_map.mp hsuper
          exact ofTree_symbol hP _ _ _ _ _ fun hrole => absurd rfl hrole
        · exact absurd hsuper List.not_mem_nil
      · split at hfamily
        · rw [List.mem_singleton.mp hfamily]
          exact ofTree_symbol hP _ _ _ _ _ fun _ => rfl
        · exact absurd hfamily List.not_mem_nil
    · split at hcall
      · rw [List.mem_singleton.mp hcall]
        exact ofTree_symbol hP _ _ _ _ _ fun _ => rfl
      · exact absurd hcall List.not_mem_nil
  · exact absurd h List.not_mem_nil

/-- **Every symbol is reported for a tree.** -/
theorem AreReported.ofTree (h : AreReported isJavaIdentifierPart source P symbols) (hmem : symbol ∈ symbols) :
    OfTree isJavaIdentifierPart source P symbol.role symbol.name (symbol.start, symbol.stop) := by
  cases h with
  | analyzed unit same trees =>
    rw [same, CompilationUnit.symbols, List.mem_append] at hmem
    rcases hmem with hpackage | htree
    · obtain ⟨tree, htree, hsymbol⟩ := List.mem_flatMap.mp hpackage
      rw [List.mem_singleton.mp hsymbol]
      refine ofTree_symbol (trees tree.named ?_) _ _ _ _ _ fun _ => rfl
      exact List.mem_append_left _ (List.mem_map_of_mem htree)
    · obtain ⟨tree, htree, hsymbol⟩ := List.mem_flatMap.mp htree
      refine SymbolTree.ofTree (fun hreported => trees _ ?_) hsymbol
      exact List.mem_append_right _ (List.mem_map_of_mem (List.mem_filter.mpr ⟨htree, hreported⟩))
  | parsed trees same placed =>
    rw [same] at hmem
    obtain ⟨tree, htree, hsymbol⟩ := List.mem_flatMap.mp hmem
    unfold StructuralTree.symbols at hsymbol
    split at hsymbol
    · next hplaced =>
      rw [List.mem_singleton.mp hsymbol]
      exact ofTree_symbol (placed tree htree hplaced) _ _ _ _ _ fun _ => rfl
    · exact absurd hsymbol List.not_mem_nil

end Reports

end JMan.Lsp
