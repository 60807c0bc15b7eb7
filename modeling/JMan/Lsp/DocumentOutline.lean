import Mathlib.Data.List.Sort
import Mathlib.Data.Prod.Lex
import JMan.Lib.Forests
import JMan.Lsp.Positions

/-!
# JMan — the outline of a document

`document_symbols` of `server.rs`: the declarations of the semantic and of the structural
index, each one once as far as its id tells, below the type that its qualified name names.

* `outline_sound_iff` — when the tree has every declaration once, below its enclosing type.
-/

namespace JMan.Lsp

open JMan.Config

-- The symbols of a document
-- ---

def SymbolLocation.range (symbol : SymbolLocation) : Nat ×ₗ Nat := toLex (symbol.start, symbol.stop)

def sortByRange (symbols : List SymbolLocation) : List SymbolLocation :=
  symbols.insertionSort fun a b => a.range ≤ b.range

/-- `document_symbols` of `symbol_index.rs` -/
def SymbolIndex.documentSymbols (index : SymbolIndex) (document : String) : List SymbolLocation :=
  sortByRange (((index.documents.lookup document).getD []).filter fun location => location.role = "declaration")

def SymbolLocation.seenAs (symbol : SymbolLocation) : String × Nat × Nat :=
  (symbol.symbolId, symbol.start, symbol.stop)

/-- `filter(|symbol| seen.insert(..))` -/
def keepUnseen (seen : List (String × Nat × Nat)) : List SymbolLocation → List SymbolLocation
  | [] => []
  | symbol :: rest =>
    if symbol.seenAs ∈ seen then keepUnseen seen rest
    else symbol :: keepUnseen (symbol.seenAs :: seen) rest

/-- `"class" | "interface" | "enum" | "record"` -/
def ownsMembers (kind : String) : Bool :=
  kind = "class" || (kind = "interface" || (kind = "enum" || kind = "record"))

def isOutlined (symbol : SymbolLocation) : Bool := symbol.kind ≠ "package" && symbol.kind ≠ "module"

/-- The first half of `name.rsplit_once(separator)`. -/
def beforeLast (separator : Char) (name : String) : Option String :=
  if separator ∈ name.toList then
    some (String.ofList ((name.toList.reverse.dropWhile (· ≠ separator)).drop 1).reverse)
  else none

def SymbolLocation.owner (symbol : SymbolLocation) : Option String :=
  if ownsMembers symbol.kind then beforeLast '.' symbol.qualifiedName
  else (beforeLast '#' symbol.qualifiedName).or (beforeLast '.' symbol.qualifiedName)

-- The outline
-- ---

section Outline

variable (symbols : List SymbolLocation)

/-- `owners.get(owner)`: of the types of one name the last was put in last. -/
def ownerIndex (owner : String) : Option Nat :=
  ((List.range symbols.length).filter fun i =>
    symbols[i]?.any fun symbol => ownsMembers symbol.kind && symbol.qualifiedName == owner).getLast?

/-- The index whose children a symbol is put among, or none for a root. -/
def parentIndex (i : Nat) : Option Nat :=
  ((symbols[i]?.bind SymbolLocation.owner).bind (ownerIndex symbols)).filter (· ≠ i)

end Outline

def lspSymbolKind (kind : String) : Nat :=
  if kind = "class" then 5
  else if kind = "interface" then 11
  else if kind = "enum" then 10
  else if kind = "method" ∨ kind = "constructor" then 6
  else if kind = "field" ∨ kind = "enum_constant" then 8
  else if kind = "package" then 4
  else 13

/-- A `DocumentSymbol`, less its children. -/
structure OutlineItem where
  name : String
  detail : String
  kind : Nat
  range : LspRange
  selectionRange : LspRange
deriving DecidableEq

def SymbolLocation.item (source : Text) (symbol : SymbolLocation) : OutlineItem :=
  let range := ⟨offsetToPosition source symbol.start, offsetToPosition source symbol.stop⟩
  ⟨symbol.name, symbol.qualifiedName, lspSymbolKind symbol.kind, range, range⟩

namespace Server

variable (server : Server) (uri : String)

def declarations : List SymbolLocation :=
  server.project.documentSymbols uri ++ server.structuralProject.documentSymbols uri

def outlineSymbols : List SymbolLocation :=
  sortByRange ((keepUnseen [] (server.declarations uri)).filter isOutlined)

/-- The outline as symbols, where each one is an index in the end. -/
def outline (fuel : Nat) : Option (List (Forests.Tree SymbolLocation)) :=
  let symbols := server.outlineSymbols uri
  (Forests.forest symbols.length (parentIndex symbols) fuel).map
    (Forests.mapAll fun i => symbols.getD i ⟨"", "", "", "", "", "", 0, 0⟩)

/-- `document_symbols`; `fuel` bounds the depth of `item`. -/
def documentSymbols (fuel : Nat) : Option (List (Forests.Tree OutlineItem)) :=
  match server.sourceText uri with
  | none => some []
  | some source => (server.outline uri fuel).map (Forests.mapAll (SymbolLocation.item source))

end Server

-- What an outline is to be
-- ---

def isTypeKind (kind : String) : Bool :=
  ownsMembers kind || (kind = "annotation" || kind = "annotation_type")

/-- An entry declares the type in which another is declared. -/
def SymbolLocation.Encloses (type symbol : SymbolLocation) : Prop :=
  isTypeKind type.kind = true ∧ symbol.owner = some type.qualifiedName

/-- Both indexes describe one text: one id at one place is one symbol. -/
def DescribeOneText (declarations : List SymbolLocation) : Prop :=
  ∀ a ∈ declarations, ∀ b ∈ declarations, a.seenAs = b.seenAs →
    a.kind = b.kind ∧ a.qualifiedName = b.qualifiedName

/-- Every place with a declaration is in the outline once, and every entry of it is below one
that declares its enclosing type if there is any. -/
structure OutlineSound (declarations : List SymbolLocation) (links : List (Option SymbolLocation × SymbolLocation)) :
    Prop where
  once : (links.map fun link => link.2.range).Nodup
  complete : ∀ symbol ∈ declarations, isOutlined symbol = true → symbol.range ∈ links.map fun link => link.2.range
  declared : ∀ link ∈ links, link.2 ∈ declarations ∧ isOutlined link.2 = true
  below : ∀ link ∈ links, ∀ above, link.1 = some above → above.Encloses link.2
  root : ∀ link ∈ links, link.1 = none → ∀ type ∈ declarations, ¬ type.Encloses link.2

def OneIdEach (declarations : List SymbolLocation) : Prop :=
  ∀ a ∈ declarations, ∀ b ∈ declarations, isOutlined a = true → isOutlined b = true →
    a.range = b.range → a.symbolId = b.symbolId

/-- A type with members is declared as a class, an interface, an enum or a record. -/
def OwnersOwn (declarations : List SymbolLocation) : Prop :=
  ∀ symbol ∈ declarations, isOutlined symbol = true → ∀ type ∈ declarations, type.Encloses symbol →
    ∃ other ∈ declarations, other.Encloses symbol ∧ ownsMembers other.kind = true

-- What is kept
-- ---

section Kept

variable {symbol other : SymbolLocation} {seen : List (String × Nat × Nat)} {symbols : List SymbolLocation}

theorem keepUnseen_sublist (seen : List (String × Nat × Nat)) (symbols : List SymbolLocation) :
    (keepUnseen seen symbols).Sublist symbols := by
  induction symbols generalizing seen with
  | nil => exact .slnil
  | cons symbol rest ih =>
    rw [keepUnseen]
    split
    · exact (ih seen).cons symbol
    · exact (ih _).cons_cons symbol

theorem nodup_keepUnseen : (∀ symbol ∈ keepUnseen seen symbols, symbol.seenAs ∉ seen) ∧
    ((keepUnseen seen symbols).map SymbolLocation.seenAs).Nodup := by
  induction symbols generalizing seen with
  | nil => exact ⟨fun _ h => absurd h List.not_mem_nil, .nil⟩
  | cons symbol rest ih =>
    rw [keepUnseen]
    split
    · exact ih
    · rename_i hunseen
      obtain ⟨hfresh, hnodup⟩ := @ih (symbol.seenAs :: seen)
      refine ⟨fun other hother => ?_, List.nodup_cons.mpr ⟨fun hmem => ?_, hnodup⟩⟩
      · rcases List.mem_cons.mp hother with rfl | hother
        · exact hunseen
        · exact fun h => hfresh other hother (List.mem_cons_of_mem _ h)
      · obtain ⟨other, hother, heq⟩ := List.mem_map.mp hmem
        exact hfresh other hother (heq ▸ List.mem_cons_self)

theorem exists_mem_keepUnseen (h : symbol ∈ symbols) :
    symbol.seenAs ∈ seen ∨ ∃ kept ∈ keepUnseen seen symbols, kept.seenAs = symbol.seenAs := by
  induction symbols generalizing seen with
  | nil => cases h
  | cons first rest ih =>
    rw [keepUnseen]
    split
    · rename_i hseen
      rcases List.mem_cons.mp h with rfl | hrest
      · exact .inl hseen
      · exact ih hrest
    · rcases List.mem_cons.mp h with rfl | hrest
      · exact .inr ⟨symbol, List.mem_cons_self, rfl⟩
      · rcases @ih (first.seenAs :: seen) hrest with hseen | ⟨kept, hkept, heq⟩
        · rcases List.mem_cons.mp hseen with heq | hseen
          · exact .inr ⟨first, List.mem_cons_self, heq.symm⟩
          · exact .inl hseen
        · exact .inr ⟨kept, List.mem_cons_of_mem _ hkept, heq⟩

theorem sortByRange_perm (symbols : List SymbolLocation) : (sortByRange symbols).Perm symbols :=
  List.perm_insertionSort _ _

variable {server : Server} {uri : String}

theorem mem_outlineSymbols (h : symbol ∈ server.outlineSymbols uri) :
    symbol ∈ server.declarations uri ∧ isOutlined symbol = true := by
  obtain ⟨hkept, houtlined⟩ := List.mem_filter.mp ((sortByRange_perm _).mem_iff.mp h)
  exact ⟨(keepUnseen_sublist _ _).subset hkept, houtlined⟩

theorem nodup_outlineSymbols : ((server.outlineSymbols uri).map SymbolLocation.seenAs).Nodup := by
  refine ((sortByRange_perm _).map _).nodup_iff.mpr ?_
  exact nodup_keepUnseen.2.sublist (List.filter_sublist.map _)

theorem exists_kept (htext : DescribeOneText (server.declarations uri)) (h : symbol ∈ server.declarations uri)
    (houtlined : isOutlined symbol = true) : ∃ kept ∈ server.outlineSymbols uri,
      kept.seenAs = symbol.seenAs ∧ kept.kind = symbol.kind ∧ kept.qualifiedName = symbol.qualifiedName := by
  obtain hseen | ⟨kept, hkept, heq⟩ := @exists_mem_keepUnseen symbol [] _ h
  · cases hseen
  · obtain ⟨hkind, hname⟩ := htext kept ((keepUnseen_sublist _ _).subset hkept) symbol h heq
    refine ⟨kept, (sortByRange_perm _).mem_iff.mpr (List.mem_filter.mpr ⟨hkept, ?_⟩), heq, hkind, hname⟩
    rw [isOutlined, hkind]
    exact houtlined

theorem range_eq_of_seenAs (h : symbol.seenAs = other.seenAs) : symbol.range = other.range := by
  obtain ⟨hstart, hstop⟩ := Prod.mk.inj (Prod.mk.inj h).2
  rw [SymbolLocation.range, hstart, hstop]
  rfl

theorem seenAs_eq (hid : symbol.symbolId = other.symbolId) (hrange : symbol.range = other.range) :
    symbol.seenAs = other.seenAs := by
  obtain ⟨hstart, hstop⟩ := Prod.mk.inj (toLex.injective hrange)
  rw [SymbolLocation.seenAs, SymbolLocation.seenAs, hid, hstart, hstop]

theorem owner_congr (hkind : symbol.kind = other.kind) (hname : symbol.qualifiedName = other.qualifiedName) :
    symbol.owner = other.owner := by
  rw [SymbolLocation.owner, SymbolLocation.owner, hkind, hname]

end Kept

-- Owners
-- ---

section Owners

variable {symbols : List SymbolLocation} {symbol : SymbolLocation} {name owner : String} {separator : Char} {i j : Nat}

theorem length_beforeLast (h : beforeLast separator name = some owner) : owner.length < name.length := by
  unfold beforeLast at h
  split_ifs at h with hmem
  have hne : name.toList.reverse.dropWhile (· ≠ separator) ≠ [] := by
    rw [Ne, List.dropWhile_eq_nil_iff]
    exact fun hall => absurd rfl (of_decide_eq_true (hall separator (List.mem_reverse.mpr hmem)))
  have hlength := (List.dropWhile_sublist (fun c => decide (c ≠ separator)) (l := name.toList.reverse)).length_le
  have hpos := List.length_pos_of_ne_nil hne
  rw [← Option.some.inj h, String.length_ofList, List.length_reverse, List.length_drop]
  rw [List.length_reverse, String.length_toList] at hlength
  omega

theorem length_owner (h : symbol.owner = some owner) : owner.length < symbol.qualifiedName.length := by
  unfold SymbolLocation.owner at h
  split_ifs at h
  · exact length_beforeLast h
  · rcases Option.or_eq_some_iff.mp h with h | ⟨-, h⟩
    · exact length_beforeLast h
    · exact length_beforeLast h

/-- A symbol is one that a name is looked up among. -/
def Owns (owner : String) (symbol : SymbolLocation) : Prop :=
  ownsMembers symbol.kind = true ∧ symbol.qualifiedName = owner

theorem ownerIndex_eq_some (h : ownerIndex symbols owner = some i) : ∃ type, symbols[i]? = some type ∧ Owns owner type := by
  have hmem := (List.mem_filter.mp (List.mem_of_getLast? h)).2
  cases htype : symbols[i]? with
  | none =>
    rw [htype] at hmem
    cases hmem
  | some type =>
    rw [htype, Option.any_some, Bool.and_eq_true, beq_iff_eq] at hmem
    exact ⟨type, rfl, hmem⟩

theorem ownerIndex_eq_none : ownerIndex symbols owner = none ↔ ∀ type ∈ symbols, ¬ Owns owner type := by
  rw [ownerIndex, List.getLast?_eq_none_iff, List.filter_eq_nil_iff]
  constructor
  · rintro h type htype ⟨howns, hname⟩
    obtain ⟨i, hi, rfl⟩ := List.mem_iff_getElem.mp htype
    refine h i (List.mem_range.mpr hi) ?_
    rw [List.getElem?_eq_getElem hi, Option.any_some, Bool.and_eq_true, beq_iff_eq]
    exact ⟨howns, hname⟩
  · intro h i hi hany
    rw [List.getElem?_eq_getElem (List.mem_range.mp hi), Option.any_some, Bool.and_eq_true, beq_iff_eq] at hany
    exact h _ (List.getElem_mem _) hany

theorem parentIndex_eq_some (h : parentIndex symbols i = some j) : ∃ symbol type, symbols[i]? = some symbol ∧
    symbols[j]? = some type ∧ ownsMembers type.kind = true ∧ symbol.owner = some type.qualifiedName := by
  obtain ⟨hbind, -⟩ := Option.filter_eq_some_iff.mp h
  obtain ⟨owner, howner, hindex⟩ := Option.bind_eq_some_iff.mp hbind
  obtain ⟨symbol, hsymbol, howner⟩ := Option.bind_eq_some_iff.mp howner
  obtain ⟨type, htype, howns, rfl⟩ := ownerIndex_eq_some hindex
  exact ⟨symbol, type, hsymbol, htype, howns, howner⟩

theorem parentIndex_eq_none (hsymbol : symbols[i]? = some symbol) : parentIndex symbols i = none ↔
    ∀ type ∈ symbols, ¬ (ownsMembers type.kind = true ∧ symbol.owner = some type.qualifiedName) := by
  rw [parentIndex, hsymbol, Option.bind_some]
  cases howner : symbol.owner with
  | none => exact iff_of_true rfl fun _ _ h => by cases h.2
  | some owner =>
    rw [Option.bind_some]
    cases hindex : ownerIndex symbols owner with
    | none =>
      refine iff_of_true rfl fun type htype h => ownerIndex_eq_none.mp hindex type htype ⟨h.1, ?_⟩
      exact (Option.some.inj h.2).symm
    | some j =>
      obtain ⟨type, htype, howns, rfl⟩ := ownerIndex_eq_some hindex
      have hne : j ≠ i := by
        rintro rfl
        cases hsymbol.symm.trans htype
        exact absurd (length_owner howner) (Nat.lt_irrefl _)
      refine iff_of_false ?_ fun h => h type (List.mem_of_getElem? htype) ⟨howns, rfl⟩
      rw [Option.filter_some, if_pos (decide_eq_true hne)]
      exact Option.some_ne_none _

theorem falls_parentIndex : Forests.Falls symbols.length (parentIndex symbols)
    fun i => ((symbols[i]?).map fun symbol => symbol.qualifiedName.length).getD 0 := by
  intro i _ j h
  obtain ⟨symbol, type, hsymbol, htype, -, howner⟩ := parentIndex_eq_some h
  refine ⟨(List.getElem?_eq_some_iff.mp htype).1, ?_⟩
  simp only [hsymbol, htype, Option.map_some, Option.getD_some]
  exact length_owner howner

end Owners

-- The outline
-- ---

section Sound

variable {server : Server} {uri : String} {symbols declarations : List SymbolLocation}
  {links links' : List (Option SymbolLocation × SymbolLocation)}

def symbolAtIndex (symbols : List SymbolLocation) (i : Nat) : SymbolLocation :=
  symbols.getD i ⟨"", "", "", "", "", "", 0, 0⟩

/-- What the outline lists, each symbol with the one it is below. -/
def outlineLinks (symbols : List SymbolLocation) : List (Option SymbolLocation × SymbolLocation) :=
  (List.range symbols.length).map fun i => ((parentIndex symbols i).map (symbolAtIndex symbols), symbolAtIndex symbols i)

theorem symbolAtIndex_eq {symbol : SymbolLocation} {i : Nat} (h : symbols[i]? = some symbol) :
    symbolAtIndex symbols i = symbol := by
  rw [symbolAtIndex, List.getD_eq_getElem?_getD, h, Option.getD_some]

/-- **The outline ends,** and lists every kept symbol once, below its parent. -/
theorem exists_outline (server : Server) (uri : String) : ∃ trees,
    (∃ m, ∀ fuel, m ≤ fuel → server.outline uri fuel = some trees) ∧
      (Forests.linksAll none trees).Perm (outlineLinks (server.outlineSymbols uri)) := by
  obtain ⟨trees, ⟨m, hforest⟩, hlinks⟩ := Forests.exists_forest (@falls_parentIndex (server.outlineSymbols uri))
  refine ⟨Forests.mapAll (symbolAtIndex (server.outlineSymbols uri)) trees, ⟨m, fun fuel hfuel => ?_⟩, ?_⟩
  · show (Forests.forest _ _ fuel).map _ = _
    rw [hforest fuel hfuel]
    rfl
  · have hmap := Forests.linksAll_mapAll (symbolAtIndex (server.outlineSymbols uri)) none trees
    rw [Option.map_none] at hmap
    rw [hmap, outlineLinks]
    refine (hlinks.map _).trans (List.Perm.of_eq ?_)
    rw [List.map_map]
    rfl

theorem map_snd_outlineLinks (symbols : List SymbolLocation) : (outlineLinks symbols).map Prod.snd = symbols := by
  rw [outlineLinks, List.map_map]
  refine List.ext_getElem (by rw [List.length_map, List.length_range]) fun i _ hi => ?_
  rw [List.getElem_map, List.getElem_range]
  exact symbolAtIndex_eq (List.getElem?_eq_getElem hi)

theorem mem_outlineLinks {link : Option SymbolLocation × SymbolLocation} (h : link ∈ outlineLinks symbols) :
    ∃ i, symbols[i]? = some link.2 ∧ link.1 = (parentIndex symbols i).map (symbolAtIndex symbols) := by
  obtain ⟨i, hi, rfl⟩ := List.mem_map.mp h
  have hget := List.getElem?_eq_getElem (List.mem_range.mp hi)
  exact ⟨i, hget.trans (congrArg some (symbolAtIndex_eq hget).symm), rfl⟩

theorem of_mem_outlineLinks {link : Option SymbolLocation × SymbolLocation} (h : link ∈ outlineLinks symbols)
    {above : SymbolLocation} (habove : link.1 = some above) :
    above ∈ symbols ∧ ownsMembers above.kind = true ∧ link.2.owner = some above.qualifiedName := by
  obtain ⟨i, hi, hparent⟩ := mem_outlineLinks h
  obtain ⟨j, hj, heq⟩ := Option.map_eq_some_iff.mp (hparent.symm.trans habove)
  obtain ⟨symbol, type, hsymbol, htype, howns, howner⟩ := parentIndex_eq_some hj
  cases hi.symm.trans hsymbol
  rw [symbolAtIndex_eq htype] at heq
  subst heq
  exact ⟨List.mem_of_getElem? htype, howns, howner⟩

theorem root_of_mem_outlineLinks {link : Option SymbolLocation × SymbolLocation} (h : link ∈ outlineLinks symbols) :
    link.1 = none ↔ ∀ type ∈ symbols, ¬ (ownsMembers type.kind = true ∧ link.2.owner = some type.qualifiedName) := by
  obtain ⟨i, hi, hparent⟩ := mem_outlineLinks h
  rw [hparent, Option.map_eq_none_iff, parentIndex_eq_none hi]

theorem OutlineSound.of_perm (h : OutlineSound declarations links) (hperm : links.Perm links') :
    OutlineSound declarations links' where
  once := (hperm.map _).nodup_iff.mp h.once
  complete symbol hsymbol houtlined := (hperm.map _).mem_iff.mp (h.complete symbol hsymbol houtlined)
  declared link hlink := h.declared link (hperm.mem_iff.mpr hlink)
  below link hlink := h.below link (hperm.mem_iff.mpr hlink)
  root link hlink := h.root link (hperm.mem_iff.mpr hlink)

theorem isTypeKind_of_ownsMembers {kind : String} (h : ownsMembers kind = true) : isTypeKind kind = true := by
  rw [isTypeKind, h, Bool.true_or]

theorem isOutlined_of_isTypeKind {symbol : SymbolLocation} (h : isTypeKind symbol.kind = true) :
    isOutlined symbol = true := by
  rw [isOutlined, Bool.and_eq_true, decide_eq_true_eq, decide_eq_true_eq]
  constructor
  · rintro hkind
    rw [hkind] at h
    exact absurd h (by decide)
  · rintro hkind
    rw [hkind] at h
    exact absurd h (by decide)

theorem outlineSound_iff (htext : DescribeOneText (server.declarations uri)) :
    OutlineSound (server.declarations uri) (outlineLinks (server.outlineSymbols uri)) ↔
      OneIdEach (server.declarations uri) ∧ OwnersOwn (server.declarations uri) := by
  have hsymbols := map_snd_outlineLinks (server.outlineSymbols uri)
  have hranges : (outlineLinks (server.outlineSymbols uri)).map (fun link => link.2.range) =
      (server.outlineSymbols uri).map SymbolLocation.range := by
    rw [← hsymbols, List.map_map, hsymbols]
    rfl
  constructor
  · intro h
    constructor
    · intro a ha b hb houtlined houtlined' hrange
      obtain ⟨kept, hkept, hseen, -⟩ := exists_kept htext ha houtlined
      obtain ⟨kept', hkept', hseen', -⟩ := exists_kept htext hb houtlined'
      have honce := h.once
      rw [hranges] at honce
      have hsame : kept = kept' := List.inj_on_of_nodup_map honce hkept hkept'
        ((range_eq_of_seenAs hseen).trans (hrange.trans (range_eq_of_seenAs hseen').symm))
      subst hsame
      exact (Prod.mk.inj (hseen.symm.trans hseen')).1
    · intro symbol hsymbol houtlined type htype hencloses
      obtain ⟨kept, hkept, -, hkind, hname⟩ := exists_kept htext hsymbol houtlined
      have howner : kept.owner = symbol.owner := owner_congr hkind hname
      obtain ⟨link, hlink, rfl⟩ := List.mem_map.mp (hsymbols ▸ hkept)
      cases habove : link.1 with
      | none => exact absurd ⟨hencloses.1, howner.trans hencloses.2⟩ (h.root link hlink habove type htype)
      | some above =>
        obtain ⟨hmem, howns, habove⟩ := of_mem_outlineLinks hlink habove
        exact ⟨above, (mem_outlineSymbols hmem).1,
          ⟨isTypeKind_of_ownsMembers howns, howner.symm.trans habove⟩, howns⟩
  · rintro ⟨hone, howners⟩
    have hlisted : ∀ link ∈ outlineLinks (server.outlineSymbols uri), link.2 ∈ server.outlineSymbols uri :=
      fun link hlink => hsymbols ▸ List.mem_map_of_mem hlink
    refine ⟨?_, ?_, ?_, ?_, ?_⟩
    · rw [hranges]
      refine (List.Nodup.of_map _ nodup_outlineSymbols).map_on fun a ha b hb hrange => ?_
      obtain ⟨hdeclared, houtlined⟩ := mem_outlineSymbols ha
      obtain ⟨hdeclared', houtlined'⟩ := mem_outlineSymbols hb
      have hid := hone a hdeclared b hdeclared' houtlined houtlined' hrange
      exact List.inj_on_of_nodup_map nodup_outlineSymbols ha hb (seenAs_eq hid hrange)
    · intro symbol hsymbol houtlined
      obtain ⟨kept, hkept, hseen, -⟩ := exists_kept htext hsymbol houtlined
      rw [hranges, ← range_eq_of_seenAs hseen]
      exact List.mem_map_of_mem hkept
    · exact fun link hlink => mem_outlineSymbols (hlisted link hlink)
    · intro link hlink above habove
      obtain ⟨-, howns, howner⟩ := of_mem_outlineLinks hlink habove
      exact ⟨isTypeKind_of_ownsMembers howns, howner⟩
    · intro link hlink hroot type htype hencloses
      obtain ⟨hdeclared, houtlined⟩ := mem_outlineSymbols (hlisted link hlink)
      obtain ⟨other, hother, ⟨htypeKind, howner⟩, howns⟩ := howners link.2 hdeclared houtlined type htype hencloses
      -- the owner that is found is kept, under the same name
      obtain ⟨kept, hkept, -, hkind, hname⟩ := exists_kept htext hother (isOutlined_of_isTypeKind htypeKind)
      refine (root_of_mem_outlineLinks hlink).mp hroot kept hkept ⟨hkind ▸ howns, ?_⟩
      rw [howner, hname]

/-- **The outline.** It ends. It has every declaration once, below its enclosing type or at
the root, exactly if no two ids are told for one place and every type with members is
declared as a class, an interface, an enum or a record. -/
theorem outline_sound_iff {source : Text} (hsource : server.sourceText uri = some source)
    (htext : DescribeOneText (server.declarations uri)) : ∃ trees,
      (∃ m, ∀ fuel, m ≤ fuel →
        server.documentSymbols uri fuel = some (Forests.mapAll (SymbolLocation.item source) trees)) ∧
      (OutlineSound (server.declarations uri) (Forests.linksAll none trees) ↔
        OneIdEach (server.declarations uri) ∧ OwnersOwn (server.declarations uri)) := by
  obtain ⟨trees, ⟨m, houtline⟩, hlinks⟩ := exists_outline server uri
  refine ⟨trees, ⟨m, fun fuel hfuel => ?_⟩, ?_⟩
  · rw [Server.documentSymbols, hsource, houtline fuel hfuel]
    rfl
  · rw [← outlineSound_iff htext]
    exact ⟨fun h => h.of_perm hlinks, fun h => h.of_perm hlinks.symm⟩

end Sound

def semanticOutline : List SemanticSymbol :=
  [⟨"declaration", "class", "A", "A", "<unnamed>|LA;", 6, 7⟩,
    ⟨"declaration", "method", "run", "A#run", "<unnamed>|A#run()V", 15, 18⟩]

def structuralOutline : List SemanticSymbol :=
  [⟨"declaration", "class", "A", "A", "A", 6, 7⟩, ⟨"declaration", "method", "run", "A#run", "A#run", 15, 18⟩]

def outlineServer (semantic structural : List SemanticSymbol) : Server :=
  { Server.new with
    indexedSources := (∅ : BTreeMap Text).insert "file:///A.java" "class A { void run() {} }".toList
    project := SymbolIndex.empty.updateDocument "file:///A.java" semantic
    structuralProject := SymbolIndex.empty.updateDocument "file:///A.java" structural }

theorem semantic_outline_sound : ∃ trees,
    (∃ m, ∀ fuel, m ≤ fuel → (outlineServer semanticOutline []).documentSymbols "file:///A.java" fuel =
      some (Forests.mapAll (SymbolLocation.item "class A { void run() {} }".toList) trees)) ∧
    OutlineSound ((outlineServer semanticOutline []).declarations "file:///A.java") (Forests.linksAll none trees) := by
  obtain ⟨trees, houtline, hsound⟩ := @outline_sound_iff (outlineServer semanticOutline []) "file:///A.java"
    "class A { void run() {} }".toList (by decide +kernel) (by unfold DescribeOneText; decide +kernel)
  refine ⟨trees, houtline, hsound.mpr ⟨?_, ?_⟩⟩
  · unfold OneIdEach
    decide +kernel
  · unfold OwnersOwn SymbolLocation.Encloses
    decide +kernel

/-- A document of both indexes: its declarations are listed by both ids. -/
theorem declared_twice : DescribeOneText ((outlineServer semanticOutline structuralOutline).declarations "file:///A.java") ∧
    ∃ trees, (outlineServer semanticOutline structuralOutline).outline "file:///A.java" 3 = some trees ∧
      ¬ OutlineSound ((outlineServer semanticOutline structuralOutline).declarations "file:///A.java")
        (Forests.linksAll none trees) := by
  have houtline : ((outlineServer semanticOutline structuralOutline).outline "file:///A.java" 3).map
      (fun trees => (Forests.linksAll none trees).map fun link => link.2.range) =
      some [toLex (6, 7), toLex (6, 7), toLex (15, 18), toLex (15, 18)] := by decide +kernel
  obtain ⟨trees, htrees, hranges⟩ := Option.map_eq_some_iff.mp houtline
  refine ⟨by unfold DescribeOneText; decide +kernel, trees, htrees, fun h => ?_⟩
  have honce := h.once
  rw [hranges] at honce
  exact (List.nodup_cons.mp honce).1 List.mem_cons_self

end JMan.Lsp
