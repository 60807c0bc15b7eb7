import Mathlib.Data.List.Dedup
import JMan.Lib.Components
import JMan.Frontend.SymbolIds
import JMan.Lsp.SymbolIndex

/-!
# JMan — override families

Methods that override each other are renamed together. `SymbolIds.overrideFamily` names a
method after one that overrides nothing, and `related_symbol_ids` of the index takes the
methods of one name to be related.

A method that overrides two of which neither overrides anything is named after one of them,
and the other is not found (`second_interface_is_not_related`). The methods that are
related to a method are those of its component exactly when one method of the component
overrides nothing (`related_iff_unique_root`).

* `Hierarchy` — the classes, and what the compiler says of them; `level` is that no class
  is above itself, `distinct` that no class has two methods of one signature.
* `Overrides` — the relation itself: one method overrides another, seen from some class.
-/

namespace JMan.Lsp

open JMan.Frontend (Name TypeElement Element JavaType Confused symbolId)
open Relation (EqvGen)

-- Methods
-- ---

structure Method where
  declaration : Nat
  owner : TypeElement
  name : Name
  parameters : List JavaType
  result : JavaType
deriving DecidableEq

def Method.element (method : Method) : Element :=
  .executable method.declaration (.type method.owner) (some method.name) method.parameters method.result

abbrev Declared (methods : List Method) := { method : Method // method ∈ methods }

structure Hierarchy (methods : List Method) where
  directSupertypes : TypeElement → List TypeElement
  allMembers : TypeElement → List (Declared methods)
  /-- `elements.overrides`: the first overrides the second, seen from the class. -/
  overrides : Declared methods → Declared methods → TypeElement → Bool
  level : TypeElement → Nat
  level_directSupertypes : ∀ type, ∀ parent ∈ directSupertypes type, level parent < level type
  level_allMembers : ∀ type, ∀ member ∈ allMembers type, level member.1.owner ≤ level type
  distinct : ∀ method other : Declared methods, Confused method.1.element other.1.element → method = other

-- The natural order
-- ---

/-- The units of a text, by which Java compares. -/
def utf16 (text : Frontend.Text) : List Nat :=
  text.flatMap fun c =>
    if c.toNat < 65536 then [c.toNat]
    else [55296 + (c.toNat - 65536) / 1024, 56320 + (c.toNat - 65536) % 1024]

/-- `min(Comparator.naturalOrder())` -/
def naturalMin : List Frontend.Text → Option Frontend.Text
  | [] => none
  | text :: rest =>
    some (rest.foldl (fun least text => if utf16 text < utf16 least then text else least) text)

theorem eq_nil_of_naturalMin {texts : List Frontend.Text} (h : naturalMin texts = none) : texts = [] := by
  cases texts with
  | nil => rfl
  | cons text rest => cases h

theorem mem_of_naturalMin {texts : List Frontend.Text} {least : Frontend.Text}
    (h : naturalMin texts = some least) : least ∈ texts := by
  cases texts with
  | nil => cases h
  | cons text rest =>
    obtain rfl := Option.some.inj h
    refine List.foldlRecOn (motive := (· ∈ text :: rest)) rest _ List.mem_cons_self
      fun least hleast other hother => ?_
    split
    · exact List.mem_cons_of_mem _ hother
    · exact hleast

-- Families
-- ---

namespace Hierarchy

variable {methods : List Method} (h : Hierarchy methods)

/-- The methods that `overrideFamily` collects. -/
def overridden (method : Declared methods) : List (Declared methods) :=
  (h.directSupertypes method.1.owner).flatMap fun parent =>
    (h.allMembers parent).filter fun candidate =>
      candidate.1.name = method.1.name ∧ h.overrides method candidate method.1.owner

theorem level_overridden {method candidate : Declared methods} (hmem : candidate ∈ h.overridden method) :
    h.level candidate.1.owner < h.level method.1.owner := by
  obtain ⟨parent, hparent, hcandidate⟩ := List.mem_flatMap.mp hmem
  exact lt_of_le_of_lt (h.level_allMembers parent candidate (List.mem_filter.mp hcandidate).1)
    (h.level_directSupertypes method.1.owner parent hparent)

/-- `overrideFamily`, of a method -/
def overrideFamily (method : Declared methods) : Frontend.Text :=
  if h.overridden method = [] then symbolId method.1.element
  else (naturalMin (((h.overridden method).attach.map fun candidate =>
    overrideFamily candidate.1).filter fun family => family ≠ [])).getD (symbolId method.1.element)
termination_by h.level method.1.owner
decreasing_by exact h.level_overridden candidate.2

def Overrides (method other : Declared methods) : Prop := ∃ type, h.overrides method other type = true

/-- The method overrides nothing that the class of it inherits. -/
def IsRoot (method : Declared methods) : Prop := h.overridden method = []

theorem symbolId_ne_nil (method : Method) : symbolId method.element ≠ [] := by
  rw [Element.symbolId_eq]
  exact List.append_ne_nil_of_right_ne_nil _ (List.cons_ne_nil _ _)

theorem overrideFamily_of_isRoot {method : Declared methods} (hroot : h.IsRoot method) :
    h.overrideFamily method = symbolId method.1.element := by
  rw [overrideFamily]
  exact if_pos hroot

/-- **A method is named after a root that it is connected with.** -/
theorem exists_root (method : Declared methods) : ∃ root, h.IsRoot root ∧
    EqvGen h.Overrides method root ∧ h.overrideFamily method = symbolId root.1.element := by
  induction hlevel : h.level method.1.owner using Nat.strong_induction_on generalizing method with
  | _ level ih =>
    by_cases hroot : h.overridden method = []
    · exact ⟨method, hroot, .refl method, h.overrideFamily_of_isRoot hroot⟩
    · -- what was collected has families, and the least of them is the family of one
      obtain ⟨first, hfirst⟩ := List.exists_mem_of_ne_nil _ hroot
      have hfamilies : ∀ candidate ∈ h.overridden method, ∃ root, h.IsRoot root ∧
          EqvGen h.Overrides method root ∧ h.overrideFamily candidate = symbolId root.1.element := by
        intro candidate hcandidate
        obtain ⟨root, hisRoot, hconnected, hfamily⟩ :=
          ih _ (hlevel ▸ h.level_overridden hcandidate) candidate rfl
        obtain ⟨parent, -, hmember⟩ := List.mem_flatMap.mp hcandidate
        have hoverrides := of_decide_eq_true (List.mem_filter.mp hmember).2
        exact ⟨root, hisRoot, .trans _ _ _ (.rel _ _ ⟨_, hoverrides.2⟩) hconnected, hfamily⟩
      rw [overrideFamily, if_neg hroot]
      cases hmin : naturalMin (((h.overridden method).attach.map fun candidate =>
          h.overrideFamily candidate.1).filter fun family => family ≠ []) with
      | none =>
        obtain ⟨root, -, -, hfamily⟩ := hfamilies first hfirst
        have hempty := of_decide_eq_false (Bool.not_eq_true _ ▸ List.filter_eq_nil_iff.mp (eq_nil_of_naturalMin hmin) _
          (List.mem_map.mpr ⟨⟨first, hfirst⟩, List.mem_attach _ _, rfl⟩))
        exact absurd (hfamily ▸ not_not.mp hempty) (symbolId_ne_nil root.1)
      | some least =>
        obtain ⟨⟨candidate, hcandidate⟩, -, rfl⟩ :=
          List.mem_map.mp (List.mem_filter.mp (mem_of_naturalMin hmin)).1
        exact hfamilies candidate hcandidate

theorem namesRoots : Components.NamesRoots h.Overrides h.IsRoot h.overrideFamily := by
  constructor
  · intro method
    obtain ⟨root, hroot, hconnected, hfamily⟩ := h.exists_root method
    exact ⟨root, hroot, hconnected, hfamily.trans (h.overrideFamily_of_isRoot hroot).symm⟩
  · intro root other hroot hother hsame
    rw [h.overrideFamily_of_isRoot hroot, h.overrideFamily_of_isRoot hother] at hsame
    exact h.distinct root other (Frontend.symbolId_eq_iff.mp hsame)

-- The index
-- ---

structure Declaration (methods : List Method) where
  method : Declared methods
  qualifiedName : String
  start : Nat
  stop : Nat

/-- What `analyze` reports of the declaration of a method. -/
def report (declaration : Declaration methods) : List SemanticSymbol :=
  let name := String.ofList declaration.method.1.name.text
  let symbolId := String.ofList (symbolId declaration.method.1.element)
  [⟨"declaration", "method", name, declaration.qualifiedName, symbolId, declaration.start,
      declaration.stop⟩,
    ⟨"override_family", "method", name, String.ofList (h.overrideFamily declaration.method), symbolId,
      declaration.start, declaration.stop⟩]

def indexed (documents : List (String × List (Declaration methods))) : SymbolIndex :=
  documents.foldl (fun index document =>
    index.updateDocument document.1 (document.2.flatMap h.report)) .empty

/-- The text by which the index knows a method. -/
def idOf (method : Declared methods) : String := String.ofList (symbolId method.1.element)

def familyOf (method : Declared methods) : String := String.ofList (h.overrideFamily method)

theorem relationships_report (declarations : List (Declaration methods)) :
    SymbolIndex.relationships (declarations.flatMap h.report) =
      declarations.map fun declaration => (idOf declaration.method, h.familyOf declaration.method) := by
  induction declarations with
  | nil => rfl
  | cons declaration rest ih =>
    rw [List.flatMap_cons, SymbolIndex.relationships, List.filter_append, List.map_append,
      ← SymbolIndex.relationships, ← SymbolIndex.relationships, ih]
    rfl

def allRelationships (documents : List (String × List (Declaration methods))) : Families :=
  documents.flatMap fun document =>
    document.2.map fun declaration => (idOf declaration.method, h.familyOf declaration.method)

end Hierarchy

section Insertions

variable {families : Config.BTreeMap String} {relationships : Families} {id family : String}

theorem mem_of_insertFamilies (h : (SymbolIndex.insertFamilies families relationships)[id]? = some family) :
    (id, family) ∈ relationships ∨ families[id]? = some family := by
  induction relationships generalizing families with
  | nil => exact .inr h
  | cons entry rest ih =>
    rcases ih h with hmem | hmap
    · exact .inl (List.mem_cons_of_mem _ hmem)
    · rw [Std.ExtTreeMap.getElem?_insert] at hmap
      split at hmap
      · next hsame =>
        obtain rfl := compare_eq_iff_eq.mp hsame
        obtain rfl := Option.some.inj hmap
        exact .inl List.mem_cons_self
      · exact .inr hmap

theorem isSome_insertFamilies (h : id ∈ relationships.map Prod.fst ∨ (families[id]?).isSome) :
    ((SymbolIndex.insertFamilies families relationships)[id]?).isSome := by
  induction relationships generalizing families with
  | nil => exact h.resolve_left List.not_mem_nil
  | cons entry rest ih =>
    refine ih (or_iff_not_imp_left.mpr fun hrest => ?_)
    rw [Std.ExtTreeMap.getElem?_insert]
    split
    · rfl
    · next hne =>
      rcases h with hmem | hmap
      · rcases List.mem_cons.mp hmem with rfl | hmem
        · exact absurd (compare_eq_iff_eq.mpr rfl) hne
        · exact absurd hmem hrest
      · exact hmap

end Insertions

namespace Hierarchy

variable {methods : List Method} (h : Hierarchy methods)

theorem overrideFamilies_foldl (documents : List (String × List (Declaration methods)))
    (index : SymbolIndex) (hnodup : (documents.map Prod.fst).Nodup)
    (hnew : ∀ document ∈ documents, ¬ index.containsDocument document.1) :
    (documents.foldl (fun index document =>
      index.updateDocument document.1 (document.2.flatMap h.report)) index).overrideFamilies =
        SymbolIndex.insertFamilies index.overrideFamilies (h.allRelationships documents) := by
  induction documents generalizing index with
  | nil => rfl
  | cons document rest ih =>
    have hremoved : (index.removeDocument document.1).overrideFamilies = index.overrideFamilies := by
      rw [SymbolIndex.removeDocument, if_neg (hnew document List.mem_cons_self)]
    have hupdated : (index.updateDocument document.1
        (document.2.flatMap h.report)).overrideFamilies = SymbolIndex.insertFamilies
          index.overrideFamilies (document.2.map fun declaration =>
            (idOf declaration.method, h.familyOf declaration.method)) := by
      rw [SymbolIndex.updateDocument, relationships_report, hremoved]
    rw [List.map_cons, List.nodup_cons] at hnodup
    rw [List.foldl_cons, ih _ hnodup.2, hupdated, allRelationships, allRelationships, List.flatMap_cons,
      SymbolIndex.insertFamilies, SymbolIndex.insertFamilies, SymbolIndex.insertFamilies, List.foldl_append]
    intro other hother hcontains
    obtain ⟨locations, hlocations⟩ := SymbolIndex.containsDocument_iff.mp hcontains
    rcases SymbolIndex.mem_documents_updateDocument.mp hlocations with ⟨-, hold⟩ | hsame
    · exact hnew other (List.mem_cons_of_mem _ hother)
        (SymbolIndex.containsDocument_iff.mpr ⟨locations, hold⟩)
    · exact hnodup.1 (congrArg Prod.fst hsame ▸ List.mem_map_of_mem hother)

end Hierarchy

/-- A hierarchy all of whose methods are declared in documents, each of which is indexed. -/
structure Workspace (methods : List Method) where
  hierarchy : Hierarchy methods
  documents : List (String × List (Hierarchy.Declaration methods))
  nodup : (documents.map Prod.fst).Nodup
  complete : ∀ method : Declared methods, ∃ document ∈ documents, ∃ declaration ∈ document.2,
    declaration.method = method

namespace Workspace

variable {methods : List Method} (w : Workspace methods)

def index : SymbolIndex := w.hierarchy.indexed w.documents

theorem idOf_injective (w : Workspace methods) (method other : Declared methods)
    (hsame : Hierarchy.idOf method = Hierarchy.idOf other) : method = other :=
  w.hierarchy.distinct method other (Frontend.symbolId_eq_iff.mp (String.ofList_injective hsame))

theorem mem_allRelationships {id family : String} :
    (id, family) ∈ w.hierarchy.allRelationships w.documents ↔
      ∃ method, id = Hierarchy.idOf method ∧ family = w.hierarchy.familyOf method := by
  constructor
  · intro hmem
    obtain ⟨document, -, hmem⟩ := List.mem_flatMap.mp hmem
    obtain ⟨declaration, -, hdeclaration⟩ := List.mem_map.mp hmem
    cases hdeclaration
    exact ⟨declaration.method, rfl, rfl⟩
  · rintro ⟨method, rfl, rfl⟩
    obtain ⟨document, hdocument, declaration, hdeclaration, rfl⟩ := w.complete method
    exact List.mem_flatMap.mpr ⟨document, hdocument, List.mem_map.mpr ⟨declaration, hdeclaration, rfl⟩⟩

theorem index_overrideFamilies : w.index.overrideFamilies =
    SymbolIndex.insertFamilies ∅ (w.hierarchy.allRelationships w.documents) :=
  w.hierarchy.overrideFamilies_foldl w.documents .empty w.nodup fun _ _ => Bool.false_ne_true

/-- **The index knows the family of every method,** and of nothing else. -/
theorem overrideFamily_eq_some {id family : String} : w.index.overrideFamilies[id]? = some family ↔
    ∃ method, id = Hierarchy.idOf method ∧ family = w.hierarchy.familyOf method := by
  rw [index_overrideFamilies]
  constructor
  · intro hfound
    rcases mem_of_insertFamilies hfound with hmem | hempty
    · exact w.mem_allRelationships.mp hmem
    · rw [Std.ExtTreeMap.getElem?_empty] at hempty
      cases hempty
  · rintro ⟨method, rfl, rfl⟩
    have hmem := w.mem_allRelationships.mpr ⟨method, rfl, rfl⟩
    obtain ⟨family, hfamily⟩ := Option.isSome_iff_exists.mp
      (isSome_insertFamilies (.inl (List.mem_map_of_mem hmem)))
    rw [hfamily]
    rcases mem_of_insertFamilies hfamily with hfound | hempty
    · obtain ⟨other, hid, rfl⟩ := w.mem_allRelationships.mp hfound
      rw [w.idOf_injective method other hid]
    · rw [Std.ExtTreeMap.getElem?_empty] at hempty
      cases hempty

theorem mem_relatedSymbolIds (method : Declared methods) {id : String} :
    id ∈ w.index.relatedSymbolIds (Hierarchy.idOf method) ↔
      ∃ other, w.hierarchy.overrideFamily other = w.hierarchy.overrideFamily method ∧
        id = Hierarchy.idOf other := by
  have hfamily : w.index.overrideFamily (Hierarchy.idOf method) = some (w.hierarchy.familyOf method) :=
    w.overrideFamily_eq_some.mpr ⟨method, rfl, rfl⟩
  rw [SymbolIndex.relatedSymbolIds, hfamily, Option.getD_some, List.mem_dedup, List.mem_append,
    List.mem_singleton]
  constructor
  · rintro (hmem | rfl)
    · obtain ⟨⟨found, family⟩, hentry, rfl⟩ := List.mem_map.mp hmem
      obtain ⟨hlist, hsame⟩ := List.mem_filter.mp hentry
      obtain ⟨other, rfl, rfl⟩ := w.overrideFamily_eq_some.mp
        (Std.ExtTreeMap.mem_toList_iff_getElem?_eq_some.mp hlist)
      exact ⟨other, String.ofList_injective (of_decide_eq_true hsame), rfl⟩
    · obtain ⟨root, hroot, -, hroots⟩ := w.hierarchy.exists_root method
      refine ⟨root, (w.hierarchy.overrideFamily_of_isRoot hroot).trans hroots.symm, ?_⟩
      rw [Hierarchy.familyOf, hroots, Hierarchy.idOf]
  · rintro ⟨other, hsame, rfl⟩
    refine .inl (List.mem_map.mpr ⟨(Hierarchy.idOf other, w.hierarchy.familyOf other),
      List.mem_filter.mpr ⟨?_, decide_eq_true (congrArg String.ofList hsame)⟩, rfl⟩)
    exact Std.ExtTreeMap.mem_toList_iff_getElem?_eq_some.mpr
      (w.overrideFamily_eq_some.mpr ⟨other, rfl, rfl⟩)

def RelatesComponent (method : Declared methods) : Prop :=
  ∀ id, id ∈ w.index.relatedSymbolIds (Hierarchy.idOf method) ↔
    ∃ other, EqvGen w.hierarchy.Overrides method other ∧ id = Hierarchy.idOf other

theorem relatesComponent_iff_named (method : Declared methods) : w.RelatesComponent method ↔
    ∀ other, w.hierarchy.overrideFamily other = w.hierarchy.overrideFamily method ↔
      EqvGen w.hierarchy.Overrides method other := by
  unfold RelatesComponent
  simp only [mem_relatedSymbolIds]
  constructor
  · intro hids other
    constructor
    · intro hsame
      obtain ⟨found, hconnected, hid⟩ := (hids (Hierarchy.idOf other)).mp ⟨other, hsame, rfl⟩
      rw [w.idOf_injective other found hid]
      exact hconnected
    · intro hconnected
      obtain ⟨found, hsame, hid⟩ := (hids (Hierarchy.idOf other)).mpr ⟨other, hconnected, rfl⟩
      rw [w.idOf_injective other found hid]
      exact hsame
  · intro hnamed id
    exact exists_congr fun other => and_congr_left fun _ => hnamed other

end Workspace

/-- **The methods that are related to a method are its component exactly when one method of
the component overrides nothing.** -/
theorem related_iff_unique_root (methods : List Method) (w : Workspace methods)
    (method : Declared methods) : w.RelatesComponent method ↔
      ∃! root, w.hierarchy.IsRoot root ∧ EqvGen w.hierarchy.Overrides method root := by
  rw [w.relatesComponent_iff_named]
  exact Components.named_alike_iff w.hierarchy.namesRoots method

-- Two interfaces
-- ---

section TwoInterfaces

def objectClass : TypeElement :=
  ⟨0, some ⟨"java.base".toList, List.all_iff_forall_prop.mp (by decide)⟩, Frontend.javaLangObject⟩

def interfaceA : TypeElement := ⟨1, none, ⟨['I', 'A'], List.all_iff_forall_prop.mp (by decide)⟩⟩

def interfaceB : TypeElement := ⟨2, none, ⟨['I', 'B'], List.all_iff_forall_prop.mp (by decide)⟩⟩

def classC : TypeElement := ⟨3, none, ⟨['C'], List.all_iff_forall_prop.mp (by decide)⟩⟩

def fooOf (owner : TypeElement) : Method :=
  ⟨owner.declaration, owner, ⟨['f', 'o', 'o'], List.all_iff_forall_prop.mp (by decide)⟩, [],
    .primitive .void⟩

def threeMethods : List Method := [fooOf interfaceA, fooOf interfaceB, fooOf classC]

def fooA : Declared threeMethods := ⟨fooOf interfaceA, by decide⟩

def fooB : Declared threeMethods := ⟨fooOf interfaceB, by decide⟩

def fooC : Declared threeMethods := ⟨fooOf classC, by decide⟩

theorem threeMethods_cases (method : Declared threeMethods) :
    method = fooA ∨ method = fooB ∨ method = fooC := by
  obtain ⟨method, hmem⟩ := method
  simp only [threeMethods, List.mem_cons, List.not_mem_nil, or_false] at hmem
  exact hmem.imp Subtype.ext (Or.imp Subtype.ext Subtype.ext)

def twoInterfaces : Hierarchy threeMethods where
  directSupertypes type :=
    if type = classC then [objectClass, interfaceA, interfaceB]
    else if type = interfaceA ∨ type = interfaceB then [objectClass]
    else []
  allMembers type :=
    if type = interfaceA then [fooA]
    else if type = interfaceB then [fooB]
    else if type = classC then [fooC]
    else []
  overrides method other type := method = fooC ∧ type = classC ∧ other ≠ fooC
  level type := if type = classC then 2 else if type = interfaceA ∨ type = interfaceB then 1 else 0
  level_directSupertypes type parent hparent := by
    split at hparent
    · next hclass =>
      rw [if_pos hclass]
      revert parent
      decide
    · next hclass =>
      rw [if_neg hclass]
      split at hparent
      · next hinterface =>
        rw [if_pos hinterface]
        revert parent
        decide
      · cases hparent
  level_allMembers type member hmember := by
    split at hmember
    · next htype =>
      subst htype
      revert member
      decide
    · split at hmember
      · next htype =>
        subst htype
        revert member
        decide
      · split at hmember
        · next htype =>
          subst htype
          revert member
          decide
        · cases hmember
  distinct method other hconfused := by
    have hids := hconfused.symbolId_eq
    revert hids
    rcases threeMethods_cases method with rfl | rfl | rfl <;>
      rcases threeMethods_cases other with rfl | rfl | rfl <;> decide +kernel

def twoInterfacesWorkspace : Workspace threeMethods where
  hierarchy := twoInterfaces
  documents := [("file:///A.java", [⟨fooA, "A#foo", 21, 24⟩]), ("file:///B.java", [⟨fooB, "B#foo", 21, 24⟩]),
    ("file:///C.java", [⟨fooC, "C#foo", 40, 43⟩])]
  nodup := by decide
  complete method := by
    rcases threeMethods_cases method with rfl | rfl | rfl
    · exact ⟨_, List.mem_cons_self, _, List.mem_cons_self, rfl⟩
    · exact ⟨_, List.mem_cons_of_mem _ List.mem_cons_self, _, List.mem_cons_self, rfl⟩
    · exact ⟨_, List.mem_cons_of_mem _ (List.mem_cons_of_mem _ List.mem_cons_self), _,
        List.mem_cons_self, rfl⟩

end TwoInterfaces

theorem second_interface_is_not_related : ¬ ∀ (methods : List Method) (w : Workspace methods)
    (method : Declared methods), w.RelatesComponent method := by
  intro h
  have hnamed := (twoInterfacesWorkspace.relatesComponent_iff_named fooC).mp
    (h threeMethods twoInterfacesWorkspace fooC)
  obtain ⟨root, -, hunique⟩ := (Components.named_alike_iff twoInterfaces.namesRoots fooC).mp hnamed
  have hA : fooA = root := hunique fooA ⟨rfl, .rel _ _ ⟨classC, by decide⟩⟩
  have hB : fooB = root := hunique fooB ⟨rfl, .rel _ _ ⟨classC, by decide⟩⟩
  exact absurd (hA.trans hB.symm) (by decide)

end JMan.Lsp
