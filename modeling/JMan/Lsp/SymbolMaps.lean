import Mathlib.Data.List.Nodup
import Mathlib.Data.List.Perm.Basic
import JMan.Lsp.Server

/-!
# JMan — the maps of the symbol index

`SymbolIndex` of `symbol_index.rs` as it is kept: a map of the documents, two maps from
symbols to where they are declared and used, which every update has to keep in step, and
the override families, which an update overwrites and a removal makes anew. The order in
which a hash map is gone through is the environment's (`Iteration`).

* `definitions_run` — the buckets are those of `SymbolIndex`, which keeps the documents only.
* `maps_are_fresh` — the index is what a fresh one makes of the surviving documents.
-/

namespace JMan.Lsp

open JMan.Config

-- The maps
-- ---

structure SymbolMaps where
  documents : BTreeMap (List SymbolLocation)
  definitions : BTreeMap (List SymbolLocation)
  references : BTreeMap (List SymbolLocation)
  overrideFamilies : BTreeMap String
  documentOverrideFamilies : BTreeMap Families

/-- The order in which the entries of a hash map come. -/
structure Iteration (α : Type) where
  order : List (String × α) → List (String × α)
  perm : ∀ entries, (order entries).Perm entries

namespace SymbolMaps

def empty : SymbolMaps := ⟨∅, ∅, ∅, ∅, ∅⟩

/-- `index.entry(symbol_id).or_default().push(location)` -/
def push (buckets : BTreeMap (List SymbolLocation)) (location : SymbolLocation) :
    BTreeMap (List SymbolLocation) :=
  buckets.insert location.symbolId ((buckets[location.symbolId]?).getD [] ++ [location])

/-- The entries of a document leave the bucket of a symbol, and the bucket leaves with
the last one. -/
def retainOthers (document : String) (buckets : BTreeMap (List SymbolLocation)) (symbolId : String) :
    BTreeMap (List SymbolLocation) :=
  match buckets[symbolId]? with
  | none => buckets
  | some entries =>
    let kept := entries.filter fun entry => entry.document ≠ document
    if kept = [] then buckets.erase symbolId else buckets.insert symbolId kept

def inIndex (change : BTreeMap (List SymbolLocation) → SymbolLocation → BTreeMap (List SymbolLocation))
    (maps : SymbolMaps) (location : SymbolLocation) : SymbolMaps :=
  if location.role = "declaration" then { maps with definitions := change maps.definitions location }
  else { maps with references := change maps.references location }

variable (maps : SymbolMaps)

/-- One turn of the loop of `remove_document`. -/
def dropLocation (document : String) : SymbolMaps → SymbolLocation → SymbolMaps :=
  inIndex fun buckets location => retainOthers document buckets location.symbolId

def removeDocument (iteration : Iteration Families) (document : String) : SymbolMaps :=
  match maps.documents[document]? with
  | none => { maps with documentOverrideFamilies := maps.documentOverrideFamilies.erase document }
  | some locations =>
    let removed := locations.foldl (dropLocation document)
      { maps with
        documents := maps.documents.erase document
        documentOverrideFamilies := maps.documentOverrideFamilies.erase document }
    { removed with overrideFamilies :=
        SymbolIndex.rebuildOverrideFamilies (iteration.order removed.documentOverrideFamilies.toList) }

/-- One turn of the loop of `update_document`. -/
def addLocation : SymbolMaps → SymbolLocation → SymbolMaps := inIndex push

/-- What `update_document` does after the removal. -/
def addDocument (document : String) (symbols : List SemanticSymbol) : SymbolMaps :=
  let locations := SymbolIndex.locations document symbols
  let relationships := SymbolIndex.relationships symbols
  let added := locations.foldl addLocation maps
  { added with
    overrideFamilies := SymbolIndex.insertFamilies added.overrideFamilies relationships
    documentOverrideFamilies := added.documentOverrideFamilies.insert document relationships
    documents := added.documents.insert document locations }

def updateDocument (iteration : Iteration Families) (document : String) (symbols : List SemanticSymbol) :
    SymbolMaps :=
  (maps.removeDocument iteration document).addDocument document symbols

def definitionsOf (symbolId : String) : List SymbolLocation := (maps.definitions[symbolId]?).getD []

def referencesOf (symbolId : String) : List SymbolLocation := (maps.references[symbolId]?).getD []

/-- `self.documents.values().flatten()`, kept where the location matches -/
def located (values : Iteration (List SymbolLocation)) (keeps : SymbolLocation → Bool) :
    List SymbolLocation :=
  ((values.order maps.documents.toList).flatMap Prod.snd).filter keeps

def incomingCalls (values : Iteration (List SymbolLocation)) (symbolId : String) : List SymbolLocation :=
  maps.located values fun location => location.role = "call_edge" ∧ location.symbolId = symbolId

def outgoingCalls (values : Iteration (List SymbolLocation)) (symbolId : String) : List SymbolLocation :=
  maps.located values fun location => location.role = "call_edge" ∧ location.qualifiedName = symbolId

def documentCallEdges (document : String) : List SymbolLocation :=
  ((maps.documents[document]?).getD []).filter fun location => location.role = "call_edge"

end SymbolMaps

-- Calls
-- ---

/-- A call, and the order in which the families are gone through if it rebuilds them. -/
inductive IndexCall where
  | update (document : String) (symbols : List SemanticSymbol) (iteration : Iteration Families)
  | remove (document : String) (iteration : Iteration Families)

def SymbolMaps.apply (maps : SymbolMaps) : IndexCall → SymbolMaps
  | .update document symbols iteration => maps.updateDocument iteration document symbols
  | .remove document iteration => maps.removeDocument iteration document

def SymbolMaps.run (calls : List IndexCall) : SymbolMaps := calls.foldl SymbolMaps.apply .empty

abbrev Survivor := String × List SemanticSymbol

/-- The latest result of a document that has not been removed since. -/
def latest (document : String) (calls : List IndexCall) : Option (List SemanticSymbol) :=
  calls.foldl (fun known call =>
    match call with
    | .update updated symbols _ => if updated = document then some symbols else known
    | .remove removed _ => if removed = document then none else known) none

/-- The surviving documents with their latest results, in some order. -/
def Lists (order : List Survivor) (calls : List IndexCall) : Prop :=
  (order.map Prod.fst).Nodup ∧
    ∀ document symbols, (document, symbols) ∈ order ↔ latest document calls = some symbols

/-- The surviving documents, in the order in which they were last updated. -/
def survive (survivors : List Survivor) : IndexCall → List Survivor
  | .update document symbols _ =>
    survivors.filter (fun survivor => survivor.1 ≠ document) ++ [(document, symbols)]
  | .remove document _ => survivors.filter fun survivor => survivor.1 ≠ document

def surviving (calls : List IndexCall) : List Survivor := calls.foldl survive []

/-- A fresh index, into which results are inserted one after the other. -/
def SymbolMaps.fresh (iteration : Iteration Families) (survivors : List Survivor) : SymbolMaps :=
  survivors.foldl (fun maps survivor => maps.updateDocument iteration survivor.1 survivor.2) .empty

-- Buckets
-- ---

section Buckets

variable {buckets : BTreeMap (List SymbolLocation)} {locations rest : List SymbolLocation}
  {location : SymbolLocation} {document symbolId other : String}

def ofSymbol (symbolId : String) (locations : List SymbolLocation) : List SymbolLocation :=
  locations.filter fun location => location.symbolId = symbolId

/-- What a map holds for a symbol that has these locations: nothing where there are
none. -/
def bucketOf (locations : List SymbolLocation) : Option (List SymbolLocation) :=
  if locations = [] then none else some locations

theorem getD_bucketOf (locations : List SymbolLocation) : (bucketOf locations).getD [] = locations := by
  unfold bucketOf
  split
  · next hempty => exact hempty.symm
  · rfl

theorem bucketOf_ne (locations : List SymbolLocation) : bucketOf locations ≠ some [] := by
  unfold bucketOf
  split
  · exact fun h => Option.some_ne_none _ h.symm
  · next hne => exact fun h => hne (Option.some.inj h)

/-- Every symbol has a bucket with its locations. -/
def Buckets (buckets : BTreeMap (List SymbolLocation)) (locations : List SymbolLocation) : Prop :=
  ∀ symbolId, buckets[symbolId]? = bucketOf (ofSymbol symbolId locations)

theorem ofSymbol_append (symbolId : String) (locations rest : List SymbolLocation) :
    ofSymbol symbolId (locations ++ rest) = ofSymbol symbolId locations ++ ofSymbol symbolId rest :=
  List.filter_append _ _

theorem Buckets.push (h : Buckets buckets locations) (location : SymbolLocation) :
    Buckets (SymbolMaps.push buckets location) (locations ++ [location]) := by
  intro symbolId
  unfold SymbolMaps.push
  rw [ofSymbol_append]
  by_cases hsymbol : symbolId = location.symbolId
  · subst hsymbol
    have hself : ofSymbol location.symbolId [location] = [location] :=
      List.filter_eq_self.mpr fun entry hentry => by
        rw [List.mem_singleton.mp hentry]
        exact decide_eq_true rfl
    rw [Std.ExtTreeMap.getElem?_insert_self, h, getD_bucketOf, hself, bucketOf, if_neg]
    exact List.append_ne_nil_of_right_ne_nil _ (List.cons_ne_nil _ _)
  · have hnone : ofSymbol symbolId [location] = [] :=
      List.filter_eq_nil_iff.mpr fun entry hentry => by
        rw [List.mem_singleton.mp hentry, decide_eq_true_eq]
        exact fun heq => hsymbol heq.symm
    rw [Server.getElem?_insert_of_ne _ _ hsymbol, h, hnone, List.append_nil]

/-- In the middle of a removal the buckets of some symbols are without the document. -/
def Dropping (document : String) (locations : List SymbolLocation) (done : List String)
    (buckets : BTreeMap (List SymbolLocation)) : Prop :=
  ∀ symbolId, buckets[symbolId]? = bucketOf (if symbolId ∈ done then
    (ofSymbol symbolId locations).filter fun location => location.document ≠ document
    else ofSymbol symbolId locations)

theorem Dropping.retainOthers {done : List String} (h : Dropping document locations done buckets)
    (symbolId : String) :
    Dropping document locations (symbolId :: done) (SymbolMaps.retainOthers document buckets symbolId) := by
  intro other
  have hself : buckets[symbolId]? = bucketOf (if symbolId ∈ done then
    (ofSymbol symbolId locations).filter fun location => location.document ≠ document
    else ofSymbol symbolId locations) := h symbolId
  have hfiltered : ∀ entries, buckets[symbolId]? = bucketOf entries →
      entries.filter (fun location => location.document ≠ document) =
        (ofSymbol symbolId locations).filter fun location => location.document ≠ document := by
    intro entries hentries
    have heq := congrArg (Option.getD · []) (hentries.symm.trans hself)
    rw [getD_bucketOf, getD_bucketOf] at heq
    rw [heq]
    split
    · rw [List.filter_filter]
      exact List.filter_congr fun entry _ => Bool.and_self _
    · rfl
  by_cases hother : other = symbolId
  · subst hother
    rw [if_pos List.mem_cons_self]
    unfold SymbolMaps.retainOthers
    split
    · next hnone =>
      rw [hnone, ← hfiltered [] hnone]
      rfl
    · next entries hentries =>
      have hbucket : bucketOf entries = some entries := by
        unfold bucketOf
        rw [if_neg]
        rintro rfl
        exact bucketOf_ne _ (hself.symm.trans hentries)
      rw [← hfiltered entries (hentries.trans hbucket.symm)]
      dsimp only
      unfold bucketOf
      split
      · exact Std.ExtTreeMap.getElem?_erase_self
      · exact Std.ExtTreeMap.getElem?_insert_self
  · have hsame : (SymbolMaps.retainOthers document buckets symbolId)[other]? = buckets[other]? := by
      unfold SymbolMaps.retainOthers
      split
      · rfl
      · dsimp only
        split
        · exact Server.getElem?_erase_of_ne _ hother
        · exact Server.getElem?_insert_of_ne _ _ hother
    rw [hsame, h other]
    by_cases hdone : other ∈ done
    · rw [if_pos hdone, if_pos (List.mem_cons_of_mem _ hdone)]
    · rw [if_neg hdone, if_neg fun hmem => (List.mem_cons.mp hmem).elim hother hdone]

theorem Dropping.foldl (removed : List SymbolLocation) {done : List String}
    (h : Dropping document locations done buckets) :
    ∃ done', (∀ symbolId, symbolId ∈ done' ↔ symbolId ∈ done ∨ symbolId ∈ removed.map (·.symbolId)) ∧
      Dropping document locations done' (removed.foldl
        (fun buckets location => SymbolMaps.retainOthers document buckets location.symbolId) buckets) := by
  induction removed generalizing done buckets with
  | nil => exact ⟨done, fun symbolId => by simp, h⟩
  | cons location removed ih =>
    obtain ⟨done', hdone, hdropped⟩ := ih (h.retainOthers location.symbolId)
    refine ⟨done', fun symbolId => ?_, hdropped⟩
    rw [hdone, List.map_cons, List.mem_cons, List.mem_cons, or_assoc, or_left_comm]

/-- **A removal finds every entry of the document,** if it goes through the symbols of
all of them. -/
theorem Buckets.remove (h : Buckets buckets locations) {removed : List SymbolLocation}
    (hremoved : ∀ location ∈ locations, location.document = document → location ∈ removed) :
    Buckets (removed.foldl
      (fun buckets location => SymbolMaps.retainOthers document buckets location.symbolId) buckets)
      (locations.filter fun location => location.document ≠ document) := by
  have hstart : Dropping document locations [] buckets := fun symbolId => by
    rw [if_neg List.not_mem_nil]
    exact h symbolId
  obtain ⟨done, hdone, hdropped⟩ := hstart.foldl removed
  intro symbolId
  have hcomm : ofSymbol symbolId (locations.filter fun location => location.document ≠ document) =
      (ofSymbol symbolId locations).filter fun location => location.document ≠ document := by
    unfold ofSymbol
    rw [List.filter_filter, List.filter_filter]
    exact List.filter_congr fun location _ => Bool.and_comm _ _
  rw [hdropped symbolId, hcomm]
  split
  · rfl
  · next hnot =>
    congr 1
    refine (List.filter_eq_self.mpr fun location hlocation => ?_).symm
    obtain ⟨hmem, hsymbol⟩ := List.mem_filter.mp hlocation
    rw [decide_eq_true_eq]
    refine fun hdocument => hnot ((hdone symbolId).mpr (.inr ?_))
    exact List.mem_map.mpr ⟨location, hremoved location hmem hdocument, of_decide_eq_true hsymbol⟩

end Buckets

-- What the maps hold
-- ---

def declarations (locations : List SymbolLocation) : List SymbolLocation :=
  locations.filter fun location => location.role = "declaration"

def uses (locations : List SymbolLocation) : List SymbolLocation :=
  locations.filter fun location => location.role ≠ "declaration"

def locationsOf (survivors : List Survivor) : List SymbolLocation :=
  survivors.flatMap fun survivor => SymbolIndex.locations survivor.1 survivor.2

/-- The families that are left if documents are inserted one after the other. -/
def familiesOf (survivors : List Survivor) : BTreeMap String :=
  survivors.foldl (fun families survivor =>
    SymbolIndex.insertFamilies families (SymbolIndex.relationships survivor.2)) ∅

def Holds {α : Type} (map : BTreeMap α) (entry : String → List SemanticSymbol → α)
    (survivors : List Survivor) : Prop :=
  ∀ document value, map[document]? = some value ↔
    ∃ symbols, (document, symbols) ∈ survivors ∧ entry document symbols = value

/-- The maps hold what these results are made of. -/
structure Represents (maps : SymbolMaps) (survivors : List Survivor) : Prop where
  nodup : (survivors.map Prod.fst).Nodup
  documents : Holds maps.documents SymbolIndex.locations survivors
  reported : Holds maps.documentOverrideFamilies (fun _ => SymbolIndex.relationships) survivors
  definitions : Buckets maps.definitions (declarations (locationsOf survivors))
  references : Buckets maps.references (uses (locationsOf survivors))
  families : ∃ order : List Survivor, order.Perm survivors ∧ maps.overrideFamilies = familiesOf order

section Holds

variable {α : Type} {map : BTreeMap α} {entry : String → List SemanticSymbol → α}
  {survivors : List Survivor} {document : String} {symbols : List SemanticSymbol}

theorem Holds.erase (h : Holds map entry survivors) (document : String) :
    Holds (map.erase document) entry (survivors.filter fun survivor => survivor.1 ≠ document) := by
  intro other value
  by_cases hother : other = document
  · subst hother
    constructor
    · intro hvalue
      rw [Std.ExtTreeMap.getElem?_erase_self] at hvalue
      cases hvalue
    · rintro ⟨symbols, hmem, -⟩
      exact absurd rfl (of_decide_eq_true (List.mem_filter.mp hmem).2)
  · rw [Server.getElem?_erase_of_ne _ hother, h other value]
    constructor
    · rintro ⟨symbols, hmem, hvalue⟩
      exact ⟨symbols, List.mem_filter.mpr ⟨hmem, decide_eq_true hother⟩, hvalue⟩
    · rintro ⟨symbols, hmem, hvalue⟩
      exact ⟨symbols, (List.mem_filter.mp hmem).1, hvalue⟩

theorem Holds.insert (h : Holds map entry survivors) (hnew : document ∉ survivors.map Prod.fst)
    (symbols : List SemanticSymbol) :
    Holds (map.insert document (entry document symbols)) entry (survivors ++ [(document, symbols)]) := by
  intro other value
  by_cases hother : other = document
  · subst hother
    rw [Std.ExtTreeMap.getElem?_insert_self]
    constructor
    · intro hvalue
      exact ⟨symbols, List.mem_append_right _ (List.mem_singleton_self _), Option.some.inj hvalue⟩
    · rintro ⟨found, hmem, hvalue⟩
      rcases List.mem_append.mp hmem with hmem | hmem
      · exact absurd (List.mem_map_of_mem hmem) hnew
      · cases List.mem_singleton.mp hmem
        exact congrArg some hvalue
  · rw [Server.getElem?_insert_of_ne _ _ hother, h other value]
    constructor
    · rintro ⟨found, hmem, hvalue⟩
      exact ⟨found, List.mem_append_left _ hmem, hvalue⟩
    · rintro ⟨found, hmem, hvalue⟩
      rcases List.mem_append.mp hmem with hmem | hmem
      · exact ⟨found, hmem, hvalue⟩
      · exact absurd (congrArg Prod.fst (List.mem_singleton.mp hmem)) hother

theorem Holds.eq_of_perm {other : BTreeMap α} {order : List Survivor} (h : Holds map entry survivors)
    (hother : Holds other entry order) (hperm : survivors.Perm order) : map = other := by
  refine Std.ExtTreeMap.ext_getElem? fun document => Option.ext fun value => ?_
  rw [h document value, hother document value]
  exact exists_congr fun symbols => and_congr_left' hperm.mem_iff

theorem Holds.toList_perm (h : Holds map entry survivors) (hnodup : (survivors.map Prod.fst).Nodup) :
    map.toList.Perm (survivors.map fun survivor => (survivor.1, entry survivor.1 survivor.2)) := by
  have hentries : (survivors.map fun survivor => (survivor.1, entry survivor.1 survivor.2)).Nodup := by
    refine List.Nodup.of_map Prod.fst ?_
    rwa [List.map_map]
  have hkeys : map.toList.Nodup :=
    Std.ExtTreeMap.distinct_keys_toList.imp fun hne heq => hne (by rw [heq, Std.compare_self])
  refine (List.perm_ext_iff_of_nodup hkeys hentries).mpr fun found => ?_
  obtain ⟨document, value⟩ := found
  rw [Std.ExtTreeMap.mem_toList_iff_getElem?_eq_some, h document value, List.mem_map]
  constructor
  · rintro ⟨symbols, hmem, rfl⟩
    exact ⟨(document, symbols), hmem, rfl⟩
  · rintro ⟨⟨name, symbols⟩, hmem, heq⟩
    obtain ⟨rfl, rfl⟩ := Prod.mk.inj heq
    exact ⟨symbols, hmem, rfl⟩

end Holds

-- A call
-- ---

section Calls

variable {maps : SymbolMaps} {survivors : List Survivor} {document : String}
  {symbols : List SemanticSymbol} {location : SymbolLocation}

theorem document_of_mem_locations (h : location ∈ SymbolIndex.locations document symbols) :
    location.document = document := by
  obtain ⟨symbol, -, rfl⟩ := List.mem_map.mp h
  rfl

theorem mem_locationsOf : location ∈ locationsOf survivors ↔
    ∃ symbols, (location.document, symbols) ∈ survivors ∧
      location ∈ SymbolIndex.locations location.document symbols := by
  rw [locationsOf, List.mem_flatMap]
  constructor
  · rintro ⟨⟨document, symbols⟩, hmem, hlocation⟩
    obtain rfl := document_of_mem_locations hlocation
    exact ⟨symbols, hmem, hlocation⟩
  · rintro ⟨symbols, hmem, hlocation⟩
    exact ⟨_, hmem, hlocation⟩

theorem locationsOf_filter (survivors : List Survivor) (document : String) :
    locationsOf (survivors.filter fun survivor => survivor.1 ≠ document) =
      (locationsOf survivors).filter fun location => location.document ≠ document := by
  induction survivors with
  | nil => rfl
  | cons survivor survivors ih =>
    have hcons : ∀ rest, locationsOf (survivor :: rest) =
        SymbolIndex.locations survivor.1 survivor.2 ++ locationsOf rest := fun _ => List.flatMap_cons
    have howned : ∀ location ∈ SymbolIndex.locations survivor.1 survivor.2,
        location.document = survivor.1 := fun _ => document_of_mem_locations
    rw [hcons, List.filter_append, ← ih]
    by_cases hdocument : survivor.1 = document
    · have hnone : (SymbolIndex.locations survivor.1 survivor.2).filter
          (fun location => location.document ≠ document) = [] :=
        List.filter_eq_nil_iff.mpr fun location hlocation => by
          rw [decide_eq_true_eq, not_not, howned location hlocation, hdocument]
      rw [List.filter_cons_of_neg (by simpa using hdocument), hnone, List.nil_append]
    · have hall : (SymbolIndex.locations survivor.1 survivor.2).filter
          (fun location => location.document ≠ document) = SymbolIndex.locations survivor.1 survivor.2 :=
        List.filter_eq_self.mpr fun location hlocation => by
          rw [decide_eq_true_eq, howned location hlocation]
          exact hdocument
      rw [List.filter_cons_of_pos (by simpa using hdocument), hcons, hall]

theorem declarations_filter (locations : List SymbolLocation) (p : SymbolLocation → Bool) :
    declarations (locations.filter p) = (declarations locations).filter p := by
  unfold declarations
  rw [List.filter_filter, List.filter_filter]
  exact List.filter_congr fun location _ => Bool.and_comm _ _

theorem uses_filter (locations : List SymbolLocation) (p : SymbolLocation → Bool) :
    uses (locations.filter p) = (uses locations).filter p := by
  unfold uses
  rw [List.filter_filter, List.filter_filter]
  exact List.filter_congr fun location _ => Bool.and_comm _ _

theorem declarations_append (locations rest : List SymbolLocation) :
    declarations (locations ++ rest) = declarations locations ++ declarations rest :=
  List.filter_append _ _

theorem uses_append (locations rest : List SymbolLocation) :
    uses (locations ++ rest) = uses locations ++ uses rest :=
  List.filter_append _ _

theorem foldl_inIndex
    (change : BTreeMap (List SymbolLocation) → SymbolLocation → BTreeMap (List SymbolLocation))
    (maps : SymbolMaps) (locations : List SymbolLocation) :
    locations.foldl (SymbolMaps.inIndex change) maps =
      { maps with
        definitions := (declarations locations).foldl change maps.definitions
        references := (uses locations).foldl change maps.references } := by
  induction locations generalizing maps with
  | nil => rfl
  | cons location locations ih =>
    rw [List.foldl_cons, ih]
    unfold declarations uses SymbolMaps.inIndex
    by_cases hrole : location.role = "declaration"
    · rw [if_pos hrole, List.filter_cons_of_pos (by simpa using hrole),
        List.filter_cons_of_neg (by simpa using hrole), List.foldl_cons]
    · rw [if_neg hrole, List.filter_cons_of_neg (by simpa using hrole),
        List.filter_cons_of_pos (by simpa using hrole), List.foldl_cons]

theorem filter_absent (h : document ∉ survivors.map Prod.fst) :
    survivors.filter (fun survivor => survivor.1 ≠ document) = survivors := by
  refine List.filter_eq_self.mpr fun survivor hmem => ?_
  rw [decide_eq_true_eq]
  rintro rfl
  exact h (List.mem_map_of_mem hmem)

theorem Represents.removeDocument_of_absent (h : Represents maps survivors)
    (iteration : Iteration Families) (habsent : document ∉ survivors.map Prod.fst) :
    maps.removeDocument iteration document =
      { maps with documentOverrideFamilies := maps.documentOverrideFamilies.erase document } := by
  have hnone : maps.documents[document]? = none :=
    Option.eq_none_iff_forall_ne_some.mpr fun locations hlocations => by
      obtain ⟨symbols, hmem, -⟩ := (h.documents document locations).mp hlocations
      exact habsent (List.mem_map_of_mem hmem)
  unfold SymbolMaps.removeDocument
  rw [hnone]

theorem exists_order {reported : BTreeMap Families}
    (h : Holds reported (fun _ => SymbolIndex.relationships) survivors)
    (hnodup : (survivors.map Prod.fst).Nodup) (iteration : Iteration Families) :
    ∃ order : List Survivor, order.Perm survivors ∧
      SymbolIndex.rebuildOverrideFamilies (iteration.order reported.toList) = familiesOf order := by
  have hperm := (iteration.perm reported.toList).trans (h.toList_perm hnodup)
  obtain ⟨order, horder, hsame⟩ := (congrFun₂ (List.eq_map_comp_perm fun survivor : Survivor =>
    (survivor.1, SymbolIndex.relationships survivor.2)) _ _).mpr hperm
  refine ⟨order, hsame, ?_⟩
  rw [horder, SymbolIndex.rebuildOverrideFamilies, List.foldl_map]
  rfl

/-- **A removal leaves what the other documents contributed.** -/
theorem Represents.removeDocument (h : Represents maps survivors) (iteration : Iteration Families)
    (document : String) :
    Represents (maps.removeDocument iteration document)
      (survivors.filter fun survivor => survivor.1 ≠ document) := by
  have hnodup : ((survivors.filter fun survivor => survivor.1 ≠ document).map Prod.fst).Nodup :=
    h.nodup.sublist (List.filter_sublist.map _)
  by_cases habsent : document ∉ survivors.map Prod.fst
  · have hreported := h.reported.erase document
    rw [h.removeDocument_of_absent iteration habsent]
    rw [filter_absent habsent] at hreported ⊢
    exact ⟨h.nodup, h.documents, hreported, h.definitions, h.references, h.families⟩
  · obtain ⟨⟨name, symbols⟩, hmem, hname⟩ := List.mem_map.mp (not_not.mp habsent)
    obtain rfl : name = document := hname
    have hstored := (h.documents name _).mpr ⟨symbols, hmem, rfl⟩
    -- the stored locations are all the document has contributed
    have hfound : ∀ location ∈ locationsOf survivors, location.document = name →
        location ∈ SymbolIndex.locations name symbols := by
      rintro location hlocation rfl
      obtain ⟨found, hfound, hin⟩ := mem_locationsOf.mp hlocation
      have heq := (h.documents location.document _).mpr ⟨found, hfound, rfl⟩
      rwa [← Option.some.inj (heq.symm.trans hstored)]
    unfold SymbolMaps.removeDocument
    rw [hstored]
    dsimp only
    rw [SymbolMaps.dropLocation, foldl_inIndex]
    refine ⟨hnodup, h.documents.erase name, h.reported.erase name, ?_, ?_,
      exists_order (h.reported.erase name) hnodup iteration⟩
    · rw [locationsOf_filter, declarations_filter]
      refine h.definitions.remove fun location hlocation hdocument => ?_
      obtain ⟨hin, hrole⟩ := List.mem_filter.mp hlocation
      exact List.mem_filter.mpr ⟨hfound location hin hdocument, hrole⟩
    · rw [locationsOf_filter, uses_filter]
      refine h.references.remove fun location hlocation hdocument => ?_
      obtain ⟨hin, hrole⟩ := List.mem_filter.mp hlocation
      exact List.mem_filter.mpr ⟨hfound location hin hdocument, hrole⟩

theorem Buckets.foldl_push {buckets : BTreeMap (List SymbolLocation)} {locations : List SymbolLocation}
    (h : Buckets buckets locations) (added : List SymbolLocation) :
    Buckets (added.foldl SymbolMaps.push buckets) (locations ++ added) := by
  induction added generalizing buckets locations with
  | nil => rwa [List.append_nil]
  | cons location added ih =>
    have hnext := ih (h.push location)
    rwa [List.append_assoc] at hnext

theorem familiesOf_concat (survivors : List Survivor) (survivor : Survivor) :
    familiesOf (survivors ++ [survivor]) =
      SymbolIndex.insertFamilies (familiesOf survivors) (SymbolIndex.relationships survivor.2) :=
  List.foldl_concat _ _ _ _

/-- **A new document adds what its result says.** -/
theorem Represents.addDocument (h : Represents maps survivors)
    (hnew : document ∉ survivors.map Prod.fst) (symbols : List SemanticSymbol) :
    Represents (maps.addDocument document symbols) (survivors ++ [(document, symbols)]) := by
  have hlocations : locationsOf (survivors ++ [(document, symbols)]) =
      locationsOf survivors ++ SymbolIndex.locations document symbols := by
    rw [locationsOf, List.flatMap_append, List.flatMap_singleton]
    rfl
  unfold SymbolMaps.addDocument
  dsimp only
  rw [SymbolMaps.addLocation, foldl_inIndex]
  refine ⟨?_, h.documents.insert hnew symbols, h.reported.insert hnew symbols, ?_, ?_, ?_⟩
  · rw [List.map_append, List.map_singleton]
    refine List.nodup_append.mpr ⟨h.nodup, List.nodup_singleton _, fun name hname other hother => ?_⟩
    rw [List.mem_singleton.mp hother]
    rintro rfl
    exact hnew hname
  · rw [hlocations, declarations_append]
    exact h.definitions.foldl_push _
  · rw [hlocations, uses_append]
    exact h.references.foldl_push _
  · obtain ⟨order, hperm, hfamilies⟩ := h.families
    refine ⟨order ++ [(document, symbols)], hperm.append_right _, ?_⟩
    rw [familiesOf_concat, ← hfamilies]

theorem absent_filter (survivors : List Survivor) (document : String) :
    document ∉ (survivors.filter fun survivor => survivor.1 ≠ document).map Prod.fst := by
  rintro hmem
  obtain ⟨survivor, hsurvivor, hname⟩ := List.mem_map.mp hmem
  exact of_decide_eq_true (List.mem_filter.mp hsurvivor).2 hname

/-- **A call leaves the maps with what the surviving documents contributed.** -/
theorem Represents.apply (h : Represents maps survivors) (call : IndexCall) :
    Represents (maps.apply call) (survive survivors call) := by
  cases call with
  | update document symbols iteration =>
    exact (h.removeDocument iteration document).addDocument (absent_filter survivors document) symbols
  | remove document iteration => exact h.removeDocument iteration document

theorem represents_empty : Represents .empty [] where
  nodup := List.nodup_nil
  documents := fun document locations => by
    simp [SymbolMaps.empty]
  reported := fun document relationships => by
    simp [SymbolMaps.empty]
  definitions := fun symbolId => by
    simp [SymbolMaps.empty, bucketOf, ofSymbol, declarations, locationsOf]
  references := fun symbolId => by
    simp [SymbolMaps.empty, bucketOf, ofSymbol, uses, locationsOf]
  families := ⟨[], List.Perm.refl _, rfl⟩

theorem Represents.foldl (h : Represents maps survivors) (calls : List IndexCall) :
    Represents (calls.foldl SymbolMaps.apply maps) (calls.foldl survive survivors) := by
  induction calls generalizing maps survivors with
  | nil => exact h
  | cons call calls ih => exact ih (h.apply call)

/-- **After every sequence of calls the maps hold what the surviving documents
contributed.** -/
theorem represents_run (calls : List IndexCall) : Represents (SymbolMaps.run calls) (surviving calls) :=
  represents_empty.foldl calls

end Calls

-- Fresh indexes
-- ---

section Fresh

variable {survivors order : List Survivor} {maps made : SymbolMaps} {symbolId : String}

/-- **An index into which documents are inserted one after the other** holds what they
contribute, and the families of the last one win. -/
theorem represents_fresh (iteration : Iteration Families) (h : (order.map Prod.fst).Nodup) :
    Represents (SymbolMaps.fresh iteration order) order ∧
      (SymbolMaps.fresh iteration order).overrideFamilies = familiesOf order := by
  induction order using List.reverseRecOn with
  | nil => exact ⟨represents_empty, rfl⟩
  | append_singleton order survivor ih =>
    rw [List.map_append, List.map_singleton] at h
    obtain ⟨hnodup, -, hapart⟩ := List.nodup_append.mp h
    have hnew : survivor.1 ∉ order.map Prod.fst := fun hmem =>
      hapart _ hmem _ (List.mem_singleton_self _) rfl
    obtain ⟨hrepresents, hfamilies⟩ := ih hnodup
    have hconcat : SymbolMaps.fresh iteration (order ++ [survivor]) =
        (SymbolMaps.fresh iteration order).updateDocument iteration survivor.1 survivor.2 :=
      List.foldl_concat _ _ _ _
    have hremoved := hrepresents.removeDocument iteration survivor.1
    rw [filter_absent hnew] at hremoved
    rw [hconcat, SymbolMaps.updateDocument]
    refine ⟨hremoved.addDocument hnew survivor.2, ?_⟩
    rw [familiesOf_concat, ← hfamilies, SymbolMaps.addDocument]
    dsimp only
    rw [SymbolMaps.addLocation, foldl_inIndex, hrepresents.removeDocument_of_absent iteration hnew]

theorem locationsOf_perm (h : survivors.Perm order) : (locationsOf survivors).Perm (locationsOf order) :=
  h.flatMap_right _

theorem Represents.definitionsOf (h : Represents maps survivors) (symbolId : String) :
    maps.definitionsOf symbolId = ofSymbol symbolId (declarations (locationsOf survivors)) := by
  rw [SymbolMaps.definitionsOf, h.definitions, getD_bucketOf]

theorem Represents.referencesOf (h : Represents maps survivors) (symbolId : String) :
    maps.referencesOf symbolId = ofSymbol symbolId (uses (locationsOf survivors)) := by
  rw [SymbolMaps.referencesOf, h.references, getD_bucketOf]

theorem Represents.located (h : Represents maps survivors) (values : Iteration (List SymbolLocation))
    (keeps : SymbolLocation → Bool) :
    (maps.located values keeps).Perm ((locationsOf survivors).filter keeps) := by
  have hperm := (values.perm maps.documents.toList).trans (h.documents.toList_perm h.nodup)
  have hflat := hperm.flatMap_right Prod.snd
  rw [List.flatMap_map] at hflat
  exact hflat.filter keeps

-- The families

theorem insertFamilies_concat (families : BTreeMap String) (relationships : Families)
    (entry : String × String) :
    SymbolIndex.insertFamilies families (relationships ++ [entry]) =
      (SymbolIndex.insertFamilies families relationships).insert entry.1 entry.2 :=
  List.foldl_concat _ _ _ _

/-- The family that a result reports for a symbol, the last one if it reports several. -/
def reportedFamily (symbols : List SemanticSymbol) (symbolId : String) : Option String :=
  (SymbolIndex.insertFamilies ∅ (SymbolIndex.relationships symbols))[symbolId]?

/-- No two documents report different families for one symbol. -/
def Agree (survivors : List Survivor) : Prop :=
  ∀ survivor ∈ survivors, ∀ other ∈ survivors, ∀ symbolId family otherFamily,
    reportedFamily survivor.2 symbolId = some family →
    reportedFamily other.2 symbolId = some otherFamily → family = otherFamily

theorem getElem?_insertFamilies (families : BTreeMap String) (relationships : Families) (symbolId : String) :
    (SymbolIndex.insertFamilies families relationships)[symbolId]? =
      ((SymbolIndex.insertFamilies ∅ relationships)[symbolId]?).or families[symbolId]? := by
  induction relationships using List.reverseRecOn with
  | nil => simp [SymbolIndex.insertFamilies]
  | append_singleton relationships entry ih =>
    rw [insertFamilies_concat, insertFamilies_concat]
    by_cases hsymbol : symbolId = entry.1
    · subst hsymbol
      rw [Std.ExtTreeMap.getElem?_insert_self, Std.ExtTreeMap.getElem?_insert_self]
      rfl
    · rw [Server.getElem?_insert_of_ne _ _ hsymbol, Server.getElem?_insert_of_ne _ _ hsymbol]
      exact ih

theorem reportedFamily_of_familiesOf {family : String} (h : (familiesOf order)[symbolId]? = some family) :
    ∃ survivor ∈ order, reportedFamily survivor.2 symbolId = some family := by
  induction order using List.reverseRecOn with
  | nil => exact absurd h (by simp [familiesOf])
  | append_singleton order survivor ih =>
    rw [familiesOf_concat, getElem?_insertFamilies, Option.or_eq_some_iff] at h
    rcases h with hreported | ⟨-, hbefore⟩
    · exact ⟨survivor, List.mem_append_right _ (List.mem_singleton_self _), hreported⟩
    · obtain ⟨found, hmem, hfound⟩ := ih hbefore
      exact ⟨found, List.mem_append_left _ hmem, hfound⟩

theorem familiesOf_isSome {survivor : Survivor} {family : String} (hmem : survivor ∈ order)
    (h : reportedFamily survivor.2 symbolId = some family) :
    ∃ found, (familiesOf order)[symbolId]? = some found := by
  induction order using List.reverseRecOn with
  | nil => cases hmem
  | append_singleton order last ih =>
    rw [familiesOf_concat, getElem?_insertFamilies]
    rcases List.mem_append.mp hmem with hmem | hmem
    · obtain ⟨found, hfound⟩ := ih hmem
      rw [hfound]
      cases hlast : (SymbolIndex.insertFamilies ∅ (SymbolIndex.relationships last.2))[symbolId]? with
      | none => exact ⟨found, rfl⟩
      | some family => exact ⟨family, rfl⟩
    · obtain rfl := List.mem_singleton.mp hmem
      rw [reportedFamily] at h
      rw [h]
      exact ⟨family, rfl⟩

theorem getElem?_familiesOf (h : Agree order) {family : String} :
    (familiesOf order)[symbolId]? = some family ↔
      ∃ survivor ∈ order, reportedFamily survivor.2 symbolId = some family := by
  refine ⟨reportedFamily_of_familiesOf, ?_⟩
  rintro ⟨survivor, hmem, hreported⟩
  obtain ⟨found, hfound⟩ := familiesOf_isSome hmem hreported
  obtain ⟨other, hother, hotherReported⟩ := reportedFamily_of_familiesOf hfound
  rw [h survivor hmem other hother symbolId family found hreported hotherReported, hfound]

theorem familiesOf_perm (h : Agree survivors) (hperm : survivors.Perm order) :
    familiesOf survivors = familiesOf order := by
  have horder : Agree order := fun survivor hsurvivor other hother =>
    h survivor (hperm.mem_iff.mpr hsurvivor) other (hperm.mem_iff.mpr hother)
  refine Std.ExtTreeMap.ext_getElem? fun symbolId => Option.ext fun family => ?_
  rw [getElem?_familiesOf h, getElem?_familiesOf horder]
  exact exists_congr fun survivor => and_congr_left' hperm.mem_iff

-- The surviving documents

theorem mem_surviving {document : String} {symbols : List SemanticSymbol} (calls : List IndexCall) :
    (document, symbols) ∈ surviving calls ↔ latest document calls = some symbols := by
  induction calls using List.reverseRecOn with
  | nil => simp [surviving, latest]
  | append_singleton calls call ih =>
    rw [surviving, List.foldl_concat, latest, List.foldl_concat, ← surviving, ← latest]
    cases call with
    | update updated reported iteration =>
      dsimp only [survive]
      rw [List.mem_append, List.mem_filter, List.mem_singleton, decide_eq_true_eq, ih, Prod.mk.injEq]
      by_cases hdocument : updated = document
      · subst hdocument
        rw [if_pos rfl, Option.some.injEq]
        grind
      · rw [if_neg hdocument]
        grind
    | remove removed iteration =>
      dsimp only [survive]
      rw [List.mem_filter, decide_eq_true_eq, ih]
      by_cases hdocument : removed = document
      · subst hdocument
        rw [if_pos rfl]
        exact ⟨fun h => absurd rfl h.2, fun h => absurd h.symm (Option.some_ne_none _)⟩
      · rw [if_neg hdocument]
        exact and_iff_left fun heq => hdocument heq.symm

theorem lists_iff {calls : List IndexCall} : Lists order calls ↔ order.Perm (surviving calls) := by
  have hnodup := (represents_run calls).nodup
  constructor
  · rintro ⟨horder, hmem⟩
    refine (List.perm_ext_iff_of_nodup (.of_map _ horder) (.of_map _ hnodup)).mpr fun survivor => ?_
    rw [hmem survivor.1 survivor.2, mem_surviving]
  · intro hperm
    refine ⟨(hperm.map Prod.fst).nodup_iff.mpr hnodup, fun document symbols => ?_⟩
    rw [hperm.mem_iff, mem_surviving]

/-- Two indexes with the same entries, up to their order. -/
structure SameEntries (maps made : SymbolMaps) : Prop where
  definitions : ∀ symbolId, (maps.definitionsOf symbolId).Perm (made.definitionsOf symbolId)
  references : ∀ symbolId, (maps.referencesOf symbolId).Perm (made.referencesOf symbolId)
  incomingCalls : ∀ values otherValues symbolId,
    (maps.incomingCalls values symbolId).Perm (made.incomingCalls otherValues symbolId)
  outgoingCalls : ∀ values otherValues symbolId,
    (maps.outgoingCalls values symbolId).Perm (made.outgoingCalls otherValues symbolId)
  documentCallEdges : ∀ document, maps.documentCallEdges document = made.documentCallEdges document

theorem Represents.located_perm (h : Represents maps survivors) (hmade : Represents made order)
    (hperm : survivors.Perm order) (values otherValues : Iteration (List SymbolLocation))
    (keeps : SymbolLocation → Bool) :
    (maps.located values keeps).Perm (made.located otherValues keeps) :=
  ((h.located values keeps).trans ((locationsOf_perm hperm).filter keeps)).trans
    (hmade.located otherValues keeps).symm

theorem Represents.sameEntries (h : Represents maps survivors) (hmade : Represents made order)
    (hperm : survivors.Perm order) : SameEntries maps made where
  definitions := fun symbolId => by
    rw [h.definitionsOf, hmade.definitionsOf]
    exact ((locationsOf_perm hperm).filter _).filter _
  references := fun symbolId => by
    rw [h.referencesOf, hmade.referencesOf]
    exact ((locationsOf_perm hperm).filter _).filter _
  incomingCalls := fun values otherValues _ => h.located_perm hmade hperm values otherValues _
  outgoingCalls := fun values otherValues _ => h.located_perm hmade hperm values otherValues _
  documentCallEdges := fun document => by
    unfold SymbolMaps.documentCallEdges
    rw [h.documents.eq_of_perm hmade.documents hperm]

theorem Represents.no_empty_bucket (h : Represents maps survivors) (symbolId : String) :
    maps.definitions[symbolId]? ≠ some [] ∧ maps.references[symbolId]? ≠ some [] := by
  rw [h.definitions, h.references]
  exact ⟨bucketOf_ne _, bucketOf_ne _⟩

/-- **Whatever the calls were, the index is what a fresh one makes of the surviving
documents.** Its entries do not depend on the order, nor do its families where the
documents agree on them; otherwise they are those of one of the orders. No bucket is
empty. -/
theorem maps_are_fresh (calls : List IndexCall) :
    (∀ iteration order, Lists order calls →
      SameEntries (SymbolMaps.run calls) (SymbolMaps.fresh iteration order) ∧
      (Agree order →
        (SymbolMaps.run calls).overrideFamilies = (SymbolMaps.fresh iteration order).overrideFamilies)) ∧
    (∃ order, Lists order calls ∧ ∀ iteration,
      (SymbolMaps.run calls).overrideFamilies = (SymbolMaps.fresh iteration order).overrideFamilies) ∧
    ∀ symbolId : String, (SymbolMaps.run calls).definitions[symbolId]? ≠ some [] ∧
      (SymbolMaps.run calls).references[symbolId]? ≠ some [] := by
  have hrun := represents_run calls
  obtain ⟨left, hleft, hfamilies⟩ := hrun.families
  refine ⟨fun iteration order horder => ?_, ?_, hrun.no_empty_bucket⟩
  · have hperm := lists_iff.mp horder
    obtain ⟨hfresh, hmade⟩ := represents_fresh iteration horder.1
    refine ⟨hrun.sameEntries hfresh hperm.symm, fun hagree => ?_⟩
    rw [hmade, hfamilies]
    exact (familiesOf_perm hagree (hperm.trans hleft.symm)).symm
  · have hlists := lists_iff.mpr hleft
    refine ⟨left, hlists, fun iteration => ?_⟩
    rw [(represents_fresh iteration hlists.1).2, hfamilies]

end Fresh

-- The index without its maps
-- ---

section Refinement

def SymbolIndex.apply (index : SymbolIndex) : IndexCall → SymbolIndex
  | .update document symbols _ => index.updateDocument document symbols
  | .remove document _ => index.removeDocument document

def SymbolIndex.run (calls : List IndexCall) : SymbolIndex := calls.foldl SymbolIndex.apply .empty

theorem SymbolIndex.documents_run (calls : List IndexCall) :
    (SymbolIndex.run calls).documents =
      (surviving calls).map fun survivor => (survivor.1, SymbolIndex.locations survivor.1 survivor.2) := by
  induction calls using List.reverseRecOn with
  | nil => rfl
  | append_singleton calls call ih =>
    have hkept : ∀ document, ((SymbolIndex.run calls).removeDocument document).documents =
        ((surviving calls).filter fun survivor => survivor.1 ≠ document).map fun survivor =>
          (survivor.1, SymbolIndex.locations survivor.1 survivor.2) := by
      intro document
      rw [SymbolIndex.documents_removeDocument, ih, List.filter_map]
      rfl
    rw [SymbolIndex.run, List.foldl_concat, surviving, List.foldl_concat, ← SymbolIndex.run, ← surviving]
    cases call with
    | update document symbols iteration =>
      dsimp only [SymbolIndex.apply, SymbolIndex.updateDocument, survive]
      rw [hkept, List.map_append, List.map_singleton]
    | remove document iteration => exact hkept document

theorem SymbolIndex.entries_run (calls : List IndexCall) :
    (SymbolIndex.run calls).entries = locationsOf (surviving calls) := by
  rw [SymbolIndex.entries, SymbolIndex.documents_run, List.flatMap_map]
  rfl

/-- **The buckets of a symbol** are what is found by going through the documents. -/
theorem definitions_run (calls : List IndexCall) (symbolId : String) :
    (SymbolMaps.run calls).definitionsOf symbolId = (SymbolIndex.run calls).definitions symbolId ∧
      (SymbolMaps.run calls).referencesOf symbolId = (SymbolIndex.run calls).references symbolId := by
  have hrun := represents_run calls
  rw [hrun.definitionsOf, hrun.referencesOf, SymbolIndex.definitions, SymbolIndex.references,
    SymbolIndex.entries_run]
  unfold ofSymbol declarations uses
  rw [List.filter_filter, List.filter_filter]
  constructor <;> exact List.filter_congr fun location _ => by rw [Bool.decide_and, Bool.and_comm]

end Refinement

end JMan.Lsp
