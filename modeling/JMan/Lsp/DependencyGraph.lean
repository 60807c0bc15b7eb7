import Mathlib.Algebra.BigOperators.Group.Finset.Basic
import Mathlib.Data.Finset.SDiff
import Mathlib.Data.Finset.Sort
import Mathlib.Data.String.Basic
import JMan.Lib.Loop
import JMan.Lsp.Server

/-!
# JMan — which documents a change affects

`DependencyGraph` of `semantic.rs`: what the documents declare and refer to, the reverse
of the references, which every update maintains, and the loop that goes from changed
declarations to the documents that refer to them, and on from what these declare. The
order in which a hash set is gone through is the environment's (`Enumeration`).

* `affected_exact_iff` — the documents found are all that are reached exactly where the way back to
  the changed document is no way to anything else.
-/

namespace JMan.Lsp

open JMan.Config

-- The graph
-- ---

structure DocumentFacts where
  declarations : Finset String
  references : Finset String

structure DependencyGraph where
  documents : BTreeMap DocumentFacts
  referencedBy : BTreeMap (Finset String)

/-- The order in which hash sets are gone through, each for what it is the set of. -/
structure Enumeration where
  order : String → Finset String → List String
  mem_order : ∀ key set value, value ∈ order key set ↔ value ∈ set

namespace DocumentFacts

/-- One turn of the loop of `sourceresult`. -/
def add (facts : DocumentFacts) (symbol : SemanticSymbol) : DocumentFacts :=
  let identity := if symbol.symbolId = "" then symbol.qualifiedName else symbol.symbolId
  if identity = "" then facts
  else if symbol.role = "declaration" then
    { facts with declarations := insert identity facts.declarations }
  else if symbol.role = "reference" then { facts with references := insert identity facts.references }
  else facts

def fromResult (symbols : List SemanticSymbol) : DocumentFacts := symbols.foldl add ⟨∅, ∅⟩

end DocumentFacts

namespace DependencyGraph

def empty : DependencyGraph := ⟨∅, ∅⟩

/-- A document leaves the documents that refer to a declaration, and the entry leaves
with the last one. -/
def dropReference (document : String) (referencedBy : BTreeMap (Finset String)) (reference : String) :
    BTreeMap (Finset String) :=
  match referencedBy[reference]? with
  | none => referencedBy
  | some documents =>
    let kept := documents.erase document
    if kept = ∅ then referencedBy.erase reference else referencedBy.insert reference kept

def addReference (document : String) (referencedBy : BTreeMap (Finset String)) (reference : String) :
    BTreeMap (Finset String) :=
  referencedBy.insert reference (insert document ((referencedBy[reference]?).getD ∅))

variable (enumeration : Enumeration) (graph : DependencyGraph)

def removeEdges (document : String) : DependencyGraph :=
  match graph.documents[document]? with
  | none => graph
  | some previous => { graph with referencedBy :=
      (enumeration.order document previous.references).foldl (dropReference document) graph.referencedBy }

/-- The graph after `update_document`. -/
def updateDocument (document : String) (symbols : List SemanticSymbol) : DependencyGraph :=
  let facts := DocumentFacts.fromResult symbols
  let removed := graph.removeEdges enumeration document
  ⟨removed.documents.insert document facts,
    (enumeration.order document facts.references).foldl (addReference document) removed.referencedBy⟩

/-- The graph after `remove_document`. -/
def removeDocument (document : String) : DependencyGraph :=
  let removed := graph.removeEdges enumeration document
  { removed with documents := removed.documents.erase document }

-- The documents a change affects
-- ---

/-- The affected documents, the declarations that wait, and those that are done. -/
structure Walk where
  affected : Finset String
  declarations : List String
  visited : Finset String

/-- A document that refers to the declaration: where it was not affected before, what it
declares has to wait. -/
def visitDependent (walk : Walk) (dependent : String) : Walk :=
  if dependent ∈ walk.affected then walk
  else
    { walk with
      affected := insert dependent walk.affected
      declarations := walk.declarations ++
        ((graph.documents[dependent]?).map fun facts =>
          enumeration.order dependent facts.declarations).getD [] }

/-- One turn of the loop of `affected_documents`. -/
def affectedStep (walk : Walk) : Loop.Outcome Walk (Finset String) :=
  match walk.declarations with
  | [] => .stop walk.affected
  | declaration :: rest =>
    if declaration ∈ walk.visited then .next { walk with declarations := rest }
    else
      let marked := { walk with declarations := rest, visited := insert declaration walk.visited }
      match graph.referencedBy[declaration]? with
      | none => .next marked
      | some dependents =>
        .next ((enumeration.order declaration dependents).foldl (graph.visitDependent enumeration) marked)

def affectedStart (document : String) (changed : Finset String) : Walk :=
  ⟨{document}, enumeration.order document changed, ∅⟩

/-- `affected_documents` returns these documents. -/
def Affects (document : String) (changed affected : Finset String) : Prop :=
  Loop.Returns (graph.affectedStep enumeration) (affectedStart enumeration document changed) affected

end DependencyGraph

-- Operations
-- ---

inductive Change where
  | update (document : String) (symbols : List SemanticSymbol)
  | remove (document : String)

def Change.document : Change → String
  | .update document _ => document
  | .remove document => document

def DependencyGraph.changedDeclarations (graph : DependencyGraph) : Change → Finset String
  | .update document symbols =>
    let facts := DocumentFacts.fromResult symbols
    match graph.documents[document]? with
    | some previous =>
      (facts.declarations \ previous.declarations) ∪ (previous.declarations \ facts.declarations)
    | none => facts.declarations
  | .remove document => ((graph.documents[document]?).map DocumentFacts.declarations).getD ∅

/-- A change, with the order in which the sets it goes through come. -/
abbrev GraphCall := Change × Enumeration

def DependencyGraph.apply (graph : DependencyGraph) (call : GraphCall) : DependencyGraph :=
  match call.1 with
  | .update document symbols => graph.updateDocument call.2 document symbols
  | .remove document => graph.removeDocument call.2 document

def DependencyGraph.run (calls : List GraphCall) : DependencyGraph :=
  calls.foldl DependencyGraph.apply .empty

-- What should be affected
-- ---

namespace DependencyGraph

variable (graph : DependencyGraph)

def Declares (document declaration : String) : Prop :=
  ∃ facts, graph.documents[document]? = some facts ∧ declaration ∈ facts.declarations

def RefersTo (document declaration : String) : Prop :=
  ∃ facts, graph.documents[document]? = some facts ∧ declaration ∈ facts.references

/-- The documents that are reached from declarations, from a document to those that refer
to what it declares; some documents are not left again. -/
inductive Reached (changed : Finset String) (stops : String → Prop) : String → Prop where
  | changed {document declaration : String} (hchanged : declaration ∈ changed)
      (hrefers : graph.RefersTo document declaration) : Reached changed stops document
  | step {document other declaration : String} (hreached : Reached changed stops document)
      (hleft : ¬ stops document) (hdeclares : graph.Declares document declaration)
      (hrefers : graph.RefersTo other declaration) : Reached changed stops other

/-- A map says, of every declaration, which documents refer to it. -/
def Indexes (referencedBy : BTreeMap (Finset String)) (refers : String → String → Prop) : Prop :=
  ∀ declaration, (∀ document, document ∈ (referencedBy[declaration]?).getD ∅ ↔ refers document declaration) ∧
    referencedBy[declaration]? ≠ some ∅

/-- `referenced_by` is the reverse of the references. -/
def Reverse : Prop := Indexes graph.referencedBy graph.RefersTo

end DependencyGraph

-- The reverse index
-- ---

namespace DependencyGraph

section Indexes

variable {referencedBy : BTreeMap (Finset String)} {refers : String → String → Prop}
  {graph : DependencyGraph} {document : String}

theorem Indexes.congr {refers' : String → String → Prop} (h : Indexes referencedBy refers)
    (hiff : ∀ other declaration, refers other declaration ↔ refers' other declaration) :
    Indexes referencedBy refers' :=
  fun declaration => ⟨fun other => ((h declaration).1 other).trans (hiff other declaration), (h declaration).2⟩

theorem Indexes.dropReference (h : Indexes referencedBy refers) (document reference : String) :
    Indexes (dropReference document referencedBy reference)
      (fun other declaration => refers other declaration ∧ ¬(other = document ∧ declaration = reference)) := by
  intro declaration
  obtain ⟨hmem, hne⟩ := h declaration
  by_cases hdeclaration : declaration = reference
  · subst hdeclaration
    have herased : ∀ other, other ∈ ((referencedBy[declaration]?).getD ∅).erase document ↔
        refers other declaration ∧ ¬(other = document ∧ declaration = declaration) := by
      intro other
      rw [Finset.mem_erase, hmem, and_comm, and_iff_left (rfl : declaration = declaration)]
    unfold DependencyGraph.dropReference
    cases hentry : referencedBy[declaration]? with
    | none =>
      rw [hentry] at herased
      refine ⟨fun other => ?_, fun hsome => ?_⟩
      · refine Iff.trans ?_ (herased other)
        rw [hentry, Option.getD_none, Finset.erase_empty]
      · rw [hentry] at hsome
        cases hsome
    | some documents =>
      rw [hentry] at herased
      dsimp only
      split
      · next hnone =>
        rw [Std.ExtTreeMap.getElem?_erase_self]
        refine ⟨fun other => ?_, fun hsome => by cases hsome⟩
        rw [← herased other, Option.getD_some, hnone]
        rfl
      · next hsome =>
        rw [Std.ExtTreeMap.getElem?_insert_self]
        exact ⟨herased, fun heq => hsome (Option.some.inj heq)⟩
  · have hsame : (DependencyGraph.dropReference document referencedBy reference)[declaration]? =
        referencedBy[declaration]? := by
      unfold DependencyGraph.dropReference
      split
      · rfl
      · dsimp only
        split
        · exact Server.getElem?_erase_of_ne _ hdeclaration
        · exact Server.getElem?_insert_of_ne _ _ hdeclaration
    rw [hsame]
    exact ⟨fun other => (hmem other).trans (and_iff_left fun heq => hdeclaration heq.2).symm, hne⟩

theorem Indexes.foldl_dropReference (h : Indexes referencedBy refers) (document : String)
    (references : List String) :
    Indexes (references.foldl (DependencyGraph.dropReference document) referencedBy)
      (fun other declaration => refers other declaration ∧ ¬(other = document ∧ declaration ∈ references)) := by
  induction references generalizing referencedBy refers with
  | nil => exact h.congr fun other declaration => by simp
  | cons reference references ih =>
    refine (ih (h.dropReference document reference)).congr fun other declaration => ?_
    rw [List.mem_cons]
    tauto

theorem Indexes.addReference (h : Indexes referencedBy refers) (document reference : String) :
    Indexes (addReference document referencedBy reference)
      (fun other declaration => refers other declaration ∨ (other = document ∧ declaration = reference)) := by
  intro declaration
  obtain ⟨hmem, hne⟩ := h declaration
  unfold DependencyGraph.addReference
  by_cases hdeclaration : declaration = reference
  · subst hdeclaration
    rw [Std.ExtTreeMap.getElem?_insert_self]
    refine ⟨fun other => ?_, fun heq => Finset.insert_ne_empty _ _ (Option.some.inj heq)⟩
    rw [Option.getD_some, Finset.mem_insert, hmem, or_comm]
    exact or_congr_right (and_iff_left rfl).symm
  · rw [Server.getElem?_insert_of_ne _ _ hdeclaration]
    exact ⟨fun other => (hmem other).trans (or_iff_left fun heq => hdeclaration heq.2).symm, hne⟩

theorem Indexes.foldl_addReference (h : Indexes referencedBy refers) (document : String)
    (references : List String) :
    Indexes (references.foldl (DependencyGraph.addReference document) referencedBy)
      (fun other declaration => refers other declaration ∨ (other = document ∧ declaration ∈ references)) := by
  induction references generalizing referencedBy refers with
  | nil => exact h.congr fun other declaration => by simp
  | cons reference references ih =>
    refine (ih (h.addReference document reference)).congr fun other declaration => ?_
    rw [List.mem_cons]
    tauto

theorem documents_removeEdges (enumeration : Enumeration) (graph : DependencyGraph) (document : String) :
    (graph.removeEdges enumeration document).documents = graph.documents := by
  unfold removeEdges
  split <;> rfl

theorem Reverse.removeEdges (h : graph.Reverse) (enumeration : Enumeration) (document : String) :
    Indexes (graph.removeEdges enumeration document).referencedBy
      (fun other declaration => graph.RefersTo other declaration ∧ other ≠ document) := by
  unfold DependencyGraph.removeEdges
  split
  · next hnone =>
    refine Indexes.congr h fun other declaration => (and_iff_left_of_imp ?_).symm
    rintro ⟨facts, hfacts, -⟩ rfl
    rw [hnone] at hfacts
    cases hfacts
  · next previous hprevious =>
    refine (Indexes.foldl_dropReference h document _).congr fun other declaration => ?_
    rw [enumeration.mem_order]
    refine and_congr_right fun hrefers => ?_
    rw [not_and]
    constructor
    · rintro hnot rfl
      obtain ⟨facts, hfacts, hmem⟩ := hrefers
      obtain rfl := Option.some.inj (hfacts.symm.trans hprevious)
      exact hnot rfl hmem
    · exact fun hne heq => absurd heq hne

theorem Reverse.updateDocument (h : graph.Reverse) (enumeration : Enumeration) (document : String)
    (symbols : List SemanticSymbol) : (graph.updateDocument enumeration document symbols).Reverse := by
  refine (Indexes.foldl_addReference (h.removeEdges enumeration document) document _).congr
    fun other declaration => ?_
  unfold RefersTo DependencyGraph.updateDocument
  dsimp only
  rw [documents_removeEdges, enumeration.mem_order]
  by_cases hother : other = document
  · subst hother
    rw [Std.ExtTreeMap.getElem?_insert_self]
    simp
  · rw [Server.getElem?_insert_of_ne _ _ hother]
    simp [hother]

theorem Reverse.removeDocument (h : graph.Reverse) (enumeration : Enumeration) (document : String) :
    (graph.removeDocument enumeration document).Reverse := by
  refine (h.removeEdges enumeration document).congr fun other declaration => ?_
  unfold RefersTo DependencyGraph.removeDocument
  dsimp only
  rw [documents_removeEdges]
  by_cases hother : other = document
  · subst hother
    rw [Std.ExtTreeMap.getElem?_erase_self]
    simp
  · rw [Server.getElem?_erase_of_ne _ hother]
    simp [hother]

theorem Reverse.apply (h : graph.Reverse) (call : GraphCall) : (graph.apply call).Reverse := by
  obtain ⟨change, enumeration⟩ := call
  cases change with
  | update document symbols => exact h.updateDocument enumeration document symbols
  | remove document => exact h.removeDocument enumeration document

theorem reverse_empty : empty.Reverse := fun declaration => by
  simp [empty, RefersTo]

/-- **After every sequence of operations the reverse index is the reverse of the
references.** -/
theorem reverse_run (calls : List GraphCall) : (run calls).Reverse := by
  induction calls using List.reverseRecOn with
  | nil => exact reverse_empty
  | append_singleton calls call ih =>
    rw [run, List.foldl_concat]
    exact ih.apply call

end Indexes

-- The walk
-- ---

section Walks

variable {enumeration : Enumeration} {graph : DependencyGraph} {document : String}
  {changed : Finset String} {walk next : Walk} {dependents : List String}

structure Visits (graph : DependencyGraph) (walk : Walk) (dependents : List String) (next : Walk) : Prop where
  affected : ∀ other, other ∈ next.affected ↔ other ∈ walk.affected ∨ other ∈ dependents
  waiting : ∀ declaration, declaration ∈ next.declarations ↔ declaration ∈ walk.declarations ∨
    ∃ other ∈ dependents, other ∉ walk.affected ∧ graph.Declares other declaration
  visited : next.visited = walk.visited

theorem mem_declared {declaration : String} :
    declaration ∈ ((graph.documents[document]?).map fun facts =>
      enumeration.order document facts.declarations).getD [] ↔ graph.Declares document declaration := by
  unfold Declares
  cases graph.documents[document]? with
  | none => simp
  | some facts => simp [enumeration.mem_order]

theorem visits_visitDependent (enumeration : Enumeration) (graph : DependencyGraph) (walk : Walk) (dependent : String) :
    Visits graph walk [dependent] (graph.visitDependent enumeration walk dependent) := by
  unfold visitDependent
  split
  · next hknown =>
    refine ⟨fun other => ?_, fun declaration => ?_, rfl⟩
    · rw [List.mem_singleton]
      exact (or_iff_left_of_imp fun heq => heq ▸ hknown).symm
    · refine (or_iff_left ?_).symm
      rintro ⟨other, hother, hnew, -⟩
      exact hnew (List.mem_singleton.mp hother ▸ hknown)
  · next hnew =>
    refine ⟨fun other => ?_, fun declaration => ?_, rfl⟩
    · rw [List.mem_singleton, Finset.mem_insert, or_comm]
    · rw [List.mem_append, mem_declared]
      refine or_congr_right ⟨fun hdeclares => ?_, ?_⟩
      · exact ⟨dependent, List.mem_singleton_self _, hnew, hdeclares⟩
      · rintro ⟨other, hother, -, hdeclares⟩
        exact List.mem_singleton.mp hother ▸ hdeclares

/-- **The inner loop** adds the dependents, and what the new ones declare. -/
theorem visits_foldl (enumeration : Enumeration) (graph : DependencyGraph) (walk : Walk) (dependents : List String) :
    Visits graph walk dependents (dependents.foldl (graph.visitDependent enumeration) walk) := by
  induction dependents generalizing walk with
  | nil => exact ⟨fun other => by simp, fun declaration => by simp, rfl⟩
  | cons dependent dependents ih =>
    have hfirst := visits_visitDependent enumeration graph walk dependent
    have hrest := ih (graph.visitDependent enumeration walk dependent)
    refine ⟨fun other => ?_, fun declaration => ?_, hrest.visited.trans hfirst.visited⟩
    · rw [List.foldl_cons, hrest.affected, hfirst.affected, List.mem_singleton, List.mem_cons, or_assoc]
    · rw [List.foldl_cons, hrest.waiting, hfirst.waiting, or_assoc]
      refine or_congr_right ⟨?_, ?_⟩
      · rintro (⟨other, hother, hnew, hdeclares⟩ | ⟨other, hother, hnew, hdeclares⟩)
        · exact ⟨other, List.mem_cons.mpr (.inl (List.mem_singleton.mp hother)), hnew, hdeclares⟩
        · rw [hfirst.affected, not_or] at hnew
          exact ⟨other, List.mem_cons_of_mem _ hother, hnew.1, hdeclares⟩
      · rintro ⟨other, hother, hnew, hdeclares⟩
        by_cases hsame : other = dependent
        · exact .inl ⟨other, List.mem_singleton.mpr hsame, hnew, hdeclares⟩
        · refine .inr ⟨other, (List.mem_cons.mp hother).resolve_left hsame, ?_, hdeclares⟩
          rw [hfirst.affected, not_or, List.mem_singleton]
          exact ⟨hnew, hsame⟩

def Walk.Known (walk : Walk) (declaration : String) : Prop :=
  declaration ∈ walk.declarations ∨ declaration ∈ walk.visited

/-- Reached without leaving the changed document again. -/
abbrev ReachedApart (graph : DependencyGraph) (document : String) (changed : Finset String) : String → Prop :=
  graph.Reached changed fun other => other = document

structure Walks (graph : DependencyGraph) (document : String) (changed : Finset String) (walk : Walk) :
    Prop where
  start : document ∈ walk.affected
  reached : ∀ other ∈ walk.affected, other = document ∨ graph.ReachedApart document changed other
  origin : ∀ declaration, walk.Known declaration → declaration ∈ changed ∨
    ∃ other, graph.ReachedApart document changed other ∧ other ≠ document ∧ graph.Declares other declaration
  begun : ∀ declaration ∈ changed, walk.Known declaration
  left : ∀ other ∈ walk.affected, other ≠ document → ∀ declaration, graph.Declares other declaration →
    walk.Known declaration
  closed : ∀ declaration ∈ walk.visited, ∀ other, graph.RefersTo other declaration → other ∈ walk.affected

theorem walks_start (enumeration : Enumeration) (graph : DependencyGraph) (document : String)
    (changed : Finset String) : Walks graph document changed (affectedStart enumeration document changed) where
  start := Finset.mem_singleton_self _
  reached := fun other hother => .inl (Finset.mem_singleton.mp hother)
  origin := by
    rintro declaration (hwaits | hvisited)
    · exact .inl ((enumeration.mem_order _ _ _).mp hwaits)
    · exact absurd hvisited (Finset.notMem_empty _)
  begun := fun declaration hchanged => .inl ((enumeration.mem_order _ _ _).mpr hchanged)
  left := fun other hother hne => absurd (Finset.mem_singleton.mp hother) hne
  closed := fun declaration hvisited => absurd hvisited (Finset.notMem_empty _)

theorem Walks.reached_of_refersTo (h : Walks graph document changed walk) {declaration other : String}
    (hknown : walk.Known declaration) (hrefers : graph.RefersTo other declaration) :
    graph.ReachedApart document changed other := by
  rcases h.origin declaration hknown with hchanged | ⟨source, hreached, hne, hdeclares⟩
  · exact .changed hchanged hrefers
  · exact .step hreached hne hdeclares hrefers

theorem Walks.visit (h : Walks graph document changed walk) {declaration : String} {rest : List String}
    (hqueue : walk.declarations = declaration :: rest)
    (hdependents : ∀ other, other ∈ dependents ↔ graph.RefersTo other declaration)
    (hvisits : Visits graph
      { walk with declarations := rest, visited := insert declaration walk.visited } dependents next) :
    Walks graph document changed next := by
  have hhead : walk.Known declaration := .inl (hqueue ▸ List.mem_cons_self)
  have hmarked : ∀ other, walk.Known other → next.Known other := by
    rintro other (hwaits | hdone)
    · rw [hqueue] at hwaits
      rcases List.mem_cons.mp hwaits with rfl | hwaits
      · exact .inr (hvisits.visited ▸ Finset.mem_insert_self _ _)
      · exact .inl ((hvisits.waiting other).mpr (.inl hwaits))
    · exact .inr (hvisits.visited ▸ Finset.mem_insert_of_mem hdone)
  have hnew : ∀ other ∈ dependents, graph.ReachedApart document changed other := fun other hother =>
    h.reached_of_refersTo hhead ((hdependents other).mp hother)
  refine ⟨(hvisits.affected _).mpr (.inl h.start), ?_, ?_, fun other hother => hmarked other (h.begun other hother),
    ?_, ?_⟩
  · intro other hother
    rcases (hvisits.affected other).mp hother with hother | hother
    · exact h.reached other hother
    · exact .inr (hnew other hother)
  · rintro other (hwaits | hdone)
    · rcases (hvisits.waiting other).mp hwaits with hrest | ⟨declaring, hmem, hfresh, hdeclares⟩
      · exact h.origin other (.inl (hqueue ▸ List.mem_cons_of_mem _ hrest))
      · refine .inr ⟨declaring, hnew declaring hmem, ?_, hdeclares⟩
        rintro rfl
        exact hfresh h.start
    · rw [hvisits.visited] at hdone
      rcases Finset.mem_insert.mp hdone with rfl | hdone
      · exact h.origin other hhead
      · exact h.origin other (.inr hdone)
  · intro other hother hne found hdeclares
    by_cases hbefore : other ∈ walk.affected
    · exact hmarked found (h.left other hbefore hne found hdeclares)
    · have hmem := ((hvisits.affected other).mp hother).resolve_left hbefore
      exact .inl ((hvisits.waiting found).mpr (.inr ⟨other, hmem, hbefore, hdeclares⟩))
  · intro found hfound other hrefers
    rw [hvisits.visited] at hfound
    rcases Finset.mem_insert.mp hfound with rfl | hfound
    · exact (hvisits.affected other).mpr (.inr ((hdependents other).mpr hrefers))
    · exact (hvisits.affected other).mpr (.inl (h.closed found hfound other hrefers))

theorem Walks.step (hreverse : graph.Reverse) (h : Walks graph document changed walk)
    (hstep : graph.affectedStep enumeration walk = .next next) : Walks graph document changed next := by
  unfold affectedStep at hstep
  split at hstep
  · cases hstep
  · next declaration rest hqueue =>
    split at hstep
    · next hvisited =>
      -- the declaration was done before
      cases hstep
      have hknown : ∀ other, walk.Known other → Walk.Known { walk with declarations := rest } other := by
        rintro other (hwaits | hdone)
        · rw [hqueue] at hwaits
          rcases List.mem_cons.mp hwaits with rfl | hwaits
          · exact .inr hvisited
          · exact .inl hwaits
        · exact .inr hdone
      refine ⟨h.start, h.reached, ?_, fun other hother => hknown other (h.begun other hother),
        fun other hother hne found hdeclares => hknown found (h.left other hother hne found hdeclares), h.closed⟩
      rintro other (hwaits | hdone)
      · exact h.origin other (.inl (hqueue ▸ List.mem_cons_of_mem _ hwaits))
      · exact h.origin other (.inr hdone)
    · next hvisited =>
      obtain ⟨hmem, -⟩ := hreverse declaration
      dsimp only at hstep
      split at hstep
      · next hnone =>
        cases hstep
        rw [hnone] at hmem
        refine h.visit hqueue (fun other => ?_) (visits_foldl enumeration graph _ [])
        rw [← hmem other]
        simp
      · next set hset =>
        cases hstep
        rw [hset] at hmem
        refine h.visit hqueue (fun other => ?_) (visits_foldl enumeration graph _ _)
        rw [enumeration.mem_order, ← hmem other, Option.getD_some]

-- The end of the loop

/-- How much a document can still add to the queue. -/
def weight (enumeration : Enumeration) (graph : DependencyGraph) (document : String) : Nat :=
  (((graph.documents[document]?).map fun facts =>
    enumeration.order document facts.declarations).getD []).length

/-- How often the loop turns at most: what waits, and what the other documents declare. -/
def remaining (enumeration : Enumeration) (graph : DependencyGraph) (walk : Walk) : Nat :=
  walk.declarations.length +
    ∑ document ∈ graph.documents.keys.toFinset \ walk.affected, graph.weight enumeration document

theorem weight_of_absent (h : document ∉ graph.documents.keys.toFinset) :
    graph.weight enumeration document = 0 := by
  unfold weight
  rw [List.mem_toFinset, Std.ExtTreeMap.mem_keys] at h
  rw [Std.ExtTreeMap.getElem?_eq_none h]
  rfl

theorem remaining_visitDependent (walk : Walk) (dependent : String) :
    graph.remaining enumeration (graph.visitDependent enumeration walk dependent) =
      graph.remaining enumeration walk := by
  unfold visitDependent
  split
  · rfl
  · next hnew =>
    unfold remaining
    dsimp only
    rw [List.length_append, Finset.sdiff_insert, add_assoc]
    congr 1
    change graph.weight enumeration dependent + _ = _
    by_cases hthere : dependent ∈ graph.documents.keys.toFinset
    · exact Finset.add_sum_erase _ _ (Finset.mem_sdiff.mpr ⟨hthere, hnew⟩)
    · rw [weight_of_absent hthere, zero_add,
        Finset.erase_eq_of_notMem fun hmem => hthere (Finset.mem_sdiff.mp hmem).1]

theorem remaining_foldl (walk : Walk) (dependents : List String) :
    graph.remaining enumeration (dependents.foldl (graph.visitDependent enumeration) walk) =
      graph.remaining enumeration walk := by
  induction dependents generalizing walk with
  | nil => rfl
  | cons dependent dependents ih => exact (ih _).trans (remaining_visitDependent walk dependent)

theorem remaining_step (hstep : graph.affectedStep enumeration walk = .next next) :
    graph.remaining enumeration next < graph.remaining enumeration walk := by
  have hpop : ∀ declaration rest visited, walk.declarations = declaration :: rest →
      graph.remaining enumeration { walk with declarations := rest, visited := visited } <
        graph.remaining enumeration walk := by
    intro declaration rest visited hqueue
    unfold remaining
    rw [hqueue, List.length_cons]
    exact Nat.add_lt_add_right (Nat.lt_succ_self _) _
  unfold affectedStep at hstep
  split at hstep
  · cases hstep
  · next declaration rest hqueue =>
    split at hstep
    · cases hstep
      exact hpop declaration rest walk.visited hqueue
    · dsimp only at hstep
      split at hstep
      · cases hstep
        exact hpop declaration rest _ hqueue
      · cases hstep
        rw [remaining_foldl]
        exact hpop declaration rest _ hqueue

theorem affectedStep_stop {affected : Finset String}
    (hstop : graph.affectedStep enumeration walk = .stop affected) :
    walk.declarations = [] ∧ affected = walk.affected := by
  unfold affectedStep at hstop
  split at hstop
  · next hdone =>
    cases hstop
    exact ⟨hdone, rfl⟩
  · split at hstop
    · cases hstop
    · dsimp only at hstop
      split at hstop <;> cases hstop

theorem Walks.mem_affected (h : Walks graph document changed walk) (hdone : walk.declarations = [])
    (other : String) :
    other ∈ walk.affected ↔ other = document ∨ graph.ReachedApart document changed other := by
  have hvisited : ∀ declaration, walk.Known declaration → declaration ∈ walk.visited := by
    rintro declaration (hwaits | hvisited)
    · rw [hdone] at hwaits
      cases hwaits
    · exact hvisited
  constructor
  · exact h.reached other
  · rintro (rfl | hreached)
    · exact h.start
    · induction hreached with
      | changed hchanged hrefers => exact h.closed _ (hvisited _ (h.begun _ hchanged)) _ hrefers
      | step _ hleft hdeclares hrefers ih =>
        exact h.closed _ (hvisited _ (h.left _ ih hleft _ hdeclares)) _ hrefers

/-- **The loop ends,** in any order, with the changed document and those that are reached
without leaving it again. -/
theorem returns_affected (hreverse : graph.Reverse) (enumeration : Enumeration) (document : String)
    (changed : Finset String) :
    ∃ affected, graph.Affects enumeration document changed affected ∧
      ∀ other, other ∈ affected ↔ other = document ∨ graph.ReachedApart document changed other := by
  obtain ⟨affected, hreturns⟩ : ∃ affected, graph.Affects enumeration document changed affected := by
    obtain ⟨affected, hrun⟩ := Loop.run_of_measure (graph.remaining enumeration)
      (fun _ _ => remaining_step) (affectedStart enumeration document changed)
    exact ⟨affected, Loop.returns_of_run hrun⟩
  refine ⟨affected, hreturns, ?_⟩
  obtain ⟨last, hreaches, hstop⟩ := hreturns
  obtain ⟨hdone, rfl⟩ := affectedStep_stop hstop
  have hwalks : Walks graph document changed last :=
    hreaches.invariant (fun _ _ hwalk hstep => hwalk.step hreverse hstep)
      (walks_start enumeration graph document changed)
  exact hwalks.mem_affected hdone

end Walks

-- Exactness
-- ---

/-- All that is reached, and the document itself, is affected. -/
def Exact (graph : DependencyGraph) (document : String) (changed affected : Finset String) : Prop :=
  ∀ other, other ∈ affected ↔ other = document ∨ graph.Reached changed (fun _ => False) other

/-- Where the changed document is reached on its part, nothing is reached through it that
is not reached without it. -/
def StaysApart (graph : DependencyGraph) (document : String) (changed : Finset String) : Prop :=
  graph.ReachedApart document changed document → ∀ other declaration, graph.Declares document declaration →
    graph.RefersTo other declaration → other = document ∨ graph.ReachedApart document changed other

section Exact

variable {graph : DependencyGraph} {document other : String} {changed affected : Finset String}

theorem Reached.mono {stops stops' : String → Prop} (h : graph.Reached changed stops other)
    (hstops : ∀ document, stops' document → stops document) : graph.Reached changed stops' other := by
  induction h with
  | changed hchanged hrefers => exact .changed hchanged hrefers
  | step _ hleft hdeclares hrefers ih => exact .step ih (fun hstop => hleft (hstops _ hstop)) hdeclares hrefers

theorem StaysApart.reachedApart (h : graph.StaysApart document changed)
    (hreached : graph.Reached changed (fun _ => False) other) :
    graph.ReachedApart document changed other := by
  induction hreached with
  | changed hchanged hrefers => exact .changed hchanged hrefers
  | @step source target declaration _ _ hdeclares hrefers ih =>
    by_cases hsource : source = document
    · subst hsource
      rcases h ih target declaration hdeclares hrefers with rfl | hapart
      · exact ih
      · exact hapart
    · exact .step ih hsource hdeclares hrefers

theorem exact_iff (h : ∀ other, other ∈ affected ↔ other = document ∨ graph.ReachedApart document changed other) :
    graph.Exact document changed affected ↔ graph.StaysApart document changed := by
  constructor
  · intro hexact hback other declaration hdeclares hrefers
    have hreached : graph.Reached changed (fun _ => False) other :=
      .step (hback.mono fun _ hfalse => hfalse.elim) not_false hdeclares hrefers
    exact (h other).mp ((hexact other).mpr (.inr hreached))
  · intro hapart other
    rw [h other]
    refine or_congr_right ⟨fun hreached => hreached.mono fun _ hfalse => hfalse.elim, hapart.reachedApart⟩

theorem not_reached_of_none {stops : String → Prop} (h : graph.Reached ∅ stops other) : False := by
  induction h with
  | changed hchanged _ => exact Finset.notMem_empty _ hchanged
  | step _ _ _ _ ih => exact ih

end Exact

def sorted : Enumeration := ⟨fun _ set => set.sort (· ≥ ·), fun _ _ _ => Finset.mem_sort _⟩

theorem exists_affected {graph : DependencyGraph} (hreverse : graph.Reverse) (document : String)
    (changed : Finset String) :
    ∃ affected, (∀ enumeration, graph.Affects enumeration document changed affected) ∧
      ∀ other, other ∈ affected ↔ other = document ∨ graph.ReachedApart document changed other := by
  obtain ⟨affected, -, haffected⟩ := returns_affected hreverse sorted document changed
  refine ⟨affected, fun enumeration => ?_, haffected⟩
  obtain ⟨found, hreturns, hfound⟩ := returns_affected hreverse enumeration document changed
  obtain rfl : found = affected := Finset.ext fun other => (hfound other).trans (haffected other).symm
  exact hreturns

/-- **What a change affects,** after every sequence of operations: the reverse index is
right, a change of no declaration affects the document alone, and the affected documents
are all that are reached exactly where the changed document stays apart. -/
theorem affected_exact_iff (calls : List GraphCall) (change : Change) :
    (run calls).Reverse ∧
    ∃ affected,
      (∀ enumeration, (run calls).Affects enumeration change.document
        ((run calls).changedDeclarations change) affected) ∧
      ((run calls).changedDeclarations change = ∅ → affected = {change.document}) ∧
      ((run calls).Exact change.document ((run calls).changedDeclarations change) affected ↔
        (run calls).StaysApart change.document ((run calls).changedDeclarations change)) := by
  obtain ⟨affected, hreturns, haffected⟩ := exists_affected (reverse_run calls) change.document
    ((run calls).changedDeclarations change)
  refine ⟨reverse_run calls, affected, hreturns, fun hnone => ?_, exact_iff haffected⟩
  ext other
  rw [haffected other, Finset.mem_singleton]
  rw [hnone]
  exact or_iff_left not_reached_of_none

-- A class that its own declaration leads back to

def callsOfCycle : List GraphCall :=
  let symbol (role id : String) : SemanticSymbol := ⟨role, "class", id, id, id, 0, 1⟩
  [(.update "X" [symbol "declaration" "a", symbol "declaration" "b", symbol "reference" "c"], sorted),
    (.update "Y" [symbol "declaration" "c", symbol "reference" "a"], sorted),
    (.update "Z" [symbol "reference" "b"], sorted)]

def changeOfCycle : Change :=
  .update "X" [⟨"declaration", "class", "b", "b", "b", 0, 1⟩, ⟨"reference", "class", "c", "c", "c", 0, 1⟩]

theorem documents_updateDocument (enumeration : Enumeration) (graph : DependencyGraph)
    (document : String) (symbols : List SemanticSymbol) :
    (graph.updateDocument enumeration document symbols).documents =
      graph.documents.insert document (.fromResult symbols) := by
  unfold updateDocument
  dsimp only
  rw [documents_removeEdges]

theorem getElem?_cycle (name : String) : (run callsOfCycle).documents[name]? =
    if name = "Z" then some ⟨∅, {"b"}⟩ else if name = "Y" then some ⟨{"c"}, {"a"}⟩
    else if name = "X" then some ⟨{"b", "a"}, {"c"}⟩ else none := by
  unfold run callsOfCycle
  simp only [List.foldl_cons, List.foldl_nil, apply, documents_updateDocument,
    Std.ExtTreeMap.getElem?_insert, compare_eq_iff_eq, @eq_comm _ _ name]
  rfl

theorem cycle_is_not_followed :
    ∃ affected,
      (∀ enumeration, (run callsOfCycle).Affects enumeration changeOfCycle.document
        ((run callsOfCycle).changedDeclarations changeOfCycle) affected) ∧
      ¬ (run callsOfCycle).Exact changeOfCycle.document
        ((run callsOfCycle).changedDeclarations changeOfCycle) affected := by
  have hchanged : (run callsOfCycle).changedDeclarations changeOfCycle = {"a"} := by
    unfold changedDeclarations changeOfCycle
    dsimp only
    rw [getElem?_cycle]
    rfl
  have hX : (run callsOfCycle).documents["X"]? = some ⟨{"b", "a"}, {"c"}⟩ := getElem?_cycle "X"
  have hY : (run callsOfCycle).documents["Y"]? = some ⟨{"c"}, {"a"}⟩ := getElem?_cycle "Y"
  have hZ : (run callsOfCycle).documents["Z"]? = some ⟨∅, {"b"}⟩ := getElem?_cycle "Z"
  obtain ⟨affected, hreturns, haffected⟩ := exists_affected (reverse_run callsOfCycle)
    changeOfCycle.document ((run callsOfCycle).changedDeclarations changeOfCycle)
  refine ⟨affected, hreturns, ?_⟩
  rw [exact_iff haffected, hchanged]
  have hreachedY : (run callsOfCycle).ReachedApart "X" {"a"} "Y" :=
    .changed (Finset.mem_singleton_self _) ⟨_, hY, Finset.mem_singleton_self _⟩
  have hreachedX : (run callsOfCycle).ReachedApart "X" {"a"} "X" :=
    .step hreachedY (by decide) ⟨_, hY, Finset.mem_singleton_self _⟩ ⟨_, hX, Finset.mem_singleton_self _⟩
  intro hapart
  -- only the other declaration of the class leads to Z
  have hreferred : ∀ declaration, (run callsOfCycle).RefersTo "Z" declaration → declaration = "b" := by
    rintro declaration ⟨facts, hfacts, hmem⟩
    cases hZ.symm.trans hfacts
    exact Finset.mem_singleton.mp hmem
  have hreachedZ := hapart hreachedX "Z" "b" ⟨_, hX, by decide⟩ ⟨_, hZ, Finset.mem_singleton_self _⟩
  rcases hreachedZ.resolve_left (by decide) with ⟨hmem, hrefers⟩ | ⟨-, hleft, hdeclares, hrefers⟩
  · rw [hreferred _ hrefers] at hmem
    exact absurd hmem (by decide)
  · rw [hreferred _ hrefers] at hdeclares
    obtain ⟨facts, hfacts, hmem⟩ := hdeclares
    rw [getElem?_cycle] at hfacts
    split at hfacts
    · cases hfacts
      exact absurd hmem (by decide)
    · split at hfacts
      · cases hfacts
        exact absurd hmem (by decide)
      · split at hfacts
        · next hname => exact hleft hname
        · cases hfacts

end DependencyGraph

end JMan.Lsp
