import JMan.Lsp.Rename

/-!
# JMan — renames that conflict

`rename` of `server.rs` looks for declarations of the new name before it answers. It looks
in the document of the first definition of the family, and for the kind of the symbol. The
family is renamed in every document.

* `renameSymbol_refuses_iff` — when no declaration is renamed to what its type declares.
-/

namespace JMan.Lsp

open JMan.Config

-- Members of types
-- ---

/-- The type that declares a member, which both indexes write in front of the `#`. -/
def SymbolLocation.declaringType (location : SymbolLocation) : Option Text :=
  if location.qualifiedName.toList.contains '#' then
    some ((location.qualifiedName.toList.reverse.dropWhile (· ≠ '#')).drop 1).reverse
  else none

section Conflicts

variable (isAlphabetic isAlphanumeric : Char → Bool) (server : Server) (symbol : SymbolLocation) (newName : String)

def Server.renamedDeclarations : List SymbolLocation :=
  (server.relatedSymbolIds symbol.identity).flatMap server.allDefinitions

def Server.declarationsNamed : List SymbolLocation :=
  server.project.declarationsNamed newName ++ server.structuralProject.declarationsNamed newName

/-- The type of a declaration declares another member of the kind with the new name. -/
structure Server.Collides (declaration candidate : SymbolLocation) : Prop where
  renamed : declaration ∈ server.renamedDeclarations symbol
  declared : candidate ∈ server.declarationsNamed newName
  kind : candidate.kind = symbol.kind
  type : candidate.declaringType = declaration.declaringType
  member : candidate.declaringType ≠ none
  other : candidate.symbolId ≠ declaration.symbolId

/-- **An answer with edits collides with nothing.** -/
def Server.RefusesConflicts : Prop :=
  ∀ changes, server.renameSymbol isAlphabetic isAlphanumeric symbol newName = .ok changes →
    ∀ declaration candidate, ¬ server.Collides symbol newName declaration candidate

/-- Where something collides, the document of the first definition declares something of
the kind with the new name. -/
def Server.CollidesInFirst : Prop :=
  ∀ first ∈ (server.renamedDeclarations symbol).head?,
    (∃ declaration candidate, server.Collides symbol newName declaration candidate) →
      ∃ candidate ∈ server.declarationsNamed newName, candidate.document = first.document ∧
        candidate.symbolId ≠ symbol.identity ∧ candidate.kind = symbol.kind

variable {isAlphabetic isAlphanumeric server symbol newName}

/-- A rename answers with edits when the name is one, there is a definition, and its
document has no other declaration of the kind with the name. -/
theorem exists_renameSymbol_iff :
    (∃ changes, server.renameSymbol isAlphabetic isAlphanumeric symbol newName = .ok changes) ↔
      isJavaIdentifier isAlphabetic isAlphanumeric newName ∧
        ∃ first ∈ (server.renamedDeclarations symbol).head?,
          ¬ ∃ candidate ∈ server.declarationsNamed newName, candidate.document = first.document ∧
            candidate.symbolId ≠ symbol.identity ∧ candidate.kind = symbol.kind := by
  unfold Server.renameSymbol
  cases hname : isJavaIdentifier isAlphabetic isAlphanumeric newName with
  | false =>
    rw [if_pos rfl]
    refine iff_of_false ?_ fun h => Bool.false_ne_true h.1
    rintro ⟨changes, h⟩
    cases h
  | true =>
    rw [if_neg (by simp)]
    cases hdefinitions : server.renamedDeclarations symbol with
    | nil =>
      rw [Server.renamedDeclarations] at hdefinitions
      simp only [hdefinitions]
      refine iff_of_false ?_ ?_
      · rintro ⟨changes, h⟩
        cases h
      · rintro ⟨-, first, hfirst, -⟩
        cases hfirst
    | cons definition more =>
      have hchecked : (server.declarationsNamed newName).any (fun candidate =>
          candidate.document = definition.document &&
            (candidate.symbolId ≠ symbol.identity && candidate.kind = symbol.kind)) = true ↔
          ∃ candidate ∈ server.declarationsNamed newName, candidate.document = definition.document ∧
            candidate.symbolId ≠ symbol.identity ∧ candidate.kind = symbol.kind := by
        simp only [List.any_eq_true, Bool.and_eq_true, decide_eq_true_eq]
      rw [Server.renamedDeclarations] at hdefinitions
      simp only [hdefinitions, List.head?_cons, Option.mem_some_iff, exists_eq_left', true_and]
      rw [← hchecked, Server.declarationsNamed]
      split
      · next hany =>
        refine iff_of_false ?_ fun hnot => hnot hany
        rintro ⟨changes, h⟩
        cases h
      · next hany => exact iff_of_true ⟨_, rfl⟩ hany

/-- **No declaration is renamed to what its type declares exactly when** the document of the
first definition has such a declaration whenever some type has. -/
theorem renameSymbol_refuses_iff :
    server.RefusesConflicts isAlphabetic isAlphanumeric symbol newName ↔
      (isJavaIdentifier isAlphabetic isAlphanumeric newName → server.CollidesInFirst symbol newName) := by
  constructor
  · intro h hname first hfirst hcollides
    by_contra hfound
    obtain ⟨changes, hchanges⟩ := exists_renameSymbol_iff.mpr ⟨hname, first, hfirst, hfound⟩
    obtain ⟨declaration, candidate, hcollides⟩ := hcollides
    exact h changes hchanges declaration candidate hcollides
  · intro h changes hchanges declaration candidate hcollides
    obtain ⟨hname, first, hfirst, hfound⟩ := exists_renameSymbol_iff.mp ⟨changes, hchanges⟩
    exact hfound (h hname first hfirst ⟨declaration, candidate, hcollides⟩)

end Conflicts

-- A family in two documents
-- ---

def interfaceText : Text := "interface A { void run(); }".toList

def implementationText : Text := "class B implements A { public void run() {} void go() {} }".toList

def interfaceSymbols : List SemanticSymbol :=
  [⟨"declaration", "method", "run", "A#run", "<unnamed>|A#run()V", 19, 22⟩,
    ⟨"override_family", "method", "run", "<unnamed>|A#run()V", "<unnamed>|A#run()V", 19, 22⟩]

def implementationSymbols : List SemanticSymbol :=
  [⟨"declaration", "method", "run", "B#run", "<unnamed>|B#run()V", 35, 38⟩,
    ⟨"override_family", "method", "run", "<unnamed>|A#run()V", "<unnamed>|B#run()V", 35, 38⟩,
    ⟨"declaration", "method", "go", "B#go", "<unnamed>|B#go()V", 49, 51⟩,
    ⟨"override_family", "method", "go", "<unnamed>|B#go()V", "<unnamed>|B#go()V", 49, 51⟩]

def familyServer : Server :=
  { Server.new with
    indexedSources := (∅ : BTreeMap Text).insert "file:///A.java" interfaceText |>.insert "file:///B.java"
      implementationText
    project := (SymbolIndex.empty.updateDocument "file:///A.java" interfaceSymbols).updateDocument
      "file:///B.java" implementationSymbols }

def interfaceMethod : SymbolLocation :=
  ⟨"file:///A.java", "declaration", "method", "run", "A#run", "<unnamed>|A#run()V", 19, 22⟩

theorem implementation_collides : ¬ familyServer.RefusesConflicts Char.isAlpha Char.isAlphanum
    interfaceMethod "go" := by
  intro h
  have hdeclared : (⟨"file:///B.java", "declaration", "method", "go", "B#go", "<unnamed>|B#go()V", 49, 51⟩ :
      SymbolLocation) ∈ familyServer.declarationsNamed "go" := by decide +kernel
  have hrenamed : (⟨"file:///B.java", "declaration", "method", "run", "B#run", "<unnamed>|B#run()V", 35, 38⟩ :
      SymbolLocation) ∈ familyServer.renamedDeclarations interfaceMethod := by decide +kernel
  have hanswers : (familyServer.renameSymbol Char.isAlpha Char.isAlphanum interfaceMethod "go").toOption.isSome := by
    decide +kernel
  obtain ⟨changes, hchanges⟩ := Fallible.exists_eq_ok hanswers
  exact h changes hchanges _ _ ⟨hrenamed, hdeclared, rfl, by decide, by decide, by decide⟩

end JMan.Lsp
