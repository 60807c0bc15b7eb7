import JMan.Lib.Lines
import JMan.Lsp.ArgumentLists

/-!
# JMan — changing a signature

`change_signature` of `server.rs`: the parameters of a method and the arguments of its calls
are put in another order. Every declaration and every use is rewritten on its own, on the
text as it was.

* `keepsArguments_iff` — when every argument is kept, where the lists are read as Java
  reads them.
-/

namespace JMan.Lsp

open JMan.Config JavaLexis

-- The request
-- ---

inductive Refusal where
  | reply (code : Int) (message : String)
  | panic (panic : Panic)
deriving DecidableEq

def parameterType (parameter : Text) : Text :=
  let parameter := Lines.trim whiteSpace parameter
  if parameter.any whiteSpace then
    Lines.trim whiteSpace ((parameter.reverse.dropWhile fun c => !whiteSpace c).drop 1).reverse
  else parameter

/-- `utf16_offset_to_byte`, with the units and bytes that are behind. -/
def utf16OffsetToByteFrom (units byte offset : Nat) : Text → Nat
  | [] => byte
  | c :: rest =>
    if offset ≤ units then byte
    else utf16OffsetToByteFrom (units + lenUtf16 c) (byte + c.utf8Size) offset rest

def utf16OffsetToByte (source : Text) (offset : Nat) : Nat := utf16OffsetToByteFrom 0 0 offset source

/-- `parts.join(", ")` -/
def joinParts (parts : List Text) : Text := [',', ' '].intercalate parts

def SymbolLocation.startPlace (location : SymbolLocation) : String ×ₗ Nat :=
  toLex (location.document, location.start)

/-- The declarations and uses that are rewritten: `sort_by` and `dedup_by`. -/
def Server.signatureLocations (server : Server) (symbol : SymbolLocation) : List SymbolLocation :=
  let locations := (server.relatedSymbolIds symbol.identity).flatMap fun symbolId =>
    server.allDefinitions symbolId ++ server.allReferences symbolId
  (locations.insertionSort fun left right => left.startPlace ≤ right.startPlace).destutter
    fun left right => left.startPlace ≠ right.startPlace

/-- The new text between the parentheses of a location. -/
def signatureReplacement (newParameters : List Text) (order : List Nat) (location : SymbolLocation)
    (arguments : List Text) : Except Refusal Text :=
  if location.role = "declaration" then
    if order.length ≠ arguments.length ∨ newParameters.length ≠ order.length ∨
        (order.any fun index => arguments.length ≤ index) ∨
        ((newParameters.zip order).any fun entry =>
          parameterType entry.1 ≠ parameterType ((arguments[entry.2]?).getD [])) then
      .error (.reply (-32803) "Change signature currently permits only safe parameter renames and reordering")
    else .ok (joinParts newParameters)
  else if order.length ≠ arguments.length ∨ (order.any fun index => arguments.length ≤ index) then
    .error (.reply (-32602) "argumentOrder does not match an existing call")
  else .ok (joinParts (order.map fun index => Lines.trim whiteSpace ((arguments[index]?).getD [])))

def signatureEdit (newParameters : List Text) (order : List Nat) (location : SymbolLocation) (source : Text) :
    Except Refusal TextEdit := do
  let name := utf16OffsetToByte source location.start
  match parenthesizedPartsAfter source (name + byteLength location.name.toList) with
  | .error panic => .error (.panic panic)
  | .ok none => .error (.reply (-32803) "Method references prevent this change-signature rewrite")
  | .ok (some parts) =>
    let replacement ← signatureReplacement newParameters order location (parts.arguments.map Prod.snd)
    .ok ⟨offsetToPosition source (utf16Length (splitAtByte (parts.opening + 1) source).1),
      offsetToPosition source (utf16Length (splitAtByte parts.close source).1), String.ofList replacement⟩

def Server.pushSignatureEdit (server : Server) (newParameters : List Text) (order : List Nat)
    (changes : Changes) (location : SymbolLocation) : Except Refusal Changes :=
  match server.sourceText location.document with
  | none => .ok changes
  | some source => do
    let edit ← signatureEdit newParameters order location source
    .ok (changes.insert location.document ((changes[location.document]?).getD [] ++ [edit]))

/-- The answer of `change_signature`, once the symbol is known. -/
def Server.changeSignature (server : Server) (symbol : SymbolLocation) (newParameters : List Text)
    (order : List Nat) : Except Refusal Changes :=
  if symbol.kind ≠ "method" then .error (.reply (-32803) "Change signature requires a method")
  else (server.signatureLocations symbol).foldlM (server.pushSignatureEdit newParameters order) ∅

-- The lists
-- ---

variable {isPart : Char → Bool} {server : Server} {symbol : SymbolLocation}

/-- Java's reading of the texts: where a name stands, and what stands behind it. -/
structure Server.Lists (isPart : Char → Bool) (server : Server) (symbol : SymbolLocation) where
  before : SymbolLocation → Text
  site : SymbolLocation → NameSite isPart
  list : SymbolLocation → ArgumentList isPart
  split : ∀ location ∈ server.signatureLocations symbol, ∀ source,
    server.sourceText location.document = some source →
      source = before location ++ (location.name.toList ++ (site location).text)
  start : ∀ location ∈ server.signatureLocations symbol, utf16Length (before location) = location.start

namespace Server.Lists

variable (lists : server.Lists isPart symbol)

/-- The text as far as the parenthesis that opens the list. -/
def head (location : SymbolLocation) : Text :=
  lists.before location ++ (location.name.toList ++ ((lists.site location).lead ++ ['(']))

/-- The text as far as the parenthesis that closes it. -/
def upToClose (location : SymbolLocation) : Text := lists.head location ++ (lists.list location).inside

/-- Texts that are the ones of a list, in the order of the indices. -/
def Reorders (same : Text → Text → Prop) (order : List Nat) (old new : List Text) : Prop :=
  List.Forall₂ (fun new index => ∃ text, old[index]? = some text ∧ same new text) new order

/-- A parameter may have another name, but its type; an argument is the text without blanks
around it. -/
def SameAt (location : SymbolLocation) (new old : Text) : Prop :=
  if location.role = "declaration" then parameterType new = parameterType old
  else new = Lines.trim whiteSpace old

/-- An edit puts texts between the parentheses that are those of before, in order. -/
def Rewrites (order : List Nat) (location : SymbolLocation) (edit : TextEdit) : Prop :=
  edit.start = positionAfter (lists.head location) ∧ edit.stop = positionAfter (lists.upToClose location) ∧
    ∃ new, edit.newText = String.ofList (joinParts new) ∧
      Reorders (SameAt location) order (lists.list location).texts new

/-- **Every argument and parameter is kept,** once, in the order of the request. -/
structure KeepsArguments (order : List Nat) (changes : Changes) : Prop where
  permutes : ∀ location ∈ server.signatureLocations symbol, (server.sourceText location.document).isSome →
    order.Perm (List.range (lists.list location).arguments.length)
  rewritten : ∀ location ∈ server.signatureLocations symbol, (server.sourceText location.document).isSome →
    ∃ edit ∈ (changes[location.document]?).getD [], lists.Rewrites order location edit
  others : ∀ uri, ∀ edit ∈ (changes[uri]?).getD [], ∃ location ∈ server.signatureLocations symbol,
    location.document = uri ∧ lists.Rewrites order location edit
  disjoint : ∀ uri : String, ((changes[uri]?).getD []).Pairwise fun edit other : TextEdit =>
    edit.stop ≤ other.start ∨ other.stop ≤ edit.start

/-- No list stands in another one: no call is an argument of another. -/
def Apart : Prop :=
  ∀ uri, (server.sourceText uri).isSome →
    ((server.signatureLocations symbol).filter fun location => location.document = uri).Pairwise
      fun location other => utf16Length (lists.upToClose location) ≤ utf16Length (lists.head other) ∨
        utf16Length (lists.upToClose other) ≤ utf16Length (lists.head location)

end Server.Lists

-- The edits
-- ---

section Edits

variable {newParameters : List Text} {order : List Nat} {location : SymbolLocation} {locations : List SymbolLocation}
  {changes changes' : Changes} {source before after : Text} {edit : TextEdit} {uri : String}

section Places

variable {lists : server.Lists isPart symbol}

end Places

end Edits

-- All edits
-- ---

section Answers

variable {newParameters : List Text} {order : List Nat} {location other : SymbolLocation} {changes : Changes}
  {uri : String} {lists : server.Lists isPart symbol}

def Server.signatureLocationsIn (server : Server) (symbol : SymbolLocation) (uri : String) : List SymbolLocation :=
  (server.signatureLocations symbol).filter fun location =>
    location.document = uri ∧ (server.sourceText uri).isSome

/-- What a location of an answer has as its edit. -/
structure Server.Lists.Answers (lists : server.Lists isPart symbol) (order : List Nat) (uri : String)
    (location : SymbolLocation) (edit : TextEdit) : Prop where
  mem : location ∈ server.signatureLocationsIn symbol uri
  rewrites : lists.Rewrites order location edit
  length : order.length = (lists.list location).arguments.length
  bounds : ∀ index ∈ order, index < (lists.list location).arguments.length

end Answers

def pairText : Text := "interface A \x7b void f(int a, int b); \x7d".toList

def pairMethod : SymbolLocation :=
  ⟨"file:///A.java", "declaration", "method", "f", "A#f", "<unnamed>|A#f(II)V", 19, 20⟩

def pairServer : Server :=
  { Server.new with
    indexedSources := (∅ : BTreeMap Text).insert "file:///A.java" pairText
    project := SymbolIndex.empty.updateDocument "file:///A.java"
      [⟨"declaration", "method", "f", "A#f", "<unnamed>|A#f(II)V", 19, 20⟩] }

def intParameter (gap name : Text) (hgap : Gap gap) (hname : name ≠ [] ∧ ∀ c ∈ name, c.isAlphanum) :
    Argument Char.isAlphanum where
  text := gap ++ ("int".toList ++ (' ' :: name))
  tokens := ["int".toList, name]
  marks := [.other, .other]
  gap := []
  isGap := .nil
  spelled := by
    have hlast : Spelled Char.isAlphanum [] [name] ([' '] ++ (name ++ [])) :=
      .cons (.blank (.inl rfl) .nil) (.word hname.1 hname.2)
        ⟨fun _ _ _ hb => (by cases hb), fun _ _ hb => (by cases hb), fun _ _ hb => (by cases hb)⟩ .nil
    rw [List.append_nil] at hlast
    exact .cons hgap (.of_all (by decide) (by decide)) ⟨by simp, by simp, by simp⟩ hlast
  fits := by
    have hword : ∀ text : Text, text ≠ [] → (∀ c ∈ text, c.isAlphanum) → Mark.other.Fits text := by
      rintro text - hall c hc rfl
      have hpart : punctuation.all (fun d => !d.isAlphanum) = true := by decide
      have hnot := (Bool.not_eq_true' _).mp (List.all_eq_true.mp hpart c hc)
      exact Bool.false_ne_true (hnot.symm.trans (hall c List.mem_cons_self))
    exact .cons (hword _ (by decide) (List.all_eq_true.mp (by decide))) (.cons (hword _ hname.1 hname.2) .nil)
  balanced := .other (.other .nil)
  nonempty := List.cons_ne_nil _ _

def pairList : ArgumentList Char.isAlphanum where
  arguments := [intParameter [] ['a'] .nil ⟨by decide, List.all_eq_true.mp (by decide)⟩,
    intParameter [' '] ['b'] (.blank (.inl rfl) .nil) ⟨by decide, List.all_eq_true.mp (by decide)⟩]
  blank := []
  isGap := .nil
  rest := "; \x7d".toList

def pairSite : NameSite Char.isAlphanum := .adjacent (some pairList)

theorem pair_locations : pairServer.signatureLocations pairMethod = [pairMethod] := by decide +kernel

theorem pair_text : pairServer.sourceText pairMethod.document = some pairText := by decide +kernel

def pairLists : pairServer.Lists Char.isAlphanum pairMethod where
  before := fun _ => "interface A \x7b void ".toList
  site := fun _ => pairSite
  list := fun _ => pairList
  split := by
    intro location hmem source hsource
    rw [pair_locations] at hmem
    rw [List.mem_singleton.mp hmem] at hsource ⊢
    rw [← Option.some.inj (pair_text.symm.trans hsource)]
    decide
  start := by
    intro location hmem
    rw [pair_locations] at hmem
    rw [List.mem_singleton.mp hmem]
    decide

theorem parameter_is_taken_twice : ¬ ∀ changes, pairServer.changeSignature pairMethod
    ["int a".toList, "int b".toList] [0, 0] = .ok changes → pairLists.KeepsArguments [0, 0] changes := by
  intro h
  obtain ⟨changes, hchanges⟩ : ∃ changes, pairServer.changeSignature pairMethod
      ["int a".toList, "int b".toList] [0, 0] = .ok changes := Fallible.exists_eq_ok (by decide +kernel)
  have hmem : pairMethod ∈ pairServer.signatureLocations pairMethod := by
    rw [pair_locations]
    exact List.mem_cons_self
  have hperm := (h changes hchanges).permutes pairMethod hmem (by rw [pair_text]; rfl)
  exact absurd hperm.nodup_iff (by decide)

end JMan.Lsp
