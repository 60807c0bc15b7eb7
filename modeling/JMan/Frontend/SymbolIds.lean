import Mathlib.Data.Set.Pairwise.Basic
import Mathlib.Data.Bool.AllAny
import JMan.Lib.Encoding

/-!
# JMan — symbol identifiers

`SymbolIds.of` of `SymbolIds.java`: the text under which the whole index knows an element.
It is made of the module, the binary name of the class around the element, the name and
the erased type, so that it tells classes from each other, and methods, and fields. It does
not tell what else has a name and a type in a class: two parameters of two methods have
one identifier (`parameters_share_an_identifier`). `of_eq_iff` says which elements have.

* `Name` — a name as Java writes it; what separates the parts of an identifier is not in it.
* `Descriptor` — an erased type.
* `Confused` — the elements that have one identifier, kind by kind.
-/

namespace JMan.Frontend

abbrev Text := List Char

-- Names

def reserved : List Char := ['|', '#', ';', ':', '(', ')', '[', '/', '<', '>']

structure Name where
  text : Text
  plain : ∀ c ∈ text, c ∉ reserved
deriving DecidableEq

def slash (c : Char) : Char := if c = '.' then '/' else c

/-- `replace('.', '/')` -/
def Name.slashed (name : Name) : Text := name.text.map slash

theorem Name.ext_text {name other : Name} (h : name.text = other.text) : name = other := by
  cases name
  cases other
  cases h
  rfl

theorem Name.notMem (name : Name) {c : Char} (hc : c ∈ reserved) : c ∉ name.text :=
  fun hmem => name.plain c hmem hc

theorem Name.notMem_slashed (name : Name) {c : Char} (hc : c ∈ reserved) (hslash : c ≠ '/') :
    c ∉ name.slashed := by
  intro hmem
  obtain ⟨d, hd, rfl⟩ := List.mem_map.mp hmem
  unfold slash at hc hslash
  split at hc
  · next hdot => exact hslash (if_pos hdot)
  · exact name.plain d hd hc

theorem Name.slashed_injective : Function.Injective Name.slashed := by
  intro name other h
  have hslash : ∀ c ∈ name.text, ∀ d ∈ other.text, slash c = slash d → c = d := by
    intro c hc d hd hcd
    unfold slash at hcd
    split at hcd
    · split at hcd
      · next hc hd => rw [hc, hd]
      · exact absurd (hcd ▸ hd) (other.notMem (by decide))
    · split at hcd
      · exact absurd (hcd ▸ hc) (name.notMem (by decide))
      · exact hcd
  refine Name.ext_text ?_
  unfold Name.slashed at h
  generalize name.text = left at h hslash
  generalize other.text = right at h hslash
  induction left generalizing right with
  | nil => exact (List.map_eq_nil_iff.mp h.symm).symm
  | cons c left ih =>
    cases right with
    | nil => cases h
    | cons d right =>
      obtain ⟨hhead, htail⟩ := List.cons.inj h
      rw [hslash c List.mem_cons_self d List.mem_cons_self hhead, ih right htail fun c hc d hd =>
        hslash c (List.mem_cons_of_mem _ hc) d (List.mem_cons_of_mem _ hd)]

-- Types

inductive Primitive where
  | boolean
  | byte
  | short
  | int
  | long
  | char
  | float
  | double
  | void
deriving DecidableEq

def Primitive.letter : Primitive → Char
  | .boolean => 'Z'
  | .byte => 'B'
  | .short => 'S'
  | .int => 'I'
  | .long => 'J'
  | .char => 'C'
  | .float => 'F'
  | .double => 'D'
  | .void => 'V'

inductive JavaType where
  | primitive (kind : Primitive)
  | array (component : JavaType)
  | declared (binaryName : Name)
  /-- A type variable, a wildcard or an intersection, with its erasure. -/
  | bounded (erasure : JavaType)
  /-- A type that was not found, the type of `null`, or a union. -/
  | unknown
deriving DecidableEq

def javaLangObject : Name := ⟨"java.lang.Object".toList, List.all_iff_forall_prop.mp (by decide)⟩

def objectDescriptor : Text := "Ljava/lang/Object;".toList

/-- `types.erasure` -/
def JavaType.erasure : JavaType → JavaType
  | .array component => .array component.erasure
  | .bounded erasure => erasure.erasure
  | other => other

/-- `descriptor` of a type. -/
def JavaType.descriptor : JavaType → Text
  | .primitive kind => [kind.letter]
  | .array component => '[' :: component.descriptor
  | .declared binaryName => 'L' :: binaryName.slashed ++ [';']
  | .bounded erasure => erasure.descriptor
  | .unknown => objectDescriptor

/-- `descriptor` of a method. -/
def methodDescriptor (parameters : List JavaType) (result : JavaType) : Text :=
  '(' :: parameters.flatMap (fun parameter => parameter.erasure.descriptor) ++
    ')' :: result.erasure.descriptor

inductive Descriptor where
  | primitive (kind : Primitive)
  | array (component : Descriptor)
  | declared (binaryName : Name)
deriving DecidableEq

def Descriptor.text : Descriptor → Text
  | .primitive kind => [kind.letter]
  | .array component => '[' :: component.text
  | .declared binaryName => 'L' :: binaryName.slashed ++ [';']

/-- A type erased; one that was not found counts as `Object`. -/
def JavaType.erased : JavaType → Descriptor
  | .primitive kind => .primitive kind
  | .array component => .array component.erased
  | .declared binaryName => .declared binaryName
  | .bounded erasure => erasure.erased
  | .unknown => .declared javaLangObject

theorem objectDescriptor_eq : objectDescriptor = (Descriptor.declared javaLangObject).text := by decide

theorem descriptor_eq (type : JavaType) : type.descriptor = type.erased.text := by
  induction type with
  | primitive kind => rfl
  | array component ih => rw [JavaType.descriptor, JavaType.erased, Descriptor.text, ih]
  | declared binaryName => rfl
  | bounded erasure ih => exact ih
  | unknown => exact objectDescriptor_eq

theorem erased_erasure (type : JavaType) : type.erasure.erased = type.erased := by
  induction type with
  | primitive kind => rfl
  | array component ih => rw [JavaType.erasure, JavaType.erased, JavaType.erased, ih]
  | declared binaryName => rfl
  | bounded erasure ih => exact ih
  | unknown => rfl

section Descriptors

variable {left right : Descriptor} {rest rest' : Text}

theorem Primitive.letter_injective : Function.Injective Primitive.letter := by
  intro left right h
  cases left <;> cases right <;> first | rfl | exact absurd h (by decide)

theorem Primitive.letter_ne (kind : Primitive) :
    kind.letter ≠ '[' ∧ kind.letter ≠ 'L' ∧ kind.letter ≠ ')' := by
  cases kind <;> decide

/-- **A descriptor is told from what follows it.** -/
theorem Descriptor.text_append (h : left.text ++ rest = right.text ++ rest') :
    left = right ∧ rest = rest' := by
  induction left generalizing right with
  | primitive kind =>
    cases right with
    | primitive other =>
      obtain ⟨hletter, hrest⟩ : kind.letter = other.letter ∧ rest = rest' := List.cons.inj h
      exact ⟨congrArg Descriptor.primitive (Primitive.letter_injective hletter), hrest⟩
    | array component =>
      have hletter : kind.letter = '[' := List.head_eq_of_cons_eq h
      exact absurd hletter kind.letter_ne.1
    | declared binaryName =>
      have hletter : kind.letter = 'L' := List.head_eq_of_cons_eq h
      exact absurd hletter kind.letter_ne.2.1
  | array component ih =>
    cases right with
    | primitive other =>
      have hletter : '[' = other.letter := List.head_eq_of_cons_eq h
      exact absurd hletter.symm other.letter_ne.1
    | array other =>
      have htail : component.text ++ rest = other.text ++ rest' := List.tail_eq_of_cons_eq h
      obtain ⟨rfl, hrest⟩ := ih htail
      exact ⟨rfl, hrest⟩
    | declared binaryName =>
      have hletter : '[' = 'L' := List.head_eq_of_cons_eq h
      exact absurd hletter (by decide)
  | declared binaryName =>
    cases right with
    | primitive other =>
      have hletter : 'L' = other.letter := List.head_eq_of_cons_eq h
      exact absurd hletter.symm other.letter_ne.2.1
    | array other =>
      have hletter : 'L' = '[' := List.head_eq_of_cons_eq h
      exact absurd hletter (by decide)
    | declared other =>
      have hbody : binaryName.slashed ++ [';'] ++ rest = other.slashed ++ [';'] ++ rest' :=
        List.tail_eq_of_cons_eq h
      rw [List.append_assoc, List.append_assoc] at hbody
      obtain ⟨hname, hrest⟩ := Encoding.separated_injective
        (binaryName.notMem_slashed (by decide) (by decide))
        (other.notMem_slashed (by decide) (by decide)) hbody
      exact ⟨congrArg Descriptor.declared (Name.slashed_injective hname), hrest⟩

theorem Descriptor.exists_text (descriptor : Descriptor) :
    ∃ c rest, descriptor.text = c :: rest ∧ c ≠ ')' := by
  cases descriptor with
  | primitive kind => exact ⟨_, _, rfl, kind.letter_ne.2.2⟩
  | array component => exact ⟨_, _, rfl, by decide⟩
  | declared binaryName => exact ⟨_, _, rfl, by decide⟩

/-- **Descriptors in parentheses are told apart.** -/
theorem texts_append {lefts rights : List Descriptor}
    (h : lefts.flatMap Descriptor.text ++ ')' :: rest = rights.flatMap Descriptor.text ++ ')' :: rest') :
    lefts = rights ∧ rest = rest' := by
  induction lefts generalizing rights with
  | nil =>
    cases rights with
    | nil => exact ⟨rfl, (List.cons.inj h).2⟩
    | cons right rights =>
      obtain ⟨c, tail, htext, hc⟩ := right.exists_text
      rw [List.flatMap_cons, htext] at h
      exact absurd (List.cons.inj h).1.symm hc
  | cons left lefts ih =>
    cases rights with
    | nil =>
      obtain ⟨c, tail, htext, hc⟩ := left.exists_text
      rw [List.flatMap_cons, htext] at h
      exact absurd (List.cons.inj h).1 hc
    | cons right rights =>
      rw [List.flatMap_cons, List.flatMap_cons, List.append_assoc, List.append_assoc] at h
      obtain ⟨rfl, htail⟩ := Descriptor.text_append h
      obtain ⟨rfl, hrest⟩ := ih htail
      exact ⟨rfl, hrest⟩

end Descriptors

-- Elements

/-- A class, which is declared in one place. The unnamed module has no name. -/
structure TypeElement where
  declaration : Nat
  module : Option Name
  binaryName : Name
deriving DecidableEq

/-- What encloses an element that is no class: a class, or an element of one. -/
inductive Enclosing where
  | type (type : TypeElement)
  | element (declaration : Nat) (outer : Enclosing)
deriving DecidableEq

/-- The loop of `owner` -/
def Enclosing.owner : Enclosing → TypeElement
  | .type owner => owner
  | .element _ outer => outer.owner

inductive Element where
  | type (type : TypeElement)
  /-- A method, or a constructor, which has no name. -/
  | executable (declaration : Nat) (enclosing : Enclosing) (name : Option Name)
      (parameters : List JavaType) (result : JavaType)
  /-- A field, a parameter or a local variable. -/
  | variable (declaration : Nat) (enclosing : Enclosing) (name : Name) (type : JavaType)
  /-- A type parameter. -/
  | member (declaration : Nat) (enclosing : Enclosing) (name : Name)
  | package (module : Option Name) (name : Name)
  | module (declaration : Nat) (name : Name)
deriving DecidableEq

def unnamedModule : Text := "<unnamed>".toList

def constructorName : Text := "<init>".toList

/-- `moduleName` -/
def moduleName : Option Name → Text
  | none => unnamedModule
  | some name => name.text

def simpleName : Option Name → Text
  | none => constructorName
  | some name => name.text

def memberPrefix (owner : TypeElement) : Text :=
  moduleName owner.module ++ '|' :: owner.binaryName.slashed ++ ['#']

/-- `SymbolIds.of` -/
def symbolId : Element → Text
  | .type type => moduleName type.module ++ '|' :: 'L' :: type.binaryName.slashed ++ [';']
  | .executable _ enclosing name parameters result =>
    memberPrefix enclosing.owner ++ simpleName name ++ methodDescriptor parameters result
  | .variable _ enclosing name type =>
    memberPrefix enclosing.owner ++ name.text ++ ':' :: type.descriptor
  | .member _ enclosing name => memberPrefix enclosing.owner ++ name.text
  | .package module name => moduleName module ++ '|' :: name.text
  | .module _ name => name.text ++ '|' :: name.text

-- Elements with one identifier

/-- The classes have one name in modules of one name. -/
structure SameType (left right : TypeElement) : Prop where
  module : left.module = right.module
  binaryName : left.binaryName = right.binaryName

inductive Confused : Element → Element → Prop where
  | type {left right : TypeElement} (h : SameType left right) : Confused (.type left) (.type right)
  | executable {i j : Nat} {left right : Enclosing} {name : Option Name}
      {parameters otherParameters : List JavaType} {result otherResult : JavaType}
      (owner : SameType left.owner right.owner)
      (sameParameters : parameters.map JavaType.erased = otherParameters.map JavaType.erased)
      (sameResult : result.erased = otherResult.erased) :
      Confused (.executable i left name parameters result)
        (.executable j right name otherParameters otherResult)
  | variable {i j : Nat} {left right : Enclosing} {name : Name} {type otherType : JavaType}
      (owner : SameType left.owner right.owner) (sameType : type.erased = otherType.erased) :
      Confused (.variable i left name type) (.variable j right name otherType)
  | member {i j : Nat} {left right : Enclosing} {name : Name}
      (owner : SameType left.owner right.owner) : Confused (.member i left name) (.member j right name)
  | package {module : Option Name} {name : Name} : Confused (.package module name) (.package module name)
  | module {i j : Nat} {name : Name} : Confused (.module i name) (.module j name)
  | modulePackage {i : Nat} {name : Name} : Confused (.module i name) (.package (some name) name)
  | packageModule {i : Nat} {name : Name} : Confused (.package (some name) name) (.module i name)

section Identifiers

variable {left right : TypeElement} {rest rest' : Text}

theorem moduleName_injective : Function.Injective moduleName := by
  intro left right h
  cases left with
  | none =>
    cases right with
    | none => rfl
    | some name =>
      have hbracket : '<' ∈ name.text := List.mem_of_mem_head? (congrArg List.head? h.symm)
      exact absurd hbracket (name.notMem (by decide))
  | some name =>
    cases right with
    | none =>
      have hbracket : '<' ∈ name.text := List.mem_of_mem_head? (congrArg List.head? h)
      exact absurd hbracket (name.notMem (by decide))
    | some other => exact congrArg some (Name.ext_text h)

theorem notMem_moduleName (module : Option Name) : '|' ∉ moduleName module := by
  cases module with
  | none => decide
  | some name => exact name.notMem (by decide)

theorem simpleName_injective : Function.Injective simpleName := by
  intro left right h
  cases left with
  | none =>
    cases right with
    | none => rfl
    | some name =>
      have hbracket : '<' ∈ name.text := List.mem_of_mem_head? (congrArg List.head? h.symm)
      exact absurd hbracket (name.notMem (by decide))
  | some name =>
    cases right with
    | none =>
      have hbracket : '<' ∈ name.text := List.mem_of_mem_head? (congrArg List.head? h)
      exact absurd hbracket (name.notMem (by decide))
    | some other => exact congrArg some (Name.ext_text h)

theorem notMem_simpleName {c : Char} (hc : c ∈ reserved) (hbrackets : c ≠ '<' ∧ c ≠ '>')
    (name : Option Name) : c ∉ simpleName name := by
  cases name with
  | none =>
    intro hmem
    have hall : ∀ d ∈ simpleName none, ¬ (d ∈ reserved ∧ d ≠ '<' ∧ d ≠ '>') :=
      List.all_iff_forall_prop.mp (by decide)
    exact hall c hmem ⟨hc, hbrackets⟩
  | some name => exact name.notMem hc

theorem moduleName_append {module other : Option Name}
    (h : moduleName module ++ '|' :: rest = moduleName other ++ '|' :: rest') :
    module = other ∧ rest = rest' := by
  obtain ⟨hmodule, hrest⟩ := Encoding.separated_injective (notMem_moduleName module)
    (notMem_moduleName other) h
  exact ⟨moduleName_injective hmodule, hrest⟩

theorem methodDescriptor_eq (parameters : List JavaType) (result : JavaType) :
    methodDescriptor parameters result = '(' :: (parameters.map JavaType.erased).flatMap Descriptor.text ++
      ')' :: result.erased.text := by
  have hparameters : (parameters.flatMap fun parameter => parameter.erasure.descriptor) =
      (parameters.map JavaType.erased).flatMap Descriptor.text := by
    rw [List.flatMap_map]
    exact List.flatMap_congr fun parameter _ => by rw [descriptor_eq, erased_erasure]
  rw [methodDescriptor, hparameters, descriptor_eq, erased_erasure]

end Identifiers

namespace Element

def moduleOf : Element → Option Name
  | .type declared => declared.module
  | .executable _ enclosing _ _ _ => enclosing.owner.module
  | .variable _ enclosing _ _ => enclosing.owner.module
  | .member _ enclosing _ => enclosing.owner.module
  | .package owner _ => owner
  | .module _ name => some name

def suffix : Element → Text
  | .executable _ _ name parameters result => simpleName name ++ methodDescriptor parameters result
  | .variable _ _ name javaType => name.text ++ ':' :: javaType.descriptor
  | .member _ _ name => name.text
  | _ => []

def rest : Element → Text
  | .type declared => 'L' :: declared.binaryName.slashed ++ [';']
  | .package _ name => name.text
  | .module _ name => name.text
  | .executable i enclosing name parameters result =>
    enclosing.owner.binaryName.slashed ++ '#' :: suffix (.executable i enclosing name parameters result)
  | .variable i enclosing name javaType =>
    enclosing.owner.binaryName.slashed ++ '#' :: suffix (.variable i enclosing name javaType)
  | .member i enclosing name =>
    enclosing.owner.binaryName.slashed ++ '#' :: suffix (.member i enclosing name)

theorem symbolId_eq (element : Element) :
    symbolId element = moduleName element.moduleOf ++ '|' :: element.rest := by
  cases element with
  | module i name => rfl
  | _ =>
    simp only [symbolId, moduleOf, rest, suffix, memberPrefix, List.append_assoc, List.cons_append,
      List.nil_append]

inductive Kind where
  | type
  | executable
  | variable
  | member
  | ownerless
deriving DecidableEq

def kind : Element → Kind
  | .type _ => .type
  | .executable _ _ _ _ _ => .executable
  | .variable _ _ _ _ => .variable
  | .member _ _ _ => .member
  | .package _ _ => .ownerless
  | .module _ _ => .ownerless

def kindOf (rest : Text) : Kind :=
  if '#' ∈ rest then if '(' ∈ rest then .executable else if ':' ∈ rest then .variable else .member
  else if ';' ∈ rest then .type else .ownerless

theorem notMem_descriptor {c : Char} (hc : c ∈ ['#', '(', ':']) (descriptor : Descriptor) :
    c ∉ descriptor.text := by
  have hall : ∀ d ∈ ['#', '(', ':'], d ∈ reserved ∧ d ≠ '/' ∧ d ≠ '[' ∧ d ≠ 'L' ∧ d ≠ ';' :=
    List.all_iff_forall_prop.mp (by decide)
  obtain ⟨hreserved, hslash, hbracket, hletter, hsemicolon⟩ := hall c hc
  induction descriptor with
  | primitive kind =>
    intro hmem
    obtain rfl := List.mem_singleton.mp hmem
    revert hc
    cases kind <;> decide
  | array component ih =>
    exact fun hmem => (List.mem_cons.mp hmem).elim hbracket ih
  | declared binaryName =>
    intro hmem
    rcases List.mem_append.mp hmem with hmem | hmem
    · exact (List.mem_cons.mp hmem).elim hletter (binaryName.notMem_slashed hreserved hslash)
    · exact hsemicolon (List.mem_singleton.mp hmem)

theorem kindOf_rest (element : Element) : kindOf element.rest = element.kind := by
  unfold kindOf
  cases element with
  | type declared =>
    rw [rest]
    have hhash : '#' ∉ 'L' :: declared.binaryName.slashed ++ [';'] := by
      intro hmem
      rcases List.mem_append.mp hmem with hmem | hmem
      · exact (List.mem_cons.mp hmem).elim (by decide)
          (declared.binaryName.notMem_slashed (by decide) (by decide))
      · exact absurd (List.mem_singleton.mp hmem) (by decide)
    rw [if_neg hhash, if_pos (List.mem_append_right _ (List.mem_singleton.mpr rfl))]
    rfl
  | executable i enclosing name parameters result =>
    rw [rest, suffix, methodDescriptor, if_pos (List.mem_append_right _ List.mem_cons_self), if_pos]
    · rfl
    · exact List.mem_append_right _ (List.mem_cons_of_mem _ (List.mem_append_right _ List.mem_cons_self))
  | «variable» i enclosing name javaType =>
    rw [rest, suffix]
    have hopen : '(' ∉ enclosing.owner.binaryName.slashed ++ '#' :: (name.text ++
        ':' :: javaType.descriptor) := by
      intro hmem
      rcases List.mem_append.mp hmem with hmem | hmem
      · exact enclosing.owner.binaryName.notMem_slashed (by decide) (by decide) hmem
      · rcases List.mem_append.mp (List.mem_of_ne_of_mem (by decide) hmem) with hmem | hmem
        · exact name.notMem (by decide) hmem
        · rw [descriptor_eq] at hmem
          exact notMem_descriptor (by decide) _ (List.mem_of_ne_of_mem (by decide) hmem)
    rw [if_pos (List.mem_append_right _ List.mem_cons_self), if_neg hopen, if_pos]
    · rfl
    · exact List.mem_append_right _ (List.mem_cons_of_mem _ (List.mem_append_right _ List.mem_cons_self))
  | member i enclosing name =>
    rw [rest, suffix]
    have hnone : ∀ c ∈ ['(', ':'], c ∉ enclosing.owner.binaryName.slashed ++ '#' :: name.text := by
      intro c hc hmem
      have hall : ∀ d ∈ ['(', ':'], d ∈ reserved ∧ d ≠ '/' ∧ d ≠ '#' :=
        List.all_iff_forall_prop.mp (by decide)
      have hreserved := hall c hc
      rcases List.mem_append.mp hmem with hmem | hmem
      · exact enclosing.owner.binaryName.notMem_slashed hreserved.1 hreserved.2.1 hmem
      · exact name.notMem hreserved.1 (List.mem_of_ne_of_mem hreserved.2.2 hmem)
    rw [if_pos (List.mem_append_right _ List.mem_cons_self), if_neg (hnone _ (by decide)),
      if_neg (hnone _ (by decide))]
    rfl
  | package owner name =>
    rw [rest, if_neg (name.notMem (by decide)), if_neg (name.notMem (by decide))]
    rfl
  | module i name =>
    rw [rest, if_neg (name.notMem (by decide)), if_neg (name.notMem (by decide))]
    rfl

end Element

section Confusion

variable {left right : TypeElement} {element other : Element}

theorem memberPrefix_congr (h : SameType left right) : memberPrefix left = memberPrefix right := by
  rw [memberPrefix, memberPrefix, h.module, h.binaryName]

theorem Confused.symbolId_eq (h : Confused element other) : symbolId element = symbolId other := by
  cases h with
  | type h => rw [symbolId, symbolId, h.module, h.binaryName]
  | executable owner sameParameters sameResult =>
    rw [symbolId, symbolId, memberPrefix_congr owner, methodDescriptor_eq, methodDescriptor_eq,
      sameParameters, sameResult]
  | «variable» owner sameType =>
    rw [symbolId, symbolId, memberPrefix_congr owner, descriptor_eq, descriptor_eq, sameType]
  | member owner => rw [symbolId, symbolId, memberPrefix_congr owner]
  | package => rfl
  | module => rfl
  | modulePackage => rfl
  | packageModule => rfl

theorem member_rest {suffix otherSuffix : Text} (hmodule : left.module = right.module)
    (h : left.binaryName.slashed ++ '#' :: suffix = right.binaryName.slashed ++ '#' :: otherSuffix) :
    SameType left right ∧ suffix = otherSuffix := by
  obtain ⟨hname, hsuffix⟩ := Encoding.separated_injective
    (left.binaryName.notMem_slashed (by decide) (by decide))
    (right.binaryName.notMem_slashed (by decide) (by decide)) h
  exact ⟨⟨hmodule, Name.slashed_injective hname⟩, hsuffix⟩

theorem executable_suffix {name otherName : Option Name} {parameters otherParameters : List JavaType}
    {result otherResult : JavaType}
    (h : simpleName name ++ methodDescriptor parameters result =
      simpleName otherName ++ methodDescriptor otherParameters otherResult) :
    name = otherName ∧ parameters.map JavaType.erased = otherParameters.map JavaType.erased ∧
      result.erased = otherResult.erased := by
  rw [methodDescriptor_eq, methodDescriptor_eq] at h
  obtain ⟨hname, hdescriptor⟩ := Encoding.separated_injective
    (notMem_simpleName (by decide) (by decide) name)
    (notMem_simpleName (by decide) (by decide) otherName) h
  obtain ⟨hparameters, hresult⟩ := texts_append hdescriptor
  refine ⟨simpleName_injective hname, hparameters, ?_⟩
  have hends : result.erased.text ++ [] = otherResult.erased.text ++ [] := by
    rw [List.append_nil, List.append_nil, hresult]
  exact (Descriptor.text_append hends).1

theorem variable_suffix {name otherName : Name} {type otherType : JavaType}
    (h : name.text ++ ':' :: type.descriptor = otherName.text ++ ':' :: otherType.descriptor) :
    name = otherName ∧ type.erased = otherType.erased := by
  rw [descriptor_eq, descriptor_eq] at h
  obtain ⟨hname, htype⟩ := Encoding.separated_injective (name.notMem (by decide))
    (otherName.notMem (by decide)) h
  refine ⟨Name.ext_text hname, ?_⟩
  have hends : type.erased.text ++ [] = otherType.erased.text ++ [] := by
    rw [List.append_nil, List.append_nil, htype]
  exact (Descriptor.text_append hends).1

theorem type_rest {name otherName : Name}
    (h : 'L' :: name.slashed ++ [';'] = 'L' :: otherName.slashed ++ [';']) : name = otherName := by
  have hbody : name.slashed ++ ';' :: [] = otherName.slashed ++ ';' :: [] := List.tail_eq_of_cons_eq h
  exact Name.slashed_injective (List.append_cancel_right hbody)

/-- **Elements have one identifier exactly when they are confused.** -/
theorem symbolId_eq_iff : symbolId element = symbolId other ↔ Confused element other := by
  refine ⟨fun h => ?_, Confused.symbolId_eq⟩
  rw [Element.symbolId_eq, Element.symbolId_eq] at h
  obtain ⟨hmodule, hrest⟩ := moduleName_append h
  have hkind : element.kind = other.kind := by
    rw [← Element.kindOf_rest, ← Element.kindOf_rest, hrest]
  cases element with
  | type left =>
    cases other with
    | type right => exact .type ⟨hmodule, type_rest hrest⟩
    | _ => cases hkind
  | executable i left name parameters result =>
    cases other with
    | executable j right otherName otherParameters otherResult =>
      obtain ⟨howner, hsuffix⟩ := member_rest hmodule hrest
      obtain ⟨rfl, hparameters, hresult⟩ := executable_suffix hsuffix
      exact .executable howner hparameters hresult
    | _ => cases hkind
  | «variable» i left name type =>
    cases other with
    | «variable» j right otherName otherType =>
      obtain ⟨howner, hsuffix⟩ := member_rest hmodule hrest
      obtain ⟨rfl, htype⟩ := variable_suffix hsuffix
      exact .variable howner htype
    | _ => cases hkind
  | member i left name =>
    cases other with
    | member j right otherName =>
      obtain ⟨howner, hsuffix⟩ := member_rest hmodule hrest
      obtain rfl := Name.ext_text hsuffix
      exact .member howner
    | _ => cases hkind
  | package module name =>
    obtain rfl : module = other.moduleOf := hmodule
    cases other with
    | package otherModule otherName =>
      obtain rfl := Name.ext_text hrest
      exact .package
    | module j otherName =>
      obtain rfl := Name.ext_text hrest
      exact .packageModule
    | _ => cases hkind
  | module i name =>
    cases other with
    | package otherModule otherName =>
      obtain rfl : some name = otherModule := hmodule
      obtain rfl := Name.ext_text hrest
      exact .modulePackage
    | module j otherName =>
      obtain rfl := Name.ext_text hrest
      exact .module
    | _ => cases hkind

end Confusion

/-- **The identifiers of a workspace are injective exactly when no two of its elements are
confused.** -/
theorem symbolIds_injective_iff (workspace : Set Element) :
    Set.InjOn symbolId workspace ↔ workspace.Pairwise fun element other => ¬ Confused element other := by
  constructor
  · intro h element helement other hother hne hconfused
    exact hne (h helement hother hconfused.symbolId_eq)
  · intro h element helement other hother hsame
    by_contra hne
    exact h helement hother hne (symbolId_eq_iff.mp hsame)

def parameterOf (method : Nat) : Element :=
  .variable (method + 1) (.element method (.type ⟨0, none, ⟨['A'], List.all_iff_forall_prop.mp (by decide)⟩⟩))
    ⟨['x'], List.all_iff_forall_prop.mp (by decide)⟩
    (.primitive .int)

theorem parameters_share_an_identifier :
    ¬ ∀ workspace : Set Element, Set.InjOn symbolId workspace := by
  intro h
  have hsame := h {parameterOf 1, parameterOf 3} (Set.mem_insert _ _)
    (Set.mem_insert_of_mem _ (Set.mem_singleton _)) (by decide)
  exact absurd hsame (by decide)

end JMan.Frontend
