/-!
# JMan — the Maven data model

Lean counterparts of the types in `jman-resolver/src/model.rs` and of
`ResolverError` in `jman-resolver/src/lib.rs`, field for field. Strings are
Lean strings: no well-formedness is assumed of a group, an artifact, a
version, a type or a classifier, because the POM parser checks none. A
`BTreeMap<String, String>` is an association list kept in ascending order of
its keys (`PropertyMap.insert`); paths, foreign errors and HTTP status codes
are carried as plain text and numbers.

The textual keys are the source's own `format!` strings. They are *not*
injective: a colon inside one field can stand for the separator of two. The
lemmas about `managementKey` and `toString` therefore speak of colon-free
fields.
-/

namespace JMan.Resolver

/-! ## Errors -/

/-- `ResolverError`; a foreign source error is its rendered text. -/
inductive ResolverError where
  | invalidPom (message : String)
  | invalidMetadata (message : String)
  | invalidCoordinate (value : String)
  | missingVersion (ga : String)
  | unresolvedProperty (property value : String)
  | modelCycle (chain : String)
  | modelContext (coordinate : String) (source : ResolverError)
  | backgroundTask (message : String)
  | request (url source : String)
  | httpStatus (url : String) (status : Nat)
  | offlineMiss (coordinate : String)
  | cache (path source : String)
deriving DecidableEq

/-! ## Keys joined with colons -/

theorem append_colon_inj {a b x y : String} (ha : ':' ∉ a.toList) (hb : ':' ∉ b.toList)
    (h : a ++ ":" ++ x = b ++ ":" ++ y) : a = b ∧ x = y := by
  have hlist : a.toList ++ ':' :: x.toList = b.toList ++ ':' :: y.toList := by
    have := congrArg String.toList h
    simpa using this
  have key : ∀ (l m s t : List Char), ':' ∉ l → ':' ∉ m →
      l ++ ':' :: s = m ++ ':' :: t → l = m ∧ s = t := by
    intro l
    induction l with
    | nil =>
      intro m s t _ hm h
      cases m with
      | nil => exact ⟨rfl, by simpa using h⟩
      | cons c m =>
        simp only [List.nil_append, List.cons_append, List.cons.injEq] at h
        exact absurd (h.1 ▸ List.mem_cons_self ..) hm
    | cons c l ih =>
      intro m s t hl hm h
      cases m with
      | nil =>
        simp only [List.nil_append, List.cons_append, List.cons.injEq] at h
        exact absurd (h.1 ▸ List.mem_cons_self ..) hl
      | cons c' m =>
        simp only [List.cons_append, List.cons.injEq] at h
        obtain ⟨rfl, h⟩ := h
        obtain ⟨rfl, rfl⟩ := ih m s t (fun hc => hl (List.mem_cons_of_mem _ hc))
          (fun hc => hm (List.mem_cons_of_mem _ hc)) h
        exact ⟨rfl, rfl⟩
  obtain ⟨hab, hxy⟩ := key _ _ _ _ ha hb hlist
  exact ⟨String.toList_inj.mp hab, String.toList_inj.mp hxy⟩

/-! ## Coordinates -/

structure Coordinate where
  group : String
  artifact : String
  version : String
  extension : String
  classifier : Option String
deriving DecidableEq, Repr, Inhabited

def Coordinate.pom (group artifact version : String) : Coordinate :=
  { group, artifact, version, extension := "pom", classifier := none }

def Coordinate.jar (group artifact version : String) : Coordinate :=
  { group, artifact, version, extension := "jar", classifier := none }

/-- `impl Display for Coordinate`. -/
def Coordinate.toString (c : Coordinate) : String :=
  match c.classifier with
  | none =>
    if c.extension = "jar" then
      c.group ++ ":" ++ c.artifact ++ ":" ++ c.version
    else
      c.group ++ ":" ++ c.artifact ++ ":" ++ c.extension ++ ":" ++ c.version
  | some classifier =>
    c.group ++ ":" ++ c.artifact ++ ":" ++ c.extension ++ ":" ++ classifier ++ ":" ++ c.version

/-- `Coordinate::parse`: `group:artifact[:extension[:classifier]]:version`. -/
def Coordinate.parse (value : String) : Except ResolverError Coordinate :=
  let parts := (value.toList.splitOn ':').map String.ofList
  if "" ∈ parts then .error (.invalidCoordinate value)
  else
    match parts with
    | [group, artifact, version] => .ok (Coordinate.jar group artifact version)
    | [group, artifact, extension, version] =>
      .ok { group, artifact, version, extension, classifier := none }
    | [group, artifact, extension, classifier, version] =>
      .ok { group, artifact, version, extension, classifier := some classifier }
    | _ => .error (.invalidCoordinate value)

def Coordinate.ga (c : Coordinate) : String := c.group ++ ":" ++ c.artifact

def Coordinate.toPom (c : Coordinate) : Coordinate :=
  Coordinate.pom c.group c.artifact c.version

@[simp] theorem Coordinate.toPom_pom (group artifact version : String) :
    (Coordinate.pom group artifact version).toPom = Coordinate.pom group artifact version := rfl

@[simp] theorem Coordinate.toString_pom (group artifact version : String) :
    (Coordinate.pom group artifact version).toString =
      group ++ ":" ++ artifact ++ ":" ++ "pom" ++ ":" ++ version := rfl

/-! ## Dependencies -/

structure Parent where
  group : String
  artifact : String
  version : String
  relativePath : Option String
deriving DecidableEq

structure Exclusion where
  group : String
  artifact : String
deriving DecidableEq

structure Dependency where
  group : String
  artifact : String
  version : Option String
  scope : String
  scopeExplicit : Bool
  dependencyType : String
  typeExplicit : Bool
  classifier : Option String
  optional : Option Bool
  exclusions : List Exclusion
deriving DecidableEq

/-- `Exclusion::matches`. -/
def Exclusion.isMatch (e : Exclusion) (d : Dependency) : Bool :=
  (e.group == "*" || e.group == d.group) && (e.artifact == "*" || e.artifact == d.artifact)

def typeToExtension (dependencyType : String) : String :=
  if dependencyType = "test-jar" ∨ dependencyType = "bundle" ∨
      dependencyType = "maven-plugin" ∨ dependencyType = "ejb" then
    "jar"
  else
    dependencyType

namespace Dependency

def ga (d : Dependency) : String := d.group ++ ":" ++ d.artifact

/-- The key mediation and dependency management work with. It is built from
the declared *type*, not from the extension the type stands for. -/
def managementKey (d : Dependency) : String :=
  d.group ++ ":" ++ d.artifact ++ ":" ++ d.dependencyType ++ ":" ++ d.classifier.getD ""

/-- The classifier of the artifact: the declared one, or the one the type implies. -/
def artifactClassifier (d : Dependency) : Option String :=
  d.classifier.or (if d.dependencyType = "test-jar" then some "tests" else none)

def coordinate (d : Dependency) : Except ResolverError Coordinate :=
  match d.version with
  | none => .error (.missingVersion d.ga)
  | some version =>
    .ok { group := d.group
          artifact := d.artifact
          version := version
          extension := typeToExtension d.dependencyType
          classifier := d.artifactClassifier }

theorem coordinate_eq_ok {d : Dependency} {c : Coordinate} (h : d.coordinate = .ok c) :
    d.version = some c.version ∧ c.group = d.group ∧ c.artifact = d.artifact ∧
      c.extension = typeToExtension d.dependencyType ∧ c.classifier = d.artifactClassifier := by
  unfold coordinate at h
  split at h
  · cases h
  · rename_i version hv
    cases h
    exact ⟨hv, rfl, rfl, rfl, rfl⟩

end Dependency

/-! ## Projects -/

structure Repository where
  id : String
  url : String
  releasesEnabled : Bool
  snapshotsEnabled : Bool
deriving DecidableEq

structure AnnotationProcessor where
  dependency : Dependency
deriving DecidableEq

structure Relocation where
  group : Option String
  artifact : Option String
  version : Option String
deriving DecidableEq

/-- A `BTreeMap<String, String>`: entries in ascending order of their keys. -/
abbrev PropertyMap := List (String × String)

def PropertyMap.insert : PropertyMap → String → String → PropertyMap
  | [], key, value => [(key, value)]
  | (k, v) :: rest, key, value =>
    if key < k then (key, value) :: (k, v) :: rest
    else if key = k then (key, value) :: rest
    else (k, v) :: PropertyMap.insert rest key value

/-- `BTreeMap::get`. -/
def PropertyMap.get? (m : PropertyMap) (key : String) : Option String := m.lookup key

structure RawPom where
  modelVersion : Option String
  parent : Option Parent
  group : Option String
  artifact : String
  version : Option String
  packaging : String
  modules : List String
  properties : PropertyMap
  dependencies : List Dependency
  dependencyManagement : List Dependency
  repositories : List Repository
  annotationProcessors : List AnnotationProcessor
  compilerArgs : List String
  relocation : Option Relocation
deriving DecidableEq

structure EffectivePom where
  coordinate : Coordinate
  parent : Option Coordinate
  packaging : String
  modules : List String
  propertyTemplates : PropertyMap
  properties : PropertyMap
  dependencies : List Dependency
  dependencyManagement : List Dependency
  bomImports : List Coordinate
  repositories : List Repository
  annotationProcessors : List AnnotationProcessor
  compilerArgs : List String
  relocation : Option Coordinate
deriving DecidableEq

structure MavenProject where
  source : String
  effective : EffectivePom
deriving DecidableEq

end JMan.Resolver
