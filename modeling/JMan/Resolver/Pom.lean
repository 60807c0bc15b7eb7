import JMan.Config.Manifest
import JMan.Resolver.Effective

/-!
# JMan — reading POMs

`parse_pom` of `jman-resolver/src/pom.rs`: the fields of a project that resolution uses, and
what its active profiles add to them. `roxmltree`, which reads the XML, gives the elements.

* `parseProject_eq_ok` — what a project that is read consists of.
* `get?_extend` — among properties, the last definition of a name counts.
-/

namespace Xml

inductive Element where
  | mk (name text : String) (children : List Element)

namespace Element

def name : Element → String
  | mk name _ _ => name

def text : Element → String
  | mk _ text _ => text

def children : Element → List Element
  | mk _ _ children => children

end Element

end Xml

namespace JMan.Resolver

open Xml (Element)
open Fallible (orError)

-- Elements

namespace Pom

def child (node : Element) (name : String) : Option Element :=
  node.children.find? fun child => child.name = name

def elementText (node : Element) : String := Config.trim node.text

def childText (node : Element) (name : String) : Option String :=
  ((child node name).map elementText).filter fun text => text ≠ ""

def requiredText (node : Element) (name context : String) : Except ResolverError String :=
  orError (.invalidPom ("missing " ++ context ++ " " ++ name)) (childText node name)

/-- The elements with this name that are directly in the node. -/
def childrenNamed (node : Element) (name : String) : List Element :=
  node.children.filter fun child => child.name = name

-- Parts of the model

/-- `map(parse).transpose()` -/
def parseOptional {α : Type} (parse : Element → Except ResolverError α) :
    Option Element → Except ResolverError (Option α)
  | none => .ok none
  | some node => (parse node).map some

def parsePart {α : Type} (parse : Element → Except ResolverError (List α)) :
    Option Element → Except ResolverError (List α)
  | none => .ok []
  | some node => parse node

def parseParent (node : Element) : Except ResolverError Parent := do
  return { group := ← requiredText node "groupId" "parent"
           artifact := ← requiredText node "artifactId" "parent"
           version := ← requiredText node "version" "parent"
           relativePath := (child node "relativePath").map elementText }

def parseProperties (node : Element) : PropertyMap :=
  PropertyMap.extend [] (node.children.map fun property => (property.name, elementText property))

def parseExclusion (item : Element) : Except ResolverError Exclusion := do
  return { group := ← requiredText item "groupId" "exclusion"
           artifact := ← requiredText item "artifactId" "exclusion" }

def parseExclusions (items : Element) : Except ResolverError (List Exclusion) :=
  (childrenNamed items "exclusion").mapM parseExclusion

def parseDependency (node : Element) : Except ResolverError Dependency := do
  let exclusions ← parsePart parseExclusions (child node "exclusions")
  let group ← requiredText node "groupId" "dependency"
  let artifact ← requiredText node "artifactId" "dependency"
  let scope := childText node "scope"
  let dependencyType := childText node "type"
  return { group := group
           artifact := artifact
           version := childText node "version"
           scope := scope.getD "compile"
           scopeExplicit := scope.isSome
           dependencyType := dependencyType.getD "jar"
           typeExplicit := dependencyType.isSome
           classifier := childText node "classifier"
           optional := (childText node "optional").map fun value => value = "true"
           exclusions := exclusions }

def parseDependencies (node : Element) : Except ResolverError (List Dependency) :=
  (childrenNamed node "dependency").mapM parseDependency

def policyEnabled (repository : Element) (policy : String) : Bool :=
  ((child repository policy).bind fun node => childText node "enabled") ≠ some "false"

def parseRepository (repository : Element) : Except ResolverError Repository := do
  return { id := ← requiredText repository "id" "repository"
           url := ← requiredText repository "url" "repository"
           releasesEnabled := policyEnabled repository "releases"
           snapshotsEnabled := policyEnabled repository "snapshots" }

def parseRepositories (node : Element) : Except ResolverError (List Repository) :=
  (childrenNamed node "repository").mapM parseRepository

/-- What a project and each of its profiles can declare. -/
structure Sections where
  properties : PropertyMap
  dependencies : List Dependency
  dependencyManagement : List Dependency
  repositories : List Repository
deriving DecidableEq

def parseSections (node : Element) : Except ResolverError Sections := do
  return { properties := ((child node "properties").map parseProperties).getD []
           dependencies := ← parsePart parseDependencies (child node "dependencies")
           dependencyManagement := ← parsePart parseDependencies
             ((child node "dependencyManagement").bind fun management =>
               child management "dependencies")
           repositories := ← parsePart parseRepositories (child node "repositories") }

def Sections.extend (sections more : Sections) : Sections where
  properties := sections.properties.extend more.properties
  dependencies := sections.dependencies ++ more.dependencies
  dependencyManagement := sections.dependencyManagement ++ more.dependencyManagement
  repositories := sections.repositories ++ more.repositories

-- Profiles

/-- What the activation of profiles looks at: the environment, and `cfg!` and
`std::env::consts` of the platform. -/
structure Host where
  var : String → Option String
  windows : Bool
  unix : Bool
  macos : Bool
  os : String
  arch : String

def isActiveByDefaultProfile (profile : Element) : Bool :=
  ((child profile "activation").bind fun activation => childText activation "activeByDefault") =
    some "true"

/-- `strip_prefix('!')` -/
def stripNot (text : String) : Option String :=
  match text.toList with
  | '!' :: rest => some (String.ofList rest)
  | _ => none

def environmentName (name : String) : String :=
  String.ofList (name.toList.map fun c => if c = '.' || c = '-' then '_' else c.toUpper)

/-- The variable with this name, or with the name as variables are written. -/
def lookUp (host : Host) (name : String) : Option String :=
  (host.var name).or (host.var (environmentName name))

def propertyActivation (host : Host) (activation : Element) : Bool :=
  match child activation "property" with
  | none => false
  | some property =>
    match childText property "name" with
    | none => false
    | some name =>
      match stripNot name with
      | some name => lookUp host name = none
      | none =>
        match childText property "value" with
        | none => (lookUp host name).isSome
        | some expected =>
          match stripNot expected with
          | some excluded => lookUp host name ≠ some excluded
          | none => lookUp host name = some expected

def familyMatches (host : Host) (family : String) : Bool :=
  match family with
  | "windows" => host.windows
  | "unix" => host.unix
  | "mac" => host.macos
  | _ => false

/-- `eq_ignore_ascii_case` -/
def eqIgnoreCase (left right : String) : Bool := left.toLower = right.toLower

def osActivation (host : Host) (activation : Element) : Bool :=
  match child activation "os" with
  | none => false
  | some os =>
    ((childText os "family").all fun family => familyMatches host family) &&
      ((childText os "name").all fun name => eqIgnoreCase name host.os) &&
      (childText os "arch").all fun arch => eqIgnoreCase arch host.arch

def isEnvironmentActiveProfile (host : Host) (profile : Element) : Bool :=
  match child profile "activation" with
  | none => false
  | some activation => propertyActivation host activation || osActivation host activation

def activeProfiles (host : Host) (candidates : List Element) : List Element :=
  let explicitlyActive := candidates.filter fun profile => isEnvironmentActiveProfile host profile
  if explicitlyActive = [] then candidates.filter fun profile => isActiveByDefaultProfile profile
  else explicitlyActive

def profilesOf (project : Element) : List Element :=
  match child project "profiles" with
  | none => []
  | some profiles => childrenNamed profiles "profile"

-- Projects

def applyProfile (sections : Sections) (profile : Element) : Except ResolverError Sections := do
  return sections.extend (← parseSections profile)

def parseModules (modules : Element) : List String :=
  ((childrenNamed modules "module").map elementText).filter fun name => name ≠ ""

def parseRelocation (relocation : Element) : Relocation where
  group := childText relocation "groupId"
  artifact := childText relocation "artifactId"
  version := childText relocation "version"

def parseProject (host : Host) (evaluateProfiles : Bool) (project : Element) :
    Except ResolverError RawPom := do
  let parent ← parseOptional parseParent (child project "parent")
  let artifact ← orError (.invalidPom "missing project artifactId") (childText project "artifactId")
  let own ← parseSections project
  let active := if evaluateProfiles then activeProfiles host (profilesOf project) else []
  let sections ← active.foldlM applyProfile own
  return { modelVersion := childText project "modelVersion"
           parent := parent
           group := childText project "groupId"
           artifact := artifact
           version := childText project "version"
           packaging := (childText project "packaging").getD "jar"
           modules := ((child project "modules").map parseModules).getD []
           properties := sections.properties
           dependencies := sections.dependencies
           dependencyManagement := sections.dependencyManagement
           repositories := sections.repositories
           annotationProcessors := []
           compilerArgs := []
           relocation := ((child project "distributionManagement").bind fun management =>
             child management "relocation").map parseRelocation }

/-- `parse_pom`, with what `Document::parse` returns for the root element. -/
def parsePom (host : Host) (document : Except String Element) : Except ResolverError RawPom := do
  let project ← document.mapError .invalidPom
  if project.name ≠ "project" then
    .error (.invalidPom "root element must be <project>")
  else parseProject host true project

-- What is read

variable {host : Host} {evaluateProfiles : Bool} {project : Element} {raw : RawPom}
  {sections : Sections} {profiles : List Element}

def appliedProfiles (host : Host) (evaluateProfiles : Bool) (project : Element) : List Element :=
  if evaluateProfiles then activeProfiles host (profilesOf project) else []

theorem foldlM_applyProfile_eq_ok {own : Sections} :
    profiles.foldlM applyProfile own = .ok sections ↔
      ∃ parts, List.Forall₂ (fun profile part => parseSections profile = .ok part) profiles parts ∧
        sections = parts.foldl Sections.extend own := by
  induction profiles generalizing own with
  | nil =>
    rw [List.foldlM_nil, Fallible.pure_eq_ok]
    constructor
    · rintro rfl
      exact ⟨[], List.Forall₂.nil, rfl⟩
    · rintro ⟨parts, hparts, rfl⟩
      rw [List.forall₂_nil_left_iff.mp hparts]
      rfl
  | cons profile profiles ih =>
    rw [List.foldlM_cons, Fallible.bind_eq_ok]
    constructor
    · rintro ⟨next, hnext, hrest⟩
      obtain ⟨part, hpart, hadded⟩ := Fallible.bind_eq_ok.mp hnext
      rw [Fallible.pure_eq_ok] at hadded
      obtain ⟨parts, hparts, hsections⟩ := ih.mp hrest
      rw [← hadded] at hsections
      exact ⟨part :: parts, hparts.cons hpart, hsections⟩
    · rintro ⟨parts, hparts, hsections⟩
      obtain ⟨part, rest, hpart, hrest, rfl⟩ := List.forall₂_cons_left_iff.mp hparts
      exact ⟨own.extend part, Fallible.bind_eq_ok.mpr ⟨part, hpart, rfl⟩,
        ih.mpr ⟨rest, hrest, hsections⟩⟩

theorem parseProject_eq_ok (h : parseProject host evaluateProfiles project = .ok raw) :
    ∃ own parts, parseSections project = .ok own ∧
      List.Forall₂ (fun profile part => parseSections profile = .ok part)
        (appliedProfiles host evaluateProfiles project) parts ∧
      (⟨raw.properties, raw.dependencies, raw.dependencyManagement, raw.repositories⟩ : Sections) =
        parts.foldl Sections.extend own := by
  obtain ⟨_, -, h⟩ := Fallible.bind_eq_ok.mp h
  obtain ⟨_, -, h⟩ := Fallible.bind_eq_ok.mp h
  obtain ⟨own, hown, h⟩ := Fallible.bind_eq_ok.mp h
  obtain ⟨sections, hsections, h⟩ := Fallible.bind_eq_ok.mp h
  obtain ⟨parts, hparts, hfold⟩ := foldlM_applyProfile_eq_ok.mp hsections
  refine ⟨own, parts, hown, hparts, ?_⟩
  rw [← Fallible.pure_eq_ok.mp h]
  exact hfold

theorem lookup_cons_ite (key value name : String) (rest : PropertyMap) :
    List.lookup name ((key, value) :: rest) = if name = key then some value else rest.lookup name := by
  rw [List.lookup_cons]
  by_cases hname : name = key
  · rw [hname, beq_self_eq_true, if_pos rfl]
  · rw [beq_false_of_ne hname, if_neg hname]

theorem get?_insert (properties : PropertyMap) (key value name : String) :
    (properties.insert key value).get? name = if name = key then some value else properties.get? name := by
  induction properties with
  | nil => exact lookup_cons_ite key value name []
  | cons entry rest ih =>
    obtain ⟨first, held⟩ := entry
    rw [PropertyMap.get?, PropertyMap.get?] at ih
    rw [PropertyMap.insert, PropertyMap.get?, PropertyMap.get?]
    split
    case isTrue => rw [lookup_cons_ite]
    case isFalse =>
      split
      case isTrue hkey =>
        subst hkey
        rw [lookup_cons_ite, lookup_cons_ite]
        split
        case isTrue => rfl
        case isFalse => rfl
      case isFalse hkey =>
        rw [lookup_cons_ite, lookup_cons_ite, ih]
        by_cases hname : name = first
        · rw [if_pos hname, if_pos hname, if_neg fun heq => hkey (heq.symm.trans hname)]
        · rw [if_neg hname, if_neg hname]

/-- **The last definition of a name counts.** -/
theorem get?_extend (properties more : PropertyMap) (name : String) :
    (properties.extend more).get? name =
      (more.reverse.lookup name).or (properties.get? name) := by
  rw [PropertyMap.extend]
  induction more generalizing properties with
  | nil => rfl
  | cons entry rest ih =>
    rw [List.foldl_cons, ih, get?_insert, List.reverse_cons, List.lookup_append]
    have hlast : List.lookup name [entry] = if name = entry.1 then some entry.2 else none :=
      lookup_cons_ite entry.1 entry.2 name []
    rw [hlast]
    cases rest.reverse.lookup name with
    | some value => rfl
    | none =>
      split
      case isTrue => rfl
      case isFalse => rfl

def Ascending (properties : PropertyMap) : Prop := properties.Pairwise fun a b => a.1 < b.1

theorem mem_insert {properties : PropertyMap} {key value : String} {entry : String × String}
    (h : entry ∈ properties.insert key value) : entry = (key, value) ∨ entry ∈ properties := by
  induction properties with
  | nil => exact Or.inl (List.mem_singleton.mp h)
  | cons first rest ih =>
    rw [PropertyMap.insert] at h
    split at h
    case isTrue => exact List.mem_cons.mp h
    case isFalse =>
      split at h
      case isTrue => exact (List.mem_cons.mp h).imp_right (List.mem_cons_of_mem _)
      case isFalse =>
        rcases List.mem_cons.mp h with hfirst | hrest
        · exact Or.inr (List.mem_cons.mpr (Or.inl hfirst))
        · exact (ih hrest).imp_right (List.mem_cons_of_mem _)

theorem Ascending.insert {properties : PropertyMap} (h : Ascending properties) (key value : String) :
    Ascending (properties.insert key value) := by
  induction properties with
  | nil => exact List.pairwise_singleton _ _
  | cons first rest ih =>
    have hparts := List.pairwise_cons.mp h
    rw [PropertyMap.insert]
    split
    case isTrue hlt =>
      refine List.pairwise_cons.mpr ⟨fun entry hentry => ?_, h⟩
      rcases List.mem_cons.mp hentry with rfl | hrest
      · exact hlt
      · exact lt_trans hlt (hparts.1 entry hrest)
    case isFalse hlt =>
      split
      case isTrue heq =>
        subst heq
        exact List.pairwise_cons.mpr ⟨hparts.1, hparts.2⟩
      case isFalse hne =>
        refine List.pairwise_cons.mpr ⟨fun entry hentry => ?_, ih hparts.2⟩
        rcases mem_insert hentry with rfl | hrest
        · exact lt_of_le_of_ne (not_lt.mp hlt) (Ne.symm hne)
        · exact hparts.1 entry hrest

theorem Ascending.extend {properties : PropertyMap} (h : Ascending properties) (more : PropertyMap) :
    Ascending (properties.extend more) := by
  rw [PropertyMap.extend]
  induction more generalizing properties with
  | nil => exact h
  | cons entry rest ih => exact ih (h.insert entry.1 entry.2)

theorem Ascending.lookup_reverse {properties : PropertyMap} (h : Ascending properties) (name : String) :
    properties.reverse.lookup name = properties.get? name := by
  induction properties with
  | nil => rfl
  | cons first rest ih =>
    have hparts := List.pairwise_cons.mp h
    rw [List.reverse_cons, List.lookup_append, ih hparts.2, PropertyMap.get?, PropertyMap.get?,
      lookup_cons_ite first.1 first.2 name [], lookup_cons_ite first.1 first.2 name rest]
    split
    case isTrue heq =>
      have hnone : rest.lookup name = none := by
        rw [List.lookup_eq_none_iff]
        intro entry hentry
        have hlt := hparts.1 entry hentry
        rw [heq]
        exact bne_iff_ne.mpr hlt.ne
      rw [hnone]
      rfl
    case isFalse => exact Option.or_none

theorem lookup_map {α : Type} (nodes : List α) (key value : α → String) (name : String) :
    (nodes.map fun node => (key node, value node)).lookup name =
      (nodes.find? fun node => key node = name).map value := by
  induction nodes with
  | nil => rfl
  | cons node rest ih =>
    rw [List.map_cons, lookup_cons_ite, ih, List.find?_cons]
    by_cases hname : name = key node
    · rw [if_pos hname, decide_eq_true hname.symm]
      rfl
    · rw [if_neg hname, decide_eq_false (Ne.symm hname)]

def declaredProperty (node : Element) (name : String) : Option String :=
  (child node "properties").bind fun properties =>
    (properties.children.reverse.find? fun property => property.name = name).map elementText

theorem parseSections_properties {node : Element} {part : Sections} (h : parseSections node = .ok part) :
    Ascending part.properties ∧ ∀ name, part.properties.get? name = declaredProperty node name := by
  have hproperties : part.properties = ((child node "properties").map parseProperties).getD [] := by
    obtain ⟨_, -, h⟩ := Fallible.bind_eq_ok.mp h
    obtain ⟨_, -, h⟩ := Fallible.bind_eq_ok.mp h
    obtain ⟨_, -, h⟩ := Fallible.bind_eq_ok.mp h
    rw [← Fallible.pure_eq_ok.mp h]
  rw [hproperties]
  simp only [declaredProperty]
  cases child node "properties" with
  | none => exact ⟨List.Pairwise.nil, fun _ => rfl⟩
  | some properties =>
    refine ⟨Ascending.extend List.Pairwise.nil _, fun name => ?_⟩
    have hget := get?_extend [] (properties.children.map fun property =>
      (property.name, elementText property)) name
    rw [← List.map_reverse, lookup_map] at hget
    simpa [parseProperties, PropertyMap.get?] using hget

/-- **The last of the parts that defines a property gives its value.** -/
theorem get?_foldl_extend (parts : List Sections) (own : Sections)
    (h : ∀ part ∈ parts, Ascending part.properties) (name : String) :
    (parts.foldl Sections.extend own).properties.get? name =
      ((own :: parts).reverse.findSome? fun part => part.properties.get? name) := by
  induction parts generalizing own with
  | nil => simp
  | cons part parts ih =>
    rw [List.foldl_cons, ih (own.extend part) fun other hother => h other (List.mem_cons_of_mem _ hother)]
    simp only [List.reverse_cons, List.findSome?_append]
    have hextend : (own.extend part).properties.get? name =
        (part.properties.get? name).or (own.properties.get? name) := by
      rw [Sections.extend, get?_extend, (h part List.mem_cons_self).lookup_reverse]
    simp [hextend, Option.or_assoc]

theorem foldl_extend_dependencies (parts : List Sections) (own : Sections) :
    (parts.foldl Sections.extend own).dependencies =
        own.dependencies ++ parts.flatMap Sections.dependencies ∧
      (parts.foldl Sections.extend own).dependencyManagement =
        own.dependencyManagement ++ parts.flatMap Sections.dependencyManagement ∧
      (parts.foldl Sections.extend own).repositories =
        own.repositories ++ parts.flatMap Sections.repositories := by
  induction parts generalizing own with
  | nil => simp
  | cons part parts ih =>
    obtain ⟨hdependencies, hmanagement, hrepositories⟩ := ih (own.extend part)
    rw [List.foldl_cons, hdependencies, hmanagement, hrepositories]
    simp [Sections.extend]

end Pom

end JMan.Resolver
